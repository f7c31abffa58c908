import Mathlib

/-!
# Struct descriptions and templates

A structure is described by the list of its elements (`struct_elem_attr`), some of
which are structures in turn. A template (`STRUCT_NODE`, `elem_template`) has, for
every element of the description and of those nested in it, what the conversions
need: its offset and size, the element that counts it, and its flags.

A place in a template is the list of the indices that lead to it, the innermost
first: it stands for the pointer to the element (or to the node of the structure
below it), and its tail for its father.
-/

namespace Cube.Struct

/-! ## Types of elements -/

/-- The types of elements, `enum cube_struct_elem_type`, with the three that the
    database registers. -/
inductive ElemType
  | string
  | uuid
  | int
  | enum
  | senum
  | benum
  | flag
  | sflag
  | bflag
  | time
  | uchar
  | ushort
  | longlong
  | bindata
  | bitmap
  | hexdata
  | binarray
  | uuidarray
  | defuuidarray
  | defnamelist
  | bool
  | estring
  | jsonstring
  | nodata
  | array
  | defarray
  | define
  | defstr
  | defstrarray
  | substruct
  | choice
  | tpmUint64
  | tpmUint32
  | tpmUint16
  | elemtype
  | recordtype
  | recordsubtype
  deriving DecidableEq, Repr

/-- The attributes a type is registered with, `enum elem_attr_flag`. -/
structure ElemAttr where
  pointer : Bool := false
  define : Bool := false
  array : Bool := false
  subset : Bool := false
  value : Bool := false
  num : Bool := false
  namelist : Bool := false
  deriving DecidableEq, Repr

/-- The size of a pointer, `sizeof(void *)`. -/
def pointerSize : Int := 8

namespace ElemType

/-- The attributes of each type, as `InitElemInfo` and `MemdbElemInfo` register
    them; of a type that is not registered, none. -/
def attr : ElemType → ElemAttr
  | string => { value := true }
  | estring => { value := true, pointer := true }
  | define => { pointer := true, define := true }
  | defstr => { pointer := true, define := true }
  | defstrarray => { define := true, array := true }
  | uuidarray => { array := true }
  | defuuidarray => { array := true, define := true }
  | defnamelist => { pointer := true, define := true, array := true }
  | int | uchar | ushort | longlong | tpmUint64 | tpmUint32 | tpmUint16 =>
    { value := true, num := true }
  | enum | senum | benum | flag | sflag | bflag => { namelist := true }
  | substruct => { subset := true }
  | array => { array := true, subset := true }
  | defarray => { pointer := true, array := true, subset := true, define := true }
  | recordtype => { value := true }
  | recordsubtype => { define := true }
  | _ => {}

/-- The fixed size of each type, its `offset` where it is registered. -/
def offset : ElemType → Int
  | string | bindata | hexdata | defstrarray => -1
  | estring | define | defstr => 1
  | uuid | uuidarray | defuuidarray => 32
  | defnamelist => 12
  | int | enum | flag | tpmUint32 | elemtype | recordtype | recordsubtype => 4
  | uchar | benum | bflag => 1
  | ushort | senum | sflag | tpmUint16 => 2
  | longlong | tpmUint64 => 8
  | _ => 0

/-- Whether a type has operations. -/
def hasOps : ElemType → Bool
  | time | bitmap | binarray | bool | jsonstring | nodata | choice => false
  | substruct | array | defarray => false
  | _ => true

/-- `get_fixed_elemsize`. -/
def fixedElemsize (type : ElemType) : Int :=
  if type.offset > 0 then type.offset
  else if type.attr.pointer then pointerSize
  else type.offset

end ElemType

/-! ## Descriptions -/

/-- The names of an enumeration or of flags, with their values. -/
abbrev NameList := List (List Char × Int)

/-- An element of a description, `struct_elem_attr`. What `ref` points to is the
    description of the structures nested in it, or the names of its values. -/
structure ElemDesc where
  name : List Char
  type : ElemType
  size : Int
  sub : List ElemDesc
  names : Option NameList
  defName : Option (List Char)

/-- How many values there are in the place of one, where no other element counts them. -/
def ElemDesc.number (d : ElemDesc) : Int := if d.size = 0 then 1 else d.size

/-- A place in a template. -/
abbrev Loc := List Nat

/-- What a template has of an element, `elem_template`, apart from the variables of
    the walk. -/
structure ElemData where
  offset : Int := 0
  size : Int := 0
  ref : Option NameList := none
  define : Option Loc := none
  flag : Int32 := 0
  deriving DecidableEq, Repr

/-- What a template has of a nested structure, `STRUCT_NODE`: the number of its
    elements, which is `0` until it is entered. -/
structure NodeData where
  elemNo : Nat := 0
  flag : Int32 := 0
  deriving DecidableEq, Repr

/-- A template of the description. -/
@[ext] structure Template where
  desc : List ElemDesc
  node : Loc → NodeData
  elem : Loc → ElemData

namespace Template

variable (t : Template)

/-- The elements of the structure at a place; of an element that is none, nothing. -/
def children : Loc → List ElemDesc
  | [] => t.desc
  | k :: p => match (children p)[k]? with
    | some d => if d.type.attr.subset then d.sub else []
    | none => []

/-- The description of the element at a place. -/
def descOf : Loc → Option ElemDesc
  | [] => none
  | k :: p => (t.children p)[k]?

/-- There is a structure at the place. -/
def nested (loc : Loc) : Bool := (t.descOf loc).any (·.type.attr.subset)

variable {t} in
theorem nested_of_desc {loc : Loc} {d : ElemDesc} (hd : t.descOf loc = some d) :
    t.nested loc = d.type.attr.subset := by
  rw [nested, hd]
  rfl

variable {t} in
theorem children_of_desc {loc : Loc} {d : ElemDesc} (hd : t.descOf loc = some d)
    (hsub : d.type.attr.subset = true) : t.children loc = d.sub := by
  cases loc with
  | nil => cases hd
  | cons k p =>
    rw [descOf] at hd
    rw [children, hd]
    exact if_pos hsub

theorem children_congr {t t' : Template} (h : t'.desc = t.desc) (p : Loc) :
    t'.children p = t.children p := by
  induction p with
  | nil => exact h
  | cons k p ih => rw [children, children, ih]

theorem descOf_congr {t t' : Template} (h : t'.desc = t.desc) (loc : Loc) :
    t'.descOf loc = t.descOf loc := by
  cases loc with
  | nil => rfl
  | cons k p => rw [descOf, descOf, children_congr h]

theorem nested_congr {t t' : Template} (h : t'.desc = t.desc) (loc : Loc) :
    t'.nested loc = t.nested loc := by
  rw [nested, nested, descOf_congr h]

/-- There is nothing beyond the last element of a structure. -/
theorem descOf_beyond (p : Loc) {j : Nat} (hj : (t.children p).length ≤ j) (s : Loc) :
    t.descOf (s ++ j :: p) = none ∧ t.children (s ++ j :: p) = [] := by
  induction s with
  | nil =>
    have hnone : (t.children p)[j]? = none := List.getElem?_eq_none hj
    exact ⟨hnone, by rw [List.nil_append, children, hnone]⟩
  | cons i s ih =>
    have hnone : (t.children (s ++ j :: p))[i]? = none := by rw [ih.2, List.getElem?_nil]
    exact ⟨hnone, by rw [List.cons_append, children, hnone]⟩

/-- The elements of a structure that come from one on begin with that one. -/
theorem children_drop_cons {p : Loc} {k : Nat} {d : ElemDesc} {ds : List ElemDesc}
    (hdrop : (t.children p).drop k = d :: ds) : k < (t.children p).length ∧
      t.descOf (k :: p) = some d ∧ (t.children p).drop (k + 1) = ds := by
  have hlt : k < (t.children p).length := by
    refine Nat.lt_of_not_le fun hge => ?_
    rw [List.drop_eq_nil_of_le hge] at hdrop
    cases hdrop
  rw [List.drop_eq_getElem_cons hlt] at hdrop
  obtain ⟨hget, htail⟩ := List.cons.inj hdrop
  exact ⟨hlt, by rw [descOf, List.getElem?_eq_getElem hlt, hget], htail⟩

/-- There is nothing below an element that is no structure. -/
theorem descOf_below {loc : Loc} {d : ElemDesc} (hd : t.descOf loc = some d)
    (hsub : d.type.attr.subset = false) {s : Loc} (hs : s ≠ []) : t.descOf (s ++ loc) = none := by
  have hchildren : t.children loc = [] := by
    cases loc with
    | nil => cases hd
    | cons k p =>
      rw [descOf] at hd
      rw [children, hd]
      simp only [hsub, Bool.false_eq_true, if_false]
  obtain ⟨s', j, rfl⟩ : ∃ s' j, s = s' ++ [j] := ⟨_, _, (List.dropLast_concat_getLast hs).symm⟩
  rw [List.append_assoc, List.singleton_append]
  exact (t.descOf_beyond loc (by rw [hchildren]; exact Nat.zero_le _) s').1

/-- Without structures among them, the elements of the root are all there are. -/
theorem descOf_flat (hflat : ∀ d ∈ t.desc, d.type.attr.subset = false) {loc : Loc} {d : ElemDesc}
    (hd : t.descOf loc = some d) : ∃ k, loc = [k] ∧ t.desc[k]? = some d := by
  rcases List.eq_nil_or_concat loc with rfl | ⟨s, j, rfl⟩
  · cases hd
  · rw [List.concat_eq_append] at hd ⊢
    rcases s with _ | ⟨i, s⟩
    · exact ⟨j, rfl, hd⟩
    · exfalso
      rcases hj : t.desc[j]? with _ | e
      · rw [(t.descOf_beyond [] (List.getElem?_eq_none_iff.1 hj) (i :: s)).1] at hd
        cases hd
      · have he : t.descOf [j] = some e := hj
        rw [t.descOf_below he (hflat e (List.mem_of_getElem? hj)) (List.cons_ne_nil i s)] at hd
        cases hd

/-- The template with another node at the place. -/
def setNode (p : Loc) (n : NodeData) : Template := { t with node := Function.update t.node p n }

/-- The template with another element at the place. -/
def setElem (loc : Loc) (e : ElemData) : Template :=
  { t with elem := Function.update t.elem loc e }

@[simp] theorem desc_setNode (p : Loc) (n : NodeData) : (t.setNode p n).desc = t.desc := rfl

@[simp] theorem desc_setElem (loc : Loc) (e : ElemData) : (t.setElem loc e).desc = t.desc := rfl

@[simp] theorem node_setNode_self (p : Loc) (n : NodeData) : (t.setNode p n).node p = n :=
  Function.update_self ..

@[simp] theorem elem_setElem_self (loc : Loc) (e : ElemData) : (t.setElem loc e).elem loc = e :=
  Function.update_self ..

variable {t} in
theorem node_setNode_of_ne {p q : Loc} (h : q ≠ p) (n : NodeData) : (t.setNode p n).node q = t.node q :=
  Function.update_of_ne h _ _

variable {t} in
theorem elem_setElem_of_ne {loc q : Loc} (h : q ≠ loc) (e : ElemData) :
    (t.setElem loc e).elem q = t.elem q := Function.update_of_ne h _ _

@[simp] theorem elem_setNode (p : Loc) (n : NodeData) : (t.setNode p n).elem = t.elem := rfl

@[simp] theorem node_setElem (loc : Loc) (e : ElemData) : (t.setElem loc e).node = t.node := rfl

end Template

/-- Where there is a structure, there is an element. -/
theorem Template.exists_desc {t : Template} {loc : Loc} (h : t.nested loc = true) :
    ∃ d, t.descOf loc = some d ∧ d.type.attr.subset = true := by
  rw [Template.nested] at h
  rcases hd : t.descOf loc with _ | d
  · rw [hd] at h
    cases h
  · rw [hd] at h
    exact ⟨d, rfl, h⟩

/-- What is above an element is a structure. -/
theorem nested_tail {t : Template} {loc : Loc} {d : ElemDesc} (hd : t.descOf loc = some d)
    (hne : loc.tail ≠ []) : t.nested loc.tail = true := by
  rcases loc with _ | ⟨k, _ | ⟨j, p⟩⟩
  · cases hd
  · exact absurd rfl hne
  · rw [Template.descOf, Template.children] at hd
    rw [List.tail_cons, Template.nested, Template.descOf]
    rcases hfather : (t.children p)[j]? with _ | e <;> rw [hfather] at hd
    · cases hd
    · cases hsub : e.type.attr.subset with
      | true => exact hsub
      | false =>
        simp only [hsub, Bool.false_eq_true, if_false] at hd
        cases hd

/-- A structure that is counted is an array. -/
theorem array_of_define {d : ElemDesc} (hsub : d.type.attr.subset = true)
    (hdefine : d.type.attr.define = true) : d.type.attr.array = true := by
  revert hsub hdefine
  cases d.type <;> decide

/-! ## Elements by name -/

/-- What `_get_elem_by_name` returns: no element, an element, or the pointer that
    stands for `-EINVAL`. -/
inductive Lookup
  | null
  | elem (loc : Loc)
  | invalid
  deriving DecidableEq, Repr

/-- The most characters of a component of a name, `max_name_len`. -/
def maxNameLen : Nat := 32

/-- `_get_elem_from_struct`: the element with the name, among those the node has
    by now. -/
def Template.elemFromStruct (t : Template) (p : Loc) (name : List Char) : Option Loc :=
  let found := ((t.children p).take (t.node p).elemNo).findIdx? (·.name = name)
  found.map (· :: p)

/-- The components of a name followed from a node. An empty component, as one that
    is too long is read, ends the search. -/
def Template.followName (t : Template) : Loc → List (List Char) → Lookup
  | _, [] => .null
  | p, name :: names =>
    if name.length = 0 ∨ name.length > maxNameLen then .null
    else match t.elemFromStruct p name with
    | none => if names.isEmpty then .null else .invalid
    | some loc =>
      if names.isEmpty then .elem loc
      else match t.descOf loc with
      | none => .null
      | some d => if d.type.attr.subset then followName t loc names else .null

/-- `_get_elem_by_name`: a name is a path of names, from the root if it starts
    with a slash. -/
def Template.elemByName (t : Template) (p : Loc) (name : List Char) : Lookup :=
  match name with
  | '/' :: name => t.followName [] (name.splitOn '.')
  | name => t.followName p (name.splitOn '.')

end Cube.Struct
