import Cube.Struct.CountName
import Cube.Struct.History
import Cube.Struct.JsonTree

/-!
# Structures from JSON

`json_2_struct` walks through the template with a cursor in a JSON tree. As long as every
structure of the template has a node wherever the structure around it has one, the cursor is
at the object of the structure that the walk is in, and each leaf is set from the node of its
own path.

* `Fits`: the trees that have what the template asks for, apart from leaves.
* `enter_first`, `exit_pass`: the moves of the cursor.
* `traverse_loads`: what the walk through a structure sets.
* `json2Struct_loads`: what a zeroed structure has in the end.
-/

namespace Cube.Struct

open Lib Json Function

section Load

variable (t : Template) (root : JsonNode) (number : Loc → FieldValue → Int)
  (arrayRet : JsonNode → Int) (count : LeafCall → Int)

/-- The types of all leaves have operations. -/
def Template.Known : Prop :=
  ∀ loc d, t.descOf loc = some d → d.type.attr.subset = false → d.type.hasOps = true

/-- The element at a place counts the structures of an array. -/
def Template.CountsArray (q : Loc) : Prop :=
  ∃ loc d, t.descOf loc = some d ∧ d.type.attr.subset = true ∧ d.type.attr.define = true ∧
    (t.elem loc).define = some q

/-- A leaf is set: from the node of its path, or as a counter, to the number it counts. -/
def IsSet (call : LeafCall) (v : FieldValue) : Prop :=
  (∃ path, fieldPath t root call = some path ∧ v = .node path) ∨
    t.CountsArray call.1 ∧ v = .count (count call)

/-- A leaf with a path is set from the node there, unless it is a counter that has 0 there, and
    is set to the number it counts. -/
def IsFrom (call : LeafCall) (path : JsonPath) (v : FieldValue) : Prop :=
  v = .node path ∨
    t.CountsArray call.1 ∧ number call.1 (.node path) = 0 ∧ v = .count (count call)

/-- What a leaf becomes: what it was, or what is at its path, or as a counter with 0, the number
    it counts. -/
def Becomes (call : LeafCall) (v v' : FieldValue) : Prop :=
  v' = v ∨ (∃ path, fieldPath t root call = some path ∧ IsFrom t number count call path v') ∨
    t.CountsArray call.1 ∧ number call.1 v = 0 ∧ v' = .count (count call)

/-- A node for structures: an object, or an array of objects that is not empty. -/
def IsHolder (node : JsonNode) : Prop :=
  node.elemType = .map ∨ node.elemType = .array ∧ node.childlist ≠ [] ∧
    ∀ child ∈ node.childlist, child.elemType = .map

/-- The number of structures that an element is to have: its counter's, or its own. -/
def FitsNumber (loc : Loc) (d : ElemDesc) (idx : Indices) (n : Nat) : Prop :=
  if d.type.attr.define then
    ∃ define, (t.elem loc).define = some define ∧
      (t.descOf define).any (·.type.hasOps) = true ∧ (n : Int) = count (leafCall define idx) ∧
      n ≤ 1024
  else (n : Int) = d.number

/-- A tree with nodes of the kinds that the template expects, for numbers that are counted:
    structures are there, with the right number of elements, and leaves may be missing. A
    counter that is read has its number, or 0. -/
structure Fits : Prop where
  leaf : ∀ call d path node, t.descOf call.1 = some d → d.type.attr.subset = false →
    fieldPath t root call = some path → nodeAt root path = some node →
    0 ≤ setvalueRet arrayRet node
  nested : ∀ k p d idx path, t.descOf (k :: p) = some d → d.type.attr.subset = true →
    structPath t root p (pathIndices p idx) = some path →
    ∃ path' node, memberPath t root (k :: p) path = some path' ∧ nodeAt root path' = some node ∧
      IsHolder node ∧ FitsNumber t count (k :: p) d idx (elemNumber node)
  counters : ∀ call v, t.CountsArray call.1 → (v = .zero ∨ IsSet t root count call v) →
    number call.1 v = 0 ∨ number call.1 v = count call

/-- What the walk through a part of the template does from an object on: the cursors above it
    are kept, a leaf that changes is set, and each leaf of the part is that has a node. -/
structure Loads (scope : LeafCall → Prop) (path : JsonPath) (m m' : Cursors × Fields) : Prop where
  cursors : ∀ q, ¬ path <:+ q → m'.1 q = m.1 q
  sound : ∀ call, Becomes t root number count call (m.2 call) (m'.2 call)
  complete : ∀ call, scope call → call.2.length + 1 = call.1.length → t.nested call.1 = false →
    ∀ path, fieldPath t root call = some path → IsFrom t number count call path (m'.2 call)

/-- What a leaf may have in the midst of the walk. -/
def Allowed (fields : Fields) : Prop :=
  ∀ call, fields call = .zero ∨ IsSet t root count call (fields call)

/-- The leaves of the structures in the elements of a node, from an index on. -/
def InScope (p : Loc) (k : Nat) (idx : Indices) (call : LeafCall) : Prop :=
  Beyond p k call.1 ∧ pathIndices p idx <:+ call.2

/-- The leaves in the passes through a structure, from an index on. -/
def InPasses (loc : Loc) (is : List Int) (i n : Int) (call : LeafCall) : Prop :=
  Beyond loc 0 call.1 ∧ ∃ j, i ≤ j ∧ j < n ∧ j :: is <:+ call.2

/-- What the walk through the elements of a node does, in the structures with the indices: the
    leaves of the elements from an index on are set, and it comes back to the object. -/
def LoadsNode (p : Loc) (k : Nat) (idx : Indices)
    (go : Indices → NodePara JsonPath (Cursors × Fields) →
      Passage (NodePara JsonPath (Cursors × Fields))) : Prop :=
  ∀ {path : JsonPath} {m : Cursors × Fields}, structPath t root p (pathIndices p idx) = some path →
    Allowed t root count m.2 → ∃ m', go idx ⟨some path, m⟩ = .done ⟨some path, m'⟩ ∧
      Loads t root number count (InScope p k idx) path m m'

variable {t root number arrayRet count} {scope scope' : LeafCall → Prop} {path : JsonPath}
  {m m₁ m' : Cursors × Fields}

variable {call : LeafCall} {path' path₀ : JsonPath} {loc : Loc} {i : Nat}

theorem Becomes.isFrom {v v' : FieldValue} (h : Becomes t root number count call v v')
    (hpath : fieldPath t root call = some path) (hv : IsFrom t number count call path v) :
    IsFrom t number count call path v' := by
  rcases h with rfl | ⟨path', hpath', hv'⟩ | ⟨hcounts, hzero, rfl⟩
  · exact hv
  · obtain rfl := Option.some.inj (hpath.symm.trans hpath')
    exact hv'
  · -- A counter with 0 is set, which it has from its path, now or before.
    rcases hv with rfl | ⟨-, hzero', -⟩
    · exact .inr ⟨hcounts, hzero, rfl⟩
    · exact .inr ⟨hcounts, hzero', rfl⟩

theorem Becomes.trans {v v₁ v' : FieldValue}
    (h : Becomes t root number count call v v₁) (h' : Becomes t root number count call v₁ v') :
    Becomes t root number count call v v' := by
  rcases h with rfl | ⟨path, hpath, hv₁⟩ | ⟨hcounts, hzero, rfl⟩
  · exact h'
  · exact .inr (.inl ⟨path, hpath, h'.isFrom hpath hv₁⟩)
  · rcases h' with rfl | hpath | ⟨-, -, rfl⟩
    · exact .inr (.inr ⟨hcounts, hzero, rfl⟩)
    · exact .inr (.inl hpath)
    · exact .inr (.inr ⟨hcounts, hzero, rfl⟩)

theorem IsFrom.isSet {v : FieldValue} (h : IsFrom t number count call path v)
    (hpath : fieldPath t root call = some path) : IsSet t root count call v := by
  rcases h with rfl | ⟨hcounts, -, rfl⟩
  · exact .inl ⟨path, hpath, rfl⟩
  · exact .inr ⟨hcounts, rfl⟩

theorem Loads.refl (h : ∀ call, ¬ scope call) : Loads t root number count scope path m m :=
  ⟨fun _ _ => rfl, fun _ => .inl rfl, fun call hscope => absurd hscope (h call)⟩

theorem Loads.trans (h : Loads t root number count scope path m m₁)
    (h' : Loads t root number count scope' path m₁ m') :
    Loads t root number count (fun call => scope call ∨ scope' call) path m m' where
  cursors q hq := (h'.cursors q hq).trans (h.cursors q hq)
  sound call := (h.sound call).trans (h'.sound call)
  complete call hscope hlen hleaf path₁ hpath := by
    rcases hscope with hscope | hscope
    · exact (h'.sound call).isFrom hpath (h.complete call hscope hlen hleaf path₁ hpath)
    · exact h'.complete call hscope hlen hleaf path₁ hpath

theorem Loads.mono (h : Loads t root number count scope path m m')
    (hscope : ∀ call, scope' call → call.2.length + 1 = call.1.length →
      t.nested call.1 = false → ∀ path, fieldPath t root call = some path → scope call) :
    Loads t root number count scope' path m m' where
  cursors := h.cursors
  sound := h.sound
  complete call hs hlen hleaf path₁ hpath :=
    h.complete call (hscope call hs hlen hleaf path₁ hpath) hlen hleaf path₁ hpath

/-- What is done from an object below another is done from that one. -/
theorem Loads.up (h : Loads t root number count scope path' m m')
    (hpath : path <:+ path') : Loads t root number count scope path m m' :=
  ⟨fun q hq => h.cursors q fun hq' => hq (hpath.trans hq'), h.sound, h.complete⟩

theorem Loads.allowed (h : Loads t root number count scope path m m')
    (hm : Allowed t root count m.2) : Allowed t root count m'.2 := by
  intro call
  rcases h.sound call with heq | ⟨path', hpath, hfrom⟩ | ⟨hcounts, -, hcount⟩
  · rw [heq]
    exact hm call
  · exact .inr (hfrom.isSet hpath)
  · exact .inr (.inr ⟨hcounts, hcount⟩)

/-- The cursors below an object are moved. -/
theorem Loads.of_cursors (hkept : ∀ q, ¬ path <:+ q → m'.1 q = m.1 q) (hsame : m'.2 = m.2)
    (h : ∀ call, ¬ scope call) : Loads t root number count scope path m m' :=
  ⟨hkept, fun call => .inl (congrFun hsame call), fun call hscope => absurd hscope (h call)⟩

/-! ## Places of structures -/

/-- Where there is an object for a structure, there is one for those it is in. -/
theorem structPath_above {q : Loc} {is : List Int} {path' : JsonPath} :
    ∀ {s : Loc} {a : List Int}, a.length = s.length →
      structPath t root (s ++ q) (a ++ is) = some path' → ∃ path, structPath t root q is = some path
  | [], [], _, h => ⟨path', h⟩
  | [], _ :: _, hlen, _ => nomatch hlen
  | _ :: _, [], hlen, _ => nomatch hlen
  | k :: s, i :: a, hlen, h => by
    rw [List.cons_append, List.cons_append, structPath] at h
    obtain ⟨_, hmember, _⟩ := Option.bind_eq_some_iff.1 h
    obtain ⟨path, hpath, _⟩ := Option.bind_eq_some_iff.1 hmember
    exact structPath_above (Nat.succ.inj hlen) hpath

/-- There is an object at the place of a structure. -/
theorem Fits.object (h : Fits t root number arrayRet count) (hroot : root.elemType = .map)
    {idx : Indices} : ∀ {p : Loc} {path : JsonPath}, p = [] ∨ t.nested p = true →
      structPath t root p (pathIndices p idx) = some path →
      ∃ o, nodeAt root path = some o ∧ o.elemType = .map
  | [], path, _, hpath => by
    obtain rfl := Option.some.inj hpath
    exact ⟨root, rfl, hroot⟩
  | k :: p, path, hnode, hpath => by
    have hn : t.nested (k :: p) = true := hnode.resolve_left (by simp)
    obtain ⟨d, hd, hsub⟩ := Template.exists_desc hn
    rw [pathIndices, structPath] at hpath
    obtain ⟨path', hmember, helem⟩ := Option.bind_eq_some_iff.1 hpath
    obtain ⟨path₀, hpath₀, hmember⟩ := Option.bind_eq_some_iff.1 hmember
    obtain ⟨path₁, node, hmember', hnodeAt, hholder, _⟩ := h.nested k p d idx path₀ hd hsub hpath₀
    obtain rfl := Option.some.inj (hmember.symm.trans hmember')
    rw [elemPath, hnodeAt, Option.bind_some] at helem
    rcases hholder with hmap | ⟨harray, _, hchildren⟩
    · rw [if_pos hmap] at helem
      split_ifs at helem
      obtain rfl := Option.some.inj helem
      exact ⟨node, hnodeAt, hmap⟩
    · have hmap : node.elemType ≠ .map := by rw [harray]; decide
      rw [if_neg hmap, elemNumber, if_neg hmap, if_pos harray] at helem
      split_ifs at helem with hi
      obtain rfl := Option.some.inj helem
      have hlt : (idx (k :: p)).toNat < node.childlist.length := by omega
      refine ⟨node.childlist[(idx (k :: p)).toNat], ?_, hchildren _ (List.getElem_mem hlt)⟩
      rw [nodeAt, hnodeAt, Option.bind_some, List.getElem?_eq_getElem hlt]

/-- The search for the member of an element moves the cursor of the object. -/
theorem jsonFindElem_member {d : ElemDesc} {o : JsonNode}
    (hd : t.descOf loc = some d) (ho : nodeAt root path = some o) (hmap : o.elemType = .map)
    (m : Cursors × Fields) : ∃ cursors, jsonFindElem root d.name (some path) m =
      some (memberPath t root loc path, (cursors, m.2)) ∧ ∀ q, q ≠ path → cursors q = m.1 q := by
  refine ⟨update m.1 path (childNamed d.name o), ?_, fun q hq => update_of_ne hq _ _⟩
  rw [jsonFindElem, ho, Option.map_some, memberPath, hd, Option.bind_some, ho, Option.bind_some]
  simp [hmap]

/-- The call for the leaf is the one of its place that has the indices of the structures. -/
theorem leafCall_of_suffix {k : Nat} {p : Loc} {idx : Indices}
    (hloc : call.1 = k :: p) (hlen : call.2.length + 1 = call.1.length)
    (hsuffix : pathIndices p idx <:+ call.2) : call = leafCall (k :: p) idx := by
  obtain ⟨loc, is⟩ := call
  subst hloc
  have heq := hsuffix.eq_of_length (by
    rw [length_pathIndices]
    simpa using hlen.symm)
  rw [leafCall, List.tail_cons, heq]

theorem fieldPath_leafCall {k : Nat} {p : Loc} {idx : Indices}
    (hstruct : structPath t root p (pathIndices p idx) = some path) :
    fieldPath t root (leafCall (k :: p) idx) = memberPath t root (k :: p) path := by
  rw [fieldPath, leafCall, List.tail_cons, hstruct, Option.bind_some]

/-- Where there is no element, there is no path. -/
theorem fieldPath_none (h : t.descOf call.1 = none) :
    fieldPath t root call = none := by
  rw [fieldPath, Option.bind_eq_none_iff]
  intro path _
  rw [memberPath, h, Option.bind_none]

section Walk

variable (hfits : Fits t root number arrayRet count) (hroot : root.elemType = .map)
  {k : Nat} {p : Loc} {d : ElemDesc} {idx : Indices}

include hfits hroot

/-- A leaf is set from its node, if it has one. -/
theorem visitElem_leaf (hknown : t.Known) (hd : t.descOf (k :: p) = some d) (hsub : d.type.attr.subset = false)
    (hnode : p = [] ∨ t.nested p = true)
    (hstruct : structPath t root p (pathIndices p idx) = some path)
    (inside : Indices → NodePara JsonPath (Cursors × Fields) →
      Passage (NodePara JsonPath (Cursors × Fields))) (m : Cursors × Fields) :
    ∃ m', visitElem (treeToStruct t root number arrayRet) (k :: p) d.type inside idx
        ⟨some path, m⟩ = .done ⟨some path, m'⟩ ∧
      Loads t root number count (fun call => (∃ s, call.1 = s ++ k :: p) ∧
        pathIndices p idx <:+ call.2) path m m' := by
  obtain ⟨o, ho, hmap⟩ := hfits.object hroot hnode hstruct
  obtain ⟨cursors, hfind, hcursors⟩ := jsonFindElem_member hd ho hmap m
  have hname : ((t.descOf (k :: p)).map (·.name)).getD [] = d.name := by rw [hd]; rfl
  have htest : (treeToStruct t root number arrayRet).test (k :: p) ⟨some path, m⟩ = true := rfl
  have hkept : ∀ q, ¬ path <:+ q → cursors q = m.1 q :=
    fun q hq => hcursors q fun heq => hq (heq ▸ List.suffix_refl _)
  have hcomplete : ∀ {m' : Cursors × Fields}, (∀ path', memberPath t root (k :: p) path = some path' →
        m'.2 (leafCall (k :: p) idx) = .node path') →
      ∀ call : LeafCall, ((∃ s, call.1 = s ++ k :: p) ∧ pathIndices p idx <:+ call.2) →
        call.2.length + 1 = call.1.length → t.nested call.1 = false →
        ∀ path', fieldPath t root call = some path' →
          IsFrom t number count call path' (m'.2 call) := by
    rintro m' hset ⟨_, is⟩ ⟨⟨s, rfl⟩, hsuffix⟩ hlen _ path' hpath
    rcases s with _ | ⟨j, s⟩
    · obtain ⟨rfl⟩ := leafCall_of_suffix rfl hlen hsuffix
      refine .inl (hset path' ?_)
      rwa [List.nil_append, ← leafCall, fieldPath_leafCall hstruct] at hpath
    · rw [fieldPath_none (t.descOf_below hd hsub (List.cons_ne_nil j s))] at hpath
      cases hpath
  simp only [visitElem, htest, hsub, hknown _ d hd hsub, Bool.not_true, Bool.false_eq_true,
    if_false]
  cases hmember : memberPath t root (k :: p) path with
  | none =>
    -- The leaf has no node, and is left as it is.
    rw [hmember] at hfind
    refine ⟨(cursors, m.2), ?_, hkept, fun _ => .inl rfl, hcomplete (by simp [hmember])⟩
    simp only [treeToStruct, json2Struct, jsontoProcFunc, hname, treeOps, hfind, Option.map_some]
    rfl
  | some path' =>
    rw [hmember] at hfind
    obtain ⟨d', o', _, ho', _, hlt, hpath'⟩ := memberPath_eq_some.1 hmember
    obtain ⟨node, hnodeAt⟩ : ∃ node, nodeAt root path' = some node := by
      rw [hpath', nodeAt, ho', Option.bind_some, List.getElem?_eq_getElem hlt]
      exact ⟨_, rfl⟩
    have hfield : fieldPath t root (leafCall (k :: p) idx) = some path' :=
      (fieldPath_leafCall hstruct).trans hmember
    have hret := hfits.leaf (leafCall (k :: p) idx) d path' node hd hsub hfield hnodeAt
    refine ⟨(cursors, update m.2 (leafCall (k :: p) idx) (.node path')), ?_, hkept, fun call => ?_,
      hcomplete fun path'' hpath'' => ?_⟩
    · simp only [treeToStruct, json2Struct, jsontoProcFunc, hname, treeOps, hfind, setvaluefromjson,
        hnodeAt, Option.map_some, if_neg (Int.not_lt.2 hret), Passage.ofCall]
    · rcases eq_or_ne call (leafCall (k :: p) idx) with rfl | hne
      · exact .inr (.inl ⟨path', hfield, .inl (update_self ..)⟩)
      · exact .inl (update_of_ne hne _ _)
    · rw [hmember] at hpath''
      obtain rfl := Option.some.inj hpath''
      exact update_self ..

end Walk

/-! ## Moves of the cursor -/

section Moves

variable {node : JsonNode} {path' : JsonPath} (hnodeAt : nodeAt root path' = some node)

include hnodeAt

/-- As a structure is entered, the node becomes that of its first object. -/
theorem jsontoChild_first (hholder : IsHolder node) (limit : Int) (m : Cursors × Fields) :
    ∃ path₀ cursors, jsontoChild (treeOps root) 0 limit ⟨some path', m⟩ =
        some ⟨1, 0, limit, ⟨some path₀, (cursors, m.2)⟩⟩ ∧
      elemPath root path' 0 = some path₀ ∧ (∀ q, q ≠ path' → cursors q = m.1 q) ∧
      (node.elemType ≠ .map → cursors path' = 0) := by
  have hnodeOf : nodeOf root (some path') = some node := hnodeAt
  rcases hholder with hmap | ⟨harray, hne, -⟩
  · refine ⟨path', m.1, ?_, ?_, fun _ _ => rfl, fun h => absurd hmap h⟩
    · simp [jsontoChild, treeOps, hnodeOf, hmap]
    · simp [elemPath, hnodeAt, elemNumber, hmap]
  · have hmap : node.elemType ≠ .map := by rw [harray]; decide
    have hlen : node.childlist.length ≠ 0 := by simpa using hne
    refine ⟨0 :: path', update m.1 path' 0, ?_, ?_, fun q hq => update_of_ne hq _ _,
      fun _ => update_self ..⟩
    · simp [jsontoChild, treeOps, hnodeOf, harray, jsonGetFirstChild, hnodeAt, hne]
    · have hpos : 0 < node.childlist.length := Nat.pos_of_ne_zero hlen
      simp [elemPath, hnodeAt, elemNumber, harray, hpos]

/-- As it is entered again, the node becomes that of its next object. -/
theorem jsontoChild_next
    (hlt : i + 1 < node.childlist.length) (m : Cursors × Fields) (hcursor : m.1 path' = i) :
    jsontoChild (treeOps root) ((i : Int) + 1) node.childlist.length ⟨some path', m⟩ =
      some ⟨1, (i : Int) + 1, node.childlist.length,
        ⟨some ((i + 1) :: path'), (update m.1 path' (i + 1), m.2)⟩⟩ := by
  have hindex : ¬ ((i : Int) + 1 = 0) := by omega
  have hmany : (node.childlist.length : Int) > 1 := by omega
  have hnot : ¬ i ≥ node.childlist.length := by omega
  have hnext : ¬ i + 1 = node.childlist.length := by omega
  simp only [jsontoChild, if_neg hindex, if_pos hmany, treeOps, Option.bind_some, jsonGetNextChild,
    hnodeAt, Option.map_some, hcursor, if_neg hnot, if_neg hnext, Option.isNone_some,
    Bool.false_eq_true, if_false]

omit hnodeAt in
theorem elemPath_map (hnodeAt : nodeAt root path' = some node) (hmap : node.elemType = .map)
    (h : elemPath root path' i = some path₀) : path₀ = path' := by
  rw [elemPath, hnodeAt, Option.bind_some, if_pos hmap] at h
  split_ifs at h
  exact (Option.some.inj h).symm

omit hnodeAt in
theorem elemPath_array (hnodeAt : nodeAt root path' = some node) (harray : node.elemType = .array) : elemPath root path' i =
      if i < node.childlist.length then some (i :: path') else none := by
  have hmap : node.elemType ≠ .map := by rw [harray]; decide
  have hiff : (0 ≤ (i : Int) ∧ (i : Int) < elemNumber node) ↔ i < node.childlist.length := by
    rw [elemNumber, if_neg hmap, if_pos harray]
    omega
  rw [elemPath, hnodeAt, Option.bind_some, if_neg hmap, Int.toNat_natCast]
  exact if_congr hiff rfl rfl

variable (t number arrayRet) in
/-- At the end of a pass, the node becomes that of the element, and after the last one, that of
    the object the element is in. -/
theorem exit_pass (hroot : IsObject root) (hmember : memberPath t root loc path = some path')
    (hholder : IsHolder node) (hlt : i < elemNumber node)
    (hpath₀ : elemPath root path' i = some path₀) {idx : Indices} (hidx : idx loc = i + 1)
    (m : Cursors × Fields) :
    (treeToStruct t root number arrayRet).exit loc idx (elemNumber node) ⟨some path₀, m⟩ =
      some (1, ⟨some (if i + 1 = elemNumber node then path else path'), m⟩) := by
  obtain ⟨_, o, _, ho, hmapo, _, hplace⟩ := memberPath_eq_some.1 hmember
  have hbound : idx loc ≥ elemNumber node ↔ i + 1 = elemNumber node := by
    rw [hidx]
    omega
  simp only [treeToStruct, json2Struct, jsontoExitstruct, hbound]
  rcases hholder with hmap | ⟨harray, _, _⟩
  · -- The object is a member of the one that the element is in.
    obtain rfl := elemPath_map hnodeAt hmap hpath₀
    obtain ⟨k, father, hfather, hk, hbuilt⟩ := nodeAt_built hroot (hplace ▸ hnodeAt)
    obtain rfl := Option.some.inj (hfather.symm.trans ho)
    obtain rfl : k = .map := Container.elemType_inj.1 (hk.symm.trans hmapo)
    have hnodeOf : nodeOf root (some path₀) = some node := hnodeAt
    have hone : elemNumber node = 1 := by rw [elemNumber, if_pos hmap]
    have hvalue : (treeOps root).isValue (some path₀) m = false := by
      simp [treeOps, hnodeOf, built_isValue hbuilt, Container.isValue]
    have hlast : i + 1 = elemNumber node := by omega
    rw [hvalue, if_pos hlast]
    simp [treeOps, hplace]
  · rw [elemPath_array hnodeAt harray] at hpath₀
    split_ifs at hpath₀ with hi
    obtain rfl := Option.some.inj hpath₀
    have hchild : nodeAt root (i :: path') = some node.childlist[i] := by
      rw [nodeAt, hnodeAt, Option.bind_some, List.getElem?_eq_getElem hi]
    obtain ⟨k, father, hfather, hk, hbuilt⟩ := nodeAt_built hroot hchild
    obtain rfl := Option.some.inj (hfather.symm.trans hnodeAt)
    obtain rfl : k = .array := Container.elemType_inj.1 (hk.symm.trans harray)
    have hnodeOf : nodeOf root (some (i :: path')) = some father.childlist[i] := hchild
    have hvalue : (treeOps root).isValue (some (i :: path')) m = true := by
      simp [treeOps, hnodeOf, built_isValue hbuilt, Container.isValue]
    rw [hvalue]
    by_cases hlast : i + 1 = elemNumber father
    · rw [if_pos ⟨hlast, rfl⟩, if_pos hlast]
      simp [treeOps, hplace]
    · rw [if_neg fun h => hlast h.1, if_neg hlast]
      simp [treeOps]

end Moves

section Enter

variable {k : Nat} {p : Loc} {d : ElemDesc} {idx : Indices} {path' : JsonPath} {node : JsonNode}

theorem elemNumber_pos (hholder : IsHolder node) : 0 < elemNumber node := by
  rcases hholder with hmap | ⟨harray, hne, -⟩
  · rw [elemNumber, if_pos hmap]
    exact Nat.one_pos
  · rw [elemNumber, if_neg (by rw [harray]; decide), if_pos harray]
    exact List.length_pos_iff.2 hne

variable (hfits : Fits t root number arrayRet count) (hnodeAt : nodeAt root path' = some node)
  (hholder : IsHolder node)

include hfits hnodeAt hholder

/-- The limit of an array is the number of its objects, which is stored in a counter that
    has 0. -/
theorem jsontoArray_limit (hroot : IsObject root) {j : Nat} (hplace : path' = j :: path)
    (hd : t.descOf (k :: p) = some d) (hsub : d.type.attr.subset = true)
    (hnumber : FitsNumber t count (k :: p) d idx (elemNumber node)) {m : Cursors × Fields}
    (hallowed : Allowed t root count m.2) : ∃ fields,
      jsontoArray (treeOps root) (elemGetDefvalue t (fieldNumber number)) (elemSetDefvalue t)
        (fun _ _ _ m => some (0, m)) (k :: p) d idx ⟨some path', m⟩ =
          some ⟨0, 0, elemNumber node, ⟨some path', (m.1, fields)⟩⟩ ∧
      ∀ call, Becomes t root number count call (m.2 call) (fields call) := by
  have hpos := elemNumber_pos hholder
  have halloc : ∀ fields : Fields, jsontoAlloc (fun _ _ _ m => some ((0 : Int), m)) (k :: p) idx
      (elemNumber node) ⟨some path', (m.1, fields)⟩ =
        some ⟨0, 0, elemNumber node, ⟨some path', (m.1, fields)⟩⟩ := fun fields => by
    rw [jsontoAlloc, if_pos (by omega)]
    rfl
  rw [FitsNumber] at hnumber
  rw [jsontoArray]
  cases hdefine : d.type.attr.define with
  | false =>
    rw [hdefine, if_neg Bool.false_ne_true] at hnumber
    refine ⟨m.2, ?_, fun _ => .inl rfl⟩
    simp only [Bool.false_eq_true, if_false, ← hnumber]
    rw [if_neg (by omega), halloc]
  | true =>
    rw [hdefine, if_pos rfl] at hnumber
    obtain ⟨define, hcounter, hops, hcount, hle⟩ := hnumber
    have hcounts : t.CountsArray (leafCall define idx).1 := ⟨_, d, hd, hsub, hdefine, hcounter⟩
    have hread : number define (m.2 (leafCall define idx)) = 0 ∨
        number define (m.2 (leafCall define idx)) = elemNumber node := by
      rw [hcount]
      exact hfits.counters (leafCall define idx) _ hcounts (hallowed (leafCall define idx))
    have hdefvalue : elemGetDefvalue t (fieldNumber number) (k :: p) idx m =
        some (number define (m.2 (leafCall define idx))) := by
      have hnonneg : ¬ number define (m.2 (leafCall define idx)) < 0 := by
        rcases hread with hread | hread <;> rw [hread] <;> omega
      simp only [elemGetDefvalue, hcounter, hops, Bool.not_true, Bool.false_eq_true, if_false,
        fieldNumber, Option.map_some, if_neg hnonneg]
    simp only [if_true, hdefvalue]
    rcases hread with hread | hread <;> rw [hread]
    · -- The counter has 0, and the objects are counted.
      have hlimit : (if (treeOps root).isMap (some path') m = true then (1 : Int)
          else (treeOps root).elemno (some path') m) = elemNumber node := by
        have hnodeOf : nodeOf root (some path') = some node := hnodeAt
        rcases hholder with hmap | ⟨harray, _, _⟩
        · simp [treeOps, hnodeOf, elemNumber, hmap]
        · obtain ⟨k', _, _, _, hbuilt⟩ := nodeAt_built hroot (hplace ▸ hnodeAt)
          simp [treeOps, hnodeOf, elemNumber, harray, built_elemNo hbuilt harray]
      have hset : elemSetDefvalue t (k :: p) idx (elemNumber node) m = some ((elemNumber node : Int),
          (m.1, update m.2 (leafCall define idx) (.count (elemNumber node)))) := by
        have hin : ¬ ((elemNumber node : Int) < 0 ∨ (elemNumber node : Int) > 1024) := by omega
        simp only [elemSetDefvalue, hcounter, if_neg hin, hops, Bool.not_true, Bool.false_eq_true,
          if_false]
      have hnonneg : ¬ (elemNumber node : Int) < 0 := by omega
      refine ⟨update m.2 (leafCall define idx) (.count (elemNumber node)), ?_, fun call => ?_⟩
      · rw [if_pos rfl, jsontoCount]
        simp only [hlimit, if_neg hnonneg, hset, halloc]
      · rcases eq_or_ne call (leafCall define idx) with rfl | hne
        · exact .inr (.inr ⟨hcounts, hread, by rw [update_self, hcount]⟩)
        · exact .inl (update_of_ne hne _ _)
    · refine ⟨m.2, ?_, fun _ => .inl rfl⟩
      rw [if_neg (by omega), halloc]

omit hnodeAt hholder in
/-- A structure is entered at the first of its objects, with as many as there are as its limit. -/
theorem enter_first (hroot : IsObject root) (hd : t.descOf (k :: p) = some d)
    (hsub : d.type.attr.subset = true) (hnode : p = [] ∨ t.nested p = true)
    (hstruct : structPath t root p (pathIndices p idx) = some path) (hidx : idx (k :: p) = 0)
    {m : Cursors × Fields} (hallowed : Allowed t root count m.2) :
    ∃ path' node path₀ m', memberPath t root (k :: p) path = some path' ∧
      nodeAt root path' = some node ∧ IsHolder node ∧ elemPath root path' 0 = some path₀ ∧
      (treeToStruct t root number arrayRet).enter (k :: p) idx 0 ⟨some path, m⟩ =
        some ⟨1, 0, elemNumber node, ⟨some path₀, m'⟩⟩ ∧
      (node.elemType ≠ .map → m'.1 path' = 0) ∧
      Loads t root number count (fun _ => False) path m m' := by
  obtain ⟨o, ho, hmap⟩ := hfits.object hroot.elemType hnode hstruct
  obtain ⟨path', node, hmember, hnodeAt, hholder, hnumber⟩ :=
    hfits.nested k p d idx path hd hsub hstruct
  obtain ⟨_, _, _, _, _, _, hplace⟩ := memberPath_eq_some.1 hmember
  obtain ⟨cursors, hfind, hcursors⟩ := jsonFindElem_member hd ho hmap m
  rw [hmember] at hfind
  have hnodeOf : nodeOf root (some path') = some node := hnodeAt
  have hkind : ¬ ((!(treeOps root).isMap (some path') (cursors, m.2)) = true ∧
      (!(treeOps root).isArray (some path') (cursors, m.2)) = true) := by
    rcases hholder with hmap' | ⟨harray', _⟩
    · simp [treeOps, hnodeOf, hmap']
    · simp [treeOps, hnodeOf, harray']
  -- What the part for an array, or for a structure, leaves for the part for every pass.
  obtain ⟨fields, hlimit, hfields⟩ : ∃ fields : Fields,
      (if d.type.attr.array then jsontoArray (treeOps root) (elemGetDefvalue t (fieldNumber number))
          (elemSetDefvalue t) (fun _ _ _ m => some (0, m)) (k :: p) d (update idx (k :: p) 0)
            ⟨some path', (cursors, m.2)⟩
        else some ⟨0, 0, d.number, ⟨some path', (cursors, m.2)⟩⟩) =
          some ⟨0, 0, elemNumber node, ⟨some path', (cursors, fields)⟩⟩ ∧
      ∀ call, Becomes t root number count call (m.2 call) (fields call) := by
    have hsame : update idx (k :: p) 0 = idx := by
      rw [← hidx]
      exact update_eq_self ..
    rw [hsame]
    cases harray : d.type.attr.array with
    | true =>
      rw [if_pos rfl]
      exact jsontoArray_limit hfits hnodeAt hholder hroot hplace hd hsub hnumber hallowed
    | false =>
      have hdefine : d.type.attr.define = false := by
        cases hdefine : d.type.attr.define with
        | false => rfl
        | true =>
          rw [array_of_define hsub hdefine] at harray
          cases harray
      rw [FitsNumber, hdefine, if_neg Bool.false_ne_true] at hnumber
      rw [if_neg Bool.false_ne_true, hnumber]
      exact ⟨m.2, rfl, fun _ => .inl rfl⟩
  obtain ⟨path₀, cursors', hchild, hpath₀, hcursors', hfirst⟩ :=
    jsontoChild_first hnodeAt hholder (elemNumber node) (cursors, fields)
  refine ⟨path', node, path₀, (cursors', fields), hmember, hnodeAt, hholder, hpath₀, ?_, hfirst, ?_⟩
  · simp only [treeToStruct, json2Struct, jsontoEnterstruct, if_true, hd]
    have hfind' : (treeOps root).findElem d.name (some path) m =
      some (some path', (cursors, m.2)) := hfind
    simp only [hfind', if_neg hkind, hlimit]
    rw [if_neg (by decide), hchild]
  · refine ⟨fun q hq => ?_, hfields, fun _ => False.elim⟩
    have hne : q ≠ path := fun heq => hq (heq ▸ List.suffix_refl _)
    have hne' : q ≠ path' := fun heq => hq (by rw [heq, hplace]; exact List.suffix_cons _ _)
    exact (hcursors' q hne').trans (hcursors q hne)

end Enter

/-! ## The walk through a structure -/

section Whole

variable {k : Nat} {p : Loc} {d : ElemDesc} {idx : Indices}

theorem elemPath_suffix {i : Int} (h : elemPath root path' i = some path₀) :
    path' <:+ path₀ := by
  rw [elemPath] at h
  obtain ⟨node, -, h⟩ := Option.bind_eq_some_iff.1 h
  split_ifs at h
  · exact Option.some.inj h ▸ List.suffix_refl _
  · exact Option.some.inj h ▸ List.suffix_cons _ _

theorem memberPath_suffix (h : memberPath t root loc path = some path') : path <:+ path' := by
  obtain ⟨_, _, _, _, _, _, rfl⟩ := memberPath_eq_some.1 h
  exact List.suffix_cons _ _

/-- The objects of a structure are at the elements of its node. -/
theorem structPath_elem (hstruct : structPath t root p (pathIndices p idx) = some path)
    (hmember : memberPath t root (k :: p) path = some path') (i : Int) :
    structPath t root (k :: p) (i :: pathIndices p idx) = elemPath root path' i := by
  rw [structPath, hstruct, Option.bind_some, hmember, Option.bind_some]

variable {path' : JsonPath} {node : JsonNode}
  {inside : Indices → NodePara JsonPath (Cursors × Fields) →
    Passage (NodePara JsonPath (Cursors × Fields))}
  (hroot : IsObject root) (hstruct : structPath t root p (pathIndices p idx) = some path)
  (hmember : memberPath t root (k :: p) path = some path') (hnodeAt : nodeAt root path' = some node)
  (hholder : IsHolder node)
  (hinside : ∀ i, LoadsNode t root number count (k :: p) 0
    (update idx (k :: p) i) inside)

include hroot hstruct hmember hnodeAt hholder hinside

variable (arrayRet) in
/-- A pass through a structure, at one of its objects. -/
theorem pass_loads (hlt : i < elemNumber node)
    (hpath₀ : elemPath root path' i = some path₀) {m : Cursors × Fields}
    (hallowed : Allowed t root count m.2) :
    ∃ m', pass (treeToStruct t root number arrayRet) (k :: p) inside idx (elemNumber node) i
        ⟨some path₀, m⟩ = .done ⟨some (if i + 1 = elemNumber node then path else path'), m'⟩ ∧
      Loads t root number count (InScope (k :: p) 0 (update idx (k :: p) i)) path₀ m m' := by
  have hindices : pathIndices (k :: p) (update idx (k :: p) (i : Int)) =
      (i : Int) :: pathIndices p idx := by
    rw [pathIndices, update_self, pathIndices_update (Nat.lt_succ_self _)]
  obtain ⟨m', hgo, hloads⟩ := hinside i
    (by rw [hindices, structPath_elem hstruct hmember, hpath₀]) hallowed
  refine ⟨m', ?_, hloads⟩
  have hidx : update idx (k :: p) ((i : Int) + 1) (k :: p) = (i : Int) + 1 := update_self ..
  have hexit := exit_pass t number arrayRet hnodeAt hroot hmember hholder hlt hpath₀ hidx m'
  simp only [pass, hgo, Passage.within, Passage.bind, hexit]
  rfl

variable (arrayRet) in
/-- The passes through a structure, from one of its objects on. The induction is on how many
    more there are. -/
theorem passes_loads {left : Nat} : ∀ {i : Nat}, i + left + 1 = elemNumber node →
    ∀ {path₀ : JsonPath}, elemPath root path' i = some path₀ → ∀ {m : Cursors × Fields},
    (node.elemType ≠ .map → m.1 path' = i) → Allowed t root count m.2 →
    ∃ m', passes (treeToStruct t root number arrayRet) (k :: p) inside idx (elemNumber node) left i
        ⟨some path₀, m⟩ = .done ⟨some path, m'⟩ ∧
      Loads t root number count (InPasses (k :: p) (pathIndices p idx) i (elemNumber node)) path' m m' := by
  have hindices (i : Int) : pathIndices (k :: p) (update idx (k :: p) i) = i :: pathIndices p idx := by
    rw [pathIndices, update_self, pathIndices_update (Nat.lt_succ_self _)]
  induction left with
  | zero =>
    intro i hi path₀ hpath₀ m _ hallowed
    obtain ⟨m', hpass, hloads⟩ := pass_loads arrayRet hroot hstruct
      hmember hnodeAt hholder hinside (show i < elemNumber node by omega) hpath₀ hallowed
    rw [if_pos (by omega)] at hpass
    refine ⟨m', hpass, (hloads.up (elemPath_suffix hpath₀)).mono ?_⟩
    rintro call ⟨hbeyond, j, hij, hj, hsuffix⟩ - - - -
    obtain rfl : j = i := by omega
    exact ⟨hbeyond, by rwa [hindices]⟩
  | succ left ih =>
    intro i hi path₀ hpath₀ m hcursor hallowed
    obtain ⟨m₁, hpass, hloads⟩ := pass_loads arrayRet hroot hstruct
      hmember hnodeAt hholder hinside (show i < elemNumber node by omega) hpath₀ hallowed
    rw [if_neg (by omega)] at hpass
    -- Only an array has more than one object.
    have hmap : node.elemType ≠ .map := fun hmap => by
      rw [elemNumber, if_pos hmap] at hi
      omega
    have harray : node.elemType = .array := by
      rcases hholder with h | h
      · exact absurd h hmap
      · exact h.1
    have hnumber : elemNumber node = node.childlist.length := by
      rw [elemNumber, if_neg hmap, if_pos harray]
    have hplace : path₀ = i :: path' := by
      rw [elemPath_array hnodeAt harray, if_pos (by omega)] at hpath₀
      exact (Option.some.inj hpath₀).symm
    have hcursor₁ : m₁.1 path' = i := by
      rw [hloads.cursors path' fun hsuffix => ?_, hcursor hmap]
      have hlen := hsuffix.length_le
      rw [hplace, List.length_cons] at hlen
      omega
    have hagain : enterAgain (treeToStruct t root number arrayRet) (k :: p) idx (elemNumber node)
        ((i : Int) + 1) ⟨some path', m₁⟩ =
          .done ⟨some ((i + 1) :: path'), (update m₁.1 path' (i + 1), m₁.2)⟩ := by
      have hlimit : ¬ ((node.childlist.length : Int) = 0) := by omega
      have hchild := jsontoChild_next hnodeAt (by omega) m₁ hcursor₁
      rw [enterAgain, hnumber]
      simp only [treeToStruct, json2Struct, jsontoEnterstruct, if_neg hlimit, update_self, hchild]
      rfl
    have hpath₁ : elemPath root path' ((i + 1 : Nat) : Int) = some ((i + 1) :: path') := by
      rw [elemPath_array hnodeAt harray, if_pos (by omega)]
    obtain ⟨m', hpasses, hloads'⟩ := ih (i := i + 1) (by omega) hpath₁
      (m := (update m₁.1 path' (i + 1), m₁.2)) (fun _ => update_self ..) (hloads.allowed hallowed)
    have hmoved : Loads t root number count (fun _ => False) path' m₁ (update m₁.1 path' (i + 1), m₁.2) :=
      .of_cursors (fun q hq => update_of_ne (by rintro rfl; exact hq (List.suffix_refl _)) _ _) rfl
        fun _ => id
    refine ⟨m', ?_, (((hloads.up (elemPath_suffix hpath₀)).trans hmoved).trans hloads').mono ?_⟩
    · rw [passes, hpass, Passage.bind, hagain, Passage.bind]
      exact hpasses
    · rintro call ⟨hbeyond, j, hij, hj, hsuffix⟩ - - - -
      rcases Int.le_iff_eq_or_lt.1 hij with rfl | hlt
      · exact .inl (.inl ⟨hbeyond, by rwa [hindices]⟩)
      · exact .inr ⟨hbeyond, j, by omega, hj, hsuffix⟩

end Whole

section Elements

variable {k : Nat} {p : Loc} {d : ElemDesc} {idx : Indices}

/-- A leaf below a structure with a path is in one of the structure's objects. -/
theorem inPasses_of_fieldPath (hd : t.descOf (k :: p) = some d) (hsub : d.type.attr.subset = true)
    (hstruct : structPath t root p (pathIndices p idx) = some path)
    (hmember : memberPath t root (k :: p) path = some path') {node : JsonNode}
    (hnodeAt : nodeAt root path' = some node)
    (hscope : (∃ s, call.1 = s ++ k :: p) ∧ pathIndices p idx <:+ call.2)
    (hlen : call.2.length + 1 = call.1.length) (hleaf : t.nested call.1 = false)
    {path₁ : JsonPath} (hpath : fieldPath t root call = some path₁) :
    InPasses (k :: p) (pathIndices p idx) 0 (elemNumber node) call := by
  obtain ⟨_, is⟩ := call
  obtain ⟨⟨s, rfl⟩, a, rfl⟩ := hscope
  rcases s with _ | ⟨j, s⟩
  · rw [List.nil_append, Template.nested_of_desc hd, hsub] at hleaf
    cases hleaf
  rw [List.length_append, List.length_append, length_pathIndices, List.length_cons,
    List.length_cons] at hlen
  obtain ⟨a, i, rfl⟩ : ∃ a' i, a = a' ++ [i] :=
    ⟨_, _, (List.dropLast_concat_getLast (List.ne_nil_of_length_pos (by omega))).symm⟩
  rw [List.length_append, List.length_singleton] at hlen
  refine ⟨beyond_down.2 ⟨j :: s, List.cons_ne_nil _ _, rfl⟩, i, ?_⟩
  -- The object of the leaf is in one of the structure, which has an index in its range.
  rw [fieldPath, List.cons_append, List.tail_cons, List.append_assoc, List.singleton_append] at hpath
  obtain ⟨_, hpath₁, -⟩ := Option.bind_eq_some_iff.1 hpath
  obtain ⟨path₀, hpath₀⟩ := structPath_above (by omega) hpath₁
  rw [structPath_elem hstruct hmember, elemPath, hnodeAt, Option.bind_some] at hpath₀
  split_ifs at hpath₀ with hi
  · exact ⟨hi.1, hi.2, a, by simp⟩
  · exact ⟨hi.1, hi.2, a, by simp⟩

/-- An element that is a structure is gone through, and its leaves are set. -/
theorem visitNested_loads (hfits : Fits t root number arrayRet count) (hroot : IsObject root)
    (hd : t.descOf (k :: p) = some d) (hsub : d.type.attr.subset = true)
    (hnode : p = [] ∨ t.nested p = true)
    (hstruct : structPath t root p (pathIndices p idx) = some path) (hidx : idx (k :: p) = 0)
    {inside : Indices → NodePara JsonPath (Cursors × Fields) →
      Passage (NodePara JsonPath (Cursors × Fields))}
    (hinside : ∀ i, LoadsNode t root number count (k :: p) 0 (update idx (k :: p) i) inside)
    {m : Cursors × Fields} (hallowed : Allowed t root count m.2) :
    ∃ m', visitNested (treeToStruct t root number arrayRet) (k :: p) d.type.attr.array inside idx
        ⟨some path, m⟩ = .done ⟨some path, m'⟩ ∧
      Loads t root number count (fun call => (∃ s, call.1 = s ++ k :: p) ∧
        pathIndices p idx <:+ call.2) path m m' := by
  obtain ⟨path', node, path₀, m₁, hmember, hnodeAt, hholder, hpath₀, henter, hcursor, hloads₁⟩ :=
    enter_first hfits hroot hd hsub hnode hstruct hidx hallowed
  have hpos := elemNumber_pos hholder
  obtain ⟨m', hpasses, hloads⟩ := passes_loads arrayRet hroot hstruct hmember hnodeAt hholder
    hinside (show 0 + (elemNumber node - 1) + 1 = elemNumber node by omega) hpath₀ hcursor (hloads₁.allowed hallowed)
  refine ⟨m', ?_, (hloads₁.trans (hloads.up (memberPath_suffix hmember))).mono ?_⟩
  · have hlimit : ¬ (d.type.attr.array = true ∧ (elemNumber node : Int) = 0) := by omega
    simp only [visitNested, henter]
    rw [if_neg (by decide), if_neg hlimit, Int.toNat_natCast]
    exact hpasses
  · exact fun call hscope hlen hleaf _ hpath =>
      .inr (inPasses_of_fieldPath hd hsub hstruct hmember hnodeAt hscope hlen hleaf hpath)

/-- An element is gone through, and its leaves are set. -/
theorem visitElem_loads (hknown : t.Known) (hfits : Fits t root number arrayRet count)
    (hroot : IsObject root)
    (hd : t.descOf (k :: p) = some d) (hnode : p = [] ∨ t.nested p = true)
    (hstruct : structPath t root p (pathIndices p idx) = some path) (hidx : idx (k :: p) = 0)
    {inside : Indices → NodePara JsonPath (Cursors × Fields) →
      Passage (NodePara JsonPath (Cursors × Fields))}
    (hinside : d.type.attr.subset = true →
      ∀ i, LoadsNode t root number count (k :: p) 0 (update idx (k :: p) i) inside)
    {m : Cursors × Fields} (hallowed : Allowed t root count m.2) :
    ∃ m', visitElem (treeToStruct t root number arrayRet) (k :: p) d.type inside idx
        ⟨some path, m⟩ = .done ⟨some path, m'⟩ ∧
      Loads t root number count (fun call => (∃ s, call.1 = s ++ k :: p) ∧
        pathIndices p idx <:+ call.2) path m m' := by
  cases hsub : d.type.attr.subset with
  | false => exact visitElem_leaf hfits hroot.elemType hknown hd hsub hnode hstruct inside m
  | true =>
    have htest : (treeToStruct t root number arrayRet).test (k :: p) ⟨some path, m⟩ = true := rfl
    simp only [visitElem, htest, hsub, Bool.not_true, Bool.false_eq_true, if_false, if_true]
    exact visitNested_loads hfits hroot hd hsub hnode hstruct hidx (hinside hsub) hallowed

mutual

theorem traverseElem_loads (hknown : t.Known) (hfits : Fits t root number arrayRet count)
    (hroot : IsObject root)
    {p : Loc} {k : Nat} (hnode : p = [] ∨ t.nested p = true) {idx : Indices}
    (hrest : ∀ q, Beyond p k q → idx q = 0) {path : JsonPath} {m : Cursors × Fields}
    (hstruct : structPath t root p (pathIndices p idx) = some path)
    (hallowed : Allowed t root count m.2) : ∀ d, t.descOf (k :: p) = some d →
    ∃ m', traverseElem (treeToStruct t root number arrayRet) (k :: p) d idx ⟨some path, m⟩ =
        .done ⟨some path, m'⟩ ∧
      Loads t root number count (fun call => (∃ s, call.1 = s ++ k :: p) ∧
        pathIndices p idx <:+ call.2) path m m'
  | ⟨name, type, size, sub, names, defName⟩, hd => by
    rw [traverseElem]
    refine visitElem_loads hknown hfits hroot hd hnode hstruct (hrest _ (beyond_self p k))
      (fun hsub i => ?_) hallowed
    refine traverse_loads hknown hfits hroot (.inr ((Template.nested_of_desc hd).trans hsub)) (fun q hq => ?_)
      sub (Nat.zero_le _) (Template.children_of_desc hd hsub)
    rw [update_of_ne (ne_of_beyond_down hq)]
    obtain ⟨s, -, rfl⟩ := beyond_down.1 hq
    exact hrest _ (beyond_iff.2 (.inl ⟨s, rfl⟩))

/-- The elements of a node are gone through, and their leaves are set. The recursion is that of
    the walk. -/
theorem traverse_loads (hknown : t.Known) (hfits : Fits t root number arrayRet count)
    (hroot : IsObject root)
    {p : Loc} {k : Nat} (hnode : p = [] ∨ t.nested p = true) {idx : Indices}
    (hrest : ∀ q, Beyond p k q → idx q = 0) : ∀ ds, k ≤ (t.children p).length →
    (t.children p).drop k = ds →
      LoadsNode t root number count p k idx (traverse (treeToStruct t root number arrayRet) p k ds)
  | [], hle, hdrop => by
    intro hstruct _
    refine ⟨_, rfl, Loads.mono (.refl fun _ => id) ?_⟩
    rintro ⟨_, is⟩ ⟨⟨s, j, hj, rfl⟩, -⟩ - - path hpath
    have hend := (List.drop_eq_nil_iff.1 hdrop).trans hj
    rw [fieldPath_none (t.descOf_beyond p hend s).1] at hpath
    cases hpath
  | d :: ds, hle, hdrop => by
    intro hstruct hallowed
    obtain ⟨hlt, hd, htail⟩ := t.children_drop_cons hdrop
    obtain ⟨m₁, hgo, hloads⟩ := traverseElem_loads hknown hfits hroot hnode hrest hstruct hallowed d hd
    obtain ⟨m', hgo', hloads'⟩ := traverse_loads hknown hfits hroot hnode (fun q hq => hrest q hq.succ) ds hlt
      htail hstruct (hloads.allowed hallowed)
    refine ⟨m', by rw [traverse, hgo]; exact hgo', (hloads.trans hloads').mono ?_⟩
    rintro call ⟨hbeyond, hsuffix⟩ - - - -
    rcases beyond_iff.1 hbeyond with hs | hnext
    · exact .inl ⟨hs, hsuffix⟩
    · exact .inr ⟨hnext, hsuffix⟩

end

end Elements

/-! ## Members that are missing -/

variable (t root number count) in
/-- A leaf has what is at its path. Without a path it is zero, unless it counts an array. -/
def LoadedFrom (call : LeafCall) (v : FieldValue) : Prop :=
  match fieldPath t root call with
  | some path => IsFrom t number count call path v
  | none => v = .zero ∨ t.CountsArray call.1 ∧ v = .count (count call)

/-- Where all structures are there, a zeroed structure gets each leaf from the node of its own
    path, whatever other leaves are missing. -/
theorem json2Struct_loads {desc : List ElemDesc} {created : Template} {scr : Scratch}
    (hcreated : Created desc created) (hflag : Flagged created t) (hrest : AtRest t scr)
    (hroot : IsObject root) (hfits : Fits t root number arrayRet count) (cursors : Cursors) :
    ∃ scr' m', Converts (treeToStruct t root number arrayRet).ops
        ⟨t, scr, ⟨some [], (cursors, fun _ => .zero)⟩⟩ 0 ⟨t, scr', ⟨some [], m'⟩⟩ ∧
      AtRest t scr' ∧ ∀ call : LeafCall, call.2.length + 1 = call.1.length →
        t.nested call.1 = false → LoadedFrom t root number count call (m'.2 call) := by
  have hknown : t.Known := fun loc d hd hsub =>
    hcreated.known ((Template.descOf_congr hflag.desc loc).symm.trans hd) hsub
  have hfull : t.Full := hflag.full hcreated.full
  obtain ⟨m', hgo, hloads⟩ := traverse_loads hknown hfits hroot (p := []) (k := 0)
    (.inl rfl) (fun _ _ => rfl) t.desc (Nat.zero_le _) rfl (m := (cursors, fun _ => .zero)) rfl
    fun _ => .inl rfl
  have hconvert : (treeToStruct t root number arrayRet).convert t.desc
      ⟨some [], (cursors, fun _ => .zero)⟩ = some (0, false, ⟨some [], m'⟩) := by
    have hmap : (treeOps root).isMap (some []) (cursors, (fun _ => .zero : Fields)) = true := by
      simp [treeOps, nodeOf, nodeAt, hroot.elemType]
    have hstart : (treeToStruct t root number arrayRet).start
        ⟨some [], (cursors, fun _ => .zero)⟩ = some (1, ⟨some [], (cursors, fun _ => .zero)⟩) := by
      simp only [treeToStruct, json2Struct, hmap, if_true]
    rw [Visitor.convert, hstart]
    simp only
    rw [if_neg (by decide), hgo]
    rfl
  have hrefines := convert_refines (v := treeToStruct t root number arrayRet)
    (json2Struct_orderly ..) hfull hrest ⟨some [], (cursors, fun _ => .zero)⟩
  rw [hconvert] at hrefines
  obtain ⟨scr', hconverts, hrest'⟩ := hrefines
  refine ⟨scr', m', hconverts, hrest' rfl, fun call hlen hleaf => ?_⟩
  rw [LoadedFrom]
  split
  next path hpath =>
    refine hloads.complete call ⟨?_, ?_⟩ hlen hleaf path hpath
    · rcases List.eq_nil_or_concat call.1 with hnil | ⟨s, j, hloc⟩
      · rw [hnil] at hlen
        cases hlen
      · exact ⟨s, j, Nat.zero_le j, by rw [hloc, List.concat_eq_append]⟩
    · exact List.nil_suffix
  next hnone =>
    rcases hloads.sound call with hsame | ⟨path, hpath, -⟩ | ⟨hcounts, -, hcount⟩
    · exact .inl hsame
    · rw [hnone] at hpath
      cases hpath
    · exact .inr ⟨hcounts, hcount⟩

end Load

/-! ### Pairs without a number -/

/-- A member of an object that is a number. -/
def wordNode (name : Char) (v : Int) : JsonNode :=
  { elemType := .num, isValue := Container.map.isValue, name := [name], value := v }

/-- An object with a word. -/
def halfNode (name : Char) (v : Int) : JsonNode :=
  (Container.array.child [] .map).extend [wordNode name v]

/-- The array of two objects that lack a word each. -/
def halvesNode : JsonNode :=
  (Container.map.child ['a'] .array).extend [halfNode 'x' 1, halfNode 'y' 2]

/-- The text `{"a":[{"x":1},{"y":2}]}`: two pairs that lack a word each, and no number of pairs. -/
def twoHalves : JsonNode := Container.map.rootNode.extend [halvesNode]

theorem twoHalves_isObject : IsObject twoHalves := by
  refine ⟨_, rfl, ?_⟩
  simp only [List.mem_singleton, forall_eq]
  have hword (name : Char) (hname : name ≠ '\x00') (v : Int) (hlt : v.natAbs < 2 ^ 31)
      (hmod : v % 2 ^ 32 = v) : Built .map (wordNode name v) := by
    have hbuilt : Built .map (wordNode name (v % 2 ^ 32)) := .num
      ⟨show 1 + 2 < DIGEST_SIZE by decide, by simpa using hname.symm⟩ hlt nofun
    rwa [hmod] at hbuilt
  refine .container ⟨by decide, by decide⟩ fun c hc => ?_
  rcases List.mem_pair.1 hc with rfl | rfl
  · exact .container rfl (by simpa using hword 'x' (by decide) 1 (by decide) (by decide))
  · exact .container rfl (by simpa using hword 'y' (by decide) 2 (by decide) (by decide))

/-- What is read from a number of the text, or from one that has been counted. -/
def halvesNumber (_ : Loc) : FieldValue → Int
  | .zero => 0
  | .count number => number
  | .node path => ((nodeAt twoHalves path).map (·.value)).getD 0

theorem children_pairs {t : Template} (hdesc : t.desc = pairsDesc) (p : Loc) :
    t.children p = if p = [] then pairsDesc else if p = [1] then [intElem 'x', intElem 'y'] else [] := by
  induction p with
  | nil => exact hdesc
  | cons k p ih =>
    rw [Template.children, ih, if_neg (List.cons_ne_nil k p)]
    rcases p with _ | ⟨j, p⟩
    · rw [if_pos rfl]
      rcases k with _ | _ | k <;> rfl
    · have hne : ¬ k :: j :: p = [1] := by simp
      rw [if_neg (List.cons_ne_nil j p), if_neg hne]
      split_ifs
      · rcases k with _ | _ | k <;> rfl
      · rfl

/-- The places of the number, the array and its words. -/
theorem descOf_pairs {t : Template} (hdesc : t.desc = pairsDesc) {d : ElemDesc}
    (hd : t.descOf loc = some d) : loc = [0] ∧ d = intElem 'n' ∨ loc = [1] ∧ d = pairsElem ∨
      loc = [0, 1] ∧ d = intElem 'x' ∨ loc = [1, 1] ∧ d = intElem 'y' := by
  rcases loc with _ | ⟨k, p⟩
  · cases hd
  rw [Template.descOf, children_pairs hdesc] at hd
  split_ifs at hd with hroot hpair
  · subst hroot
    rcases k with _ | _ | k
    · exact .inl ⟨rfl, (Option.some.inj hd).symm⟩
    · exact .inr (.inl ⟨rfl, (Option.some.inj hd).symm⟩)
    · cases hd
  · subst hpair
    rcases k with _ | _ | k
    · exact .inr (.inr (.inl ⟨rfl, (Option.some.inj hd).symm⟩))
    · exact .inr (.inr (.inr ⟨rfl, (Option.some.inj hd).symm⟩))
    · cases hd
  · cases hd

/-- The nodes of the text. -/
theorem nodeAt_twoHalves {path : JsonPath} {node : JsonNode} (h : nodeAt twoHalves path = some node) :
    path = [] ∧ node = twoHalves ∨ path = [0] ∧ node = halvesNode ∨
      path = [0, 0] ∧ node = halfNode 'x' 1 ∨ path = [1, 0] ∧ node = halfNode 'y' 2 ∨
      path = [0, 0, 0] ∧ node = wordNode 'x' 1 ∨ path = [0, 1, 0] ∧ node = wordNode 'y' 2 := by
  induction path generalizing node with
  | nil => exact .inl ⟨rfl, (Option.some.inj h).symm⟩
  | cons i path ih =>
    obtain ⟨father, hfather, hchild⟩ := Option.bind_eq_some_iff.1 h
    rcases ih hfather with ⟨rfl, rfl⟩ | ⟨rfl, rfl⟩ | ⟨rfl, rfl⟩ | ⟨rfl, rfl⟩ | ⟨rfl, rfl⟩ | ⟨rfl, rfl⟩
    · rcases i with _ | i
      · exact .inr (.inl ⟨rfl, (Option.some.inj hchild).symm⟩)
      · cases hchild
    · rcases i with _ | _ | i
      · exact .inr (.inr (.inl ⟨rfl, (Option.some.inj hchild).symm⟩))
      · exact .inr (.inr (.inr (.inl ⟨rfl, (Option.some.inj hchild).symm⟩)))
      · cases hchild
    · rcases i with _ | i
      · exact .inr (.inr (.inr (.inr (.inl ⟨rfl, (Option.some.inj hchild).symm⟩))))
      · cases hchild
    · rcases i with _ | i
      · exact .inr (.inr (.inr (.inr (.inr ⟨rfl, (Option.some.inj hchild).symm⟩))))
      · cases hchild
    · cases hchild
    · cases hchild

/-- The members of the objects in the text. -/
theorem memberPath_twoHalves {t : Template} (hdesc : t.desc = pairsDesc)
    {path : JsonPath} (h : memberPath t twoHalves loc path = some path') :
    loc = [1] ∧ path = [] ∧ path' = [0] ∨ loc = [0, 1] ∧ path = [0, 0] ∧ path' = [0, 0, 0] ∨
      loc = [1, 1] ∧ path = [1, 0] ∧ path' = [0, 1, 0] := by
  obtain ⟨d, o, hd, ho, hmap, hlt, rfl⟩ := memberPath_eq_some.1 h
  rcases nodeAt_twoHalves ho with ⟨rfl, rfl⟩ | ⟨rfl, rfl⟩ | ⟨rfl, rfl⟩ | ⟨rfl, rfl⟩ | ⟨rfl, rfl⟩ |
    ⟨rfl, rfl⟩
  · rcases descOf_pairs hdesc hd with ⟨rfl, rfl⟩ | ⟨rfl, rfl⟩ | ⟨rfl, rfl⟩ | ⟨rfl, rfl⟩
    · exact absurd hlt (by decide)
    · exact .inl ⟨rfl, rfl, rfl⟩
    · exact absurd hlt (by decide)
    · exact absurd hlt (by decide)
  · cases hmap
  · rcases descOf_pairs hdesc hd with ⟨rfl, rfl⟩ | ⟨rfl, rfl⟩ | ⟨rfl, rfl⟩ | ⟨rfl, rfl⟩
    · exact absurd hlt (by decide)
    · exact absurd hlt (by decide)
    · exact .inr (.inl ⟨rfl, rfl, rfl⟩)
    · exact absurd hlt (by decide)
  · rcases descOf_pairs hdesc hd with ⟨rfl, rfl⟩ | ⟨rfl, rfl⟩ | ⟨rfl, rfl⟩ | ⟨rfl, rfl⟩
    · exact absurd hlt (by decide)
    · exact absurd hlt (by decide)
    · exact absurd hlt (by decide)
    · exact .inr (.inr ⟨rfl, rfl, rfl⟩)
  · cases hmap
  · cases hmap

theorem countsArray_pairs {t : Template} (hdesc : t.desc = pairsDesc)
    (hdefine : (t.elem [1]).define = some [0]) {q : Loc} (h : t.CountsArray q) : q = [0] := by
  obtain ⟨loc, d, hd, hsub, -, hq⟩ := h
  rcases descOf_pairs hdesc hd with ⟨-, rfl⟩ | ⟨rfl, rfl⟩ | ⟨-, rfl⟩ | ⟨-, rfl⟩
  · cases hsub
  · exact Option.some.inj (hq.symm.trans hdefine)
  · cases hsub
  · cases hsub

/-- The text has what the template expects, for two pairs. -/
theorem fits_twoHalves {t : Template} (hdesc : t.desc = pairsDesc)
    (hdefine : (t.elem [1]).define = some [0]) :
    Fits t twoHalves halvesNumber (fun _ => 0) fun _ => 2 where
  leaf call d path node hd hsub hpath hnode := by
    obtain ⟨path₀, -, hmember⟩ := Option.bind_eq_some_iff.1 hpath
    rcases memberPath_twoHalves hdesc hmember with ⟨hloc, -, rfl⟩ | ⟨-, -, rfl⟩ | ⟨-, -, rfl⟩
    · have hpairs : t.descOf [1] = some pairsElem := congrArg (·[1]?) hdesc
      rw [hloc, hpairs] at hd
      obtain rfl := Option.some.inj hd
      cases hsub
    · obtain rfl := Option.some.inj hnode
      exact Int.le_refl 0
    · obtain rfl := Option.some.inj hnode
      exact Int.le_refl 0
  nested k p d idx path hd hsub hpath := by
    rcases descOf_pairs hdesc hd with ⟨-, rfl⟩ | ⟨hloc, rfl⟩ | ⟨-, rfl⟩ | ⟨-, rfl⟩
    · cases hsub
    · obtain ⟨rfl, rfl⟩ := List.cons.inj hloc
      obtain rfl := Option.some.inj hpath
      refine ⟨[0], halvesNode, ?_, rfl, .inr ⟨rfl, by decide, by decide⟩, ?_⟩
      · rw [memberPath, hd]
        rfl
      · rw [FitsNumber, if_pos (show pairsElem.type.attr.define = true from rfl)]
        have hcounter : t.descOf [0] = some (intElem 'n') := congrArg (·[0]?) hdesc
        exact ⟨[0], hdefine, by rw [hcounter]; rfl, rfl, by decide⟩
    · cases hsub
    · cases hsub
  counters call v hcounts hv := by
    have hcall := countsArray_pairs hdesc hdefine hcounts
    rcases hv with rfl | ⟨path, hpath, rfl⟩ | ⟨-, rfl⟩
    · exact .inl rfl
    · obtain ⟨_, -, hmember⟩ := Option.bind_eq_some_iff.1 hpath
      rw [hcall] at hmember
      rcases memberPath_twoHalves hdesc hmember with ⟨h, -⟩ | ⟨h, -⟩ | ⟨h, -⟩ <;> cases h
    · exact .inr rfl

/-- The template of the pairs, and what `json_2_struct` makes of the text. -/
theorem twoHalves_converts : ∃ t scr, Fresh pairsDesc t scr ∧ t.desc = pairsDesc ∧
    (t.elem [1]).define = some [0] ∧ fieldPath t twoHalves ([0], []) = none ∧
    fieldPath t twoHalves ([0, 1], [0]) = some [0, 0, 0] ∧
    fieldPath t twoHalves ([0, 1], [1]) = none ∧
    ∃ f', Converts (treeToStruct t twoHalves halvesNumber fun _ => 0).ops
      ⟨t, scr, ⟨some [], (fun _ => 0, fun _ => .zero)⟩⟩ 0 f' ∧ f'.para.mem.2 ([0], []) = .count 2 := by
  refine ⟨_, _, ⟨0, _, Int.le_refl 0, ⟨6, rfl⟩, rfl, rfl⟩, rfl, rfl, rfl, rfl, rfl, _, ⟨10, rfl⟩, ?_⟩
  decide +kernel

/-- The words of the text are those of the pairs, and the others are zero. -/
theorem json2Struct_loads_pairs : ∃ t scr scr' m', Fresh pairsDesc t scr ∧
    Converts (treeToStruct t twoHalves halvesNumber fun _ => 0).ops
      ⟨t, scr, ⟨some [], (fun _ => 0, fun _ => .zero)⟩⟩ 0 ⟨t, scr', ⟨some [], m'⟩⟩ ∧
    m'.2 ([0, 1], [0]) = .node [0, 0, 0] ∧ m'.2 ([0, 1], [1]) = .zero := by
  obtain ⟨t, scr, hfresh, hdesc, hdefine, -, hfirst, hsecond, -⟩ := twoHalves_converts
  obtain ⟨scr', m', hconverts, -, hloaded⟩ := json2Struct_loads hfresh.created hfresh.created.flagged
    hfresh.atRest twoHalves_isObject (fits_twoHalves hdesc hdefine) fun _ => 0
  have hleaf : t.nested [0, 1] = false := by
    have hword : t.descOf [0, 1] = some (intElem 'x') := by
      rw [Template.descOf, children_pairs hdesc]
      rfl
    exact (Template.nested_of_desc hword).trans rfl
  have hcounts : ¬ t.CountsArray [0, 1] := fun h => by cases countsArray_pairs hdesc hdefine h
  refine ⟨t, scr, scr', m', hfresh, hconverts, ?_, ?_⟩
  · have hfrom := hloaded ([0, 1], [0]) rfl hleaf
    rw [LoadedFrom, hfirst] at hfrom
    exact hfrom.resolve_right fun h => hcounts h.1
  · have hnone := hloaded ([0, 1], [1]) rfl hleaf
    rw [LoadedFrom, hsecond] at hnone
    exact hnone.resolve_right fun h => hcounts h.1

/-- The number of pairs is not in the text, and is set. -/
theorem not_missing_zero : ¬ ∀ (desc : List ElemDesc) (created t : Template) (scr : Scratch)
    (root : JsonNode) (number : Loc → FieldValue → Int) (arrayRet : JsonNode → Int)
    (count : LeafCall → Int) (cursors : Cursors), Created desc created → Flagged created t →
    AtRest t scr → IsObject root → Fits t root number arrayRet count →
    ∃ scr' m', Converts (treeToStruct t root number arrayRet).ops
        ⟨t, scr, ⟨some [], (cursors, fun _ => .zero)⟩⟩ 0 ⟨t, scr', ⟨some [], m'⟩⟩ ∧
      ∀ call, fieldPath t root call = none → m'.2 call = .zero := by
  intro h
  obtain ⟨t, scr, hfresh, hdesc, hdefine, hnumber, -, -, f', hconverts, hcount⟩ := twoHalves_converts
  obtain ⟨scr', m', hconverts', hzero⟩ := h pairsDesc t t scr twoHalves halvesNumber (fun _ => 0)
    (fun _ => 2) (fun _ => 0) hfresh.created hfresh.created.flagged hfresh.atRest twoHalves_isObject
    (fits_twoHalves hdesc hdefine)
  obtain ⟨-, rfl⟩ := hconverts.unique hconverts'
  cases hcount.symm.trans (hzero ([0], []) hnumber)

end Cube.Struct
