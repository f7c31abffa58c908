import Cube.Json.Built
import Cube.Struct.NegativeCount

/-!
# JSON trees with cursors

A node of a JSON tree is a pointer, which is told here by its place in the tree; each node
keeps a cursor in its children, `curr_child`. The functions that walk among the nodes
(`json.c`), as `json_2_struct` is given them, and its functions for the values of leaves.

What is kept of a structure is where the value of each leaf comes from: from a node, or from
the number of elements of an array.

* `memberPath`, `elemPath`: the nodes that stand for an element and for one of its structures.
* `nodeAt_built`: the nodes of a tree that the parser has built.
-/

namespace Cube.Struct

open Lib Json Function

/-- A place in a JSON tree: the numbers of the children that lead to it, the last one first. -/
abbrev JsonPath := List Nat

/-- The node at a place. -/
def nodeAt (root : JsonNode) : JsonPath → Option JsonNode
  | [] => some root
  | i :: path => (nodeAt root path).bind (·.childlist[i]?)

/-- The cursors of the nodes: the number of a child, or the number of children where it is at
    the head of the list. -/
abbrev Cursors := JsonPath → Nat

section Ops

variable {σ : Type} (root : JsonNode)

/-- `json_get_first_child`. -/
def jsonGetFirstChild (path : JsonPath) (m : Cursors × σ) :
    Option (Option JsonPath × (Cursors × σ)) :=
  (nodeAt root path).map fun node =>
    (if node.childlist.length = 0 then none else some (0 :: path), (update m.1 path 0, m.2))

/-- `json_get_next_child`. The record of the head of the list is `NULL`. -/
def jsonGetNextChild (path : JsonPath) (m : Cursors × σ) :
    Option (Option JsonPath × (Cursors × σ)) :=
  (nodeAt root path).map fun node =>
    let next := m.1 path + 1
    if m.1 path ≥ node.childlist.length then (none, m)
    else (if next = node.childlist.length then none else some (next :: path),
      (update m.1 path next, m.2))

/-- The number of the first child with the name, as far as `DIGEST_SIZE` characters, or the
    number of children. -/
def childNamed (name : List Char) (node : JsonNode) : Nat :=
  node.childlist.findIdx fun child => name.take DIGEST_SIZE == child.name.take DIGEST_SIZE

/-- `json_find_elem`. The cursor stops at the child that is found. -/
def jsonFindElem (name : List Char) (path : Option JsonPath) (m : Cursors × σ) :
    Option (Option JsonPath × (Cursors × σ)) :=
  match path with
  | none => some (none, m)
  | some path =>
    (nodeAt root path).map fun node =>
      let i := childNamed name node
      if node.elemType ≠ .map then (none, m)
      else (if i < node.childlist.length then some (i :: path) else none, (update m.1 path i, m.2))

/-- The node a pointer is to, if it is to one. -/
def nodeOf (path : Option JsonPath) : Option JsonNode := path.bind (nodeAt root)

/-- The functions that walk in a tree. -/
def treeOps : JsonOps JsonPath (Cursors × σ) where
  findElem := jsonFindElem root
  isMap path _ := (nodeOf root path).any (·.elemType == .map)
  isArray path _ := (nodeOf root path).any (·.elemType == .array)
  -- The error that `json_is_value` returns for `NULL` is not 0.
  isValue path _ := (nodeOf root path).all (·.isValue)
  elemno path _ := ((nodeOf root path).map (·.elemNo)).getD (-EINVAL)
  firstChild path m := path.bind (jsonGetFirstChild root · m)
  nextChild path m := path.bind (jsonGetNextChild root · m)
  father path _ := path.bind fun
    | [] => none
    | _ :: father => some father

end Ops

/-! ## What is kept of a structure -/

/-- What a leaf has: nothing but zeros, the value of the node at a place, or a number of
    elements. -/
inductive FieldValue
  | zero
  | node (path : JsonPath)
  | count (number : Int)
  deriving DecidableEq

/-- What each leaf has, in the structures of arrays with the indices. -/
abbrev Fields := LeafCall → FieldValue

section Loading

variable (t : Template) (root : JsonNode) (number : Loc → FieldValue → Int)
  (arrayRet : JsonNode → Int)

/-- The number that is read from a leaf. -/
def fieldNumber (loc : Loc) (idx : Indices) (m : Cursors × Fields) : Option Int :=
  some (number loc (m.2 (leafCall loc idx)))

/-- `_elem_set_defvalue`, of an element that has operations. -/
def elemSetDefvalue (loc : Loc) (idx : Indices) (value : Int) (m : Cursors × Fields) :
    Option (Int × (Cursors × Fields)) :=
  match (t.elem loc).define with
  | none => some (-EINVAL, m)
  | some define =>
    if value < 0 ∨ value > 1024 then some (-EINVAL, m)
    else if !(t.descOf define).any (·.type.hasOps) then some (0, m)
    else some (value, (m.1, update m.2 (leafCall define idx) (.count value)))

/-- What `_setvaluefromjson` returns, with what printing an array and stripping it of its
    brackets returns. -/
def setvalueRet (node : JsonNode) : Int :=
  match node.elemType with
  | .string | .num | .bool => 0
  | .array => if arrayRet node < 0 then arrayRet node else 0
  | .null | .map => -EINVAL

/-- `_setvaluefromjson`. -/
def setvaluefromjson (path : JsonPath) (loc : Loc) (idx : Indices) (m : Cursors × Fields) :
    Option (Int × Option Int × (Cursors × Fields)) :=
  (nodeAt root path).map fun node =>
    let ret := setvalueRet arrayRet node
    (ret, none, if ret < 0 then m else (m.1, update m.2 (leafCall loc idx) (.node path)))

/-- `json_2_struct`. The memory for arrays is there, and is zero as all of the structure was
    that has no value yet. -/
def treeToStruct : Visitor (NodePara JsonPath (Cursors × Fields)) :=
  json2Struct t none (treeOps root) (some []) (elemGetDefvalue t (fieldNumber number))
    (elemSetDefvalue t) (fun _ _ _ m => some (0, m)) (setvaluefromjson root arrayRet)

end Loading

/-! ## The nodes of elements -/

section Paths

variable (t : Template) (root : JsonNode)

/-- The member of an object for an element. -/
def memberPath (loc : Loc) (path : JsonPath) : Option JsonPath :=
  (t.descOf loc).bind fun d => (nodeAt root path).bind fun node =>
    if node.elemType = .map ∧ childNamed d.name node < node.childlist.length then
      some (childNamed d.name node :: path)
    else none

/-- The number of structures that a node stands for: an object for one, an array for its
    elements. -/
def elemNumber (node : JsonNode) : Nat :=
  if node.elemType = .map then 1 else if node.elemType = .array then node.childlist.length else 0

/-- The object for one of the structures of an element, at the node of the element. -/
def elemPath (path : JsonPath) (i : Int) : Option JsonPath :=
  (nodeAt root path).bind fun node =>
    if 0 ≤ i ∧ i < elemNumber node then
      if node.elemType = .map then some path else some (i.toNat :: path)
    else none

/-- The object for the structure at a place, with the indices of the structures it is in. -/
def structPath : Loc → List Int → Option JsonPath
  | [], _ => some []
  | _ :: _, [] => none
  | k :: p, i :: is =>
    ((structPath p is).bind (memberPath t root (k :: p))).bind fun path => elemPath root path i

/-- The node for a leaf, with the indices of the structures it is in. -/
def fieldPath (call : LeafCall) : Option JsonPath :=
  (structPath t root call.1.tail call.2).bind (memberPath t root call.1)

variable {t root} {path : JsonPath} {node : JsonNode}

theorem memberPath_eq_some {loc : Loc} {path' : JsonPath} :
    memberPath t root loc path = some path' ↔ ∃ d o, t.descOf loc = some d ∧
      nodeAt root path = some o ∧ o.elemType = .map ∧
      childNamed d.name o < o.childlist.length ∧ path' = childNamed d.name o :: path := by
  simp only [memberPath, Option.bind_eq_some_iff, Option.ite_none_right_eq_some,
    Option.some.injEq]
  constructor
  · rintro ⟨d, hd, o, ho, ⟨hmap, hlt⟩, rfl⟩
    exact ⟨d, o, hd, ho, hmap, hlt, rfl⟩
  · rintro ⟨d, o, hd, ho, hmap, hlt, rfl⟩
    exact ⟨d, hd, o, ho, ⟨hmap, hlt⟩, rfl⟩

/-- The root of an object that the parser has built. -/
def IsObject (root : JsonNode) : Prop :=
  ∃ nodes, root = Container.map.rootNode.extend nodes ∧ ∀ child ∈ nodes, Built .map child

theorem IsObject.elemType (h : IsObject root) : root.elemType = .map := by
  obtain ⟨nodes, rfl, _⟩ := h
  rfl

/-- Each node of a tree but the root is one that the parser builds in the node above it. -/
theorem nodeAt_built (h : IsObject root) :
    ∀ {path : JsonPath} {i : Nat} {node : JsonNode}, nodeAt root (i :: path) = some node →
      ∃ (k : Container) (father : JsonNode), nodeAt root path = some father ∧
        father.elemType = k.elemType ∧ Built k node := by
  obtain ⟨nodes, hroot, hnodes⟩ := h
  intro path
  induction path with
  | nil =>
    intro i node hnode
    refine ⟨.map, root, rfl, by rw [hroot]; rfl, hnodes node ?_⟩
    have hmem := List.mem_of_getElem? (show root.childlist[i]? = some node from hnode)
    rw [hroot] at hmem
    simpa [JsonNode.extend, Container.rootNode] using hmem
  | cons j path ih =>
    intro i node hnode
    obtain ⟨father, hfather, hchild⟩ := Option.bind_eq_some_iff.1 hnode
    obtain ⟨k, grandfather, _, _, hbuilt⟩ := ih hfather
    have hmem := List.mem_of_getElem? hchild
    cases hbuilt with
    | string _ _ _ => exact absurd hmem (by simp)
    | num _ _ _ => exact absurd hmem (by simp)
    | bool _ => exact absurd hmem (by simp)
    | @container _ k' name children _ hchildren =>
      refine ⟨k', _, hfather, rfl, hchildren node ?_⟩
      simpa [JsonNode.extend, Container.child] using hmem

theorem built_isValue {k : Container} (h : Built k node) : node.isValue = k.isValue := by
  cases h <;> rfl

/-- The children of an array are counted. -/
theorem built_elemNo {k : Container} (h : Built k node) (harray : node.elemType = .array) :
    node.elemNo = node.childlist.length := by
  cases h with
  | string _ _ _ => cases harray
  | num _ _ _ => cases harray
  | bool _ => cases harray
  | container _ _ => simp [JsonNode.extend, Container.child]

end Paths

end Cube.Struct
