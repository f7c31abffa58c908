import Cube.Struct.Traverse

/-!
# The conversions of structures

The functions `struct_deal.c` gives to the loop, for each of its conversions. What they
do with a value of an element (`_elem_get_bin_value` and its likes), with the memory of
the structures and with JSON nodes is given to them.

* `walk_refines_recursion`: in a conversion that comes through, the loop calls the function
  for leaves for those of the recursion, in its order, and leaves no variable set.
-/

namespace Cube.Struct

open Lib Function

/-! ## Structures that are counted -/

/-- The functions of a conversion that gives a structure its limit as it enters it: the
    value of the element that counts it, or its fixed size. `first` is what else it does
    then, `again` what it does where the limit is set. -/
structure Counting (π : Type) where
  start : π → Option (Int × π) := fun m => some (0, m)
  test : Loc → π → Bool := fun _ _ => true
  defvalue : Loc → Indices → π → Option Int
  first : Loc → Indices → Int → π → Option (Int × π) := fun _ _ _ m => some (0, m)
  again : Loc → Indices → Int → π → Option (Int × π) := fun _ _ _ m => some (0, m)
  exit : Loc → Indices → Int → π → Option (Int × π) := fun _ _ _ m => some (0, m)
  leaf : Loc → Indices → π → Option (Int × Option Int × π)
  finish : π → Option (Int × π) := fun m => some (0, m)

variable {π : Type}

/-- The limit a structure gets. -/
def Counting.limitOf (c : Counting π) (t : Template) (loc : Loc) (idx : Indices) (m : π) : Option Int :=
  match t.descOf loc with
  | none => none
  | some d => if d.type.attr.define then c.defvalue loc idx m else some d.number

/-- The function for a structure that is entered: without a limit it gets one, with the
    index 0. -/
def Counting.enter (c : Counting π) (t : Template) (loc : Loc) (idx : Indices) (limit : Int) (m : π) :
    Option (Entered π) :=
  if limit = 0 then
    let idx := update idx loc 0
    match c.limitOf t loc idx m with
    | none => none
    | some limit => (c.first loc idx limit m).map fun (ret, m) => ⟨ret, 0, limit, m⟩
  else (c.again loc idx limit m).map fun (ret, m) => ⟨ret, idx loc, limit, m⟩

/-- The functions given to the loop. -/
def Counting.visitor (c : Counting π) (t : Template) : Visitor π where
  start := c.start
  test := c.test
  enter := c.enter t
  exit := c.exit
  leaf := c.leaf
  finish := c.finish

/-- An element that passes the test once always does. -/
structure Counting.Steady (c : Counting π) : Prop where
  first : ∀ {loc idx limit m r}, c.first loc idx limit m = some r → ∀ q, c.test q r.2 = c.test q m
  again : ∀ {loc idx limit m r}, c.again loc idx limit m = some r → ∀ q, c.test q r.2 = c.test q m
  exit : ∀ {loc idx limit m r}, c.exit loc idx limit m = some r → ∀ q, c.test q r.2 = c.test q m
  leaf : ∀ {loc idx m r}, c.leaf loc idx m = some r → ∀ q, c.test q r.2.2 = c.test q m

theorem Counting.orderly {c : Counting π} (hc : c.Steady) (t : Template) : (c.visitor t).Orderly where
  first {loc idx m e} h _ := by
    simp only [visitor, enter, if_true] at h
    split at h
    · cases h
    · obtain ⟨r, _, rfl⟩ := Option.map_eq_some_iff.1 h
      rfl
  again {loc idx limit m e} h hlimit := by
    simp only [visitor, enter, if_neg hlimit] at h
    obtain ⟨r, _, rfl⟩ := Option.map_eq_some_iff.1 h
    exact ⟨rfl, rfl⟩
  test_enter {loc idx limit m e} h q := by
    simp only [visitor, enter] at h
    split_ifs at h
    · split at h
      · cases h
      · obtain ⟨r, hr, rfl⟩ := Option.map_eq_some_iff.1 h
        exact hc.first hr q
    · obtain ⟨r, hr, rfl⟩ := Option.map_eq_some_iff.1 h
      exact hc.again hr q
  test_exit h q := hc.exit h q
  test_leaf h q := hc.leaf h q

/-! ## The functions of each conversion -/

section Functions

variable {μ : Type} (t : Template)

/-- `part_deal_test`, where a conversion has a flag: elements with the flag are taken. -/
def partDealTest (flag : Option Int32) (loc : Loc) : Bool :=
  match flag with
  | none => true
  | some flag => (t.elem loc).flag &&& flag != 0

/-- There is an array at the place. -/
def Template.isArray (loc : Loc) : Bool := (t.descOf loc).any (·.type.attr.array)

/-- There is an element at the place that another one counts. -/
def Template.isDefine (loc : Loc) : Bool := (t.descOf loc).any (·.type.attr.define)

/-- What `struct_2_blob` and `blob_2_struct` keep: how much of the blob is done. -/
structure BlobPara (μ : Type) where
  offset : Int
  mem : μ
  deriving DecidableEq

/-- `proc_struct_2_blob` and `proc_blob_2_struct`, with `_elem_get_bin_value` and
    `_elem_set_bin_value` at an offset of the blob. -/
def procBlob (binValue : Int → Loc → Indices → μ → Option (Int × Option Int × μ)) (loc : Loc)
    (idx : Indices) (m : BlobPara μ) : Option (Int × Option Int × BlobPara μ) :=
  (binValue m.offset loc idx m.mem).map fun (ret, i, mem) =>
    (ret, i, ⟨if ret ≥ 0 then m.offset + ret else m.offset, mem⟩)

/-- `struct_2_blob`, or `struct_2_part_blob` with a flag. -/
def struct2Blob (flag : Option Int32) (defvalue : Loc → Indices → μ → Option Int)
    (getBinValue : Int → Loc → Indices → μ → Option (Int × Option Int × μ)) : Counting (BlobPara μ) where
  test loc _ := partDealTest t flag loc
  defvalue loc idx m := defvalue loc idx m.mem
  leaf := procBlob getBinValue

/-- The memory for the structures of an array, for a limit above 0. -/
def allocElems (alloc : Loc → Indices → Int → μ → Option (Int × μ)) (loc : Loc) (idx : Indices)
    (limit : Int) (mem : μ) : Option (Int × μ) :=
  if t.isArray loc ∧ limit > 0 then alloc loc idx limit mem else some (0, mem)

/-- `blob_2_struct`, or `blob_2_part_struct` with a flag. -/
def blob2Struct (flag : Option Int32) (defvalue : Loc → Indices → μ → Option Int)
    (alloc : Loc → Indices → Int → μ → Option (Int × μ))
    (setBinValue : Int → Loc → Indices → μ → Option (Int × Option Int × μ)) : Counting (BlobPara μ) where
  test loc _ := partDealTest t flag loc
  defvalue loc idx m := defvalue loc idx m.mem
  first loc idx limit m := (allocElems t alloc loc idx limit m.mem).map fun (ret, mem) =>
    (ret, { m with mem := mem })
  leaf := procBlob setBinValue

/-- `struct_clone`, or `struct_part_clone` with a flag. The numbers are read from the
    structure that is made. -/
def structClone (flag : Option Int32) (defvalue : Loc → Indices → μ → Option Int)
    (alloc : Loc → Indices → Int → μ → Option (Int × μ))
    (cloneValue : Loc → Indices → μ → Option (Int × Option Int × μ)) : Counting μ where
  test loc _ := partDealTest t flag loc
  defvalue := defvalue
  first := allocElems t alloc
  leaf := cloneValue

/-- `struct_compare`, or `struct_part_compare` with a flag. Structures that are counted
    differently differ, once the limit is set. -/
def structCompare (flag : Option Int32) (defvalueSrc defvalueDestr : Loc → Indices → μ → Option Int)
    (compareValue : Loc → Indices → μ → Option (Int × Option Int × μ)) : Counting μ where
  test loc _ := partDealTest t flag loc
  defvalue := defvalueDestr
  first loc idx limit mem :=
    if t.isDefine loc then
      (defvalueSrc loc idx mem).map fun defvalue => (if defvalue ≠ limit then -EINVAL else 0, mem)
    else some (0, mem)
  leaf loc idx mem := (compareValue loc idx mem).map fun (ret, i, mem) =>
    (if ret ≠ 0 then -1 else ret, i, mem)

/-- `struct_free`: the limits are not set. -/
def structFree (freeValue : Loc → Indices → μ → Option (Int × Option Int × μ))
    (freeArray : Loc → Indices → μ → Option μ) : Visitor μ where
  enter loc idx limit mem := some ⟨0, idx loc, limit, mem⟩
  exit loc idx _ mem := (freeArray loc idx mem).map fun mem => (0, mem)
  leaf := freeValue

/-! ### To JSON -/

/-- What `struct_2_json` keeps: the text up to its offset. -/
structure JsonPara (μ : Type) where
  text : List Char
  mem : μ

/-- The text with some more behind it. -/
def JsonPara.put (m : JsonPara μ) (s : List Char) : JsonPara μ := { m with text := m.text ++ s }

/-- The text with its last character written over. -/
def JsonPara.over (m : JsonPara μ) (c : Char) : JsonPara μ := { m with text := m.text.dropLast ++ [c] }

/-- `_print_elem_name`. -/
def printElemName (loc : Loc) (m : JsonPara μ) : JsonPara μ :=
  let name := ((t.descOf loc).map (·.name)).getD []
  m.put (['"'] ++ name.take 64 ++ ['"', ':'])

/-- The brackets `_tojson_enterstruct` writes, for a limit and an index. -/
def enterBrackets (define : Bool) (limit index : Int) : List Char :=
  if limit = 0 then ['[']
  else if limit = 1 then if define then ['[', '{'] else ['{']
  else if limit > 1 then if index = 0 then ['[', '{'] else ['{']
  else []

/-- `_tojson_exitstruct`. -/
def tojsonExitstruct (loc : Loc) (idx : Indices) (limit : Int) (m : JsonPara μ) :
    Option (Int × JsonPara μ) :=
  let m :=
    if limit = 0 then m.put [']']
    else
      let m := m.over '}'
      if limit = 1 ∧ t.isDefine loc then m.put [']']
      else if limit > 1 ∧ idx loc ≥ limit then m.put [']']
      else m
  let m := m.put [',']
  some (m.text.length, m)

/-- `_tojson_proc_func`, with `_elem_get_text_value` and `_getjsonstr`, which write the text
    of a leaf and a comma behind its name. -/
def tojsonProcFunc (textValue : Loc → Indices → JsonPara μ → Option (Int × Option Int × JsonPara μ))
    (loc : Loc) (idx : Indices) (m : JsonPara μ) : Option (Int × Option Int × JsonPara μ) :=
  textValue loc idx (printElemName t loc m)

/-- `struct_2_json`, or `struct_2_part_json` with a flag. -/
def struct2Json (flag : Option Int32) (defvalue : Loc → Indices → μ → Option Int)
    (textValue : Loc → Indices → JsonPara μ → Option (Int × Option Int × JsonPara μ)) :
    Counting (JsonPara μ) where
  start m := some (1, { m with text := ['{'] })
  test loc _ := partDealTest t flag loc
  defvalue loc idx m := defvalue loc idx m.mem
  first loc idx limit m :=
    let m := (printElemName t loc m).put (enterBrackets (t.isDefine loc) limit (idx loc))
    some (m.text.length, m)
  again loc idx limit m :=
    let m := m.put (enterBrackets (t.isDefine loc) limit (idx loc))
    some (m.text.length, m)
  exit := tojsonExitstruct t
  leaf := tojsonProcFunc t textValue
  finish m := some (1, if m.text.length > 1 then m.over '}' else m.put ['}'])

/-! ### From JSON -/

/-- The operations on JSON nodes, which keep a cursor in them. No node is `NULL`. -/
structure JsonOps (ν μ : Type) where
  findElem : List Char → Option ν → μ → Option (Option ν × μ)
  isMap : Option ν → μ → Bool
  isArray : Option ν → μ → Bool
  isValue : Option ν → μ → Bool
  elemno : Option ν → μ → Int
  firstChild : Option ν → μ → Option (Option ν × μ)
  nextChild : Option ν → μ → Option (Option ν × μ)
  father : Option ν → μ → Option ν

/-- What `json_2_struct` keeps: the node it is at. -/
structure NodePara (ν μ : Type) where
  jsonNode : Option ν
  mem : μ

variable {ν : Type}

/-- The part of `_jsonto_enterstruct` for every pass: the node becomes its first child, or
    its next one. -/
def jsontoChild (j : JsonOps ν μ) (index limit : Int) (m : NodePara ν μ) :
    Option (Entered (NodePara ν μ)) :=
  let child := fun (r : Option (Option ν × μ)) => r.map fun (node, mem) =>
    (⟨if node.isNone then -EINVAL else 1, index, limit, ⟨node, mem⟩⟩ : Entered (NodePara ν μ))
  if index = 0 then
    if j.isArray m.jsonNode m.mem then child (j.firstChild m.jsonNode m.mem)
    else some ⟨1, index, limit, m⟩
  else if limit > 1 then child (j.nextChild m.jsonNode m.mem)
  else some ⟨1, index, limit, m⟩

/-- The memory for the structures of an array, whose limit is set. -/
def jsontoAlloc (alloc : Loc → Indices → Int → μ → Option (Int × μ)) (loc : Loc) (idx : Indices)
    (limit : Int) (m : NodePara ν μ) : Option (Entered (NodePara ν μ)) :=
  if limit > 0 then (alloc loc idx limit m.mem).map fun (ret, mem) =>
    ⟨ret, 0, limit, { m with mem := mem }⟩
  else some ⟨0, 0, limit, m⟩

/-- An array with the count 0 is counted by the JSON node, and the count is stored. -/
def jsontoCount (j : JsonOps ν μ) (setDefvalue : Loc → Indices → Int → μ → Option (Int × μ))
    (alloc : Loc → Indices → Int → μ → Option (Int × μ)) (loc : Loc) (idx : Indices)
    (m : NodePara ν μ) : Option (Entered (NodePara ν μ)) :=
  let limit := if j.isMap m.jsonNode m.mem then 1 else j.elemno m.jsonNode m.mem
  if limit < 0 then some ⟨-EINVAL, 0, limit, m⟩
  else match setDefvalue loc idx limit m.mem with
  | none => none
  | some (ret, mem) =>
    let m := { m with mem := mem }
    if ret < 0 then some ⟨-EINVAL, 0, limit, m⟩ else jsontoAlloc alloc loc idx limit m

/-- The part of `_jsonto_enterstruct` for an array without a limit, at its JSON node. -/
def jsontoArray (j : JsonOps ν μ) (defvalue : Loc → Indices → μ → Option Int)
    (setDefvalue : Loc → Indices → Int → μ → Option (Int × μ))
    (alloc : Loc → Indices → Int → μ → Option (Int × μ)) (loc : Loc) (d : ElemDesc) (idx : Indices)
    (m : NodePara ν μ) : Option (Entered (NodePara ν μ)) :=
  match if d.type.attr.define then defvalue loc idx m.mem else some d.number with
  | none => none
  | some limit =>
    if limit = 0 then jsontoCount j setDefvalue alloc loc idx m else jsontoAlloc alloc loc idx limit m

/-- `_jsonto_enterstruct`. A structure the JSON node has no element for gets no limit. -/
def jsontoEnterstruct (j : JsonOps ν μ) (defvalue : Loc → Indices → μ → Option Int)
    (setDefvalue : Loc → Indices → Int → μ → Option (Int × μ))
    (alloc : Loc → Indices → Int → μ → Option (Int × μ)) (loc : Loc) (idx : Indices) (limit : Int)
    (m : NodePara ν μ) : Option (Entered (NodePara ν μ)) :=
  if limit = 0 then
    match t.descOf loc with
    | none => none
    | some d =>
      match j.findElem d.name m.jsonNode m.mem with
      | none => none
      | some (none, mem) => some ⟨0, idx loc, 0, { m with mem := mem }⟩
      | some (some node, mem) =>
        if !j.isMap (some node) mem ∧ !j.isArray (some node) mem then
          some ⟨-EINVAL, idx loc, 0, { m with mem := mem }⟩
        else
          let m := ⟨some node, mem⟩
          match if d.type.attr.array then jsontoArray j defvalue setDefvalue alloc loc d (update idx loc 0) m
            else some ⟨0, 0, d.number, m⟩ with
          | none => none
          | some e => if e.ret < 0 then some e else jsontoChild j e.index e.limit e.para
  else jsontoChild j (idx loc) limit m

/-- `_jsonto_exitstruct`. -/
def jsontoExitstruct (j : JsonOps ν μ) (loc : Loc) (idx : Indices) (limit : Int) (m : NodePara ν μ) :
    Option (Int × NodePara ν μ) :=
  let father := j.father m.jsonNode m.mem
  let node := if idx loc ≥ limit ∧ j.isValue m.jsonNode m.mem then j.father father m.mem else father
  some (1, { m with jsonNode := node })

/-- `_jsonto_proc_func`, with `_setvaluefromjson`. -/
def jsontoProcFunc (j : JsonOps ν μ)
    (setValue : ν → Loc → Indices → μ → Option (Int × Option Int × μ)) (loc : Loc) (idx : Indices)
    (m : NodePara ν μ) : Option (Int × Option Int × NodePara ν μ) :=
  let name := ((t.descOf loc).map (·.name)).getD []
  match j.findElem name m.jsonNode m.mem with
  | none => none
  | some (none, mem) => some (0, none, { m with mem := mem })
  | some (some node, mem) => (setValue node loc idx mem).map fun (ret, i, mem) =>
    (ret, i, { m with mem := mem })

/-- `json_2_struct`, or `json_2_part_struct` with a flag. -/
def json2Struct (flag : Option Int32) (j : JsonOps ν μ) (root : Option ν)
    (defvalue : Loc → Indices → μ → Option Int)
    (setDefvalue : Loc → Indices → Int → μ → Option (Int × μ))
    (alloc : Loc → Indices → Int → μ → Option (Int × μ))
    (setValue : ν → Loc → Indices → μ → Option (Int × Option Int × μ)) : Visitor (NodePara ν μ) where
  start m := some (if j.isMap root m.mem then 1 else -EINVAL, m)
  test loc _ := partDealTest t flag loc
  enter := jsontoEnterstruct t j defvalue setDefvalue alloc
  exit := jsontoExitstruct j
  leaf := jsontoProcFunc t j setValue

end Functions

/-! ## The order of the leaves -/

/-- A call of the function for a leaf: the leaf, and the indices of the structures it is
    in, the innermost first. -/
abbrev LeafCall := Loc × List Int

/-- The indices of a structure and of those it is in. -/
def pathIndices : Loc → Indices → List Int
  | [], _ => []
  | k :: p, idx => idx (k :: p) :: pathIndices p idx

theorem length_pathIndices (p : Loc) (idx : Indices) : (pathIndices p idx).length = p.length := by
  induction p with
  | nil => rfl
  | cons k p ih => rw [pathIndices, List.length_cons, List.length_cons, ih]

theorem pathIndices_update {loc p : Loc} (h : p.length < loc.length) (idx : Indices) (i : Int) :
    pathIndices p (update idx loc i) = pathIndices p idx := by
  induction p with
  | nil => rfl
  | cons k p ih =>
    have hne : k :: p ≠ loc := fun heq => by simp [← heq] at h
    rw [pathIndices, pathIndices, update_of_ne hne, ih (Nat.lt_of_succ_lt h)]

/-- The call for a leaf, with the indices of the structures. -/
def leafCall (loc : Loc) (idx : Indices) : LeafCall := (loc, pathIndices loc.tail idx)

/-- The functions of a conversion, with a list of the calls of the one for leaves. -/
def Visitor.logged (v : Visitor π) : Visitor (π × List LeafCall) where
  start m := (v.start m.1).map fun (ret, m') => (ret, m', m.2)
  test loc m := v.test loc m.1
  enter loc idx limit m := (v.enter loc idx limit m.1).map fun e => ⟨e.ret, e.index, e.limit, e.para, m.2⟩
  exit loc idx limit m := (v.exit loc idx limit m.1).map fun (ret, m') => (ret, m', m.2)
  leaf loc idx m := (v.leaf loc idx m.1).map fun (ret, i, m') => (ret, i, m', m.2 ++ [leafCall loc idx])
  finish m := (v.finish m.1).map fun (ret, m') => (ret, m', m.2)

theorem Visitor.Orderly.logged {v : Visitor π} (hv : v.Orderly) : v.logged.Orderly where
  first h hidx := by
    obtain ⟨e, he, rfl⟩ := Option.map_eq_some_iff.1 h
    exact hv.first he hidx
  again h hlimit := by
    obtain ⟨e, he, rfl⟩ := Option.map_eq_some_iff.1 h
    exact hv.again he hlimit
  test_enter h q := by
    obtain ⟨e, he, rfl⟩ := Option.map_eq_some_iff.1 h
    exact hv.test_enter he q
  test_exit h q := by
    obtain ⟨r, hr, rfl⟩ := Option.map_eq_some_iff.1 h
    exact hv.test_exit hr q
  test_leaf h q := by
    obtain ⟨r, hr, rfl⟩ := Option.map_eq_some_iff.1 h
    exact hv.test_leaf hr q

/-- Where the recursion comes through, no function reports an error, and the loop comes
    through too: it calls the function for leaves for the same leaves, with the same
    indices, in the same order, and ends with no variable of the walk set. What is stored
    in the index of a leaf is left there. -/
theorem walk_refines_recursion {desc : List ElemDesc} {created t : Template} {scr : Scratch}
    (hcreated : Created desc created) (hflag : Flagged created t) (hrest : AtRest t scr)
    {c : Counting π} (hc : c.Steady) {m m₀ m₁ m' : π} {leaves : List LeafCall} {r ret : Int}
    (hstart : c.start m = some (r, m₀)) (hr : 0 ≤ r)
    (hgo : traverse (c.visitor t).logged [] 0 desc (fun _ => 0) (m₀, []) = .done (m₁, leaves))
    (hfinish : c.finish m₁ = some (ret, m')) :
    ∃ scr', Converts (c.visitor t).logged.ops ⟨t, scr, (m, [])⟩ ret ⟨t, scr', (m', leaves)⟩ ∧
      AtRest t scr' := by
  have hdesc : t.desc = desc := hflag.desc.trans hcreated.desc
  have hrefines := convert_refines (Counting.orderly hc t).logged (hflag.full hcreated.full) hrest
    (m, ([] : List LeafCall))
  have hconvert : (c.visitor t).logged.convert t.desc (m, []) = some (ret, false, (m', leaves)) := by
    have hstart' : (c.visitor t).logged.start (m, []) = some (r, (m₀, [])) := by
      simp only [Visitor.logged, Counting.visitor, hstart, Option.map_some]
    have hfinish' : (c.visitor t).logged.finish (m₁, leaves) = some (ret, (m', leaves)) := by
      simp only [Visitor.logged, Counting.visitor, hfinish, Option.map_some]
    rw [Visitor.convert, hstart', hdesc]
    simp only [if_neg (Int.not_lt.2 hr), hgo, hfinish', Option.map_some]
  rw [hconvert] at hrefines
  obtain ⟨scr', hconverts, hrest'⟩ := hrefines
  exact ⟨scr', hconverts, hrest' rfl⟩

/-! ### Structures of words -/

/-- The number in the element that counts another one, in a structure of 4-byte words. -/
def wordDefvalue (t : Template) (words : LeafCall → Int) (loc : Loc) (idx : Indices) (_ : List Int) :
    Option Int :=
  (t.elem loc).define.map fun define => words (leafCall define idx)

/-- `_elem_get_bin_value` for a word, which is written behind the others. For a word that
    another one counts, that one is stored in its index. -/
def wordGetBinValue (t : Template) (words : LeafCall → Int) (_ : Int) (loc : Loc) (idx : Indices)
    (blob : List Int) : Option (Int × Option Int × List Int) :=
  some (4, if t.isDefine loc then wordDefvalue t words loc idx blob else none,
    blob ++ [words (leafCall loc idx)])

/-- `struct_2_blob` of a structure of words. -/
def wordsStruct2Blob (t : Template) (words : LeafCall → Int) : Counting (BlobPara (List Int)) :=
  struct2Blob t none (wordDefvalue t words) (wordGetBinValue t words)

theorem wordsStruct2Blob_steady (t : Template) (words : LeafCall → Int) :
    (wordsStruct2Blob t words).Steady :=
  ⟨fun _ _ => rfl, fun _ _ => rfl, fun _ _ => rfl, fun _ _ => rfl⟩

/-- A number of pairs of words. -/
def pairsDesc : List ElemDesc :=
  [intElem 'n', ⟨['a'], .defarray, 0, [intElem 'x', intElem 'y'], none, some ['n']⟩]

/-- Two pairs, with the words 2, 10, 11, 20 and 21. -/
def twoPairs : LeafCall → Int
  | ([0], _) => 2
  | ([0, 1], i) => 10 * (i.headD 0 + 1)
  | (_, i) => 10 * (i.headD 0 + 1) + 1

/-- The words of two pairs are written in the order of the pairs. -/
theorem walk_refines_recursion_pairs : ∃ t scr scr',
    Converts ((wordsStruct2Blob t twoPairs).visitor t).logged.ops ⟨t, scr, (⟨0, []⟩, [])⟩ 0
      ⟨t, scr', (⟨20, [2, 10, 11, 20, 21]⟩,
        [([0], []), ([0, 1], [0]), ([1, 1], [0]), ([0, 1], [1]), ([1, 1], [1])])⟩ := by
  obtain ⟨t, scr, hfresh, hgo⟩ : ∃ t scr, Fresh pairsDesc t scr ∧
      traverse ((wordsStruct2Blob t twoPairs).visitor t).logged [] 0 pairsDesc (fun _ => 0)
        (⟨0, []⟩, []) = .done (⟨20, [2, 10, 11, 20, 21]⟩,
          [([0], []), ([0, 1], [0]), ([1, 1], [0]), ([0, 1], [1]), ([1, 1], [1])]) := by
    refine ⟨_, _, ⟨0, _, Int.le_refl 0, ⟨6, rfl⟩, rfl, rfl⟩, ?_⟩
    decide +kernel
  obtain ⟨scr', hconverts, _⟩ := walk_refines_recursion hfresh.created hfresh.created.flagged
    hfresh.atRest (wordsStruct2Blob_steady t twoPairs) rfl (Int.le_refl 0) hgo rfl
  exact ⟨t, scr, scr', hconverts⟩

/-- A type and a subtype, which the type counts. -/
def subtypeDesc : List ElemDesc :=
  [⟨['t'], .recordtype, 0, [], none, none⟩, ⟨['s'], .recordsubtype, 0, [], none, some ['t']⟩]

/-- The type 3 and the subtype 1. -/
def subtypeWords : LeafCall → Int
  | ([0], _) => 3
  | _ => 1

/-- `struct_2_blob` leaves the type in the index of the subtype: not every index is what
    it was before. -/
theorem leaf_index_left : ¬ ∀ (π : Type) (desc : List ElemDesc) (t : Template) (scr : Scratch)
    (c : Counting π) (m m₀ m₁ m' : π) (leaves : List LeafCall) (r ret : Int),
    Fresh desc t scr → c.Steady → c.start m = some (r, m₀) → 0 ≤ r →
    traverse (c.visitor t).logged [] 0 desc (fun _ => 0) (m₀, []) = .done (m₁, leaves) →
    c.finish m₁ = some (ret, m') →
    ∃ scr', Converts (c.visitor t).logged.ops ⟨t, scr, (m, [])⟩ ret ⟨t, scr', (m', leaves)⟩ ∧
      scr'.index = scr.index ∧ scr'.limit = scr.limit := by
  intro h
  obtain ⟨t, scr, hfresh, hgo, f', hconverts, hleft⟩ : ∃ t scr, Fresh subtypeDesc t scr ∧
      traverse ((wordsStruct2Blob t subtypeWords).visitor t).logged [] 0 subtypeDesc (fun _ => 0)
        (⟨0, []⟩, []) = .done (⟨8, [3, 1]⟩, [([0], []), ([1], [])]) ∧
      ∃ f', Converts ((wordsStruct2Blob t subtypeWords).visitor t).logged.ops ⟨t, scr, (⟨0, []⟩, [])⟩ 0 f' ∧
        f'.scr.index [1] ≠ scr.index [1] := by
    refine ⟨_, _, ⟨0, _, Int.le_refl 0, ⟨3, rfl⟩, rfl, rfl⟩, ?_, _, ⟨3, rfl⟩, ?_⟩
    · decide +kernel
    · decide +kernel
  obtain ⟨scr', hconverts', hindex, _⟩ := h _ _ t scr (wordsStruct2Blob t subtypeWords) _ _ _ _ _ _ _
    hfresh (wordsStruct2Blob_steady t subtypeWords) rfl (Int.le_refl 0) hgo rfl
  obtain ⟨_, rfl⟩ := hconverts.unique hconverts'
  exact hleft (congrFun hindex [1])

end Cube.Struct
