import Cube.Struct.Conversions

/-!
# Conversions one after another

A template is shared by all that convert structures of its type, and the walk keeps its
variables in it. A conversion that ends with an error returns at once and leaves them
as they are.

* `history_independent`: after conversions none of which ended with an error inside a
  structure, a conversion does what it does with a template just created.
* `history_dependent`: a malformed blob changes what is written of the next structure.
-/

namespace Cube.Struct

open Lib Function

/-! ## The conversions -/

section Conversions

variable (t : Template)

/-- The functions are those of a conversion of structures with the template. -/
inductive IsConversion : {π : Type} → Visitor π → Prop
  | struct2Blob {μ : Type} (flag : Option Int32) (defvalue : Loc → Indices → μ → Option Int)
      (getBinValue : Int → Loc → Indices → μ → Option (Int × Option Int × μ)) :
      IsConversion ((struct2Blob t flag defvalue getBinValue).visitor t)
  | blob2Struct {μ : Type} (flag : Option Int32) (defvalue : Loc → Indices → μ → Option Int)
      (alloc : Loc → Indices → Int → μ → Option (Int × μ))
      (setBinValue : Int → Loc → Indices → μ → Option (Int × Option Int × μ)) :
      IsConversion ((blob2Struct t flag defvalue alloc setBinValue).visitor t)
  | structClone {μ : Type} (flag : Option Int32) (defvalue : Loc → Indices → μ → Option Int)
      (alloc : Loc → Indices → Int → μ → Option (Int × μ))
      (cloneValue : Loc → Indices → μ → Option (Int × Option Int × μ)) :
      IsConversion ((structClone t flag defvalue alloc cloneValue).visitor t)
  | structCompare {μ : Type} (flag : Option Int32) (defvalueSrc defvalueDestr : Loc → Indices → μ → Option Int)
      (compareValue : Loc → Indices → μ → Option (Int × Option Int × μ)) :
      IsConversion ((structCompare t flag defvalueSrc defvalueDestr compareValue).visitor t)
  | structFree {μ : Type} (freeValue : Loc → Indices → μ → Option (Int × Option Int × μ))
      (freeArray : Loc → Indices → μ → Option μ) : IsConversion (structFree freeValue freeArray)
  | struct2Json {μ : Type} (flag : Option Int32) (defvalue : Loc → Indices → μ → Option Int)
      (textValue : Loc → Indices → JsonPara μ → Option (Int × Option Int × JsonPara μ)) :
      IsConversion ((struct2Json t flag defvalue textValue).visitor t)
  | json2Struct {μ ν : Type} (flag : Option Int32) (j : JsonOps ν μ) (root : Option ν)
      (defvalue : Loc → Indices → μ → Option Int)
      (setDefvalue : Loc → Indices → Int → μ → Option (Int × μ))
      (alloc : Loc → Indices → Int → μ → Option (Int × μ))
      (setValue : ν → Loc → Indices → μ → Option (Int × Option Int × μ)) :
      IsConversion (json2Struct t flag j root defvalue setDefvalue alloc setValue)

variable {t}

variable {π : Type}

/-- A test of flags gives an element the same verdict always. -/
theorem Counting.steady_of_test {c : Counting π} (test : Loc → Bool)
    (h : c.test = fun loc _ => test loc) : c.Steady := by
  have hsame : ∀ q m m', c.test q m' = c.test q m := fun q m m' => by rw [h]
  exact ⟨fun _ q => hsame q _ _, fun _ q => hsame q _ _, fun _ q => hsame q _ _, fun _ q => hsame q _ _⟩

variable {μ ν : Type} {j : JsonOps ν μ} {defvalue : Loc → Indices → μ → Option Int}
  {setDefvalue : Loc → Indices → Int → μ → Option (Int × μ)}
  {alloc : Loc → Indices → Int → μ → Option (Int × μ)} {loc : Loc} {idx : Indices}
  {limit index : Int}
  {m : NodePara ν μ} {e : Entered (NodePara ν μ)}

/-- The part for every pass sets neither the index nor the limit. -/
theorem jsontoChild_spec (h : jsontoChild j index limit m = some e) :
    e.index = index ∧ e.limit = limit := by
  have hchild : ∀ {r : Option (Option ν × μ)}, (r.map fun found =>
      (⟨if found.1.isNone then -EINVAL else 1, index, limit, ⟨found.1, found.2⟩⟩ :
        Entered (NodePara ν μ))) = some e → e.index = index ∧ e.limit = limit := by
    intro r h
    obtain ⟨_, _, rfl⟩ := Option.map_eq_some_iff.1 h
    exact ⟨rfl, rfl⟩
  simp only [jsontoChild] at h
  split_ifs at h
  · exact hchild h
  · obtain rfl := Option.some.inj h
    exact ⟨rfl, rfl⟩
  · exact hchild h
  · obtain rfl := Option.some.inj h
    exact ⟨rfl, rfl⟩

theorem jsontoAlloc_index (h : jsontoAlloc alloc loc idx limit m = some e) : e.index = 0 := by
  rw [jsontoAlloc] at h
  split_ifs at h
  · obtain ⟨_, _, rfl⟩ := Option.map_eq_some_iff.1 h
    rfl
  · obtain rfl := Option.some.inj h
    rfl

theorem jsontoCount_index (h : jsontoCount j setDefvalue alloc loc idx m = some e) : e.index = 0 := by
  simp only [jsontoCount] at h
  generalize (if j.isMap m.jsonNode m.mem = true then 1 else j.elemno m.jsonNode m.mem) = limit at h
  split at h
  · obtain rfl := Option.some.inj h
    rfl
  split at h
  · cases h
  split at h
  · obtain rfl := Option.some.inj h
    rfl
  · exact jsontoAlloc_index h

theorem jsontoArray_index {d : ElemDesc}
    (h : jsontoArray j defvalue setDefvalue alloc loc d idx m = some e) : e.index = 0 := by
  rw [jsontoArray] at h
  split at h
  · cases h
  split at h
  · exact jsontoCount_index h
  · exact jsontoAlloc_index h

theorem json2Struct_orderly (flag : Option Int32) (root : Option ν)
    (setValue : ν → Loc → Indices → μ → Option (Int × Option Int × μ)) :
    (json2Struct t flag j root defvalue setDefvalue alloc setValue).Orderly where
  first {loc idx m e} h hidx := by
    simp only [json2Struct, jsontoEnterstruct, if_true] at h
    split at h
    · cases h
    split at h
    · cases h
    · obtain rfl := Option.some.inj h
      exact hidx
    split_ifs at h
    · obtain rfl := Option.some.inj h
      exact hidx
    · split at h
      · cases h
      rename_i _ e' he'
      have hindex := jsontoArray_index he'
      split_ifs at h
      · obtain rfl := Option.some.inj h
        exact hindex
      · rw [(jsontoChild_spec h).1, hindex]
    · simp only at h
      split_ifs at h
      · obtain rfl := Option.some.inj h
        rfl
      · exact (jsontoChild_spec h).1
  again {loc idx limit m e} h hlimit := by
    simp only [json2Struct, jsontoEnterstruct, if_neg hlimit] at h
    exact jsontoChild_spec h
  test_enter _ _ := rfl
  test_exit _ _ := rfl
  test_leaf _ _ := rfl

theorem structFree_orderly (freeValue : Loc → Indices → μ → Option (Int × Option Int × μ))
    (freeArray : Loc → Indices → μ → Option μ) : (structFree freeValue freeArray).Orderly where
  first {loc idx m e} h hidx := by
    obtain rfl := Option.some.inj h
    exact hidx
  again {loc idx limit m e} h _ := by
    obtain rfl := Option.some.inj h
    exact ⟨rfl, rfl⟩
  test_enter _ _ := rfl
  test_exit _ _ := rfl
  test_leaf _ _ := rfl

/-- The functions of every conversion keep to what the walk needs. -/
theorem IsConversion.orderly {v : Visitor π} (h : IsConversion t v) : v.Orderly := by
  cases h with
  | struct2Blob flag => exact Counting.orderly (Counting.steady_of_test (partDealTest t flag) rfl) t
  | blob2Struct flag => exact Counting.orderly (Counting.steady_of_test (partDealTest t flag) rfl) t
  | structClone flag => exact Counting.orderly (Counting.steady_of_test (partDealTest t flag) rfl) t
  | structCompare flag => exact Counting.orderly (Counting.steady_of_test (partDealTest t flag) rfl) t
  | structFree => exact structFree_orderly _ _
  | struct2Json flag => exact Counting.orderly (Counting.steady_of_test (partDealTest t flag) rfl) t
  | json2Struct flag => exact json2Struct_orderly flag _ _

end Conversions

/-! ## Runs -/

/-- A conversion ends with an error inside a structure: the limit of the structure is
    set, or it was gone through before. -/
def Visitor.EndsInside {π : Type} (v : Visitor π) (desc : List ElemDesc) (m : π) : Prop :=
  ∃ ret m', v.convert desc m = some (ret, true, m')

/-- The variables that conversions leave in a template after it was created, where flags
    may be placed on it between them and each meets the condition. -/
inductive After (desc : List ElemDesc) (created : Template)
    (ok : ∀ π : Type, Visitor π → π → Prop) : Scratch → Prop
  | fresh {scr} (h : Fresh desc created scr) : After desc created ok scr
  | call {scr t} {π : Type} {v : Visitor π} {m : π} {ret f'} (h : After desc created ok scr)
      (hflag : Flagged created t) (hv : IsConversion t v) (hok : ok π v m)
      (hconverts : Converts v.ops ⟨t, scr, m⟩ ret f') : After desc created ok f'.scr

/-- The conversion returns the same value and data with the variables as with others. -/
def SameConversion {π : Type} (v : Visitor π) (t : Template) (m : π) (scr scr' : Scratch) : Prop :=
  ∀ ret m', (∃ f', Converts v.ops ⟨t, scr, m⟩ ret f' ∧ f'.para = m') ↔
    ∃ f', Converts v.ops ⟨t, scr', m⟩ ret f' ∧ f'.para = m'

variable {desc : List ElemDesc} {created t : Template} {scr scr' : Scratch}

/-- Without variables set, a conversion does what the recursion does. -/
theorem converts_iff {v : Visitor π} (hv : v.Orderly) (hfull : t.Full)
    (hrest : AtRest t scr) {m m' : π} {ret : Int} :
    (∃ f', Converts v.ops ⟨t, scr, m⟩ ret f' ∧ f'.para = m') ↔
      ∃ inside, v.convert t.desc m = some (ret, inside, m') := by
  have hrefines := convert_refines hv hfull hrest m
  constructor
  · rintro ⟨f', hconverts, rfl⟩
    cases hconvert : v.convert t.desc m with
    | none =>
      rw [hconvert] at hrefines
      obtain ⟨n, hn⟩ := hconverts
      rw [hrefines n] at hn
      cases hn
    | some r =>
      rw [hconvert] at hrefines
      obtain ⟨scr', hconverts', _⟩ := hrefines
      obtain ⟨rfl, rfl⟩ := hconverts.unique hconverts'
      exact ⟨r.2.1, rfl⟩
  · rintro ⟨inside, hconvert⟩
    rw [hconvert] at hrefines
    obtain ⟨scr', hconverts, _⟩ := hrefines
    exact ⟨_, hconverts, rfl⟩

/-- A conversion that does not end inside a structure leaves no variable set. -/
theorem atRest_of_converts {v : Visitor π} (hv : v.Orderly) (hfull : t.Full)
    (hrest : AtRest t scr) {m : π} (hinside : ¬ v.EndsInside t.desc m) {ret : Int} {f' : Frame π}
    (hconverts : Converts v.ops ⟨t, scr, m⟩ ret f') : AtRest t f'.scr := by
  obtain ⟨inside, hconvert⟩ := (converts_iff hv hfull hrest).1 ⟨f', hconverts, rfl⟩
  have hrefines := convert_refines hv hfull hrest m
  rw [hconvert] at hrefines
  obtain ⟨scr', hconverts', hback⟩ := hrefines
  rw [(hconverts.unique hconverts').2]
  refine hback ?_
  cases inside with
  | false => rfl
  | true => exact absurd ⟨_, _, hconvert⟩ hinside

/-- Flags are no variables of the walk. -/
theorem AtRest.flagged {t' : Template} (h : AtRest t scr) (hdesc : t'.desc = t.desc) : AtRest t' scr :=
  ⟨fun q hq => h.index q ((Template.nested_congr hdesc q).symm.trans hq), h.limit⟩

theorem After.template_created {ok : ∀ π : Type, Visitor π → π → Prop} (h : After desc created ok scr) :
    Created desc created := by
  induction h with
  | fresh h => exact h.created
  | call _ _ _ _ _ ih => exact ih

/-- Conversions none of which ends inside a structure leave no variable set. -/
theorem After.atRest (h : After desc created (fun _ v m => ¬ v.EndsInside desc m) scr) :
    AtRest created scr := by
  induction h with
  | fresh h => exact h.atRest
  | @call scr t π v m ret f' h hflag hv hok hconverts ih =>
    have hcreated := h.template_created
    have hdesc : t.desc = desc := hflag.desc.trans hcreated.desc
    have hrest := atRest_of_converts hv.orderly (hflag.full hcreated.full) (ih.flagged hflag.desc)
      (by rw [hdesc]; exact hok) hconverts
    exact hrest.flagged hflag.desc.symm

/-- After conversions none of which ended with an error inside a structure, a conversion
    returns what it does with a template just created. -/
theorem history_independent (h : After desc created (fun _ v m => ¬ v.EndsInside desc m) scr)
    (hfresh : Fresh desc created scr') (hflag : Flagged created t) {π : Type} {v : Visitor π}
    (hv : IsConversion t v) (m : π) : SameConversion v t m scr scr' := by
  have hfull := hflag.full hfresh.created.full
  intro ret m'
  rw [converts_iff hv.orderly hfull (h.atRest.flagged hflag.desc),
    converts_iff hv.orderly hfull hfresh.atRest]

/-! ### Two subtypes -/

/-- Two pairs of a type and a subtype. -/
def subtypesDesc : List ElemDesc := [⟨['a'], .array, 2, subtypeDesc, none, none⟩]

/-- The word of a leaf that was read before. -/
def readWord (mem : List (LeafCall × Int)) (call : LeafCall) : Option Int := mem.lookup call

/-- `_elem_set_bin_value` for a word of a blob. A word that another one counts is read
    unless that one is negative. -/
def wordSetBinValue (t : Template) (blob : List Int) (offset : Int) (loc : Loc) (idx : Indices)
    (mem : List (LeafCall × Int)) : Option (Int × Option Int × List (LeafCall × Int)) :=
  let read := (leafCall loc idx, blob.getD (offset.toNat / 4) 0) :: mem
  if t.isDefine loc then
    match (t.elem loc).define.bind fun define => readWord mem (leafCall define idx) with
    | none => none
    | some n => if n < 0 then some (-EINVAL, none, mem) else some (4, some n, read)
  else some (4, none, read)

/-- `blob_2_struct` of a blob of words. -/
def wordsBlob2Struct (t : Template) (blob : List Int) : Counting (BlobPara (List (LeafCall × Int))) :=
  blob2Struct t none (fun _ _ _ => none) (fun _ _ _ mem => some (0, mem)) (wordSetBinValue t blob)

/-- Two types, 3 and 4, with the subtypes 1 and 2. -/
def twoSubtypes : LeafCall → Int
  | ([0, 0], i) => 3 + i.headD 0
  | (_, i) => 1 + i.headD 0

/-- After a blob with a negative type in its second pair, `struct_2_blob` writes the second
    pair alone. -/
theorem history_dependent : ¬ ∀ (desc : List ElemDesc) (created t : Template) (scr scr' : Scratch)
    (π : Type) (v : Visitor π) (m : π), After desc created (fun _ _ _ => True) scr →
    Fresh desc created scr' → Flagged created t → IsConversion t v → SameConversion v t m scr scr' := by
  intro h
  obtain ⟨t, scr', hfresh, f, hconverts, f₁, hconverts₁, hpara₁, f₂, hconverts₂, hpara₂⟩ :
      ∃ t scr', Fresh subtypesDesc t scr' ∧
        ∃ f, Converts ((wordsBlob2Struct t [3, 1, -1, 1]).visitor t).ops ⟨t, scr', ⟨0, []⟩⟩ (-EINVAL) f ∧
          ∃ f₁, Converts ((wordsStruct2Blob t twoSubtypes).visitor t).ops ⟨t, f.scr, ⟨0, []⟩⟩ 0 f₁ ∧
            f₁.para = ⟨8, [4, 2]⟩ ∧
            ∃ f₂, Converts ((wordsStruct2Blob t twoSubtypes).visitor t).ops ⟨t, scr', ⟨0, []⟩⟩ 0 f₂ ∧
              f₂.para = ⟨16, [3, 1, 4, 2]⟩ := by
    refine ⟨_, _, ⟨0, _, Int.le_refl 0, ⟨5, rfl⟩, rfl, rfl⟩, _, ⟨8, rfl⟩, _, ⟨5, rfl⟩, ?_, _, ⟨9, rfl⟩, ?_⟩
    · decide +kernel
    · decide +kernel
  have hafter : After subtypesDesc t (fun _ _ _ => True) f.scr :=
    .call (.fresh hfresh) hfresh.created.flagged (.blob2Struct ..) trivial hconverts
  have hsame := h _ t t f.scr scr' _ _ ⟨0, []⟩ hafter hfresh hfresh.created.flagged
    (.struct2Blob none (wordDefvalue t twoSubtypes) (wordGetBinValue t twoSubtypes))
  obtain ⟨f₃, hconverts₃, hpara₃⟩ := (hsame 0 ⟨8, [4, 2]⟩).1 ⟨f₁, hconverts₁, hpara₁⟩
  obtain ⟨_, rfl⟩ := hconverts₂.unique hconverts₃
  rw [hpara₂] at hpara₃
  exact absurd hpara₃ (by decide)

/-- After a blob of two pairs that was read without an error, `struct_2_blob` writes both
    pairs of the next structure. -/
theorem history_independent_pairs : ∃ t scr scr',
    SameConversion ((wordsStruct2Blob t twoSubtypes).visitor t) t ⟨0, []⟩ scr scr' := by
  obtain ⟨t, scr', hfresh, f, hconverts, hdone⟩ : ∃ t scr', Fresh subtypesDesc t scr' ∧
      ∃ f, Converts ((wordsBlob2Struct t [3, 1, 4, 1]).visitor t).ops ⟨t, scr', ⟨0, []⟩⟩ 0 f ∧
        (((wordsBlob2Struct t [3, 1, 4, 1]).visitor t).convert subtypesDesc ⟨0, []⟩).map (·.2.1) =
          some false := by
    refine ⟨_, _, ⟨0, _, Int.le_refl 0, ⟨5, rfl⟩, rfl, rfl⟩, _, ⟨9, rfl⟩, ?_⟩
    decide +kernel
  have hafter : After subtypesDesc t (fun _ v m => ¬ v.EndsInside subtypesDesc m) f.scr := by
    refine .call (.fresh hfresh) hfresh.created.flagged (.blob2Struct ..) ?_ hconverts
    rintro ⟨ret, m', hinside⟩
    have hfalse := hdone.symm.trans (congrArg (Option.map (·.2.1)) hinside)
    cases hfalse
  exact ⟨t, f.scr, scr', history_independent hafter hfresh hfresh.created.flagged (.struct2Blob ..) _⟩

end Cube.Struct
