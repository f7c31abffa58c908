import Cube.Struct.CountName
import Cube.Struct.Conversions
import Cube.Struct.FlagNames

/-!
# Encoding a part of a structure

`struct_2_part_blob` goes through the elements that carry a flag, which `struct_set_flag`
places on the elements that a list names, on what is below them and on what is above.

* `traverse_partBlob`: the walk writes the leaves it takes one behind the other.
* `carries_of_run`: the elements that are marked by a list.
* `partBlob_iff`: when the leaves that are named, or below what is named, are written.
-/

namespace Cube.Struct

open Lib Function

/-! ## The leaves of a structure -/

/-- What a conversion reads of a structure: the numbers in the elements that count others, the
    encodings of the leaves, and what `_elem_get_bin_value` stores in the index of a leaf. -/
structure Encoded where
  number : LeafCall → Int
  bin : LeafCall → Outcome (List UInt8)
  stored : LeafCall → Option Int

/-- How often a structure is gone through that has the limit. -/
def repeats (array : Bool) (limit : Int) : Nat :=
  if array ∧ limit = 0 then 0 else limit.toNat - 1 + 1

/-- The limit of a structure. -/
def limitFor (number : LeafCall → Int) (loc : Loc) (d : ElemDesc) (idx : Indices) : Int :=
  if d.type.attr.define then number (leafCall loc idx) else d.number

section Calls

variable (number : LeafCall → Int)

mutual

/-- The leaves of an element in the order of the template, once for each of the structures
    they are in. -/
def callsElem (loc : Loc) : ElemDesc → Indices → List LeafCall
  | ⟨name, type, size, sub, names, defName⟩, idx =>
    if type.attr.subset then
      (List.range (repeats type.attr.array
          (limitFor number loc ⟨name, type, size, sub, names, defName⟩ idx))).flatMap fun i : Nat =>
        callsNode loc 0 sub (update idx loc (i : Int))
    else [leafCall loc idx]

/-- The leaves of the elements of a node, from an index on. -/
def callsNode (p : Loc) (k : Nat) : List ElemDesc → Indices → List LeafCall
  | [], _ => []
  | d :: ds, idx => callsElem (k :: p) d idx ++ callsNode p (k + 1) ds idx

end

theorem callsElem_leaf {d : ElemDesc} (hsub : d.type.attr.subset = false) (loc : Loc)
    (idx : Indices) : callsElem number loc d idx = [leafCall loc idx] := by
  obtain ⟨name, type, size, sub, names, defName⟩ := d
  rw [callsElem, if_neg (by simpa using hsub)]

theorem callsElem_subset {d : ElemDesc} (hsub : d.type.attr.subset = true) (loc : Loc)
    (idx : Indices) : callsElem number loc d idx =
      (List.range (repeats d.type.attr.array (limitFor number loc d idx))).flatMap fun i : Nat =>
        callsNode number loc 0 d.sub (update idx loc (i : Int)) := by
  obtain ⟨name, type, size, sub, names, defName⟩ := d
  rw [callsElem, if_pos hsub]

mutual

/-- The leaves of an element are at it, or below it. -/
theorem mem_callsElem {loc : Loc} {idx : Indices} {call : LeafCall} :
    ∀ d, call ∈ callsElem number loc d idx → loc <:+ call.1
  | ⟨name, type, size, sub, names, defName⟩, h => by
    rw [callsElem] at h
    split_ifs at h
    · obtain ⟨i, -, hcall⟩ := List.mem_flatMap.1 h
      exact mem_callsNode sub hcall
    · obtain rfl := List.mem_singleton.1 h
      exact List.suffix_refl loc

theorem mem_callsNode {p : Loc} {k : Nat} {idx : Indices} {call : LeafCall} :
    ∀ ds, call ∈ callsNode number p k ds idx → p <:+ call.1
  | [], h => by cases h
  | d :: ds, h => by
    rw [callsNode, List.mem_append] at h
    rcases h with h | h
    · exact (List.suffix_cons k p).trans (mem_callsElem d h)
    · exact mem_callsNode ds h

end

/-- All leaves of a structure. -/
def leafCalls (t : Template) : List LeafCall := callsNode number [] 0 t.desc fun _ => 0

end Calls

/-! ## The walk -/

/-- `_elem_get_bin_value` for a structure, which writes at the end of the blob. -/
def Encoded.getBinValue (v : Encoded) (_ : Int) (loc : Loc) (idx : Indices) (blob : List UInt8) :
    Option (Int × Option Int × List UInt8) :=
  match v.bin (leafCall loc idx) with
  | .done bytes => some (bytes.length, v.stored (leafCall loc idx), blob ++ bytes)
  | .error ret => some (ret, v.stored (leafCall loc idx), blob)
  | .fault => none

/-- The functions of `struct_2_part_blob`, for a structure. -/
def partBlob (t : Template) (flag : Int32) (v : Encoded) : Visitor (BlobPara (List UInt8)) :=
  (struct2Blob t (some flag) (fun loc idx _ => some (v.number (leafCall loc idx)))
    v.getBinValue).visitor t

/-- `struct_2_part_blob` returns the value, with the blob after it. -/
def Struct2PartBlob (t : Template) (flag : Int32) (v : Encoded) (scr : Scratch) (ret : Int)
    (blob : List UInt8) : Prop :=
  ∃ scr', Converts (partBlob t flag v).ops ⟨t, scr, ⟨0, []⟩⟩ 0 ⟨t, scr', ⟨ret, blob⟩⟩

/-- The bytes of the leaf of a call. -/
def Encoded.bytes (v : Encoded) (call : LeafCall) : List UInt8 :=
  match v.bin call with
  | .done bytes => bytes
  | _ => []

/-- The blob with more bytes. -/
def BlobPara.put (m : BlobPara (List UInt8)) (bytes : List UInt8) : BlobPara (List UInt8) :=
  ⟨m.offset + bytes.length, m.mem ++ bytes⟩

theorem BlobPara.put_nil (m : BlobPara (List UInt8)) : m.put [] = m := by
  simp [BlobPara.put]

theorem BlobPara.put_put (m : BlobPara (List UInt8)) (a b : List UInt8) :
    (m.put a).put b = m.put (a ++ b) := by
  simp [BlobPara.put, Int.add_assoc]

section Walk

variable {t : Template} {flag : Int32} {v : Encoded} {loc p : Loc} {k : Nat} {d : ElemDesc}
  {idx : Indices} {m : BlobPara (List UInt8)}

/-- A structure is entered with its limit. -/
theorem partBlob_enter (hd : t.descOf loc = some d) :
    (partBlob t flag v).enter loc idx 0 m = some ⟨0, 0, limitFor v.number loc d idx, m⟩ := by
  have hcall : leafCall loc (update idx loc 0) = leafCall loc idx := by
    rcases loc with _ | ⟨k, p⟩
    · rfl
    · rw [leafCall, leafCall, List.tail_cons, pathIndices_update (Nat.lt_succ_self _)]
  simp only [partBlob, Counting.visitor, Counting.enter, if_true, Counting.limitOf, hd, struct2Blob,
    hcall]
  rw [limitFor]
  split_ifs <;> rfl

/-- A structure is entered again without a change. -/
theorem partBlob_again {limit : Int} (hlimit : limit ≠ 0) (i : Int) :
    enterAgain (partBlob t flag v) loc idx limit i m = .done m := by
  simp only [enterAgain, partBlob, Counting.visitor, Counting.enter, if_neg hlimit, struct2Blob]
  rfl

/-- The passes through a structure, for what a pass writes. -/
theorem passes_put {inside : Indices → BlobPara (List UInt8) → Passage (BlobPara (List UInt8))}
    {limit : Int} {written : Nat → List UInt8} {left : Nat} : ∀ {i : Nat} {m : BlobPara (List UInt8)},
    (left ≠ 0 → limit ≠ 0) →
    (∀ j : Nat, i ≤ j → j ≤ i + left → ∀ m, inside (update idx loc j) m = .done (m.put (written j))) →
    passes (partBlob t flag v) loc inside idx limit left i m =
      .done (m.put ((List.range' i (left + 1)).flatMap written)) := by
  have hpass {i : Nat} {m : BlobPara (List UInt8)}
      (h : inside (update idx loc i) m = .done (m.put (written i))) :
      pass (partBlob t flag v) loc inside idx limit i m = .done (m.put (written i)) := by
    simp only [pass, h, Passage.within, Passage.bind]
    rfl
  induction left with
  | zero =>
    intro i m _ h
    rw [passes, hpass (h i (Nat.le_refl i) (Nat.le_refl i) m), List.range'_one, List.flatMap_singleton]
  | succ left ih =>
    intro i m hlimit h
    have hnext : ((i : Int) + 1) = ((i + 1 : Nat) : Int) := rfl
    have hrange : List.range' i (left + 1 + 1) = i :: List.range' (i + 1) (left + 1) :=
      List.range'_succ
    rw [passes, hpass (h i (Nat.le_refl i) (by omega) m), Passage.bind,
      partBlob_again (hlimit (Nat.succ_ne_zero left)), Passage.bind, hnext,
      ih (fun _ => hlimit (Nat.succ_ne_zero left)) fun j hj hj' m => h j (by omega) (by omega) m,
      BlobPara.put_put, hrange, List.flatMap_cons]

/-- A leaf is written at the end. -/
theorem partBlob_leaf {bytes : List UInt8} (hbin : v.bin (leafCall loc idx) = .done bytes) :
    Passage.ofCall false (((partBlob t flag v).leaf loc idx m).map fun r => (r.1, r.2.2)) =
      .done (m.put bytes) := by
  have hnonneg : ¬ ((bytes.length : Int) < 0) := by omega
  have hge : (bytes.length : Int) ≥ 0 := by omega
  simp only [partBlob, Counting.visitor, struct2Blob, procBlob, Encoded.getBinValue, hbin,
    Option.map_some, Passage.ofCall, if_neg hnonneg, if_pos hge]
  rfl

/-- The elements of the template that pass the test, for leaves that are selected: those
    themselves, and what is above them. -/
structure Selects (t : Template) (flag : Int32) (Sel : Loc → Prop) : Prop where
  known : ∀ q d, t.descOf q = some d → d.type.attr.subset = false → d.type.hasOps = true
  leaf : ∀ q d, t.descOf q = some d → d.type.attr.subset = false →
    (partDealTest t (some flag) q = true ↔ Sel q)
  above : ∀ q d, t.descOf q = some d → partDealTest t (some flag) q = false →
    ∀ r, q <:+ r → ¬ Sel r

variable {Sel : Loc → Prop} [DecidablePred Sel]

/-- The encodings of the selected leaves among the calls. -/
def Encoded.selected (v : Encoded) (Sel : Loc → Prop) [DecidablePred Sel] (calls : List LeafCall) :
    List UInt8 :=
  (calls.filter (Sel ·.1)).flatMap v.bytes

/-- The selected leaves among the calls have encodings. -/
def Encoded.Encodes (v : Encoded) (Sel : Loc → Prop) (calls : List LeafCall) : Prop :=
  ∀ call ∈ calls, Sel call.1 → ∃ bytes, v.bin call = .done bytes

theorem Encoded.selected_append (v : Encoded) (calls calls' : List LeafCall) :
    v.selected Sel (calls ++ calls') = v.selected Sel calls ++ v.selected Sel calls' := by
  rw [selected, List.filter_append, List.flatMap_append]
  rfl

theorem Encoded.selected_flatMap (v : Encoded) {ι : Type} (is : List ι) (calls : ι → List LeafCall) :
    v.selected Sel (is.flatMap calls) = is.flatMap fun i => v.selected Sel (calls i) := by
  induction is with
  | nil => rfl
  | cons i is ih => rw [List.flatMap_cons, List.flatMap_cons, selected_append, ih]

theorem Encoded.selected_eq_nil (v : Encoded) {calls : List LeafCall}
    (h : ∀ call ∈ calls, ¬ Sel call.1) : v.selected Sel calls = [] := by
  rw [selected, List.filter_eq_nil_iff.2 fun call hcall => by simpa using h call hcall]
  rfl

theorem Encoded.selected_none (v : Encoded) (calls : List LeafCall) :
    v.selected (fun _ => False) calls = [] :=
  v.selected_eq_nil fun _ _ => not_false

/-- A structure is gone through as often as its leaves are to be written. -/
theorem visitNested_partBlob (hd : t.descOf loc = some d) (hsub : d.type.attr.subset = true)
    {inside : Indices → BlobPara (List UInt8) → Passage (BlobPara (List UInt8))}
    (hinside : ∀ (i : Nat) m, v.Encodes Sel (callsNode v.number loc 0 d.sub (update idx loc i)) →
      inside (update idx loc i) m =
        .done (m.put (v.selected Sel (callsNode v.number loc 0 d.sub (update idx loc i)))))
    (hencodes : v.Encodes Sel (callsElem v.number loc d idx)) :
    visitNested (partBlob t flag v) loc d.type.attr.array inside idx m =
      .done (m.put (v.selected Sel (callsElem v.number loc d idx))) := by
  rw [callsElem_subset v.number hsub] at hencodes ⊢
  rw [v.selected_flatMap]
  simp only [visitNested, partBlob_enter hd, repeats] at hencodes ⊢
  rw [if_neg (by decide)]
  split_ifs with hempty
  · rw [List.range_zero, List.flatMap_nil, BlobPara.put_nil]
    rfl
  · rw [List.range_eq_range']
    -- A structure that is entered again has a limit above 1.
    refine passes_put (i := 0) (fun hleft => by omega) fun j _ hj m => hinside j m fun call hcall => ?_
    exact hencodes call (List.mem_flatMap.2 ⟨j, List.mem_range.2 (by
      rw [if_neg hempty]
      omega), hcall⟩)

/-- The selected leaves of an element are written. -/
theorem visitElem_partBlob (hsel : Selects t flag Sel) (hd : t.descOf loc = some d)
    {inside : Indices → BlobPara (List UInt8) → Passage (BlobPara (List UInt8))}
    (hinside : d.type.attr.subset = true → ∀ (i : Nat) m,
      v.Encodes Sel (callsNode v.number loc 0 d.sub (update idx loc i)) →
      inside (update idx loc i) m =
        .done (m.put (v.selected Sel (callsNode v.number loc 0 d.sub (update idx loc i)))))
    (hencodes : v.Encodes Sel (callsElem v.number loc d idx)) :
    visitElem (partBlob t flag v) loc d.type inside idx m =
      .done (m.put (v.selected Sel (callsElem v.number loc d idx))) := by
  have htest : (partBlob t flag v).test loc m = partDealTest t (some flag) loc := rfl
  rw [visitElem, htest]
  cases hflag : partDealTest t (some flag) loc with
  | false =>
    -- Nothing in the element is selected.
    have hnone : v.selected Sel (callsElem v.number loc d idx) = [] :=
      v.selected_eq_nil fun call hcall =>
        hsel.above loc d hd hflag call.1 (mem_callsElem v.number d hcall)
    rw [hnone, BlobPara.put_nil]
    rfl
  | true =>
    cases hsub : d.type.attr.subset with
    | true =>
      simp only [Bool.not_true, Bool.false_eq_true, if_false, if_true]
      exact visitNested_partBlob hd hsub (hinside hsub) hencodes
    | false =>
      have hloc : Sel loc := (hsel.leaf loc d hd hsub).1 hflag
      rw [callsElem_leaf v.number hsub] at hencodes ⊢
      obtain ⟨bytes, hbytes⟩ := hencodes _ List.mem_cons_self hloc
      have hselected : v.selected Sel [leafCall loc idx] = bytes := by
        have htaken : ∀ call ∈ [leafCall loc idx], decide (Sel call.1) = true := fun call hcall => by
          rw [List.mem_singleton.1 hcall]
          exact decide_eq_true hloc
        rw [Encoded.selected, List.filter_eq_self.2 htaken, List.flatMap_singleton, Encoded.bytes, hbytes]
      simp only [hsel.known loc d hd hsub, Bool.not_true, Bool.false_eq_true, if_false]
      rw [hselected]
      exact partBlob_leaf hbytes

mutual

theorem traverseElem_partBlob (hsel : Selects t flag Sel) {p : Loc} {k : Nat} {idx : Indices}
    {m : BlobPara (List UInt8)} : ∀ d, t.descOf (k :: p) = some d →
    v.Encodes Sel (callsElem v.number (k :: p) d idx) →
    traverseElem (partBlob t flag v) (k :: p) d idx m =
      .done (m.put (v.selected Sel (callsElem v.number (k :: p) d idx)))
  | ⟨name, type, size, sub, names, defName⟩, hd, hencodes => by
    rw [traverseElem]
    refine visitElem_partBlob hsel hd (fun hsub i m hinside => ?_) hencodes
    exact traverse_partBlob hsel sub (Nat.zero_le _) (Template.children_of_desc hd hsub) hinside

/-- The walk through the elements of a node writes the selected leaves. The recursion is that
    of the walk. -/
theorem traverse_partBlob (hsel : Selects t flag Sel) {p : Loc} {k : Nat} {idx : Indices}
    {m : BlobPara (List UInt8)} : ∀ ds, k ≤ (t.children p).length → (t.children p).drop k = ds →
    v.Encodes Sel (callsNode v.number p k ds idx) →
    traverse (partBlob t flag v) p k ds idx m =
      .done (m.put (v.selected Sel (callsNode v.number p k ds idx)))
  | [], _, _, _ => by
    rw [traverse, callsNode]
    exact congrArg Passage.done m.put_nil.symm
  | d :: ds, hle, hdrop, hencodes => by
    obtain ⟨hlt, hd, htail⟩ := t.children_drop_cons hdrop
    rw [callsNode] at hencodes
    rw [traverse, traverseElem_partBlob hsel d hd fun call hcall => hencodes call (List.mem_append_left _ hcall),
      Passage.bind, traverse_partBlob hsel ds hlt htail fun call hcall =>
        hencodes call (List.mem_append_right _ hcall), BlobPara.put_put, callsNode,
      Encoded.selected_append]

end

end Walk

/-! ## The elements that are marked -/

/-- The elements that are marked with one: it, what is below it and what is above. -/
def Touches (loc q : Loc) : Prop := loc <:+ q ∨ q <:+ loc

section Marks

variable {flag : Int32} {t t' : Template} {loc q : Loc} {locs : List Loc} {d : ElemDesc}

/-- The elements above one are marked, and no others. -/
theorem markFathers_elem (p : Loc) (t : Template) : (q <:+ p → q ≠ [] → flag ≠ 0 →
      Lib.Carries ((t.markFathers flag p).elem q).flag flag) ∧
    (¬ q <:+ p → (t.markFathers flag p).elem q = t.elem q) := by
  induction p generalizing t with
  | nil => exact ⟨fun hq hne _ => absurd (List.suffix_nil.1 hq) hne, fun _ => rfl⟩
  | cons k p ih =>
    rw [Template.markFathers]
    constructor
    · intro hq hne hflag
      rcases List.suffix_cons_iff.1 hq with rfl | hq
      · refine (markFathers_spec flag p _).2.1 (k :: p) trivial ?_
        rw [Template.mapElem, Template.elem_setElem_self]
        exact carries_set hflag _
      · exact (ih _).1 hq hne hflag
    · intro hq
      have hne : q ≠ k :: p := by
        rintro rfl
        exact hq (List.suffix_refl _)
      rw [(ih _).2 fun h => hq (h.trans (List.suffix_cons k p)), Template.mapElem,
        Template.elem_setElem_of_ne hne]

/-- An element of the template at, or below, another one. -/
theorem suffix_iff_beyond (hloc : loc ≠ []) : loc <:+ q ↔ q = loc ∨ Beyond loc 0 q := by
  rcases loc with _ | ⟨k, p⟩
  · exact absurd rfl hloc
  rw [beyond_down]
  constructor
  · rintro ⟨s, rfl⟩
    rcases eq_or_ne s [] with rfl | hs
    · exact .inl rfl
    · exact .inr ⟨s, hs, rfl⟩
  · rintro (rfl | ⟨s, -, rfl⟩)
    · exact List.suffix_refl _
    · exact List.suffix_append s _

/-- `struct_set_allflag` marks the elements below a node, and no others. -/
theorem structSetAllflag_elem (hfull : t.Full) (hroot : t.nested loc = true) :
    ∃ t', structSetAllflag loc flag t = some t' ∧ Alike t t' ∧
      (∀ q d, t.descOf q = some d → Beyond loc 0 q → flag ≠ 0 → Lib.Carries (t'.elem q).flag flag) ∧
      ∀ q, ¬ Beyond loc 0 q ∨ t.descOf q = none → t'.elem q = t.elem q := by
  obtain ⟨t₁, hwalk, happlied⟩ := allflag_spec ⟨(· ||| flag), id, (· ||| flag)⟩ hfull (.inr hroot)
  refine ⟨t₁.mapNode loc (· ||| flag), by rw [structSetAllflag, hwalk, Option.map_some],
    (Alike.of_applied happlied).trans (.mapNode _ _ _), fun q d hd hq hflag => ?_, fun q hq => ?_⟩
  · rw [Template.mapNode, Template.elem_setNode, happlied.elem hq hd]
    split_ifs <;> exact carries_set hflag _
  · rw [Template.mapNode, Template.elem_setNode, happlied.elem_other hq]

variable (flag) in
/-- Setting marks the elements that an element touches, and no others. -/
theorem setElemFlag_elem (hfull : t.Full) (hd : t.descOf loc = some d) :
    ∃ t', t.setElemFlag flag loc = some t' ∧ Alike t t' ∧ ∀ q e, t.descOf q = some e →
      (Touches loc q → flag ≠ 0 → Lib.Carries (t'.elem q).flag flag) ∧
      (¬ Touches loc q → t'.elem q = t.elem q) := by
  have hmap := Alike.mapElem t loc (· ||| flag)
  have hself : flag ≠ 0 → Lib.Carries ((t.mapElem loc (· ||| flag)).elem loc).flag flag := fun hflag => by
    rw [Template.mapElem, Template.elem_setElem_self]
    exact carries_set hflag _
  have hother {q : Loc} (hq : q ≠ loc) : (t.mapElem loc (· ||| flag)).elem q = t.elem q := by
    rw [Template.mapElem, Template.elem_setElem_of_ne hq]
  -- The element, and what is below it.
  obtain ⟨t₂, ht₂, halike₂, hretains, hbelow, hkept⟩ : ∃ t₂,
      (if (t.mapElem loc (· ||| flag)).nested loc then
        structSetAllflag loc flag (t.mapElem loc (· ||| flag))
        else some (t.mapElem loc (· ||| flag))) = some t₂ ∧ Alike (t.mapElem loc (· ||| flag)) t₂ ∧
      Retains flag (fun _ => True) (t.mapElem loc (· ||| flag)) t₂ ∧
      (∀ q e, t.descOf q = some e → loc <:+ q → flag ≠ 0 → Lib.Carries (t₂.elem q).flag flag) ∧
      ∀ q, ¬ loc <:+ q → t₂.elem q = t.elem q := by
    have hne : loc ≠ [] := by
      rintro rfl
      cases hd
    split_ifs with hn
    · obtain ⟨t₂, hset, halike, hmarked, hrest⟩ := structSetAllflag_elem (hmap.full hfull) hn
      refine ⟨t₂, hset, halike, fun q _ hq => ?_, fun q e he hq hflag => ?_, fun q hq => ?_⟩
      · by_cases hnone : ¬ Beyond loc 0 q ∨ (t.mapElem loc (· ||| flag)).descOf q = none
        · rwa [hrest q hnone]
        · rw [not_or, not_not, ← Ne, Option.ne_none_iff_exists'] at hnone
          obtain ⟨hbeyond, e, he⟩ := hnone
          exact hmarked q e he hbeyond hq.ne_zero
      · rcases (suffix_iff_beyond hne).1 hq with rfl | hbeyond
        · by_cases hbeyond : Beyond q 0 q
          · exact hmarked q e ((hmap.descOf q).trans he) hbeyond hflag
          · rw [hrest q (.inl hbeyond)]
            exact hself hflag
        · exact hmarked q e ((hmap.descOf q).trans he) hbeyond hflag
      · rw [suffix_iff_beyond hne, not_or] at hq
        rw [hrest q (.inl hq.2), hother hq.1]
    · refine ⟨_, rfl, .refl _, fun _ _ hq => hq, fun q e he hq hflag => ?_, fun q hq => ?_⟩
      · -- There is nothing below a leaf.
        rw [hmap.nested, Template.nested_of_desc hd, Bool.not_eq_true] at hn
        obtain ⟨s, rfl⟩ := hq
        rcases eq_or_ne s [] with rfl | hs
        · exact hself hflag
        · cases (t.descOf_below hd hn hs).symm.trans he
      · exact hother fun heq => hq (heq ▸ List.suffix_refl _)
  obtain ⟨halike₃, hretains₃, -⟩ := markFathers_spec flag loc.tail t₂
  refine ⟨t₂.markFathers flag loc.tail, by rw [Template.setElemFlag, ht₂, Option.map_some],
    (hmap.trans halike₂).trans halike₃, fun q e he => ⟨?_, fun hq => ?_⟩⟩
  · rintro (hq | hq) hflag
    · exact hretains₃ q trivial (hbelow q e he hq hflag)
    · rcases eq_or_ne q loc with rfl | hne
      · exact hretains₃ q trivial (hbelow q e he (List.suffix_refl q) hflag)
      · have hne' : q ≠ [] := by
          rintro rfl
          cases he
        rcases loc with _ | ⟨k, p⟩
        · exact absurd (List.suffix_nil.1 hq) hne'
        · exact (markFathers_elem p t₂).1 ((List.suffix_cons_iff.1 hq).resolve_left hne) hne' hflag
  · obtain ⟨hbelow', habove'⟩ := not_or.1 hq
    rw [(markFathers_elem loc.tail t₂).2 fun h => habove' (h.trans (List.tail_suffix loc)),
      hkept q hbelow']

/-- A run that sets the flag marks the elements that its elements touch, and no others. -/
theorem carries_of_run (hflag : flag ≠ 0) (hfull : t.Full)
    (h : Run (Template.setElemFlag flag) locs t t')
    (hlocs : ∀ loc ∈ locs, ∃ d, t.descOf loc = some d) (hd : t.descOf q = some d) :
    Lib.Carries (t'.elem q).flag flag ↔
      Lib.Carries (t.elem q).flag flag ∨ ∃ loc ∈ locs, Touches loc q := by
  induction h with
  | nil t => simp
  | @cons loc locs t t₁ t' hstep _ ih =>
    obtain ⟨e, he⟩ := hlocs loc List.mem_cons_self
    obtain ⟨t₂, hstep', halike, hmarks⟩ := setElemFlag_elem flag hfull he
    obtain rfl := Option.some.inj (hstep.symm.trans hstep')
    obtain ⟨htouched, hkept⟩ := hmarks q d hd
    rw [ih (halike.full hfull) (fun r hr => by
      rw [halike.descOf]
      exact hlocs r (List.mem_cons_of_mem _ hr)) ((halike.descOf q).trans hd)]
    by_cases htouch : Touches loc q
    · exact iff_of_true (.inl (htouched htouch hflag)) (.inr ⟨loc, List.mem_cons_self, htouch⟩)
    · simp only [hkept htouch, List.mem_cons, exists_eq_or_imp, htouch, false_or]

/-- Setting a flag without bits changes nothing. -/
theorem setElemFlag_zero (hfull : t.Full) (h : t.setElemFlag 0 loc = some t') : t' = t := by
  have helem (t : Template) (q : Loc) : t.mapElem q (· ||| 0) = t := by
    rw [Template.mapElem, Int32.or_zero]
    exact Template.ext rfl rfl (update_eq_self q t.elem)
  have hnode (t : Template) (q : Loc) : t.mapNode q (· ||| 0) = t := by
    rw [Template.mapNode, Int32.or_zero]
    exact Template.ext rfl (update_eq_self q t.node) rfl
  have hfathers (p : Loc) : t.markFathers 0 p = t := by
    induction p with
    | nil => rfl
    | cons k p ih => rw [Template.markFathers, helem, ih]
  simp only [Template.setElemFlag, helem] at h
  obtain ⟨t₁, hbelow, rfl⟩ := Option.map_eq_some_iff.1 h
  obtain rfl : t₁ = t := by
    split_ifs at hbelow with hn
    · obtain ⟨t₂, hwalk, happlied⟩ := allflag_spec ⟨(· ||| 0), id, (· ||| 0)⟩ hfull (.inr hn)
      rw [structSetAllflag, hwalk, Option.map_some, hnode] at hbelow
      obtain rfl := Option.some.inj hbelow
      refine Template.ext happlied.desc (funext fun q => ?_) (funext fun q => ?_)
      · by_cases hq : ¬ Beyond loc 0 q ∨ t.nested q = false
        · exact happlied.node_other hq
        · rw [not_or, not_not, Bool.not_eq_false] at hq
          exact happlied.node hq.1 hq.2
      · by_cases hq : ¬ Beyond loc 0 q ∨ t.descOf q = none
        · exact happlied.elem_other hq
        · rw [not_or, not_not, ← Ne, Option.ne_none_iff_exists'] at hq
          obtain ⟨hbeyond, e, he⟩ := hq
          rw [happlied.elem hbeyond he]
          split_ifs <;> simp
    · exact (Option.some.inj hbelow).symm
  exact hfathers loc.tail

theorem run_set_zero (hfull : t.Full) (h : Run (Template.setElemFlag 0) locs t t') : t' = t := by
  induction h with
  | nil t => rfl
  | @cons loc locs t t₁ t' hstep _ ih =>
    obtain rfl := setElemFlag_zero hfull hstep
    exact ih hfull

/-- The leaves that are among elements, or below one of them. -/
def Under (locs : List Loc) (q : Loc) : Prop := ∃ loc ∈ locs, loc <:+ q

instance (locs : List Loc) : DecidablePred (Under locs) := fun q =>
  inferInstanceAs (Decidable (∃ loc ∈ locs, loc <:+ q))

/-- After a run that sets the flag, the walk takes the leaves under its elements. -/
theorem selects_of_run (hknown : ∀ q d, t.descOf q = some d → d.type.attr.subset = false →
      d.type.hasOps = true) (hfree : ∀ q, ¬ Lib.Carries (t.elem q).flag flag) (hflag : flag ≠ 0)
    (hfull : t.Full) (h : Run (Template.setElemFlag flag) locs t t')
    (hlocs : ∀ loc ∈ locs, ∃ d, t.descOf loc = some d) : Selects t' flag (Under locs) := by
  have halike := h.alike (acts_setElemFlag flag) hfull hlocs
  have htest {q : Loc} {d : ElemDesc} (hd : t'.descOf q = some d) :
      partDealTest t' (some flag) q = true ↔ ∃ loc ∈ locs, Touches loc q := by
    rw [partDealTest, bne_iff_ne, ← Lib.Carries,
      carries_of_run hflag hfull h hlocs ((halike.descOf q).symm.trans hd), or_iff_right (hfree q)]
  refine ⟨fun q d hd => hknown q d ((halike.descOf q).symm.trans hd), fun q d hd hsub => ?_,
    fun q d hd hfalse r hqr => ?_⟩
  · rw [htest hd]
    refine exists_congr fun loc => and_congr_right fun hloc => or_iff_left_of_imp fun hq => ?_
    -- No element is below a leaf.
    obtain ⟨s, rfl⟩ := hq
    rcases eq_or_ne s [] with rfl | hs
    · exact List.suffix_refl _
    · obtain ⟨e, he⟩ := hlocs _ hloc
      cases ((t.descOf_below ((halike.descOf q).symm.trans hd) hsub hs).symm.trans he)
  · rintro ⟨loc, hloc, hr⟩
    rw [← Bool.not_eq_true, htest hd] at hfalse
    exact hfalse ⟨loc, hloc, List.suffix_or_suffix_of_suffix hr hqr⟩

end Marks

/-! ## Lists of names -/

/-- Names with commas between them. -/
def commaList : List (List Char) → List Char
  | [] => []
  | [name] => name
  | name :: names => name ++ ',' :: commaList names

/-- A name that can stand in a list: there is a character in it, no comma, and no blank before
    it, which would be skipped. -/
structure Listed (name : List Char) : Prop where
  ne_nil : name ≠ []
  comma : ',' ∉ name
  blank : name.head? ≠ some ' '

/-- The element that a name, or a path of names, stands for. -/
def Template.Leads (t : Template) (name : List Char) (loc : Loc) : Prop :=
  t.Reaches (Template.startOf [] name) (Template.namesOf name) loc

section Names

variable {name : List Char} {names : List (List Char)}

/-- A field ends at the comma behind it, or at the end of the text. -/
theorem fieldLoop_name (hcomma : ',' ∉ name) {rest : List Char}
    (hrest : rest = [] ∨ ∃ more, rest = ',' :: more) (n : Nat) :
    fieldLoop ',' n (name ++ rest) = if name.length < n then some name else none := by
  induction name generalizing n with
  | nil =>
    rcases n with _ | n
    · rfl
    · rcases hrest with rfl | ⟨more, rfl⟩
      · rfl
      · rw [List.nil_append, fieldLoop, if_pos rfl]
        rfl
  | cons c name ih =>
    rcases n with _ | n
    · rfl
    · obtain ⟨hc, hname⟩ := not_or.1 (mt List.mem_cons.2 hcomma)
      rw [List.cons_append, fieldLoop, if_neg (Ne.symm hc), ih hname, List.length_cons]
      by_cases hlt : name.length < n
      · rw [if_pos hlt, if_pos (Nat.succ_lt_succ hlt), Option.map_some]
      · rw [if_neg hlt, if_neg (by omega), Option.map_none]

/-- A name of a list is read, if it is not too long. -/
theorem getfiledfromstr_name (hlisted : Listed name) {rest : List Char}
    (hrest : rest = [] ∨ ∃ more, rest = ',' :: more) :
    getfiledfromstr (name ++ rest) ',' (maxNameLen + 1) =
      if name.length ≤ maxNameLen then (name, name.length) else ([], maxNameLen + 1) := by
  obtain ⟨c, name, rfl⟩ := List.exists_cons_of_ne_nil hlisted.ne_nil
  have hblank : ¬ c = ' ' := fun h => hlisted.blank (congrArg some h)
  have hdrop : (c :: name ++ rest).dropWhile (fun c => decide (c = ' ')) = c :: name ++ rest := by
    rw [List.cons_append, List.dropWhile_cons_of_neg (by simpa using hblank)]
  have hne : c :: name ++ rest ≠ [] := List.cons_ne_nil _ _
  rw [getfiledfromstr]
  simp only [hdrop, if_neg hne, fieldLoop_name hlisted.comma hrest, Nat.sub_self, Nat.zero_add]
  by_cases hlen : (c :: name).length ≤ maxNameLen
  · rw [if_pos (Nat.lt_succ_of_le hlen), if_pos hlen]
  · rw [if_neg (by omega), if_neg hlen]

variable (names) in
/-- A turn of the loop over a list reads a name, or an empty one for a name that is too long. -/
theorem namesLoop_cons (hlisted : Listed name) (n : Nat) : ∃ more,
    namesLoop (n + 1) (commaList (name :: names)) =
      if name.length ≤ maxNameLen then name :: namesLoop n (commaList names) else [] :: more := by
  obtain ⟨rest, hrest, hlist, hnext⟩ : ∃ rest, (rest = [] ∨ ∃ more, rest = ',' :: more) ∧
      commaList (name :: names) = name ++ rest ∧
      (if rest.head? = some ',' then rest.tail else rest) = commaList names := by
    rcases names with _ | ⟨next, names⟩
    · exact ⟨[], .inl rfl, (List.append_nil name).symm, rfl⟩
    · exact ⟨',' :: commaList (next :: names), .inr ⟨_, rfl⟩, rfl, rfl⟩
  rw [hlist, namesLoop, getfiledfromstr_name hlisted hrest]
  by_cases hlen : name.length ≤ maxNameLen
  · obtain ⟨k, hk⟩ : ∃ k, name.length = k + 1 :=
      ⟨name.length - 1, by have := List.length_pos_iff.2 hlisted.ne_nil; omega⟩
    refine ⟨[], ?_⟩
    rw [if_pos hlen, if_pos hlen]
    simp only [hk]
    rw [← hk, List.drop_left, hnext]
  · simp only [if_neg hlen]
    exact ⟨_, rfl⟩

/-- The names of a list are read, if none is too long; for one that is, an empty name is read. -/
theorem namesIn_commaList (hlisted : ∀ name ∈ names, Listed name) :
    ((∀ name ∈ names, name.length ≤ maxNameLen) → namesIn (commaList names) = names) ∧
      ((∃ name ∈ names, maxNameLen < name.length) → [] ∈ namesIn (commaList names)) := by
  have hloop : ∀ n, names.length ≤ n →
      ((∀ name ∈ names, name.length ≤ maxNameLen) → namesLoop n (commaList names) = names) ∧
      ((∃ name ∈ names, maxNameLen < name.length) → [] ∈ namesLoop n (commaList names)) := by
    induction names with
    | nil =>
      intro n _
      refine ⟨fun _ => ?_, fun ⟨_, h, _⟩ => nomatch h⟩
      cases n <;> rfl
    | cons name names ih =>
      rintro (_ | n) hn
      · cases hn
      obtain ⟨hhead, htail⟩ := List.forall_mem_cons.1 hlisted
      obtain ⟨more, hturn⟩ := namesLoop_cons names hhead n
      obtain ⟨hshort, hlong⟩ := ih htail n (Nat.le_of_succ_le_succ hn)
      rw [hturn]
      constructor
      · intro h
        obtain ⟨hname, hrest⟩ := List.forall_mem_cons.1 h
        rw [if_pos hname, hshort hrest]
      · rintro ⟨long, hmem, hlen⟩
        split_ifs with hname
        · refine List.mem_cons_of_mem _ (hlong ⟨long, ?_, hlen⟩)
          rcases List.mem_cons.1 hmem with rfl | hmem
          · omega
          · exact hmem
        · exact List.mem_cons_self
  refine hloop _ ?_
  -- Each name has a character at least.
  clear hloop
  induction names with
  | nil => exact Nat.le_refl 0
  | cons name names ih =>
    obtain ⟨hhead, htail⟩ := List.forall_mem_cons.1 hlisted
    have hpos := List.length_pos_iff.2 hhead.ne_nil
    have hle := ih htail
    rcases names with _ | ⟨next, names⟩
    · exact hpos
    · have hlist : commaList (name :: next :: names) = name ++ ',' :: commaList (next :: names) := rfl
      rw [hlist, List.length_append]
      simp only [List.length_cons] at hle hpos ⊢
      omega

end Names

/-! ## What is asked of a partial encoding -/

/-- After `struct_set_flag`, `struct_2_part_blob` writes the leaves that the names stand for, or
    that are below what they stand for, in the order of the template and once for each of the
    structures they are in. -/
def EncodesNamed (t : Template) (flag : Int32) (names : List (List Char)) : Prop :=
  ∀ locs, List.Forall₂ t.Leads names locs →
    ∃ count t', structSetFlag flag (commaList names) t = .done (count, t') ∧ 0 ≤ count ∧
      ∀ v scr, AtRest t' scr → v.Encodes (Under locs) (leafCalls v.number t) →
        Struct2PartBlob t' flag v scr (v.selected (Under locs) (leafCalls v.number t)).length
          (v.selected (Under locs) (leafCalls v.number t))

/-- Where a name stands for no element, `struct_set_flag` fails with the flags as before. -/
def RefusesMissing (t : Template) (flag : Int32) (names : List (List Char)) : Prop :=
  (∃ name ∈ names, ∀ loc, ¬ t.Leads name loc) →
    ∃ ret t', structSetFlag flag (commaList names) t = .done (ret, t') ∧ ret < 0 ∧
      ∀ q, (t'.elem q).flag = (t.elem q).flag ∧ (t'.node q).flag = (t.node q).flag

/-- What is asked of a partial encoding. -/
structure PartEncodes (t : Template) (flag : Int32) (names : List (List Char)) : Prop where
  named : EncodesNamed t flag names
  missing : RefusesMissing t flag names

section PartBlob

variable {flag : Int32} {t t' : Template} {names : List (List Char)} {locs : List Loc}

/-- The loop over names that are all found is a run over their elements. -/
theorem overNames_found {act : Loc → Template → Option Template} (hact : Acts act) (hfull : t.Full)
    (h : List.Forall₂ (fun name loc => t.elemByName [] name = .elem loc) names locs) (count : Int) :
    ∃ t', overNames act names count t = .done (count + names.length, t') ∧ Run act locs t t' := by
  induction names generalizing t locs count with
  | nil =>
    obtain rfl := List.forall₂_nil_left_iff.1 h
    exact ⟨t, by simp [overNames], .nil t⟩
  | cons name names ih =>
    obtain ⟨loc, locs, hname, hrest, rfl⟩ := List.forall₂_cons_left_iff.1 h
    obtain ⟨d, hd⟩ := exists_desc_of_name hname
    obtain ⟨t₁, hstep, halike⟩ := hact hfull hd
    -- The names are found where they were before the step.
    have hrest' : List.Forall₂ (fun name loc => t₁.elemByName [] name = .elem loc) names locs :=
      hrest.imp fun other loc hother => (halike.elemByName [] other).trans hother
    obtain ⟨t', hloop, hrun⟩ := ih (halike.full hfull) hrest' (count + 1)
    refine ⟨t', ?_, .cons hstep hrun⟩
    rw [overNames, hname]
    have hcount : count + 1 + (names.length : Int) = count + (name :: names).length := by
      rw [List.length_cons]
      omega
    simp only [hstep, hloop, hcount]

/-- A loop without an error finds all names. -/
theorem found_of_overNames {act : Loc → Template → Option Template} (hact : Acts act) (hfull : t.Full)
    {count ret : Int} (h : overNames act names count t = .done (ret, t')) (hret : 0 ≤ ret) :
    ∀ name ∈ names, ∃ loc, t.elemByName [] name = .elem loc := by
  induction names generalizing t count with
  | nil => exact fun _ hname => nomatch hname
  | cons name names ih =>
    rw [overNames] at h
    rcases hname : t.elemByName [] name with _ | loc | _ <;> rw [hname] at h
    · obtain ⟨rfl, -⟩ := Outcome.pair_inj h
      exact absurd hret (by decide)
    · obtain ⟨d, hd⟩ := exists_desc_of_name hname
      obtain ⟨t₁, hstep, halike⟩ := hact hfull hd
      simp only [hstep] at h
      refine List.forall_mem_cons.2 ⟨⟨loc, hname⟩, fun other hother => ?_⟩
      rw [← halike.elemByName]
      exact ih (halike.full hfull) h other hother
    · cases h

/-- What the search for a name finds is what the name stands for, if no component of it is out
    of size. -/
theorem elemByName_eq_elem {name : List Char} {loc : Loc} : t.elemByName [] name = .elem loc ↔
    t.Leads name loc ∧ ∀ component ∈ Template.namesOf name, Template.Sized component := by
  rw [Template.elemByName_eq, Template.followName_eq_elem, Template.Leads]

/-- The search for an empty name finds nothing. -/
theorem elemByName_nil (loc : Loc) : t.elemByName [] [] ≠ .elem loc := by
  rw [Ne, elemByName_eq_elem]
  rintro ⟨-, hsized⟩
  exact absurd (hsized [] (by decide)) (by decide)

/-- Setting the names of a list without an error has found each of them. -/
theorem leads_of_structSetFlag (hfull : t.Full) (hlisted : ∀ name ∈ names, Listed name) {ret : Int}
    (h : structSetFlag flag (commaList names) t = .done (ret, t')) (hret : 0 ≤ ret) :
    ∀ name ∈ names, name.length ≤ maxNameLen ∧ (∃ loc, t.Leads name loc) ∧
      ∀ component ∈ Template.namesOf name, Template.Sized component := by
  have hfound := found_of_overNames (acts_setElemFlag flag) hfull h hret
  obtain ⟨hshort, hlong⟩ := namesIn_commaList hlisted
  have hlen : ∀ name ∈ names, name.length ≤ maxNameLen := by
    by_contra hnot
    push Not at hnot
    obtain ⟨name, hname, hlen⟩ := hnot
    obtain ⟨loc, hloc⟩ := hfound [] (hlong ⟨name, hname, Nat.lt_of_not_le (by simpa using hlen)⟩)
    exact elemByName_nil loc hloc
  rw [hshort hlen] at hfound
  intro name hname
  obtain ⟨loc, hloc⟩ := hfound name hname
  obtain ⟨hleads, hsized⟩ := elemByName_eq_elem.1 hloc
  exact ⟨hlen name hname, ⟨loc, hleads⟩, hsized⟩

/-- A run of the walk that takes the selected leaves. -/
theorem struct2PartBlob_of_selects {Sel : Loc → Prop} [DecidablePred Sel] (hfull : t.Full)
    (hsel : Selects t flag Sel) {v : Encoded} {scr : Scratch} (hrest : AtRest t scr)
    (hencodes : v.Encodes Sel (leafCalls v.number t)) :
    Struct2PartBlob t flag v scr (v.selected Sel (leafCalls v.number t)).length
      (v.selected Sel (leafCalls v.number t)) := by
  have hgo : traverse (partBlob t flag v) [] 0 t.desc (fun _ => 0) ⟨0, []⟩ =
      .done ((⟨0, []⟩ : BlobPara (List UInt8)).put (v.selected Sel (leafCalls v.number t))) :=
    traverse_partBlob hsel t.desc (Nat.zero_le _) rfl hencodes
  have hconvert : (partBlob t flag v).convert t.desc ⟨0, []⟩ = some (0, false,
      (⟨0, []⟩ : BlobPara (List UInt8)).put (v.selected Sel (leafCalls v.number t))) := by
    have hstart : (partBlob t flag v).start ⟨0, []⟩ = some (0, ⟨0, []⟩) := rfl
    rw [Visitor.convert, hstart]
    simp only
    rw [if_neg (by decide), hgo]
    rfl
  have hsteady : ((struct2Blob t (some flag) (fun loc idx _ => some (v.number (leafCall loc idx)))
      v.getBinValue)).Steady := ⟨fun _ _ => rfl, fun _ _ => rfl, fun _ _ => rfl, fun _ _ => rfl⟩
  have hrefines := convert_refines (v := partBlob t flag v) (Counting.orderly hsteady t) hfull hrest
    ⟨0, []⟩
  rw [hconvert] at hrefines
  obtain ⟨scr', hconverts, -⟩ := hrefines
  refine ⟨scr', ?_⟩
  rwa [BlobPara.put, Int.zero_add, List.nil_append] at hconverts

/-- The names that are short enough, with components that are not out of size, are found where
    they lead. -/
theorem elemByName_of_leads (h : List.Forall₂ t.Leads names locs)
    (hsized : ∀ name ∈ names, ∀ component ∈ Template.namesOf name, Template.Sized component) :
    List.Forall₂ (fun name loc => t.elemByName [] name = .elem loc) names locs := by
  refine ((List.forall₂_and_left names locs).2 ⟨hsized, h⟩).imp fun name loc hname => ?_
  exact elemByName_eq_elem.2 ⟨hname.2, hname.1⟩

theorem exists_desc_of_leads (h : List.Forall₂ t.Leads names locs) :
    ∀ loc ∈ locs, ∃ d, t.descOf loc = some d := by
  induction h with
  | nil => exact fun _ hloc => nomatch hloc
  | cons hname _ ih => exact List.forall_mem_cons.2 ⟨hname.exists_desc, ih⟩

/-- A flag without bits is on no element, so that nothing is selected by it. -/
theorem selects_zero (hknown : ∀ q d, t.descOf q = some d → d.type.attr.subset = false →
    d.type.hasOps = true) : Selects t 0 fun _ => False := by
  have htest (q : Loc) : partDealTest t (some 0) q = false := by
    simp [partDealTest]
  refine ⟨hknown, fun q d _ _ => ?_, fun q d _ _ r _ => not_false⟩
  rw [htest]
  exact iff_of_false Bool.false_ne_true not_false

/-- The leaves that are named are written exactly if no name is too long for the loop over
    the list or has a component that is out of size, and the flag has bits where there are
    leaves to be written. -/
theorem encodesNamed_iff (hfull : t.Full) (hknown : ∀ q d, t.descOf q = some d →
      d.type.attr.subset = false → d.type.hasOps = true)
    (hfree : ∀ q, ¬ Lib.Carries (t.elem q).flag flag) (hlisted : ∀ name ∈ names, Listed name) :
    EncodesNamed t flag names ↔ ∀ locs, List.Forall₂ t.Leads names locs →
      (∀ name ∈ names, name.length ≤ maxNameLen ∧
        ∀ component ∈ Template.namesOf name, Template.Sized component) ∧
      (flag ≠ 0 ∨ ∀ number, ∀ call ∈ leafCalls number t, ¬ Under locs call.1) := by
  refine forall₂_congr fun locs hleads => ?_
  have hlocs := exists_desc_of_leads hleads
  constructor
  · rintro ⟨count, t', hset, hcount, hblob⟩
    have hfound := leads_of_structSetFlag hfull hlisted hset hcount
    have hsized : ∀ name ∈ names, name.length ≤ maxNameLen ∧
        ∀ component ∈ Template.namesOf name, Template.Sized component := fun name hname =>
      ⟨(hfound name hname).1, (hfound name hname).2.2⟩
    refine ⟨hsized, or_iff_not_imp_left.2 fun hzero number call hcall hunder => ?_⟩
    rw [not_not] at hzero
    subst hzero
    obtain ⟨t'', hloop, hrun⟩ := overNames_found (acts_setElemFlag 0) hfull
      (elemByName_of_leads hleads fun name hname => (hsized name hname).2) 0
    rw [structSetFlag, (namesIn_commaList hlisted).1 fun name hname => (hsized name hname).1] at hset
    obtain ⟨-, rfl⟩ := Outcome.pair_inj (hloop.symm.trans hset)
    obtain rfl := run_set_zero hfull hrun
    -- A structure whose leaves are all encoded with a byte: the walk writes none of them.
    let v : Encoded := ⟨number, fun _ => .done [0], fun _ => none⟩
    have hrest : AtRest t'' Scratch.clean := ⟨fun _ _ => rfl, fun _ => rfl⟩
    obtain ⟨scr, hwrites⟩ := hblob v _ hrest fun _ _ _ => ⟨[0], rfl⟩
    obtain ⟨scr', hnothing⟩ := struct2PartBlob_of_selects (v := v) hfull (selects_zero hknown) hrest
      fun _ _ h => h.elim
    obtain ⟨-, hsame⟩ := hwrites.unique hnothing
    have hblobs := congrArg (·.para.mem) hsame
    rw [v.selected_none, Encoded.selected, List.flatMap_eq_nil_iff] at hblobs
    exact List.cons_ne_nil 0 [] (hblobs call (List.mem_filter.2 ⟨hcall, decide_eq_true hunder⟩))
  · rintro ⟨hsized, hcases⟩
    obtain ⟨t', hloop, hrun⟩ := overNames_found (acts_setElemFlag flag) hfull
      (elemByName_of_leads hleads fun name hname => (hsized name hname).2) 0
    have halike := hrun.alike (acts_setElemFlag flag) hfull hlocs
    refine ⟨0 + (names.length : Int), t', ?_, ?_, fun v scr hrest hencodes => ?_⟩
    · rw [structSetFlag, (namesIn_commaList hlisted).1 fun name hname => (hsized name hname).1]
      exact hloop
    · omega
    · have hcalls : leafCalls v.number t = leafCalls v.number t' := by
        rw [leafCalls, leafCalls, halike.desc]
      rw [hcalls] at hencodes ⊢
      by_cases hflag : flag = 0
      · subst hflag
        obtain rfl := run_set_zero hfull hrun
        have hnone := hcases.resolve_left (not_not.2 rfl) v.number
        rw [v.selected_eq_nil hnone, ← v.selected_none (leafCalls v.number t')]
        exact struct2PartBlob_of_selects hfull (selects_zero hknown) hrest fun _ _ h => h.elim
      · exact struct2PartBlob_of_selects (halike.full hfull)
          (selects_of_run hknown hfree hflag hfull hrun hlocs) hrest hencodes

/-- With a name that stands for no element the flags are as before exactly if the search does
    not end with the pointer of an error, and no name has been marked by then. -/
theorem refusesMissing_iff (hfull : t.Full) (hfree : ∀ q, ¬ Lib.Carries (t.elem q).flag flag)
    (hlisted : ∀ name ∈ names, Listed name) :
    RefusesMissing t flag names ↔ ((∃ name ∈ names, ∀ loc, ¬ t.Leads name loc) →
      ∃ locs, located t (namesIn (commaList names)) = some locs ∧ (flag = 0 ∨ locs = [])) := by
  refine imp_congr_right fun hmissing => ?_
  constructor
  · rintro ⟨ret, t', hset, -, hsame⟩
    rcases hlocated : located t (namesIn (commaList names)) with _ | locs
    · rw [structSetFlag, overNames_fault (acts_setElemFlag flag) hfull hlocated] at hset
      cases hset
    · refine ⟨locs, rfl, or_iff_not_imp_left.2 fun hflag => ?_⟩
      have hlocs := exists_desc_of_located hlocated
      obtain ⟨ret', t'', hloop, hrun⟩ := overNames_located (acts_setElemFlag flag) hfull hlocated 0
      obtain ⟨-, rfl⟩ := Outcome.pair_inj (hloop.symm.trans hset)
      refine List.eq_nil_iff_forall_not_mem.2 fun loc hloc => ?_
      obtain ⟨d, hd⟩ := hlocs loc hloc
      have hmarked := (carries_of_run hflag hfull hrun hlocs hd).2
        (.inr ⟨loc, hloc, .inl (List.suffix_refl loc)⟩)
      rw [(hsame loc).1] at hmarked
      exact hfree loc hmarked
  · rintro ⟨locs, hlocated, hcases⟩
    obtain ⟨ret, t', hloop, hrun⟩ := overNames_located (acts_setElemFlag flag) hfull hlocated 0
    have hsame : t' = t := by
      rcases hcases with rfl | rfl
      · exact run_set_zero hfull hrun
      · cases hrun
        rfl
    refine ⟨ret, t', hloop, Int.lt_of_not_ge fun hret => ?_, fun q => by rw [hsame]; exact ⟨rfl, rfl⟩⟩
    obtain ⟨name, hname, hnowhere⟩ := hmissing
    obtain ⟨loc, hloc⟩ := (leads_of_structSetFlag hfull hlisted hloop hret name hname).2.1
    exact hnowhere loc hloc

end PartBlob

/-- When a list of names selects what `struct_2_part_blob` writes, and leaves the flags as they
    are where it fails: the names fit the loop over the list and the search for an element, the
    flag has bits, and a name that stands for no element is the first of the list. -/
theorem partBlob_iff {desc : List ElemDesc} {created t : Template}
    (hcreated : Created desc created) (hflagged : Flagged created t) {flag : Int32}
    (hfree : ∀ loc d, t.descOf loc = some d → ¬ Lib.Carries (t.elem loc).flag flag)
    {names : List (List Char)} (hlisted : ∀ name ∈ names, Listed name) :
    PartEncodes t flag names ↔
      (∀ locs, List.Forall₂ t.Leads names locs →
        (∀ name ∈ names, name.length ≤ maxNameLen ∧
          ∀ component ∈ Template.namesOf name, Template.Sized component) ∧
        (flag ≠ 0 ∨ ∀ number, ∀ call ∈ leafCalls number t, ¬ Under locs call.1)) ∧
      ((∃ name ∈ names, ∀ loc, ¬ t.Leads name loc) →
        ∃ locs, located t (namesIn (commaList names)) = some locs ∧ (flag = 0 ∨ locs = [])) := by
  have hfull := hflagged.full hcreated.full
  have hknown : ∀ q d, t.descOf q = some d → d.type.attr.subset = false → d.type.hasOps = true :=
    fun q d hd => hcreated.known ((Template.descOf_congr hflagged.desc q).symm.trans hd)
  have hfree' : ∀ q, ¬ Lib.Carries (t.elem q).flag flag := fun q => by
    rcases hd : t.descOf q with _ | d
    · rw [hflagged.elem_flag q hd]
      exact fun h => h (by simp)
    · exact hfree q d hd
  rw [← encodesNamed_iff hfull hknown hfree' hlisted, ← refusesMissing_iff hfull hfree' hlisted]
  exact ⟨fun h => ⟨h.named, h.missing⟩, fun h => ⟨h.1, h.2⟩⟩

/-- A template of one integer, with the flags that it is created with. -/
theorem intTemplate : ∃ t, Created [intElem 'a'] t ∧ t.elemByName [] ['a'] = .elem [0] ∧
    t.elemByName [] ['b'] = .null ∧ ∀ loc, ¬ Lib.Carries (t.elem loc).flag 1 := by
  obtain ⟨t, hcreated, ha, hb⟩ : ∃ t, Created [intElem 'a'] t ∧
      t.elemByName [] ['a'] = .elem [0] ∧ t.elemByName [] ['b'] = .null :=
    ⟨_, ⟨0, _, Int.le_refl 0, ⟨2, rfl⟩, rfl⟩, by decide, by decide⟩
  refine ⟨t, hcreated, ha, hb, fun loc => ?_⟩
  rw [hcreated.flagless.elem loc]
  decide

theorem listed_letter {c : Char} (hcomma : c ≠ ',') (hblank : c ≠ ' ') : Listed [c] where
  ne_nil := List.cons_ne_nil c []
  comma := by simpa using hcomma.symm
  blank := by simpa using hblank

/-- A template of two integers, with the flags that it is created with. -/
theorem pairTemplate : ∃ t, Created [intElem 'a', intElem 'b'] t ∧ t.elemByName [] ['a'] = .elem [0] ∧
    t.elemByName [] ['b'] = .elem [1] ∧ t.elemByName [] ['c'] = .null ∧
    ∀ loc, ¬ Lib.Carries (t.elem loc).flag 1 := by
  obtain ⟨t, hcreated, ha, hb, hc⟩ : ∃ t, Created [intElem 'a', intElem 'b'] t ∧
      t.elemByName [] ['a'] = .elem [0] ∧ t.elemByName [] ['b'] = .elem [1] ∧
      t.elemByName [] ['c'] = .null :=
    ⟨_, ⟨0, _, Int.le_refl 0, ⟨3, rfl⟩, rfl⟩, by decide, by decide, by decide⟩
  refine ⟨t, hcreated, ha, hb, hc, fun loc => ?_⟩
  rw [hcreated.flagless.elem loc]
  decide

/-- Both elements are selected in any order, and a name that is missing in front of them lets
    the flags be. -/
theorem partBlob_iff_pair : ∃ t, Created [intElem 'a', intElem 'b'] t ∧
    PartEncodes t 1 [['b'], ['a']] ∧ PartEncodes t 1 [['c'], ['b'], ['a']] := by
  obtain ⟨t, hcreated, ha, hb, hc, hfree⟩ := pairTemplate
  have hletters : ∀ name ∈ [['c'], ['b'], ['a']], Listed name ∧ name.length ≤ maxNameLen ∧
      ∀ component ∈ Template.namesOf name, Template.Sized component := by
    simp only [List.forall_mem_cons, List.not_mem_nil, false_imp_iff, implies_true, and_true]
    exact ⟨⟨listed_letter (by decide) (by decide), by decide⟩,
      ⟨listed_letter (by decide) (by decide), by decide⟩,
      ⟨listed_letter (by decide) (by decide), by decide⟩⟩
  have hpair {name : List Char} (hname : name ∈ [['b'], ['a']]) := hletters name (.tail _ hname)
  refine ⟨t, hcreated,
    (partBlob_iff hcreated hcreated.flagged (fun loc _ _ => hfree loc) fun _ hname => (hpair hname).1).2
      ⟨fun locs _ => ⟨fun _ hname => (hpair hname).2, .inl (by decide)⟩, ?_⟩,
    (partBlob_iff hcreated hcreated.flagged (fun loc _ _ => hfree loc) fun _ hname =>
      (hletters _ hname).1).2
      ⟨fun locs _ => ⟨fun _ hname => (hletters _ hname).2, .inl (by decide)⟩, fun _ => ⟨[], ?_, .inr rfl⟩⟩⟩
  · -- No name is missing.
    simp only [List.mem_cons, List.not_mem_nil, or_false, exists_eq_or_imp, exists_eq_left]
    rintro (hnowhere | hnowhere)
    · exact absurd (elemByName_eq_elem.1 hb).1 (hnowhere [1])
    · exact absurd (elemByName_eq_elem.1 ha).1 (hnowhere [0])
  · have hnames : namesIn (commaList [['c'], ['b'], ['a']]) = [['c'], ['b'], ['a']] := by decide
    simp only [hnames, located, hc]

/-- A name that is missing behind one that is found leaves this marked. -/
theorem partBlob_not : ∃ t, Created [intElem 'a'] t ∧
    (∀ loc, ¬ Lib.Carries (t.elem loc).flag 1) ∧ ¬ PartEncodes t 1 [['a'], ['b']] := by
  obtain ⟨t, hcreated, ha, hb, hfree⟩ := intTemplate
  refine ⟨t, hcreated, hfree, fun hencodes => ?_⟩
  have hlisted : ∀ name ∈ [['a'], ['b']], Listed name := by
    simpa using ⟨listed_letter (by decide) (by decide), listed_letter (by decide) (by decide)⟩
  have hnames : namesIn (commaList [['a'], ['b']]) = [['a'], ['b']] := by decide
  have hlocated : located t (namesIn (commaList [['a'], ['b']])) = some [[0]] := by
    simp only [hnames, located, ha, hb, Option.map_some]
  have hmissing : ∀ loc, ¬ t.Leads ['b'] loc := fun loc hleads => by
    have hfound := elemByName_eq_elem.2 ⟨hleads, by decide⟩
    exact absurd (hb.symm.trans hfound) (by simp)
  obtain ⟨locs, hlocs, hcases⟩ := (refusesMissing_iff hcreated.full hfree hlisted).1
    hencodes.missing ⟨['b'], by simp, hmissing⟩
  rcases hcases with hzero | hnil
  · exact absurd hzero (by decide)
  · rw [hlocated, hnil] at hlocs
    exact absurd hlocs (by simp)

end Cube.Struct
