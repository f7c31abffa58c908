import Cube.Struct.Conversions
import Cube.Struct.Rounds

/-!
# Structures counted with a negative number

A number that counts an element is read as the element is come to. `_elem_get_defvalue`
makes an error of a negative one, which the operations on a leaf return. The functions for a
structure store it as the limit of the structure instead, and the loop goes through a
structure once unless its limit is 0.

* `Counting.rejects_iff`: a conversion that does nothing else with a limit below 0 ends with
  the error exactly if the element is a leaf, or the loop fails at the next one by itself.
-/

namespace Cube.Struct

open Lib Function

/-! ## The elements functions are called for -/

section Traced

variable {π : Type}

/-- The functions of a conversion, with a list of the elements they are called for. -/
def Visitor.traced (v : Visitor π) : Visitor (π × List Loc) where
  start m := (v.start m.1).map fun (ret, m') => (ret, m', m.2)
  test loc m := v.test loc m.1
  enter loc idx limit m := (v.enter loc idx limit m.1).map fun e =>
    ⟨e.ret, e.index, e.limit, e.para, m.2 ++ [loc]⟩
  exit loc idx limit m := (v.exit loc idx limit m.1).map fun (ret, m') => (ret, m', m.2 ++ [loc])
  leaf loc idx m := (v.leaf loc idx m.1).map fun (ret, i, m') => (ret, i, m', m.2 ++ [loc])
  finish m := (v.finish m.1).map fun (ret, m') => (ret, m', m.2)

/-- What the functions do to the data, they do with the list, which grows. -/
theorem Visitor.Relates.traced {v : Visitor π} {R : π → π → Prop} (h : v.Relates R) :
    v.traced.Relates fun m m' => R m.1 m'.1 ∧ m.2 <+: m'.2 where
  refl m := ⟨h.refl _, List.prefix_refl _⟩
  trans h₁ h₂ := ⟨h.trans h₁.1 h₂.1, h₁.2.trans h₂.2⟩
  enter hcall := by
    obtain ⟨e, he, rfl⟩ := Option.map_eq_some_iff.1 hcall
    exact ⟨h.enter he, List.prefix_append _ _⟩
  exit hcall := by
    obtain ⟨r, hr, rfl⟩ := Option.map_eq_some_iff.1 hcall
    exact ⟨h.exit hr, List.prefix_append _ _⟩
  leaf hcall := by
    obtain ⟨r, hr, rfl⟩ := Option.map_eq_some_iff.1 hcall
    exact ⟨h.leaf hr, List.prefix_append _ _⟩

/-- A conversion comes to an element that it is to go through from the start, in a frame. -/
structure ComesTo (ops : DealOps π) (f₀ : Frame π) (p : Loc) (k : Nat) (d : ElemDesc)
    (f : Frame π) : Prop where
  rounds : ∃ ret f₁, ops.start (f₀.setTempVar [] 0) = some (ret, f₁) ∧ 0 ≤ ret ∧
    Rounds ops [] f₁ p f
  cur : Current f p k d
  limit : f.scr.limit (k :: p) = 0

/-- A conversion in a frame ends with an error as it is at the element: no function is called
    for any other, and nothing is written. -/
def Rejects (ops : DealOps (π × List Loc)) (f₀ : Frame (π × List Loc)) (loc : Loc)
    (f : Frame (π × List Loc)) : Prop :=
  ∃ ret f', ret < 0 ∧ Converts ops f₀ ret f' ∧ f'.para.1 = f.para.1 ∧
    ∃ calls, f'.para.2 = f.para.2 ++ calls ∧ ∀ q ∈ calls, q = loc

section Comes

variable {ops : DealOps π} {f₀ f f' : Frame π} {p : Loc} {k : Nat} {d : ElemDesc} {ret : Int}

theorem ComesTo.converts (h : ComesTo ops f₀ p k d f) {n : Nat}
    (hwalk : walk ops n p f = some (ret, f')) (hret : ret < 0) : Converts ops f₀ ret f' := by
  obtain ⟨r, f₁, hstart, hr, hrounds⟩ := h.rounds
  obtain ⟨m, hm⟩ := hrounds.leads.ends ⟨n, hwalk⟩
  refine ⟨m, ?_⟩
  rw [convertFrame, hstart]
  simp only [if_neg (Int.not_lt.2 hr), hm, if_pos hret]

/-- What a conversion returns is what the loop ends with from any frame it comes to, or what
    is returned at the end. -/
theorem ComesTo.walk (h : ComesTo ops f₀ p k d f) (hconverts : Converts ops f₀ ret f') :
    ∃ n r g, walk ops n p f = some (r, g) ∧
      (r < 0 ∧ ret = r ∧ f' = g ∨ 0 ≤ r ∧ ops.finish g = some (ret, f')) := by
  obtain ⟨n, hn⟩ := hconverts
  obtain ⟨r, f₁, hstart, hr, hrounds⟩ := h.rounds
  rw [convertFrame, hstart] at hn
  simp only [if_neg (Int.not_lt.2 hr)] at hn
  split at hn
  · cases hn
  · next r g hwalk =>
    obtain ⟨j, hj⟩ := hrounds.leads
    refine ⟨n, r, g, (hj n).symm.trans (walk_mono hwalk j), ?_⟩
    split_ifs at hn with hneg
    · obtain ⟨rfl, rfl⟩ := Prod.mk.inj (Option.some.inj hn)
      exact .inl ⟨hneg, rfl, rfl⟩
    · exact .inr ⟨Int.not_lt.1 hneg, hn⟩

/-- A conversion leaves the template as it is. -/
theorem ComesTo.tpl {v : Visitor π} (h : ComesTo v.ops f₀ p k d f) : f.tpl = f₀.tpl := by
  obtain ⟨r, f₁, hstart, _, hrounds⟩ := h.rounds
  obtain ⟨_, _, heq⟩ := Option.map_eq_some_iff.1 hstart
  obtain ⟨_, rfl⟩ := Prod.mk.inj heq
  exact (v.relates_all.rounds hrounds :)

end Comes

end Traced

/-! ## Numbers that are read -/

section Counted

variable {μ σ : Type} (t : Template)

/-- `_elem_get_defvalue`, with the number that is read from an element. -/
def elemGetDefvalue (number : Loc → Indices → μ → Option Int) (loc : Loc) (idx : Indices)
    (mem : μ) : Option Int :=
  match (t.elem loc).define with
  | none => some (-EINVAL)
  | some define =>
    if !(t.descOf define).any (·.type.hasOps) then some (-EINVAL)
    else (number define idx mem).map fun value => if value < 0 then -EINVAL else value

/-- The element that counts the one at the place has a negative number. -/
def NegativeCount (number : Loc → Indices → μ → Option Int) (loc : Loc) (idx : Indices)
    (mem : μ) : Prop :=
  ∃ define value, (t.elem loc).define = some define ∧ number define idx mem = some value ∧
    value < 0

/-- How the operations on the value of a leaf begin: the number of a leaf that is counted is
    read, and returned if it is negative. -/
def countedValue (number : Loc → Indices → μ → Option Int) (value : Option (Int × Option Int × σ))
    (loc : Loc) (idx : Indices) (mem : μ) (kept : σ) : Option (Int × Option Int × σ) :=
  if t.isDefine loc then
    match elemGetDefvalue t number loc idx mem with
    | none => none
    | some count => if count < 0 then some (count, none, kept) else value
  else value

/-- `struct_2_blob`, with the number that is read from an element, and `_elem_get_bin_value`
    from the number on. -/
def countedStruct2Blob (number : Loc → Indices → μ → Option Int)
    (binValue : Int → Loc → Indices → μ → Option (Int × Option Int × μ)) : Counting (BlobPara μ) :=
  struct2Blob t none (elemGetDefvalue t number) fun offset loc idx mem =>
    countedValue t number (binValue offset loc idx mem) loc idx mem mem

/-- `blob_2_struct`, with the number that is read from an element, and `_elem_set_bin_value`
    from the number on. -/
def countedBlob2Struct (number : Loc → Indices → μ → Option Int)
    (alloc : Loc → Indices → Int → μ → Option (Int × μ))
    (binValue : Int → Loc → Indices → μ → Option (Int × Option Int × μ)) : Counting (BlobPara μ) :=
  blob2Struct t none (elemGetDefvalue t number) alloc fun offset loc idx mem =>
    countedValue t number (binValue offset loc idx mem) loc idx mem mem

/-- `struct_2_json`, with the number that is read from an element, and `_elem_get_text_value`
    and `_getjsonstr` from the number on. The text is written behind the name. -/
def countedStruct2Json (number : Loc → Indices → μ → Option Int)
    (textValue : Loc → Indices → μ → Option (Int × Option Int × List Char × μ)) :
    Counting (JsonPara μ) :=
  struct2Json t none (elemGetDefvalue t number) fun loc idx m =>
    (countedValue t number (textValue loc idx m.mem) loc idx m.mem ([], m.mem)).map
      fun (ret, i, text, mem) =>
        let m := { m with mem := mem }
        (ret, i, if ret < 0 then m else m.put (text ++ [',']))

/-- The element that is next after one that is a structure: its first, or if it has none, the
    one behind it. -/
def Template.nextElem (p : Loc) (k : Nat) : Option ElemDesc :=
  ((t.children (k :: p)).head?).or (t.descOf ((k + 1) :: p))

/-- The element that is next is a leaf without operations. -/
def Template.NextFails (p : Loc) (k : Nat) : Prop :=
  ∃ e, t.nextElem p k = some e ∧ e.type.attr.subset = false ∧ e.type.hasOps = false

variable {t} {number : Loc → Indices → μ → Option Int} {loc : Loc} {idx : Indices} {mem : μ}

/-- A negative number is read as an error. -/
theorem NegativeCount.defvalue (h : NegativeCount t number loc idx mem) :
    elemGetDefvalue t number loc idx mem = some (-EINVAL) := by
  obtain ⟨define, value, hdefine, hnumber, hneg⟩ := h
  rw [elemGetDefvalue, hdefine]
  simp only [hnumber, Option.map_some, if_pos hneg]
  split_ifs <;> rfl

theorem NegativeCount.value (h : NegativeCount t number loc idx mem) {d : ElemDesc}
    (hd : t.descOf loc = some d) (hdefine : d.type.attr.define = true)
    (value : Option (Int × Option Int × σ)) (kept : σ) :
    countedValue t number value loc idx mem kept = some (-EINVAL, none, kept) := by
  have hisdefine : t.isDefine loc = true := by rw [Template.isDefine, hd]; exact hdefine
  rw [countedValue, if_pos hisdefine, h.defvalue]
  rfl

theorem Template.nextFails_of_next {p : Loc} {k : Nat} {e : ElemDesc}
    (hnext : t.nextElem p k = some e) :
    t.NextFails p k ↔ e.type.attr.subset = false ∧ e.type.hasOps = false := by
  constructor
  · rintro ⟨e', he', hfails⟩
    obtain rfl := Option.some.inj (he'.symm.trans hnext)
    exact hfails
  · exact fun hfails => ⟨e, hnext, hfails⟩

/-- Leaves that are counted have operations. -/
theorem ElemType.hasOps_of_define {type : ElemType} (hdefine : type.attr.define = true)
    (hsub : type.attr.subset = false) : type.hasOps = true := by
  revert hdefine hsub
  cases type <;> decide

end Counted

/-! ## The rounds from a negative number on -/

section Rejected

variable {π : Type} {v : Visitor π} {t : Template} {p q : Loc} {k j : Nat} {d e : ElemDesc}
  {f₀ f g : Frame (π × List Loc)}

/-- A conversion that comes from the element to another one does not reject it, if the round
    there calls a function for the other one. -/
theorem not_rejects_of_call {loc : Loc} (hcomes : ComesTo v.traced.ops f₀ p k d f)
    (hleads : Leads v.traced.ops p f q g) (hgrows : f.para.2 <+: g.para.2)
    (hcall : ∀ next, step v.traced.ops q g = some next → g.para.2 ++ [loc] <+: next.frame.para.2)
    (hne : loc ≠ k :: p) : ¬ Rejects v.traced.ops f₀ (k :: p) f := by
  rintro ⟨ret, f', hret, hconverts, -, calls, hcalls, hall⟩
  obtain ⟨n, r, g', hwalk, hends⟩ := hcomes.walk hconverts
  have hlist : f'.para.2 = g'.para.2 := by
    obtain ⟨_, _, rfl⟩ | ⟨_, hfinish⟩ := hends
    · rfl
    · obtain ⟨r', hr', heq⟩ := Option.map_eq_some_iff.1 hfinish
      obtain ⟨r'', _, rfl⟩ := Option.map_eq_some_iff.1 hr'
      obtain ⟨_, rfl⟩ := Prod.mk.inj heq
      rfl
  obtain ⟨i, hi⟩ := hleads
  have hrest := (hi n).symm.trans (walk_mono hwalk i)
  have hprefix : g.para.2 ++ [loc] <+: g'.para.2 := by
    rcases n with _ | n
    · cases hrest
    · cases hstep : step v.traced.ops q g with
      | none => rw [never_of_step hstep] at hrest; cases hrest
      | some next =>
        exact (hcall next hstep).trans (v.relates_all.traced.walk_step hstep hrest).2
  obtain ⟨s, hs⟩ := hgrows
  obtain ⟨s', hs'⟩ := hprefix
  rw [hlist, ← hs', ← hs, List.append_assoc, List.append_assoc,
    List.append_cancel_left_eq] at hcalls
  exact hne (hall loc (hcalls ▸ by simp))

/-- A round for an element that has operations, or is a structure, calls a function for it. -/
theorem called_of_current (htest : v.test (j :: q) g.para.1 = true) (cur : Current g q j e)
    (he : ¬ (e.type.attr.subset = false ∧ e.type.hasOps = false)) (next : Next (π × List Loc))
    (hstep : step v.traced.ops q g = some next) : g.para.2 ++ [j :: q] <+: next.frame.para.2 := by
  have htest' : v.traced.ops.testelem (j :: q) g = true := htest
  rw [step_current cur, htest', Bool.not_true, if_neg Bool.false_ne_true] at hstep
  obtain ⟨_, hcalls⟩ := v.relates_all.traced.stepElem hstep
  obtain ⟨_, ret, f', hcall, hrest⟩ | ⟨_, _, ret, f', hcall, hpara⟩ | ⟨hsub, hops, -⟩ := hcalls
  · obtain ⟨r, hr, heq⟩ := Option.map_eq_some_iff.1 hcall
    obtain ⟨r', _, rfl⟩ := Option.map_eq_some_iff.1 hr
    obtain ⟨_, rfl⟩ := Prod.mk.inj heq
    exact hrest.2
  · obtain ⟨r, hr, heq⟩ := Option.map_eq_some_iff.1 hcall
    obtain ⟨r', _, rfl⟩ := Option.map_eq_some_iff.1 hr
    obtain ⟨_, rfl⟩ := Prod.mk.inj heq
    rw [hpara]
    exact List.prefix_refl _
  · exact absurd ⟨hsub, hops⟩ he

/-- A round at the end of a nested structure calls a function for it. -/
theorem called_of_end (hend : g.scr.tempVar (j :: q) = (g.tpl.node (j :: q)).elemNo)
    (next : Next (π × List Loc)) (hstep : step v.traced.ops (j :: q) g = some next) :
    g.para.2 ++ [g.scr.tempVar q :: q] <+: next.frame.para.2 := by
  simp only [step, hend, Nat.lt_irrefl, gt_iff_lt, if_false, if_true] at hstep
  obtain ⟨ret, f', hcall, hpara, -⟩ := v.relates_all.traced.stepUp hstep
  obtain ⟨r, hr, heq⟩ := Option.map_eq_some_iff.1 hcall
  obtain ⟨r', _, rfl⟩ := Option.map_eq_some_iff.1 hr
  obtain ⟨_, rfl⟩ := Prod.mk.inj heq
  rw [hpara]
  exact List.prefix_refl _

variable {calls : List Loc} (hcomes : ComesTo v.traced.ops f₀ p k d f)
  (hleads : Leads v.traced.ops p f q g) (hpara : g.para = (f.para.1, f.para.2 ++ calls))
  (hall : ∀ r ∈ calls, r = k :: p)

include hcomes hleads hpara

include hall in
/-- A conversion that comes from the element to another one, without a function called for one
    in between, rejects it exactly if the other one is a leaf without operations. -/
theorem rejects_next_iff (htest : v.test (j :: q) g.para.1 = true) (cur : Current g q j e)
    (hne : j :: q ≠ k :: p) : Rejects v.traced.ops f₀ (k :: p) f ↔
      e.type.attr.subset = false ∧ e.type.hasOps = false := by
  constructor
  · intro hrejects
    by_contra he
    have hgrows : f.para.2 <+: g.para.2 := by rw [hpara]; exact List.prefix_append _ _
    exact not_rejects_of_call hcomes hleads hgrows (called_of_current htest cur he) hne hrejects
  · rintro ⟨hsub, hops⟩
    have htest' : v.traced.ops.testelem (j :: q) g = true := htest
    have hstep : step v.traced.ops q g = some (.stop (-EINVAL) g) := by
      rw [step_current cur, htest', stepElem, hsub, hops]
      rfl
    obtain ⟨n, hn⟩ := hleads.ends (ends_of_step hstep)
    have hneg : -EINVAL < 0 := by decide
    exact ⟨-EINVAL, g, hneg, hcomes.converts hn hneg, by rw [hpara], calls, by rw [hpara], hall⟩

/-- A conversion that comes to the end of the element's node does not reject it. -/
theorem not_rejects_at_end (hfinish : ∀ m, v.finish m = some (0, m)) (hnode : q = p)
    (hend : g.scr.tempVar q = (g.tpl.node q).elemNo) :
    ¬ Rejects v.traced.ops f₀ (k :: p) f := by
  subst hnode
  rcases q with _ | ⟨j, q⟩
  · -- The conversion is done, with the value 0.
    rintro ⟨ret, f', hret, hconverts, -⟩
    obtain ⟨n, r, h, hwalk, hends⟩ := hcomes.walk hconverts
    obtain ⟨i, hi⟩ := hleads
    have hrest := (hi n).symm.trans (walk_mono hwalk i)
    have hroot := (walk_mono (walk_root hend 0) n).symm.trans
      (Nat.add_comm n 1 ▸ walk_mono hrest 1)
    obtain ⟨rfl, rfl⟩ := Prod.mk.inj (Option.some.inj hroot)
    obtain ⟨hneg, _⟩ | ⟨_, hlast⟩ := hends
    · exact absurd hneg (Int.lt_irrefl 0)
    · simp only [Visitor.ops, Visitor.traced, hfinish, Option.map_some] at hlast
      obtain ⟨rfl, -⟩ := Prod.mk.inj (Option.some.inj hlast)
      exact absurd hret (Int.lt_irrefl 0)
  · have hgrows : f.para.2 <+: g.para.2 := by rw [hpara]; exact List.prefix_append _ _
    refine not_rejects_of_call hcomes hleads hgrows (called_of_end hend) fun heq => ?_
    have := congrArg List.length heq
    simp at this

end Rejected

/-! ## Conversions that only count -/

namespace Counting

variable {π : Type}

/-- Functions of a conversion of all elements that do nothing else with a structure whose limit
    is below 0. -/
structure Plain (c : Counting π) : Prop where
  test : ∀ loc m, c.test loc m = true
  first : ∀ loc idx limit m, limit < 0 → c.first loc idx limit m = some (0, m)
  exit : ∀ loc idx limit m, c.exit loc idx limit m = some (0, m)
  finish : ∀ m, c.finish m = some (0, m)

variable {c : Counting π} (hc : c.Plain) {t : Template} {p : Loc} {k : Nat} {d : ElemDesc}
  {f₀ f : Frame (π × List Loc)} {limit : Int}

include hc

/-- A structure with a limit below 0 is gone into. -/
theorem Plain.into (hcur : Current f p k d) (hzero : f.scr.limit (k :: p) = 0)
    (hsub : d.type.attr.subset = true) (hneg : limit < 0)
    (hlimit : c.limitOf t (k :: p) (update f.indices (k :: p) 0) f.para.1 = some limit) :
    step (c.visitor t).traced.ops p f = some (.go (k :: p)
      ((((f.setIndex (k :: p) 0).setLimit (k :: p) limit).setPara
        (f.para.1, f.para.2 ++ [k :: p])).setTempVar (k :: p) 0)) := by
  have hzeroRet : (0 : Int) ≤ 0 := Int.le_refl 0
  refine step_enter hcur (hc.test _ _) hsub ?_ hzeroRet fun hnone => ?_
  · simp only [Visitor.ops, Visitor.traced, visitor, enter, hzero, if_true, hlimit,
      hc.first _ _ _ _ hneg, Option.map_some]
  · have hset : limit = 0 :=
      (Frame.limit_setLimit (f.setIndex (k :: p) 0) (k :: p) limit).symm.trans hnone.2
    omega

/-- A structure without elements is left after the pass. -/
theorem Plain.out {g : Frame (π × List Loc)} (htpl : g.tpl = t) (hd : t.descOf (k :: p) = some d)
    (hsub : d.type.attr.subset = true) (hvar : g.scr.tempVar p = k) (hneg : limit < 0)
    (hend : g.scr.tempVar (k :: p) = (t.node (k :: p)).elemNo)
    (hindex : g.scr.index (k :: p) = 0) (hlimit : g.scr.limit (k :: p) = limit) :
    step (c.visitor t).traced.ops (k :: p) g = some (.go p
      (((g.incIndex (k :: p)).setPara (g.para.1, g.para.2 ++ [k :: p])).leave p (k :: p))) := by
  have hexit : (c.visitor t).traced.ops.exitstruct (k :: p) (g.incIndex (k :: p)) =
      some (0, (g.incIndex (k :: p)).setPara (g.para.1, g.para.2 ++ [k :: p])) := by
    simp only [Visitor.ops, Visitor.traced, visitor, hc.exit, Option.map_some]
    rfl
  have hround := step_up (by rw [htpl, hend]) hvar hsub hexit (Int.le_refl 0)
    (by rw [← htpl] at hd; exact hd)
  have hone : ((g.incIndex (k :: p)).setPara (g.para.1, g.para.2 ++ [k :: p])).scr.index
      (k :: p) = 1 := by
    change update g.scr.index (k :: p) (g.scr.index (k :: p) + 1) (k :: p) = 1
    rw [update_self, hindex]
    rfl
  have hbound : ((g.incIndex (k :: p)).setPara (g.para.1, g.para.2 ++ [k :: p])).scr.limit
      (k :: p) = limit := hlimit
  rw [hround, afterPass_leave (by omega)]

/-- A structure with a limit below 0 is rejected exactly if the element that is next fails. -/
theorem Plain.rejects_nested_iff (hfull : t.Full) (htpl : f.tpl = t)
    (hcomes : ComesTo (c.visitor t).traced.ops f₀ p k d f) (hsub : d.type.attr.subset = true)
    (hneg : limit < 0)
    (hlimit : c.limitOf t (k :: p) (update f.indices (k :: p) 0) f.para.1 = some limit) :
    Rejects (c.visitor t).traced.ops f₀ (k :: p) f ↔ t.NextFails p k := by
  have hd : t.descOf (k :: p) = some d := by rw [← htpl]; exact hcomes.cur.desc
  have hinto := hc.into hcomes.cur hcomes.limit hsub hneg hlimit
  obtain ⟨g, hg⟩ : ∃ g, g = (((f.setIndex (k :: p) 0).setLimit (k :: p) limit).setPara
    (f.para.1, f.para.2 ++ [k :: p])).setTempVar (k :: p) 0 := ⟨_, rfl⟩
  rw [← hg] at hinto
  have hleads := Leads.of_step hinto
  have hgtpl : g.tpl = t := by rw [hg]; exact htpl
  have hgpara : g.para = (f.para.1, f.para.2 ++ [k :: p]) := by rw [hg]; rfl
  have hgzero : g.scr.tempVar (k :: p) = 0 := by rw [hg]; exact tempVar_setTempVar ..
  have hgvar : g.scr.tempVar p = k := by
    rw [hg]
    exact (update_of_ne (by simp) _ _).trans hcomes.cur.tempVar
  have helemNo : (t.node (k :: p)).elemNo = (t.children (k :: p)).length :=
    hfull _ (.inr ((Template.nested_of_desc hd).trans hsub))
  rcases hchildren : t.children (k :: p) with _ | ⟨e, es⟩
  · -- The structure has no elements, and is left at once.
    have hout := hc.out hgtpl hd hsub hgvar hneg (hgzero.trans (by rw [helemNo, hchildren]; rfl))
      (by rw [hg]; exact update_self ..) (by rw [hg]; exact update_self ..)
    obtain ⟨g', hg'⟩ : ∃ g', g' = (((g.incIndex (k :: p)).setPara
      (g.para.1, g.para.2 ++ [k :: p])).leave p (k :: p)) := ⟨_, rfl⟩
    rw [← hg'] at hout
    have hleads' := hleads.trans (.of_step hout)
    have htpl' : g'.tpl = t := by rw [hg']; exact hgtpl
    have hpara' : g'.para = (f.para.1, f.para.2 ++ [k :: p, k :: p]) := by
      rw [hg']
      change (g.para.1, g.para.2 ++ [k :: p]) = _
      rw [hgpara, List.append_assoc]
      rfl
    have hvar' : g'.scr.tempVar p = k + 1 := by
      rw [hg', tempVar_leave]
      exact congrArg (· + 1) hgvar
    have hnode : (t.node p).elemNo = (t.children p).length := by
      rcases eq_or_ne p [] with rfl | hne
      · exact hfull [] (.inl rfl)
      · exact hfull p (.inr (nested_tail hd hne))
    have hnext : t.nextElem p k = t.descOf ((k + 1) :: p) := by
      rw [Template.nextElem, hchildren]
      rfl
    rcases hd' : t.descOf ((k + 1) :: p) with _ | e
    · have hle : (t.children p).length ≤ k + 1 := List.getElem?_eq_none_iff.1 hd'
      have hlt : k < (t.node p).elemNo := by rw [← htpl]; exact hcomes.cur.lt
      have hend : g'.scr.tempVar p = (g'.tpl.node p).elemNo := by
        rw [hvar', htpl']
        omega
      refine iff_of_false (not_rejects_at_end hcomes hleads' hpara' hc.finish rfl hend) ?_
      rintro ⟨e, he, -⟩
      rw [hnext, hd'] at he
      cases he
    · have hlt' : k + 1 < (t.children p).length := (List.getElem?_eq_some_iff.1 hd').1
      have hcur : Current g' p (k + 1) e :=
        ⟨hvar', by rw [htpl', hnode]; exact hlt', by rw [htpl']; exact hd'⟩
      rw [rejects_next_iff hcomes hleads' hpara' (by simp) (hc.test _ _) hcur (by simp),
        Template.nextFails_of_next (hnext.trans hd')]
  · have hcur : Current g (k :: p) 0 e := by
      refine ⟨hgzero, ?_, ?_⟩
      · rw [hgtpl, helemNo, hchildren]
        exact Nat.succ_pos _
      · rw [hgtpl, Template.descOf, hchildren]
        rfl
    have hnext : t.nextElem p k = some e := by
      rw [Template.nextElem, hchildren]
      rfl
    rw [rejects_next_iff hcomes hleads hgpara (by simp) (hc.test _ _) hcur (by simp),
      Template.nextFails_of_next hnext]

end Counting

/-- A leaf whose function returns an error, with its data as before, is rejected. -/
theorem rejects_leaf {π : Type} {v : Visitor π} {p : Loc} {k : Nat} {d : ElemDesc}
    {f₀ f : Frame (π × List Loc)} {ret : Int} {i : Option Int}
    (hcomes : ComesTo v.traced.ops f₀ p k d f) (htest : v.test (k :: p) f.para.1 = true)
    (hsub : d.type.attr.subset = false) (hops : d.type.hasOps = true) (hret : ret < 0)
    (hleaf : v.leaf (k :: p) f.indices f.para.1 = some (ret, i, f.para.1)) :
    Rejects v.traced.ops f₀ (k :: p) f := by
  have htest' : v.traced.ops.testelem (k :: p) f = true := htest
  have hstep : step v.traced.ops p f = some (.stop ret
      ((f.storeIndex (k :: p) i).setPara (f.para.1, f.para.2 ++ [k :: p]))) := by
    rw [step_current hcomes.cur, htest', stepElem, hsub, hops]
    simp only [Visitor.ops, Visitor.traced, hleaf, Option.map_some, afterCall, if_pos hret]
    rfl
  obtain ⟨n, hn⟩ := ends_of_step hstep
  exact ⟨ret, _, hret, hcomes.converts hn hret, rfl, [k :: p], rfl, by simp⟩

/-! ## The three conversions -/

section Conversions

variable {μ : Type} {t : Template} {number : Loc → Indices → μ → Option Int}
  {alloc : Loc → Indices → Int → μ → Option (Int × μ)}
  {binValue : Int → Loc → Indices → μ → Option (Int × Option Int × μ)}
  {textValue : Loc → Indices → μ → Option (Int × Option Int × List Char × μ)}
  {p : Loc} {k : Nat} {d : ElemDesc}

theorem countedStruct2Blob_plain : (countedStruct2Blob t number binValue).Plain where
  test _ _ := rfl
  first _ _ _ _ _ := rfl
  exit _ _ _ _ := rfl
  finish _ := rfl

theorem countedBlob2Struct_plain : (countedBlob2Struct t number alloc binValue).Plain where
  test _ _ := rfl
  first loc idx limit m hneg := by
    have hnone : ¬ (t.isArray loc = true ∧ limit > 0) := by omega
    simp only [countedBlob2Struct, blob2Struct, allocElems, if_neg hnone, Option.map_some]
  exit _ _ _ _ := rfl
  finish _ := rfl

/-- What a blob conversion does with a negative number, for either of the two. -/
theorem Counting.Plain.rejects_iff {c : Counting (BlobPara μ)} (hc : c.Plain) (hfull : t.Full)
    {f₀ f : Frame (BlobPara μ × List Loc)} (hcomes : ComesTo (c.visitor t).traced.ops f₀ p k d f)
    (htpl : f.tpl = t) (hdefine : d.type.attr.define = true)
    (hneg : NegativeCount t number (k :: p) (update f.indices (k :: p) 0) f.para.1.mem)
    (hdefvalue : c.defvalue = fun loc idx m => elemGetDefvalue t number loc idx m.mem)
    (hleaf : c.leaf = procBlob fun offset loc idx mem =>
      countedValue t number (binValue offset loc idx mem) loc idx mem mem) :
    Rejects (c.visitor t).traced.ops f₀ (k :: p) f ↔
      d.type.attr.subset = false ∨ t.NextFails p k := by
  have hd : t.descOf (k :: p) = some d := by rw [← htpl]; exact hcomes.cur.desc
  have herror : -EINVAL < 0 := by decide
  cases hsub : d.type.attr.subset with
  | false =>
    have hzero : f.indices (k :: p) = 0 := by
      rw [Frame.indices, Template.nested_of_desc (htpl ▸ hd), hsub]
      rfl
    rw [← hzero, update_eq_self] at hneg
    have hcall : (c.visitor t).leaf (k :: p) f.indices f.para.1 =
        some (-EINVAL, none, f.para.1) := by
      simp only [Counting.visitor, hleaf, procBlob, hneg.value hd hdefine, Option.map_some]
      rw [if_neg (by decide)]
    exact iff_of_true (rejects_leaf hcomes (hc.test _ _) hsub
      (ElemType.hasOps_of_define hdefine hsub) herror hcall) (.inl rfl)
  | true =>
    rw [hc.rejects_nested_iff hfull htpl hcomes hsub herror]
    · simp
    · rw [Counting.limitOf, hd, hdefvalue]
      simp only [hdefine, if_true, hneg.defvalue]

@[simp] theorem JsonPara.length_put (m : JsonPara μ) (s : List Char) :
    (m.put s).text.length = m.text.length + s.length := List.length_append

theorem JsonPara.length_over (m : JsonPara μ) (c : Char) :
    m.text.length ≤ (m.over c).text.length := by
  simp only [JsonPara.over, List.length_append, List.length_dropLast, List.length_singleton]
  omega

theorem length_printElemName (t : Template) (loc : Loc) (m : JsonPara μ) :
    m.text.length < (printElemName t loc m).text.length := by
  rw [printElemName, JsonPara.length_put]
  simp only [List.length_append, List.length_cons]
  omega

/-- The text of a leaf is written behind its name. -/
theorem countedStruct2Json_leaf {loc : Loc} {idx : Indices} {m : JsonPara μ}
    {r : Int × Option Int × JsonPara μ}
    (hleaf : (countedStruct2Json t number textValue).leaf loc idx m = some r) :
    m.text.length < r.2.2.text.length := by
  obtain ⟨r', _, rfl⟩ := Option.map_eq_some_iff.1 hleaf
  have hname := length_printElemName t loc m
  dsimp only
  split_ifs
  · exact hname
  · rw [JsonPara.length_put]
    exact Nat.lt_add_right _ hname

/-- The name of a structure is written as it is entered. -/
theorem countedStruct2Json_enter {loc : Loc} {idx : Indices} {m : JsonPara μ}
    {e : Entered (JsonPara μ)}
    (henter : ((countedStruct2Json t number textValue).visitor t).enter loc idx 0 m = some e) :
    m.text.length < e.para.text.length := by
  simp only [Counting.visitor, Counting.enter, if_true] at henter
  split at henter
  · cases henter
  · obtain ⟨r, hr, rfl⟩ := Option.map_eq_some_iff.1 henter
    obtain rfl := Option.some.inj hr
    rw [JsonPara.length_put]
    exact Nat.lt_add_right _ (length_printElemName t loc m)

/-- No function of `struct_2_json` makes the text shorter. -/
theorem countedStruct2Json_relates :
    ((countedStruct2Json t number textValue).visitor t).Relates
      fun m m' => m.text.length ≤ m'.text.length where
  refl _ := Nat.le_refl _
  trans := Nat.le_trans
  enter {loc idx limit m e} henter := by
    by_cases hlimit : limit = 0
    · subst hlimit
      exact (countedStruct2Json_enter henter).le
    · simp only [Counting.visitor, Counting.enter, if_neg hlimit] at henter
      obtain ⟨r, hr, rfl⟩ := Option.map_eq_some_iff.1 henter
      obtain rfl := Option.some.inj hr
      rw [JsonPara.length_put]
      exact Nat.le_add_right _ _
  exit {loc idx limit m r} hexit := by
    obtain rfl := Option.some.inj hexit
    have hover := m.length_over '}'
    dsimp only
    rw [JsonPara.length_put]
    split_ifs <;> (try rw [JsonPara.length_put]) <;> omega
  leaf hleaf := (countedStruct2Json_leaf hleaf).le

/-- `struct_2_json` has written the name of an element before it reads the number. -/
theorem countedStruct2Json_not_rejects {f₀ f : Frame (JsonPara μ × List Loc)}
    (hcomes : ComesTo ((countedStruct2Json t number textValue).visitor t).traced.ops f₀ p k d f)
    (hdefine : d.type.attr.define = true) :
    ¬ Rejects ((countedStruct2Json t number textValue).visitor t).traced.ops f₀ (k :: p) f := by
  rintro ⟨ret, f', hret, hconverts, hpara, -⟩
  obtain ⟨n, r, g, hwalk, ⟨_, _, rfl⟩ | ⟨_, hfinish⟩⟩ := hcomes.walk hconverts
  · have hrelates : ((countedStruct2Json t number textValue).visitor t).traced.Relates _ :=
      countedStruct2Json_relates.traced
    cases hstep : step ((countedStruct2Json t number textValue).visitor t).traced.ops p f with
    | none =>
      rw [never_of_step hstep] at hwalk
      cases hwalk
    | some next =>
      have hrest := (hrelates.walk_step hstep hwalk).1
      suffices hlonger : f.para.1.text.length < next.frame.para.1.text.length by
        rw [hpara] at hrest
        omega
      rw [step_current hcomes.cur] at hstep
      obtain ⟨_, ⟨_, ret, f₁, hcall, hnext⟩ | ⟨_, _, ret, f₁, hcall, hnext⟩ | ⟨hsub, hops, -⟩⟩ :=
        hrelates.stepElem hstep
      · obtain ⟨e, he, heq⟩ := Option.map_eq_some_iff.1 hcall
        obtain ⟨e', he', rfl⟩ := Option.map_eq_some_iff.1 he
        obtain ⟨_, rfl⟩ := Prod.mk.inj heq
        rw [hcomes.limit] at he'
        exact Nat.lt_of_lt_of_le (countedStruct2Json_enter he') hnext.1
      · obtain ⟨e, he, heq⟩ := Option.map_eq_some_iff.1 hcall
        obtain ⟨e', he', rfl⟩ := Option.map_eq_some_iff.1 he
        obtain ⟨_, rfl⟩ := Prod.mk.inj heq
        rw [hnext]
        exact countedStruct2Json_leaf he'
      · rw [ElemType.hasOps_of_define hdefine hsub] at hops
        cases hops
  · -- At the end of the conversion there is no error.
    have hlast : some ((1 : Int), _) = some (ret, f') := hfinish
    obtain ⟨rfl, _⟩ := Prod.mk.inj (Option.some.inj hlast)
    exact absurd hret (by decide)

/-- The negative number of an element that a conversion comes to is rejected by
    `struct_2_blob` and `blob_2_struct` exactly if the element is a leaf, or the element next
    after it is a leaf without operations; by `struct_2_json` it never is. -/
theorem negativeCount_iff (hfull : t.Full) (number : Loc → Indices → μ → Option Int)
    (alloc : Loc → Indices → Int → μ → Option (Int × μ))
    (getValue setValue : Int → Loc → Indices → μ → Option (Int × Option Int × μ))
    (textValue : Loc → Indices → μ → Option (Int × Option Int × List Char × μ))
    (hdefine : d.type.attr.define = true) (scr : Scratch) :
    (∀ m f, ComesTo ((countedStruct2Blob t number getValue).visitor t).traced.ops
        ⟨t, scr, (m, [])⟩ p k d f →
      NegativeCount t number (k :: p) (update f.indices (k :: p) 0) f.para.1.mem →
      (Rejects ((countedStruct2Blob t number getValue).visitor t).traced.ops
        ⟨t, scr, (m, [])⟩ (k :: p) f ↔ d.type.attr.subset = false ∨ t.NextFails p k)) ∧
    (∀ m f, ComesTo ((countedBlob2Struct t number alloc setValue).visitor t).traced.ops
        ⟨t, scr, (m, [])⟩ p k d f →
      NegativeCount t number (k :: p) (update f.indices (k :: p) 0) f.para.1.mem →
      (Rejects ((countedBlob2Struct t number alloc setValue).visitor t).traced.ops
        ⟨t, scr, (m, [])⟩ (k :: p) f ↔ d.type.attr.subset = false ∨ t.NextFails p k)) ∧
    ∀ m f, ComesTo ((countedStruct2Json t number textValue).visitor t).traced.ops
        ⟨t, scr, (m, [])⟩ p k d f →
      NegativeCount t number (k :: p) (update f.indices (k :: p) 0) f.para.1.mem →
      ¬ Rejects ((countedStruct2Json t number textValue).visitor t).traced.ops
        ⟨t, scr, (m, [])⟩ (k :: p) f := by
  refine ⟨fun m f hcomes hneg => ?_, fun m f hcomes hneg => ?_, fun m f hcomes _ => ?_⟩
  · exact countedStruct2Blob_plain.rejects_iff hfull hcomes hcomes.tpl hdefine hneg rfl rfl
  · exact countedBlob2Struct_plain.rejects_iff hfull hcomes hcomes.tpl hdefine hneg rfl rfl
  · exact countedStruct2Json_not_rejects hcomes hdefine

end Conversions

/-! ### A negative number of pairs -/

/-- The number of pairs is -1, and there are the words 10 and 11 for a pair. -/
def minusPairs : LeafCall → Int
  | ([0], _) => -1
  | ([0, 1], _) => 10
  | _ => 11

/-- The number that is read from a word. -/
def wordNumber (words : LeafCall → Int) (loc : Loc) (idx : Indices) (_ : List Int) : Option Int :=
  some (words (leafCall loc idx))

/-- `_elem_get_bin_value` for a word that no other one counts. -/
def wordValue (words : LeafCall → Int) (_ : Int) (loc : Loc) (idx : Indices) (blob : List Int) :
    Option (Int × Option Int × List Int) :=
  some (4, none, blob ++ [words (leafCall loc idx)])

/-- The array of pairs. -/
def pairsElem : ElemDesc := ⟨['a'], .defarray, 0, [intElem 'x', intElem 'y'], none, some ['n']⟩

theorem minusPairs_comes : ∃ t scr f, Fresh pairsDesc t scr ∧
    ComesTo ((countedStruct2Blob t (wordNumber minusPairs) (wordValue minusPairs)).visitor
      t).traced.ops ⟨t, scr, (⟨0, []⟩, [])⟩ [] 1 pairsElem f ∧
    NegativeCount t (wordNumber minusPairs) [1] (update f.indices [1] 0) f.para.1.mem ∧
    ¬ t.NextFails [] 1 := by
  refine ⟨_, _, _, ⟨0, _, Int.le_refl 0, ⟨6, rfl⟩, rfl, rfl⟩,
    ⟨⟨0, _, rfl, Int.le_refl 0, .step rfl (.refl _ _)⟩, ⟨rfl, ?_, rfl⟩, rfl⟩, ?_, ?_⟩
  · decide +kernel
  · exact ⟨[0], -1, rfl, rfl, by decide⟩
  · rintro ⟨e, he, -, hops⟩
    obtain rfl := Option.some.inj he
    cases hops

/-- The array of pairs with the number -1 is not rejected. -/
theorem negativeCount_iff_pairs : ∃ t scr f,
    ComesTo ((countedStruct2Blob t (wordNumber minusPairs) (wordValue minusPairs)).visitor
      t).traced.ops ⟨t, scr, (⟨0, []⟩, [])⟩ [] 1 pairsElem f ∧
    ¬ Rejects ((countedStruct2Blob t (wordNumber minusPairs) (wordValue minusPairs)).visitor
      t).traced.ops ⟨t, scr, (⟨0, []⟩, [])⟩ [1] f := by
  obtain ⟨t, scr, f, hfresh, hcomes, hneg, hnext⟩ := minusPairs_comes
  refine ⟨t, scr, f, hcomes, fun hrejects => ?_⟩
  have hiff := (negativeCount_iff (d := pairsElem) hfresh.leaves.1 (wordNumber minusPairs)
    (fun _ _ _ mem => some (0, mem)) (wordValue minusPairs) (wordValue minusPairs)
    (fun _ _ mem => some (1, none, ['0'], mem)) rfl scr).1 ⟨0, []⟩ f hcomes hneg
  rcases hiff.1 hrejects with hleaf | hfails
  · cases hleaf
  · exact hnext hfails

/-- `struct_2_blob` goes through the array of pairs once, writes the words of a pair for the
    number -1, and returns no error. -/
theorem negativeCount_not : ¬ ∀ (t : Template) (scr : Scratch)
    (number : Loc → Indices → List Int → Option Int)
    (value : Int → Loc → Indices → List Int → Option (Int × Option Int × List Int)) (p : Loc)
    (k : Nat) (d : ElemDesc) (m : BlobPara (List Int)) (f : Frame (BlobPara (List Int) × List Loc)),
    t.Full → d.type.attr.define = true →
    ComesTo ((countedStruct2Blob t number value).visitor t).traced.ops ⟨t, scr, (m, [])⟩ p k d f →
    NegativeCount t number (k :: p) (update f.indices (k :: p) 0) f.para.1.mem →
    Rejects ((countedStruct2Blob t number value).visitor t).traced.ops ⟨t, scr, (m, [])⟩
      (k :: p) f := by
  intro h
  obtain ⟨t, scr, f, hfresh, hcomes, hneg, hnext⟩ := minusPairs_comes
  have hrejects := h t scr _ _ [] 1 pairsElem _ f hfresh.leaves.1 rfl hcomes hneg
  rcases (countedStruct2Blob_plain.rejects_iff hfresh.leaves.1 hcomes hcomes.tpl rfl hneg rfl
    rfl).1 hrejects with hleaf | hfails
  · cases hleaf
  · exact hnext hfails

/-- The data of the conversion after the pass, with the elements functions were called for. -/
example : ∃ t scr scr', Fresh pairsDesc t scr ∧
    Converts ((countedStruct2Blob t (wordNumber minusPairs) (wordValue minusPairs)).visitor
      t).traced.ops ⟨t, scr, (⟨0, []⟩, [])⟩ 0
      ⟨t, scr', (⟨12, [-1, 10, 11]⟩, [[0], [1], [0, 1], [1, 1], [1]])⟩ :=
  ⟨_, _, _, ⟨0, _, Int.le_refl 0, ⟨6, rfl⟩, rfl, rfl⟩, ⟨6, rfl⟩⟩

end Cube.Struct
