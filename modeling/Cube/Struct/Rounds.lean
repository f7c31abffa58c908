import Cube.Struct.Traverse

/-!
# What a run of the loop does to its data

What each function of a conversion does to the data, a round of the loop does, and a run. It
is enough to look at the functions one by one.

* `Visitor.Relates.step`: the data after a round, for a relation the functions keep to.
* `Visitor.Relates.walk`, `Visitor.Relates.converts`: the data after a run.
* `Visitor.Simulates.converts`: a run of one conversion that is one of another.
-/

namespace Cube.Struct

open Lib

variable {π : Type}

/-- The loop goes from one node and frame to another, round by round. -/
inductive Rounds (ops : DealOps π) : Loc → Frame π → Loc → Frame π → Prop
  | refl (p : Loc) (f : Frame π) : Rounds ops p f p f
  | step {p q r : Loc} {f g h : Frame π} (hstep : step ops p f = some (.go q g))
      (rest : Rounds ops q g r h) : Rounds ops p f r h

theorem Rounds.leads {ops : DealOps π} {p q : Loc} {f g : Frame π} (h : Rounds ops p f q g) :
    Leads ops p f q g := by
  induction h with
  | refl p f => exact .refl p f
  | step hstep _ ih => exact (Leads.of_step hstep).trans ih

/-- The frame after a round. -/
def Next.frame : Next π → Frame π
  | .go _ f => f
  | .stop _ f => f

theorem afterCall_eq_some {r : Option (Int × Frame π)} {cont : Frame π → Option (Next π)}
    {next : Next π} (h : afterCall r cont = some next) : ∃ ret f, r = some (ret, f) ∧
      (ret < 0 ∧ next = .stop ret f ∨ 0 ≤ ret ∧ cont f = some next) := by
  rcases r with _ | ⟨ret, f⟩
  · cases h
  · refine ⟨ret, f, rfl, ?_⟩
    rw [afterCall] at h
    split_ifs at h with hret
    · exact .inl ⟨hret, (Option.some.inj h).symm⟩
    · exact .inr ⟨Int.not_lt.1 hret, h⟩

/-- A relation that each function of a conversion keeps its data in. -/
structure Visitor.Relates (v : Visitor π) (R : π → π → Prop) : Prop where
  refl : ∀ m, R m m
  trans : ∀ {a b c}, R a b → R b c → R a c
  enter : ∀ {loc idx limit m e}, v.enter loc idx limit m = some e → R m e.para
  exit : ∀ {loc idx limit m r}, v.exit loc idx limit m = some r → R m r.2
  leaf : ∀ {loc idx m r}, v.leaf loc idx m = some r → R m r.2.2

namespace Visitor.Relates

variable {v : Visitor π} {R : π → π → Prop} (h : v.Relates R) {p loc : Loc} {f f' g : Frame π}
  {ret : Int} {next : Next π}

include h

theorem enterstruct (hcall : v.ops.enterstruct loc f = some (ret, f')) :
    R f.para f'.para ∧ f'.tpl = f.tpl := by
  obtain ⟨e, he, heq⟩ := Option.map_eq_some_iff.1 hcall
  obtain ⟨_, rfl⟩ := Prod.mk.inj heq
  exact ⟨h.enter he, rfl⟩

theorem exitstruct (hcall : v.ops.exitstruct loc f = some (ret, f')) :
    R f.para f'.para ∧ f'.tpl = f.tpl := by
  obtain ⟨r, hr, heq⟩ := Option.map_eq_some_iff.1 hcall
  obtain ⟨_, rfl⟩ := Prod.mk.inj heq
  exact ⟨h.exit hr, rfl⟩

theorem procFunc (hcall : v.ops.procFunc loc f = some (ret, f')) :
    R f.para f'.para ∧ f'.tpl = f.tpl := by
  obtain ⟨r, hr, heq⟩ := Option.map_eq_some_iff.1 hcall
  obtain ⟨_, rfl⟩ := Prod.mk.inj heq
  refine ⟨h.leaf hr, ?_⟩
  rcases r.2.1 with _ | i <;> rfl

/-- A round at the end of a nested structure, from its function on. -/
theorem stepUp {q : Loc} (hstep : stepUp v.ops q f = some next) : ∃ ret f',
    v.ops.exitstruct (f.scr.tempVar q :: q) (f.incIndex (f.scr.tempVar q :: q)) = some (ret, f') ∧
      next.frame.para = f'.para ∧ next.frame.tpl = f.tpl := by
  obtain ⟨ret, f', hcall, ⟨_, rfl⟩ | ⟨_, hcont⟩⟩ := afterCall_eq_some hstep
  · exact ⟨ret, f', hcall, rfl, (h.exitstruct hcall).2⟩
  · refine ⟨ret, f', hcall, ?_⟩
    have htpl : f'.tpl = f.tpl := (h.exitstruct hcall).2
    split at hcont
    · cases hcont
    · split_ifs at hcont <;>
      · obtain rfl := Option.some.inj hcont
        exact ⟨rfl, htpl⟩

/-- A round for an element, from the function called first on. -/
theorem stepElem {d : ElemDesc} (hstep : stepElem v.ops p loc d f = some next) :
    next.frame.tpl = f.tpl ∧
    ((d.type.attr.subset = true ∧ ∃ ret f', v.ops.enterstruct loc f = some (ret, f') ∧
        R f'.para next.frame.para) ∨
      (d.type.attr.subset = false ∧ d.type.hasOps = true ∧
        ∃ ret f', v.ops.procFunc loc f = some (ret, f') ∧ next.frame.para = f'.para) ∨
      (d.type.attr.subset = false ∧ d.type.hasOps = false ∧ next = .stop (-EINVAL) f)) := by
  rw [Struct.stepElem] at hstep
  split_ifs at hstep with hsub hops
  · obtain ⟨ret, f', hcall, hnext⟩ := afterCall_eq_some hstep
    have htpl : f'.tpl = f.tpl := (h.enterstruct hcall).2
    suffices hrest : R f'.para next.frame.para ∧ next.frame.tpl = f'.tpl from
      ⟨hrest.2.trans htpl, .inl ⟨hsub, ret, f', hcall, hrest.1⟩⟩
    rcases hnext with ⟨_, rfl⟩ | ⟨_, hcont⟩
    · exact ⟨h.refl _, rfl⟩
    split_ifs at hcont
    · -- An array with the limit 0 is left at once.
      obtain ⟨ret', f'', hexit, ⟨_, rfl⟩ | ⟨_, hcont⟩⟩ := afterCall_eq_some hcont
      · exact h.exitstruct hexit
      · obtain rfl := Option.some.inj hcont
        exact ⟨(h.exitstruct hexit).1, (h.exitstruct hexit).2⟩
    · obtain rfl := Option.some.inj hcont
      exact ⟨h.refl _, rfl⟩
  · obtain rfl := Option.some.inj hstep
    exact ⟨rfl, .inr (.inr ⟨by simpa using hsub, by simpa using hops, rfl⟩)⟩
  · obtain ⟨ret, f', hcall, hnext⟩ := afterCall_eq_some hstep
    have htpl : f'.tpl = f.tpl := (h.procFunc hcall).2
    have hsame : next.frame.para = f'.para ∧ next.frame.tpl = f'.tpl := by
      obtain ⟨_, rfl⟩ | ⟨_, hcont⟩ := hnext
      · exact ⟨rfl, rfl⟩
      · obtain rfl := Option.some.inj hcont
        exact ⟨rfl, rfl⟩
    exact ⟨hsame.2.trans htpl,
      .inr (.inl ⟨by simpa using hsub, by simpa using hops, ret, f', hcall, hsame.1⟩)⟩

/-- What each function does to the data, a round does. -/
theorem step (hstep : step v.ops p f = some next) :
    R f.para next.frame.para ∧ next.frame.tpl = f.tpl := by
  have hsame : ∀ {ret}, next = .stop ret f → R f.para next.frame.para ∧ next.frame.tpl = f.tpl := by
    rintro _ rfl
    exact ⟨h.refl _, rfl⟩
  simp only [Struct.step] at hstep
  split_ifs at hstep
  · exact hsame (Option.some.inj hstep).symm
  · rcases p with _ | ⟨k, q⟩
    · exact hsame (Option.some.inj hstep).symm
    · obtain ⟨ret, f', hcall, hpara, htpl⟩ := h.stepUp hstep
      exact ⟨hpara ▸ (h.exitstruct hcall).1, htpl⟩
  · split at hstep
    · cases hstep
    · obtain rfl := Option.some.inj hstep
      exact ⟨h.refl _, rfl⟩
  · split at hstep
    · cases hstep
    · obtain ⟨htpl, hcalls⟩ := h.stepElem hstep
      refine ⟨?_, htpl⟩
      obtain ⟨_, ret, f', hcall, hrest⟩ | ⟨_, _, ret, f', hcall, hpara⟩ | ⟨_, _, rfl⟩ := hcalls
      · exact h.trans (h.enterstruct hcall).1 hrest
      · exact hpara ▸ (h.procFunc hcall).1
      · exact h.refl _

/-- What each function does to the data, a run of the loop does. -/
theorem walk {n : Nat} (hwalk : walk v.ops n p f = some (ret, f')) :
    R f.para f'.para ∧ f'.tpl = f.tpl := by
  induction n generalizing p f with
  | zero => cases hwalk
  | succ n ih =>
    rw [Struct.walk] at hwalk
    split at hwalk
    · cases hwalk
    · next hstep =>
      obtain ⟨_, rfl⟩ := Prod.mk.inj (Option.some.inj hwalk)
      exact ⟨(h.step hstep).1, (h.step hstep).2⟩
    · next hstep =>
      obtain ⟨hrest, htpl⟩ := ih hwalk
      exact ⟨h.trans (h.step hstep).1 hrest, htpl.trans (h.step hstep).2⟩

/-- After a round, the run goes on from the data it left. -/
theorem walk_step {n : Nat} (hstep : Struct.step v.ops p f = some next)
    (hwalk : Struct.walk v.ops n p f = some (ret, f')) : R next.frame.para f'.para := by
  rcases n with _ | n
  · cases hwalk
  · rw [Struct.walk, hstep] at hwalk
    rcases next with ⟨q, g⟩ | ⟨ret, g⟩
    · exact (h.walk hwalk).1
    · obtain ⟨_, rfl⟩ := Prod.mk.inj (Option.some.inj hwalk)
      exact h.refl _

theorem rounds {q : Loc} (hrounds : Rounds v.ops p f q g) : g.tpl = f.tpl := by
  induction hrounds with
  | refl => rfl
  | step hstep _ ih => exact ih.trans (h.step hstep).2

/-- What each function does to the data, a conversion does. -/
theorem converts (hstart : ∀ {m r}, v.start m = some r → R m r.2)
    (hfinish : ∀ {m r}, v.finish m = some r → R m r.2) (hconverts : Converts v.ops f ret f') :
    R f.para f'.para ∧ f'.tpl = f.tpl := by
  obtain ⟨n, hn⟩ := hconverts
  rw [convertFrame] at hn
  split at hn
  · cases hn
  · next r f₁ hcall =>
    obtain ⟨s, hs, heq⟩ := Option.map_eq_some_iff.1 hcall
    obtain ⟨_, rfl⟩ := Prod.mk.inj heq
    have hfirst : R f.para s.2 := hstart hs
    split_ifs at hn
    · obtain ⟨_, rfl⟩ := Prod.mk.inj (Option.some.inj hn)
      exact ⟨hfirst, rfl⟩
    · split at hn
      · cases hn
      · next r g hwalk =>
        have hrun : R s.2 g.para ∧ g.tpl = f.tpl := h.walk hwalk
        split_ifs at hn
        · obtain ⟨_, rfl⟩ := Prod.mk.inj (Option.some.inj hn)
          exact ⟨h.trans hfirst hrun.1, hrun.2⟩
        · obtain ⟨s', hs', heq⟩ := Option.map_eq_some_iff.1 hn
          obtain ⟨_, rfl⟩ := Prod.mk.inj heq
          exact ⟨h.trans hfirst (h.trans hrun.1 (hfinish hs')), hrun.2⟩

end Visitor.Relates

/-- Any data is related to any other. -/
theorem Visitor.relates_all (v : Visitor π) : v.Relates fun _ _ => True :=
  ⟨fun _ => trivial, fun _ _ => trivial, fun _ => trivial, fun _ => trivial, fun _ => trivial⟩

/-! ## Tests that agree -/

section Tests

variable {v : Visitor π} {test : Loc → π → Bool} {t : Template}
  (htest : ∀ loc d m, t.descOf loc = some d → test loc m = v.test loc m) {f : Frame π}

include htest

theorem step_test_congr (htpl : f.tpl = t) (p : Loc) :
    step { v with test := test }.ops p f = step v.ops p f := by
  simp only [step]
  cases hd : f.tpl.descOf (f.scr.tempVar p :: p) with
  | none => rfl
  | some d =>
    have hsame : { v with test := test }.ops.testelem (f.scr.tempVar p :: p) f =
        v.ops.testelem (f.scr.tempVar p :: p) f := htest _ d f.para (htpl ▸ hd)
    simp only [hsame]
    rfl

/-- The loop asks for nothing but the elements of the template. -/
theorem walk_test_congr (htpl : f.tpl = t) (n : Nat) (p : Loc) :
    walk { v with test := test }.ops n p f = walk v.ops n p f := by
  induction n generalizing p f with
  | zero => rfl
  | succ n ih =>
    rw [walk, walk, step_test_congr htest htpl]
    rcases hstep : step v.ops p f with _ | ⟨q, g⟩ | ⟨ret, g⟩
    · rfl
    · exact ih ((v.relates_all.step hstep).2.trans htpl) q
    · rfl

theorem converts_test_congr (htpl : f.tpl = t) (ret : Int) (f' : Frame π) :
    Converts { v with test := test }.ops f ret f' ↔ Converts v.ops f ret f' := by
  refine exists_congr fun n => ?_
  have hsame : convertFrame { v with test := test }.ops n f = convertFrame v.ops n f := by
    rw [convertFrame, convertFrame]
    rcases hstart : v.ops.start (f.setTempVar [] 0) with _ | ⟨r, f₁⟩
    · have hstart' : { v with test := test }.ops.start (f.setTempVar [] 0) = none := hstart
      rw [hstart']
    · have hstart' : { v with test := test }.ops.start (f.setTempVar [] 0) = some (r, f₁) := hstart
      obtain ⟨s, _, heq⟩ := Option.map_eq_some_iff.1 hstart
      obtain ⟨_, rfl⟩ := Prod.mk.inj heq
      rw [hstart']
      simp only [walk_test_congr htest (show ((f.setTempVar [] 0).setPara s.2).tpl = t from htpl)]
      rfl
  rw [hsame]

end Tests

/-! ## Simulations -/

section Simulates

variable {ρ : Type}

/-- The frame of another conversion that is as far. -/
def Frame.withPara (f : Frame ρ) (b : π) : Frame π := ⟨f.tpl, f.scr, b⟩

/-- The round of another conversion that is as far. -/
def Next.withPara (b : π) : Next ρ → Next π
  | .go p f => .go p (f.withPara b)
  | .stop ret f => .stop ret (f.withPara b)

/-- What the functions of one conversion do, those of the other do in a relation of their data, as
    long as the data is fit. What leads to fit data is fit. -/
structure Visitor.Simulates (v : Visitor ρ) (w : Visitor π) (Fit : ρ → Prop) (S : ρ → π → Prop) :
    Prop where
  back : v.Relates fun a a' => Fit a' → Fit a
  back_start : ∀ {a r}, v.start a = some r → Fit r.2 → Fit a
  back_finish : ∀ {a r}, v.finish a = some r → Fit r.2 → Fit a
  start : ∀ {a b r}, S a b → v.start a = some r → Fit r.2 →
    ∃ b', w.start b = some (r.1, b') ∧ S r.2 b'
  test : ∀ {a b}, S a b → ∀ loc, v.test loc a = w.test loc b
  enter : ∀ {a b loc idx limit e}, S a b → v.enter loc idx limit a = some e → Fit e.para →
    ∃ b', w.enter loc idx limit b = some ⟨e.ret, e.index, e.limit, b'⟩ ∧ S e.para b'
  exit : ∀ {a b loc idx limit r}, S a b → v.exit loc idx limit a = some r → Fit r.2 →
    ∃ b', w.exit loc idx limit b = some (r.1, b') ∧ S r.2 b'
  leaf : ∀ {a b loc idx r}, S a b → v.leaf loc idx a = some r → Fit r.2.2 →
    ∃ b', w.leaf loc idx b = some (r.1, r.2.1, b') ∧ S r.2.2 b'
  finish : ∀ {a b r}, S a b → v.finish a = some r → Fit r.2 →
    ∃ b', w.finish b = some (r.1, b') ∧ S r.2 b'

namespace Visitor.Simulates

variable {v : Visitor ρ} {w : Visitor π} {Fit : ρ → Prop} {S : ρ → π → Prop}
  (h : v.Simulates w Fit S) {p loc : Loc} {f f' : Frame ρ} {b : π} {ret : Int} {next : Next ρ}

include h

theorem enterstruct (hS : S f.para b) (hcall : v.ops.enterstruct loc f = some (ret, f'))
    (hfit : Fit f'.para) :
    ∃ b', w.ops.enterstruct loc (f.withPara b) = some (ret, f'.withPara b') ∧ S f'.para b' := by
  obtain ⟨e, he, heq⟩ := Option.map_eq_some_iff.1 hcall
  obtain ⟨rfl, rfl⟩ := Prod.mk.inj heq
  obtain ⟨b', hb', hS'⟩ := h.enter hS he hfit
  exact ⟨b', congrArg (Option.map _) hb', hS'⟩

theorem exitstruct (hS : S f.para b) (hcall : v.ops.exitstruct loc f = some (ret, f'))
    (hfit : Fit f'.para) :
    ∃ b', w.ops.exitstruct loc (f.withPara b) = some (ret, f'.withPara b') ∧ S f'.para b' := by
  obtain ⟨r, hr, heq⟩ := Option.map_eq_some_iff.1 hcall
  obtain ⟨rfl, rfl⟩ := Prod.mk.inj heq
  obtain ⟨b', hb', hS'⟩ := h.exit hS hr hfit
  exact ⟨b', congrArg (Option.map _) hb', hS'⟩

theorem procFunc (hS : S f.para b) (hcall : v.ops.procFunc loc f = some (ret, f'))
    (hfit : Fit f'.para) :
    ∃ b', w.ops.procFunc loc (f.withPara b) = some (ret, f'.withPara b') ∧ S f'.para b' := by
  obtain ⟨⟨ret₁, i, a⟩, hr, heq⟩ := Option.map_eq_some_iff.1 hcall
  obtain ⟨rfl, rfl⟩ := Prod.mk.inj heq
  obtain ⟨b', hb', hS'⟩ := h.leaf hS hr hfit
  refine ⟨b', (congrArg (Option.map _) hb').trans ?_, hS'⟩
  cases i <;> rfl

omit h in
/-- A call of a function that both have, and the rest of the round. -/
theorem afterCall {A : Option (Int × Frame ρ)} {B : Option (Int × Frame π)}
    {contA : Frame ρ → Option (Next ρ)} {contB : Frame π → Option (Next π)}
    (hround : afterCall A contA = some next) (hback : ∀ r, A = some r → 0 ≤ r.1 →
      contA r.2 = some next → Fit next.frame.para → Fit r.2.para)
    (hfit : Fit next.frame.para)
    (hcall : ∀ r, A = some r → Fit r.2.para →
      ∃ b', B = some (r.1, r.2.withPara b') ∧ S r.2.para b')
    (hcont : ∀ r b', A = some r → contA r.2 = some next → S r.2.para b' →
      ∃ b'', contB (r.2.withPara b') = some (next.withPara b'') ∧ S next.frame.para b'') :
    ∃ b', Struct.afterCall B contB = some (next.withPara b') ∧ S next.frame.para b' := by
  obtain ⟨ret, f', hA, ⟨hneg, rfl⟩ | ⟨hpos, hrest⟩⟩ := afterCall_eq_some hround
  · obtain ⟨b', hB, hS'⟩ := hcall _ hA hfit
    exact ⟨b', by rw [hB, Struct.afterCall, if_pos hneg]; rfl, hS'⟩
  · obtain ⟨b', hB, hS'⟩ := hcall _ hA (hback _ hA hpos hrest hfit)
    obtain ⟨b'', hB', hS''⟩ := hcont _ b' hA hrest hS'
    exact ⟨b'', by rw [hB, Struct.afterCall, if_neg (Int.not_lt.2 hpos), hB'], hS''⟩

/-- A round at the end of a nested structure. -/
theorem stepUp {q : Loc} (hS : S f.para b) (hround : Struct.stepUp v.ops q f = some next)
    (hfit : Fit next.frame.para) :
    ∃ b', Struct.stepUp w.ops q (f.withPara b) = some (next.withPara b') ∧ S next.frame.para b' := by
  refine afterCall hround (fun r _ _ hcont hfit => ?_) hfit
    (fun r hr => h.exitstruct (f := f.incIndex _) hS hr) fun r b' _ hcont hS' => ?_
  · split at hcont
    · cases hcont
    · split_ifs at hcont <;> cases hcont <;> exact hfit
  · cases hd : r.2.tpl.descOf (f.scr.tempVar q :: q) with
    | none =>
      rw [hd] at hcont
      cases hcont
    | some d =>
      have hscr : (r.2.withPara b').scr = r.2.scr := rfl
      have hscr' : (f.withPara b).scr = f.scr := rfl
      have htpl : (r.2.withPara b').tpl = r.2.tpl := rfl
      simp only [hd] at hcont
      simp only [hscr, hscr', htpl, hd]
      split_ifs at hcont ⊢ <;> cases hcont <;> exact ⟨b', rfl, hS'⟩

/-- A round for an element. -/
theorem stepElem {d : ElemDesc} (hS : S f.para b)
    (hround : Struct.stepElem v.ops p loc d f = some next) (hfit : Fit next.frame.para) :
    ∃ b', Struct.stepElem w.ops p loc d (f.withPara b) = some (next.withPara b') ∧
      S next.frame.para b' := by
  rw [Struct.stepElem] at hround ⊢
  split_ifs at hround ⊢
  · refine afterCall hround (fun r _ _ hcont hfit => ?_) hfit
      (fun r hr => h.enterstruct hS hr) fun r b' _ hcont hS' => ?_
    · split_ifs at hcont
      · obtain ⟨ret', f'', hexit, ⟨_, rfl⟩ | ⟨_, hcont⟩⟩ := afterCall_eq_some hcont
        · exact (h.back.exitstruct hexit).1 hfit
        · cases hcont
          exact (h.back.exitstruct hexit).1 hfit
      · cases hcont
        exact hfit
    · have hscr : (r.2.withPara b').scr = r.2.scr := rfl
      simp only [hscr]
      split_ifs at hcont ⊢
      · -- An array with the limit 0 is left at once.
        refine afterCall hcont (fun r' _ _ hcont hfit => ?_) hfit
          (fun r' hr' => h.exitstruct hS' hr') fun r' b'' _ hcont hS'' => ?_
        · cases hcont
          exact hfit
        · cases hcont
          exact ⟨b'', rfl, hS''⟩
      · cases hcont
        exact ⟨b', rfl, hS'⟩
  · cases hround
    exact ⟨b, rfl, hS⟩
  · refine afterCall hround (fun r _ _ hcont hfit => ?_) hfit
      (fun r hr => h.procFunc hS hr) fun r b' _ hcont hS' => ?_
    · cases hcont
      exact hfit
    · cases hcont
      exact ⟨b', rfl, hS'⟩

/-- A round of the one is a round of the other. -/
theorem step (hS : S f.para b) (hstep : step v.ops p f = some next) (hfit : Fit next.frame.para) :
    ∃ b', Struct.step w.ops p (f.withPara b) = some (next.withPara b') ∧ S next.frame.para b' := by
  have hscr : (f.withPara b).scr = f.scr := rfl
  have htpl : (f.withPara b).tpl = f.tpl := rfl
  have htest (loc : Loc) : w.ops.testelem loc (f.withPara b) = v.ops.testelem loc f :=
    (h.test hS loc).symm
  simp only [Struct.step, hscr, htpl, htest] at hstep ⊢
  split_ifs at hstep ⊢
  · cases hstep
    exact ⟨b, rfl, hS⟩
  · rcases p with _ | ⟨k, q⟩
    · cases hstep
      exact ⟨b, rfl, hS⟩
    · exact h.stepUp hS hstep hfit
  · split at hstep
    · cases hstep
    · cases hstep
      exact ⟨b, rfl, hS⟩
  · split at hstep
    · cases hstep
    · exact h.stepElem hS hstep hfit

/-- A run of the loop for the one is a run for the other. -/
theorem walk {n : Nat} (hS : S f.para b) (hwalk : walk v.ops n p f = some (ret, f'))
    (hfit : Fit f'.para) :
    ∃ b', Struct.walk w.ops n p (f.withPara b) = some (ret, f'.withPara b') ∧ S f'.para b' := by
  induction n generalizing p f b with
  | zero => cases hwalk
  | succ n ih =>
    rw [Struct.walk] at hwalk ⊢
    cases hstep : Struct.step v.ops p f with
    | none => rw [hstep] at hwalk; cases hwalk
    | some next =>
      rw [hstep] at hwalk
      cases next with
      | stop ret' g =>
        cases hwalk
        obtain ⟨b', hstep', hS'⟩ := h.step hS hstep hfit
        exact ⟨b', by rw [hstep']; rfl, hS'⟩
      | go q g =>
        obtain ⟨b', hstep', hS'⟩ := h.step hS hstep ((h.back.walk hwalk).1 hfit)
        obtain ⟨b'', hwalk', hS''⟩ := ih hS' hwalk
        exact ⟨b'', by rw [hstep']; exact hwalk', hS''⟩

/-- A conversion by the one is a conversion by the other. -/
theorem converts (hS : S f.para b) (hconverts : Converts v.ops f ret f') (hfit : Fit f'.para) :
    ∃ b', Converts w.ops (f.withPara b) ret (f'.withPara b') ∧ S f'.para b' := by
  obtain ⟨n, hn⟩ := hconverts
  suffices hw : ∃ b', convertFrame w.ops n (f.withPara b) = some (ret, f'.withPara b') ∧
      S f'.para b' from hw.imp fun b' hb' => ⟨⟨n, hb'.1⟩, hb'.2⟩
  rw [convertFrame] at hn ⊢
  rcases hstart : v.ops.start (f.setTempVar [] 0) with _ | ⟨r, f₁⟩
  · rw [hstart] at hn
    cases hn
  rw [hstart] at hn
  obtain ⟨s, hs, heq⟩ := Option.map_eq_some_iff.1 hstart
  obtain ⟨rfl, rfl⟩ := Prod.mk.inj heq
  -- The start of the other.
  have hbegin (hfit : Fit s.2) : ∃ b', w.ops.start ((f.withPara b).setTempVar [] 0) =
      some (s.1, ((f.setTempVar [] 0).setPara s.2).withPara b') ∧ S s.2 b' := by
    obtain ⟨b', hb', hS'⟩ := h.start hS hs hfit
    exact ⟨b', congrArg (Option.map _) hb', hS'⟩
  simp only at hn
  split_ifs at hn with hneg
  · cases hn
    obtain ⟨b', hb', hS'⟩ := hbegin hfit
    exact ⟨b', by simp only [hb', if_pos hneg], hS'⟩
  rcases hwalk : Struct.walk v.ops n [] ((f.setTempVar [] 0).setPara s.2) with _ | ⟨r, g⟩
  · rw [hwalk] at hn
    cases hn
  rw [hwalk] at hn
  have hloop (hfit : Fit g.para) : ∃ b' b'', w.ops.start ((f.withPara b).setTempVar [] 0) =
      some (s.1, ((f.setTempVar [] 0).setPara s.2).withPara b') ∧
      Struct.walk w.ops n [] (((f.setTempVar [] 0).setPara s.2).withPara b') =
        some (r, g.withPara b'') ∧ S g.para b'' := by
    obtain ⟨b', hb', hS'⟩ := hbegin ((h.back.walk hwalk).1 hfit)
    obtain ⟨b'', hwalk', hS''⟩ := h.walk (f := (f.setTempVar [] 0).setPara s.2) hS' hwalk hfit
    exact ⟨b', b'', hb', hwalk', hS''⟩
  simp only at hn
  split_ifs at hn with hneg'
  · cases hn
    obtain ⟨b', b'', hb', hwalk', hS''⟩ := hloop hfit
    exact ⟨b'', by simp only [hb', if_neg hneg, hwalk', if_pos hneg'], hS''⟩
  · obtain ⟨s', hs', heq⟩ := Option.map_eq_some_iff.1 hn
    obtain ⟨rfl, rfl⟩ := Prod.mk.inj heq
    obtain ⟨b', b'', hb', hwalk', hS''⟩ := hloop (h.back_finish hs' hfit)
    obtain ⟨b₃, hb₃, hS₃⟩ := h.finish hS'' hs' hfit
    refine ⟨b₃, ?_, hS₃⟩
    simp only [hb', if_neg hneg, hwalk', if_neg hneg']
    exact congrArg (Option.map _) hb₃

end Visitor.Simulates

end Simulates

end Cube.Struct
