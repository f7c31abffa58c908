import Cube.Struct.Walk

/-!
# What a walk leaves behind it

Functions that are about the element they are given change nothing of an element that the walk has
left. So what is known of an element when it is left is known of it when all is done.

* `Visits.frame_self`, `Visits.frame_left`: what coming through a node leaves as it is.
* `Visits.passed`: an invariant of the walk, with what it gives of the elements that are left.
-/

namespace Cube.Struct

namespace Template

variable {t t' : Template} {p : Loc} {k : Nat}

/-- The node at a place and those above it have their elements. -/
def Entered (t : Template) (p : Loc) : Prop :=
  ∀ q, q <:+ p → (t.node q).elemNo = (t.children q).length

theorem Entered.root (h : t.Entered p) : t.Entered [] := fun q hq =>
  h q (hq.trans (List.nil_suffix))

theorem Entered.down (h : t.Entered p)
    (hk : (t.node (k :: p)).elemNo = (t.children (k :: p)).length) : t.Entered (k :: p) :=
  fun q hq => by
    rcases List.suffix_cons_iff.1 hq with rfl | hq
    · exact hk
    · exact h q hq

theorem Entered.up (h : t.Entered (k :: p)) : t.Entered p := fun q hq =>
  h q (hq.trans (List.suffix_cons k p))

theorem Entered.congr (h : t.Entered p) (hdesc : t'.desc = t.desc)
    (hnode : ∀ q, q <:+ p → (t'.node q).elemNo = (t.node q).elemNo) : t'.Entered p := fun q hq => by
  rw [hnode q hq, children_congr hdesc]
  exact h q hq

end Template

variable {π : Type} {ops : DealOps π} {f f' f₁ f₂ f₃ : Frame π} {p loc : Loc} {k : Nat} {d : ElemDesc}

/-- An element of the template is below its root. -/
theorem beyond_root {t : Template} (hd : t.descOf loc = some d) :
    Beyond [] 0 loc := by
  rcases List.eq_nil_or_concat loc with rfl | ⟨s, j, rfl⟩
  · cases hd
  · exact ⟨s, j, Nat.zero_le j, List.concat_eq_append⟩

/-- A node is above the elements in it. -/
theorem OnlyAt.elemNo_above (h : OnlyAt (k :: p) f f₁) {q : Loc} (hq : q <:+ p) :
    (f₁.tpl.node q).elemNo = (f.tpl.node q).elemNo := by
  refine congrArg NodeData.elemNo (h.node q fun heq => ?_)
  have := hq.length_le
  rw [heq, List.length_cons] at this
  omega

/-- A structure that is left makes way for the next element. -/
theorem OnlyAt.tempVar_leave (h : OnlyAt (k :: p) (f₂.incIndex (k :: p)) f₃)
    (hvar : f₂.scr.tempVar p = k) : (f₃.leave p (k :: p)).scr.tempVar p = k + 1 := by
  rw [Struct.tempVar_leave, h.tempVar p (List.cons_ne_self k p).symm]
  exact congrArg (· + 1) hvar

/-- Coming through a node leaves it, and the element it is of, as they are. -/
theorem Visits.frame_self (hlocal : Local ops) (h : Visits ops loc f f') :
    f'.tpl.node loc = f.tpl.node loc ∧ f'.tpl.elem loc = f.tpl.elem loc := by
  refine h.frame hlocal (.inl ?_)
  rintro ⟨s, j, _, hs⟩
  exact absurd (congrArg List.length hs) (by simp; omega)

/-- What is at, or below, an element that was left is changed no more. -/
theorem Visits.frame_left (hlocal : Local ops) (h : Visits ops p f f')
    (hvar : f.scr.tempVar p = k + 1) (s : Loc) :
    f'.tpl.node (s ++ k :: p) = f.tpl.node (s ++ k :: p) ∧
      f'.tpl.elem (s ++ k :: p) = f.tpl.elem (s ++ k :: p) :=
  h.frame hlocal (.inl (hvar ▸ not_beyond_next p k s))

/-- An invariant `I` of a walk over all elements that goes through a structure once, and what is
    known, by `P`, of an element when it is left. -/
structure Passing (ops : DealOps π) (I : Loc → Frame π → Prop)
    (P : Loc → ElemDesc → NodeData → ElemData → Prop) : Prop where
  count : ∀ {p f}, I p f → (f.tpl.node p).elemNo = (f.tpl.children p).length
  test : ∀ loc f, ops.testelem loc f = true
  leaf : ∀ {p f k d ret f₁}, I p f → Current f p k d → d.type.attr.subset = false →
    d.type.hasOps = true → ops.procFunc (k :: p) f = some (ret, f₁) → 0 ≤ ret →
    I p (f₁.next p) ∧ P (k :: p) d (f₁.tpl.node (k :: p)) (f₁.tpl.elem (k :: p))
  empty : ∀ {p f k d ret f₁ ret' f₂}, I p f → Current f p k d → d.type.attr.subset = true →
    ops.enterstruct (k :: p) f = some (ret, f₁) →
    d.type.attr.array = true ∧ f₁.scr.limit (k :: p) = 0 →
    ops.exitstruct (k :: p) f₁ = some (ret', f₂) →
    I p (f₂.next p) ∧ ∀ s e, f.tpl.descOf (s ++ k :: p) = some e →
      P (s ++ k :: p) e (f₂.tpl.node (s ++ k :: p)) (f₂.tpl.elem (s ++ k :: p))
  down : ∀ {p f k d ret f₁}, I p f → Current f p k d → d.type.attr.subset = true →
    ops.enterstruct (k :: p) f = some (ret, f₁) → I (k :: p) (f₁.setTempVar (k :: p) 0)
  up : ∀ {p f k d ret f₁ f₂ ret' f₃}, I p f → Current f p k d → d.type.attr.subset = true →
    ops.enterstruct (k :: p) f = some (ret, f₁) →
    Visits ops (k :: p) (f₁.setTempVar (k :: p) 0) f₂ → I (k :: p) f₂ → f₂.scr.tempVar p = k →
    ops.exitstruct (k :: p) (f₂.incIndex (k :: p)) = some (ret', f₃) → 0 ≤ ret' →
    f₃.scr.index (k :: p) ≥ f₃.scr.limit (k :: p) ∧ I p (f₃.leave p (k :: p)) ∧
      P (k :: p) d (f₃.tpl.node (k :: p)) (f₃.tpl.elem (k :: p))

/-- Coming through a node keeps the invariant, and of the elements in it, all is known. -/
theorem Visits.passed {I : Loc → Frame π → Prop} {P : Loc → ElemDesc → NodeData → ElemData → Prop}
    (hlocal : Local ops) (hpassing : Passing ops I P) (h : Visits ops p f f') (hI : I p f) :
    I p f' ∧ ∀ q e, Beyond p (f.scr.tempVar p) q → f.tpl.descOf q = some e →
      P q e (f'.tpl.node q) (f'.tpl.elem q) := by
  induction h with
  | @done p f hend =>
    refine ⟨hI, fun q e hq he => ?_⟩
    obtain ⟨s, j, hj, rfl⟩ := hq
    rw [hend, hpassing.count hI] at hj
    rw [(f.tpl.descOf_beyond p hj s).1] at he
    cases he
  | @skip p f f' k d _ htest => exact absurd (htest.symm.trans (hpassing.test (k :: p) f)) (by decide)
  | @leaf p f f₁ f' k d ret cur _ hsub hops hproc hret rest ih =>
    have honly := hlocal.procFunc hproc
    obtain ⟨hI₁, hat⟩ := hpassing.leaf hI cur hsub hops hproc hret
    have hk : (f₁.next p).scr.tempVar p = k + 1 := by
      rw [tempVar_next, (cur.of_keeps honly.keeps).tempVar]
    obtain ⟨hI', hnext⟩ := ih hI₁
    refine ⟨hI', fun q e hq he => ?_⟩
    rw [cur.tempVar] at hq
    rcases beyond_iff.1 hq with ⟨s, rfl⟩ | hq
    · rcases s with _ | ⟨j, s⟩
      · obtain rfl := Option.some.inj (cur.desc.symm.trans he)
        obtain ⟨hnode, helem⟩ := rest.frame_left hlocal hk []
        rw [List.nil_append] at hnode helem ⊢
        rw [hnode, helem]
        exact hat
      · rw [f.tpl.descOf_below cur.desc hsub (List.cons_ne_nil j s)] at he
        cases he
    · exact hnext q e (hk ▸ hq) ((Template.descOf_congr honly.desc q).trans he)
  | @empty p f f₁ f₂ f' k d ret ret' cur _ hsub henter _ hnone hexit _ rest ih =>
    have honly := hlocal.enterstruct henter
    have honly' := hlocal.exitstruct hexit
    obtain ⟨hI₂, hat⟩ := hpassing.empty hI cur hsub henter hnone hexit
    have hk : (f₂.next p).scr.tempVar p = k + 1 := by
      rw [tempVar_next, (cur.of_keeps (honly.keeps.trans honly'.keeps)).tempVar]
    obtain ⟨hI', hnext⟩ := ih hI₂
    refine ⟨hI', fun q e hq he => ?_⟩
    rw [cur.tempVar] at hq
    rcases beyond_iff.1 hq with ⟨s, rfl⟩ | hq
    · obtain ⟨hnode, helem⟩ := rest.frame_left hlocal hk s
      rw [hnode, helem]
      exact hat s e he
    · exact hnext q e (hk ▸ hq)
        ((Template.descOf_congr (honly'.desc.trans honly.desc) q).trans he)
  | @pass p f f₁ f₂ f₃ f' k d ret ret' cur _ hsub henter _ _ inside hvar hexit hret' _ rest ihinside
      ih =>
    have honly := hlocal.enterstruct henter
    have honly' := hlocal.exitstruct hexit
    obtain ⟨hI₂, hinside⟩ := ihinside (hpassing.down hI cur hsub henter)
    obtain ⟨hleave, hI₃, hat⟩ := hpassing.up hI cur hsub henter inside hI₂ hvar hexit hret'
    rw [afterPass_leave hleave] at rest ih
    have hk := honly'.tempVar_leave hvar
    obtain ⟨hI', hnext⟩ := ih hI₃
    refine ⟨hI', fun q e hq he => ?_⟩
    rw [cur.tempVar] at hq
    rcases beyond_iff.1 hq with ⟨s, rfl⟩ | hq
    · obtain ⟨hnode, helem⟩ := rest.frame_left hlocal hk s
      rw [hnode, helem]
      rcases s with _ | ⟨j, s⟩
      · obtain rfl := Option.some.inj (cur.desc.symm.trans he)
        exact hat
      · -- What is in the structure was left before the structure was.
        have hne : j :: s ++ k :: p ≠ k :: p := fun heq =>
          List.cons_ne_nil j s (List.append_left_eq_self.1 heq)
        have hbelow : Beyond (k :: p) ((f₁.setTempVar (k :: p) 0).scr.tempVar (k :: p))
            (j :: s ++ k :: p) := by
          rw [tempVar_setTempVar]
          exact beyond_down.2 ⟨j :: s, List.cons_ne_nil j s, rfl⟩
        rw [tpl_leave, honly'.node _ hne, honly'.elem _ hne]
        exact hinside _ e hbelow ((Template.descOf_congr honly.desc _).trans he)
    · have hdesc := (inside.keeps hlocal.tame).desc.trans honly.desc
      exact hnext q e (hk ▸ hq) ((Template.descOf_congr (honly'.desc.trans hdesc) q).trans he)

end Cube.Struct
