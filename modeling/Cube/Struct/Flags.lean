import Cube.Lib.Flag
import Cube.Struct.Lookup

/-!
# Flags on a template

The functions that set and clear a flag on all elements and nodes of a template, which
are marked to take part in a conversion.

* `allflag_spec`: what the walk over all elements does to the flags.
* `clearsAll_iff`: when clearing a flag everywhere takes it off.
-/

namespace Cube.Struct

open Lib Function

/-! ## The walk over all elements -/

namespace Template

/-- The template with other flags on an element. -/
def mapElem (t : Template) (loc : Loc) (g : Int32 → Int32) : Template :=
  t.setElem loc { t.elem loc with flag := g (t.elem loc).flag }

/-- The template with other flags on a node. -/
def mapNode (t : Template) (p : Loc) (g : Int32 → Int32) : Template :=
  t.setNode p { t.node p with flag := g (t.node p).flag }

end Template

/-- What a walk does to the flags of the elements that are structures, of the nodes below
    those, and of the other elements. -/
structure FlagOps where
  subset : Int32 → Int32
  node : Int32 → Int32
  leaf : Int32 → Int32

/-- The template on a walk, with the element of each node that comes next. -/
structure FlagFrame where
  tpl : Template
  tempVar : Loc → Nat

/-- The loop over all elements below a node, where it is at the node `p`; nothing if it
    leaves the elements of a node, or does not end in as many turns. -/
def allflagLoop (ops : FlagOps) (root : Loc) : Nat → Loc → FlagFrame → Option FlagFrame
  | 0, _, _ => none
  | n + 1, p, f =>
    let k := f.tempVar p
    if k = (f.tpl.node p).elemNo then
      if p = root then some f else allflagLoop ops root n p.tail f
    else
      match f.tpl.descOf (k :: p) with
      | none => none
      | some d =>
        let next := update f.tempVar p (k + 1)
        if d.type.attr.subset then
          allflagLoop ops root n (k :: p)
            ⟨(f.tpl.mapElem (k :: p) ops.subset).mapNode (k :: p) ops.node, update next (k :: p) 0⟩
        else allflagLoop ops root n p ⟨f.tpl.mapElem (k :: p) ops.leaf, next⟩

mutual

/-- The turns of the loop for an element: to a structure, through it and back. -/
def turns : ElemDesc → Nat
  | ⟨_, type, _, sub, _, _⟩ => if type.attr.subset then turnsOf sub + 2 else 1

/-- The turns of the loop for elements one behind the other. -/
def turnsOf : List ElemDesc → Nat
  | [] => 0
  | d :: ds => turns d + turnsOf ds

end

/-- The walk over all elements below a node, whose variables are set as it comes to them. -/
def allflag (ops : FlagOps) (root : Loc) (t : Template) : Option Template :=
  (allflagLoop ops root (turnsOf (t.children root) + 1) root ⟨t, fun _ => 0⟩).map (·.tpl)

/-- `struct_set_allflag`. -/
def structSetAllflag (root : Loc) (flag : Int32) (t : Template) : Option Template :=
  (allflag ⟨(· ||| flag), id, (· ||| flag)⟩ root t).map (·.mapNode root (· ||| flag))

/-- `struct_clear_allflag`. The flag of the root is compared at the end, not cleared. -/
def structClearAllflag (root : Loc) (flag : Int32) (t : Template) : Option Template :=
  allflag ⟨id, (· &&& ~~~flag), (· &&& ~~~flag)⟩ root t

/-! ## What the walk does -/

/-- The flags at the places have been changed, and nothing else. -/
structure Applied (ops : FlagOps) (P : Loc → Prop) (t t' : Template) : Prop where
  desc : t'.desc = t.desc
  elem : ∀ {q d}, P q → t.descOf q = some d → t'.elem q =
    { t.elem q with
      flag := (if d.type.attr.subset then ops.subset else ops.leaf) (t.elem q).flag }
  elem_other : ∀ {q}, ¬ P q ∨ t.descOf q = none → t'.elem q = t.elem q
  node : ∀ {q}, P q → t.nested q = true →
    t'.node q = { t.node q with flag := ops.node (t.node q).flag }
  node_other : ∀ {q}, ¬ P q ∨ t.nested q = false → t'.node q = t.node q

namespace Applied

variable {ops : FlagOps} {P Q : Loc → Prop} {t t' t'' : Template}

/-- Without an element of the template among the places, nothing changes. -/
theorem refl (hP : ∀ q, P q → t.descOf q = none) : Applied ops P t t where
  desc := rfl
  elem hq hd := absurd ((hP _ hq).symm.trans hd) (by simp)
  elem_other _ := rfl
  node {q} hq hn := by
    rw [Template.nested, hP q hq] at hn
    cases hn
  node_other _ := rfl

/-- Places that are none of the template may be added. -/
theorem widen (h : Applied ops P t t') (hPQ : ∀ q, P q → Q q)
    (hQ : ∀ q, Q q → ¬ P q → t.descOf q = none) : Applied ops Q t t' := by
  have hnone : ∀ {q}, Q q → ¬ P q → t.nested q = false := fun {q} hq hP => by
    rw [Template.nested, hQ q hq hP]
    rfl
  refine ⟨h.desc, fun {q d} hq hd => ?_, fun {q} hq => ?_, fun {q} hq hn => ?_, fun {q} hq => ?_⟩
  · refine h.elem ?_ hd
    by_contra hP
    exact absurd ((hQ q hq hP).symm.trans hd) (by simp)
  · exact h.elem_other (hq.imp_left fun hnot hP => hnot (hPQ q hP))
  · refine h.node ?_ hn
    by_contra hP
    exact absurd ((hnone hq hP).symm.trans hn) (by simp)
  · exact h.node_other (hq.imp_left fun hnot hP => hnot (hPQ q hP))

/-- Changes at places that have none in common are one change. -/
theorem trans (h : Applied ops P t t') (h' : Applied ops Q t' t'') (hPQ : ∀ q, P q → ¬ Q q)
    {R : Loc → Prop} (hR : ∀ q, R q ↔ P q ∨ Q q) : Applied ops R t t'' := by
  have hdesc := Template.descOf_congr h.desc
  have hnested := Template.nested_congr h.desc
  refine ⟨h'.desc.trans h.desc, fun {q d} hq hd => ?_, fun {q} hq => ?_, fun {q} hq hn => ?_,
    fun {q} hq => ?_⟩
  · rcases (hR q).1 hq with hP | hQ
    · rw [h'.elem_other (.inl (hPQ q hP)), h.elem hP hd]
    · rw [h'.elem hQ ((hdesc q).trans hd), h.elem_other (.inl fun hP => hPQ q hP hQ)]
  · rw [h'.elem_other, h.elem_other]
    · exact hq.imp_left fun hnot hP => hnot ((hR q).2 (.inl hP))
    · rw [hdesc]
      exact hq.imp_left fun hnot hQ => hnot ((hR q).2 (.inr hQ))
  · rcases (hR q).1 hq with hP | hQ
    · rw [h'.node_other (.inl (hPQ q hP)), h.node hP hn]
    · rw [h'.node hQ ((hnested q).trans hn), h.node_other (.inl fun hP => hPQ q hP hQ)]
  · rw [h'.node_other, h.node_other]
    · exact hq.imp_left fun hnot hP => hnot ((hR q).2 (.inl hP))
    · rw [hnested]
      exact hq.imp_left fun hnot hQ => hnot ((hR q).2 (.inr hQ))

theorem elemNo (h : Applied ops P t t') (q : Loc) : (t'.node q).elemNo = (t.node q).elemNo := by
  by_cases hq : ¬ P q ∨ t.nested q = false
  · rw [h.node_other hq]
  · simp only [not_or, not_not, Bool.not_eq_false] at hq
    rw [h.node hq.1 hq.2]

theorem full (h : Applied ops P t t') (hfull : t.Full) : t'.Full := by
  intro p hp
  rw [h.elemNo, Template.children_congr h.desc]
  exact hfull p (hp.imp_right fun hn => (Template.nested_congr h.desc p).symm.trans hn)

/-- An element that is no structure. -/
theorem leaf {loc : Loc} {d : ElemDesc} (hd : t.descOf loc = some d)
    (hsub : d.type.attr.subset = false) :
    Applied ops (· = loc) t (t.mapElem loc ops.leaf) where
  desc := rfl
  elem {q e} hq he := by
    subst hq
    obtain rfl := Option.some.inj (hd.symm.trans he)
    rw [Template.mapElem, Template.elem_setElem_self, hsub]
    rfl
  elem_other {q} hq := by
    rw [Template.mapElem, Template.elem_setElem_of_ne]
    rintro rfl
    rcases hq with hq | hq
    · exact hq rfl
    · exact absurd (hd.symm.trans hq) (by simp)
  node {q} hq hn := by
    subst hq
    rw [Template.nested_of_desc hd, hsub] at hn
    cases hn
  node_other _ := rfl

/-- An element that is a structure, with its node. -/
theorem subset {loc : Loc} {d : ElemDesc} (hd : t.descOf loc = some d)
    (hsub : d.type.attr.subset = true) :
    Applied ops (· = loc) t ((t.mapElem loc ops.subset).mapNode loc ops.node) where
  desc := rfl
  elem {q e} hq he := by
    subst hq
    obtain rfl := Option.some.inj (hd.symm.trans he)
    rw [Template.mapNode, Template.elem_setNode, Template.mapElem, Template.elem_setElem_self, hsub]
    rfl
  elem_other {q} hq := by
    rw [Template.mapNode, Template.elem_setNode, Template.mapElem, Template.elem_setElem_of_ne]
    rintro rfl
    rcases hq with hq | hq
    · exact hq rfl
    · exact absurd (hd.symm.trans hq) (by simp)
  node {q} hq _ := by
    subst hq
    rw [Template.mapNode, Template.node_setNode_self]
    rfl
  node_other {q} hq := by
    rw [Template.mapNode, Template.node_setNode_of_ne]
    · rfl
    rintro rfl
    rcases hq with hq | hq
    · exact hq rfl
    · rw [Template.nested_of_desc hd, hsub] at hq
      cases hq

end Applied

section Loop

variable {ops : FlagOps} {root p : Loc} {f : FlagFrame} {d : ElemDesc} {k : Nat}

/-- A turn at an element that is no structure. -/
theorem allflagLoop_leaf (hk : f.tempVar p = k) (hlt : k < (f.tpl.node p).elemNo)
    (hd : f.tpl.descOf (k :: p) = some d) (hsub : d.type.attr.subset = false) (n : Nat) :
    allflagLoop ops root (n + 1) p f = allflagLoop ops root n p
      ⟨f.tpl.mapElem (k :: p) ops.leaf, update f.tempVar p (k + 1)⟩ := by
  rw [allflagLoop]
  simp only [hk, if_neg (Nat.ne_of_lt hlt), hd, hsub, Bool.false_eq_true, if_false]

/-- A turn to the structure of an element. -/
theorem allflagLoop_enter (hk : f.tempVar p = k) (hlt : k < (f.tpl.node p).elemNo)
    (hd : f.tpl.descOf (k :: p) = some d) (hsub : d.type.attr.subset = true) (n : Nat) :
    allflagLoop ops root (n + 1) p f = allflagLoop ops root n (k :: p)
      ⟨(f.tpl.mapElem (k :: p) ops.subset).mapNode (k :: p) ops.node,
        update (update f.tempVar p (k + 1)) (k :: p) 0⟩ := by
  rw [allflagLoop]
  simp only [hk, if_neg (Nat.ne_of_lt hlt), hd, hsub, if_true]

/-- A turn back from a structure. -/
theorem allflagLoop_up (hend : f.tempVar (k :: p) = (f.tpl.node (k :: p)).elemNo)
    (hroot : k :: p ≠ root) (n : Nat) :
    allflagLoop ops root (n + 1) (k :: p) f = allflagLoop ops root n p f := by
  rw [allflagLoop]
  simp only [hend, if_true, if_neg hroot, List.tail_cons]

theorem turns_leaf (hsub : d.type.attr.subset = false) : turns d = 1 := by
  obtain ⟨_, _, _, _, _, _⟩ := d
  rw [turns, if_neg (by simpa using hsub)]

theorem turns_subset (hsub : d.type.attr.subset = true) : turns d = turnsOf d.sub + 2 := by
  obtain ⟨_, _, _, _, _, _⟩ := d
  rw [turns, if_pos hsub]

/-- The loop goes over the elements of a node that are left, with those below them. -/
theorem allflagLoop_node (ops : FlagOps) (ds : List ElemDesc) (p : Loc) (f : FlagFrame) (hfull : f.tpl.Full)
    (hp : p = [] ∨ f.tpl.nested p = true) (hroot : root.length ≤ p.length)
    (hle : f.tempVar p ≤ (f.tpl.children p).length)
    (hds : (f.tpl.children p).drop (f.tempVar p) = ds) :
    ∃ f', (∀ n, allflagLoop ops root (turnsOf ds + n) p f = allflagLoop ops root n p f') ∧
      Applied ops (Beyond p (f.tempVar p)) f.tpl f'.tpl ∧
      f'.tempVar p = (f.tpl.node p).elemNo ∧
      ∀ q, q.length < p.length → f'.tempVar q = f.tempVar q := by
  match ds with
  | [] =>
    obtain ⟨k, hk⟩ : ∃ k, f.tempVar p = k := ⟨_, rfl⟩
    rw [hk] at hds hle ⊢
    have hend := List.drop_eq_nil_iff.1 hds
    refine ⟨f, fun n => by rw [turnsOf, Nat.zero_add], .refl ?_, ?_, fun _ _ => rfl⟩
    · rintro q ⟨s, j, hj, rfl⟩
      exact (f.tpl.descOf_beyond p (Nat.le_trans hend hj) s).1
    · rw [hk, hfull p hp]
      exact Nat.le_antisymm hle hend
  | d :: ds =>
    obtain ⟨k, hk⟩ : ∃ k, f.tempVar p = k := ⟨_, rfl⟩
    rw [hk] at hds hle ⊢
    have hd : f.tpl.descOf (k :: p) = some d := by
      rw [Template.descOf, ← List.head?_drop, hds, List.head?_cons]
    have hlt : k < (f.tpl.children p).length := (List.getElem?_eq_some_iff.1 hd).1
    have hlt' : k < (f.tpl.node p).elemNo := by rwa [hfull p hp]
    -- The rest of the node, from any frame that is one element further.
    have hrest : ∀ f₁ : FlagFrame, Applied ops (fun q => ∃ s, q = s ++ k :: p) f.tpl f₁.tpl →
        f₁.tempVar p = k + 1 → (∀ q, q.length < p.length → f₁.tempVar q = f.tempVar q) →
        ∃ f', (∀ n, allflagLoop ops root (turnsOf ds + n) p f₁ = allflagLoop ops root n p f') ∧
          Applied ops (Beyond p k) f.tpl f'.tpl ∧ f'.tempVar p = (f.tpl.node p).elemNo ∧
          ∀ q, q.length < p.length → f'.tempVar q = f.tempVar q := by
      intro f₁ happlied hk₁ hvars
      have hdesc := Template.children_congr happlied.desc p
      have hp₁ := hp.imp_right fun hn => (Template.nested_congr happlied.desc p).trans hn
      obtain ⟨f', hloop, happlied', hend, hvars'⟩ := allflagLoop_node ops ds p f₁
        (happlied.full hfull) hp₁ hroot (by rw [hdesc, hk₁]; exact hlt) (by
          rw [hdesc, hk₁, ← List.drop_drop, hds, List.drop_one, List.tail_cons])
      rw [hk₁] at happlied'
      refine ⟨f', hloop, happlied.trans happlied' ?_ fun q => beyond_iff, ?_, fun q hq => ?_⟩
      · rintro q ⟨s, rfl⟩
        exact not_beyond_next p k s
      · rw [hend, happlied.elemNo]
      · rw [hvars' q hq, hvars q hq]
    cases hsub : d.type.attr.subset with
    | false =>
      have hturns : turnsOf (d :: ds) = turnsOf ds + 1 := by
        rw [turnsOf, turns_leaf hsub, Nat.add_comm]
      have hbelow : ∀ q, (∃ s, q = s ++ k :: p) → q ≠ k :: p → f.tpl.descOf q = none := by
        rintro q ⟨s, rfl⟩ hne
        exact f.tpl.descOf_below hd hsub (by rintro rfl; exact hne rfl)
      obtain ⟨f', hloop, hthen⟩ := hrest
        ⟨f.tpl.mapElem (k :: p) ops.leaf, update f.tempVar p (k + 1)⟩
        ((Applied.leaf hd hsub).widen (fun q hq => ⟨[], hq⟩) hbelow) (update_self ..)
        fun q hq => update_of_ne (by rintro rfl; exact Nat.lt_irrefl _ hq) _ _
      refine ⟨f', fun n => ?_, hthen⟩
      rw [hturns, Nat.add_right_comm, allflagLoop_leaf hk hlt' hd hsub, hloop]
    | true =>
      have hturns : turnsOf (d :: ds) = turnsOf d.sub + turnsOf ds + 2 := by
        rw [turnsOf, turns_subset hsub, Nat.add_right_comm]
      have hsubset : Applied ops (· = k :: p) f.tpl
        ((f.tpl.mapElem (k :: p) ops.subset).mapNode (k :: p) ops.node) := .subset hd hsub
      have hchildren : f.tpl.children (k :: p) = d.sub := Template.children_of_desc hd hsub
      obtain ⟨e, he, htpl, hzero, hothers⟩ : ∃ e : FlagFrame,
          e = ⟨(f.tpl.mapElem (k :: p) ops.subset).mapNode (k :: p) ops.node,
            update (update f.tempVar p (k + 1)) (k :: p) 0⟩ ∧
          e.tpl = (f.tpl.mapElem (k :: p) ops.subset).mapNode (k :: p) ops.node ∧
          e.tempVar (k :: p) = 0 ∧
          ∀ q, q ≠ k :: p → e.tempVar q = update f.tempVar p (k + 1) q :=
        ⟨_, rfl, rfl, update_self .., fun q hq => update_of_ne hq _ _⟩
      rw [← htpl] at hsubset
      -- Through the structure below the element, and back.
      obtain ⟨f₁, hloop₁, happlied₁, hend₁, hvars₁⟩ := allflagLoop_node ops d.sub (k :: p) e
        (hsubset.full hfull) (.inr ((Template.nested_congr hsubset.desc _).trans
          ((Template.nested_of_desc hd).trans hsub)))
        (Nat.le_succ_of_le hroot) (by rw [hzero]; exact Nat.zero_le _)
        (by rw [hzero, List.drop_zero, Template.children_congr hsubset.desc]; exact hchildren)
      rw [hzero] at happlied₁
      have hvars : ∀ q, q.length < p.length + 1 →
          f₁.tempVar q = update f.tempVar p (k + 1) q := fun q hq => by
        rw [hvars₁ q hq, hothers q (by rintro rfl; exact Nat.lt_irrefl _ hq)]
      have hthrough : Applied ops (fun q => ∃ s, q = s ++ k :: p) f.tpl f₁.tpl := by
        refine hsubset.trans happlied₁ ?_ fun q => ?_
        · rintro q rfl hbeyond
          obtain ⟨s, hs, heq⟩ := beyond_down.1 hbeyond
          have hlen := congrArg List.length heq
          rw [List.length_append] at hlen
          have := List.length_pos_iff.2 hs
          omega
        · rw [beyond_down]
          constructor
          · rintro ⟨s, rfl⟩
            rcases eq_or_ne s [] with rfl | hs
            · exact .inl rfl
            · exact .inr ⟨s, hs, rfl⟩
          · rintro (rfl | ⟨s, -, rfl⟩)
            · exact ⟨[], rfl⟩
            · exact ⟨s, rfl⟩
      obtain ⟨f', hloop, hthen⟩ := hrest f₁ hthrough
        ((hvars p (Nat.lt_succ_self _)).trans (update_self ..)) fun q hq =>
          (hvars q (Nat.lt_succ_of_lt hq)).trans (update_of_ne (by
            rintro rfl
            exact Nat.lt_irrefl _ hq) _ _)
      refine ⟨f', fun n => ?_, hthen⟩
      have hroot' : k :: p ≠ root := by
        rintro rfl
        exact Nat.not_succ_le_self _ hroot
      have hup : f₁.tempVar (k :: p) = (f₁.tpl.node (k :: p)).elemNo :=
        hend₁.trans (happlied₁.elemNo _).symm
      have hfuel : turnsOf d.sub + turnsOf ds + 2 + n =
          turnsOf d.sub + (turnsOf ds + n + 1) + 1 := by
        omega
      rw [hturns, hfuel, allflagLoop_enter hk hlt' hd hsub, ← he, hloop₁, allflagLoop_up hup hroot',
        hloop]
termination_by sizeOf ds
decreasing_by
  · simp only [List.cons.sizeOf_spec]
    omega
  · have := d.sizeOf_sub
    simp only [List.cons.sizeOf_spec]
    omega

end Loop

variable {t : Template} {root : Loc}

/-- The walk changes the flags of all elements below a node. -/
theorem allflag_spec (ops : FlagOps) (hfull : t.Full) (hroot : root = [] ∨ t.nested root = true) :
    ∃ t', allflag ops root t = some t' ∧ Applied ops (Beyond root 0) t t' := by
  obtain ⟨f', hloop, happlied, hend, -⟩ := allflagLoop_node ops (t.children root) root
    ⟨t, fun _ => 0⟩ hfull hroot (Nat.le_refl _) (Nat.zero_le _) rfl
  refine ⟨f'.tpl, ?_, happlied⟩
  have hlast : allflagLoop ops root 1 root f' = some f' := by
    rw [allflagLoop]
    simp only [hend, happlied.elemNo, if_true]
  rw [allflag, hloop 1, hlast, Option.map_some]

/-! ## Clearing a flag everywhere -/

/-- After a flag is cleared everywhere, no element and no node carries it, and all other bits
    are as before. -/
def ClearsAll (t : Template) (flag : Int32) : Prop :=
  ∃ t', structClearAllflag [] flag t = some t' ∧
    (∀ loc d, t.descOf loc = some d → ¬ Carries (t'.elem loc).flag flag) ∧
    (∀ p, p = [] ∨ t.nested p = true → ¬ Carries (t'.node p).flag flag) ∧
    (∀ loc, SameBut flag (t'.elem loc).flag (t.elem loc).flag) ∧
    ∀ p, SameBut flag (t'.node p).flag (t.node p).flag

/-- The flag is taken off the elements that are no structures, and off the nodes but the
    root. -/
theorem clearsAll_iff (hfull : t.Full) (flag : Int32) : ClearsAll t flag ↔
    ¬ Carries (t.node []).flag flag ∧
      ∀ loc, t.nested loc = true → ¬ Carries (t.elem loc).flag flag := by
  obtain ⟨t', hwalk, happlied⟩ := allflag_spec ⟨id, (· &&& ~~~flag), (· &&& ~~~flag)⟩ hfull
    (.inl (rfl : ([] : Loc) = []))
  have hroot : ¬ Beyond [] 0 [] := by
    rintro ⟨s, j, -, h⟩
    simp at h
  have hsubset : ∀ loc, t.nested loc = true → (t'.elem loc).flag = (t.elem loc).flag := by
    intro loc hn
    obtain ⟨d, hd, hsub⟩ := Template.exists_desc hn
    rw [happlied.elem (beyond_root hd) hd, hsub]
    rfl
  have hnode : ∀ p, t.nested p = true → (t'.node p).flag = (t.node p).flag &&& ~~~flag := by
    intro p hn
    obtain ⟨d, hd, -⟩ := Template.exists_desc hn
    rw [happlied.node (beyond_root hd) hn]
  have hleaf : ∀ {loc d}, t.descOf loc = some d → t.nested loc = false →
      (t'.elem loc).flag = (t.elem loc).flag &&& ~~~flag := by
    intro loc d hd hn
    rw [happlied.elem (beyond_root hd) hd, ← Template.nested_of_desc hd, hn]
    rfl
  constructor
  · rintro ⟨t₁, hclear, helem, hnodes, -⟩
    obtain rfl := Option.some.inj (hwalk.symm.trans hclear)
    refine ⟨?_, fun loc hn => ?_⟩
    · rw [← happlied.node_other (.inl hroot)]
      exact hnodes [] (.inl rfl)
    · obtain ⟨d, hd, -⟩ := Template.exists_desc hn
      rw [← hsubset loc hn]
      exact helem loc d hd
  · rintro ⟨hfree, hstructs⟩
    refine ⟨t', hwalk, fun loc d hd => ?_, fun p hp => ?_, fun loc => ?_, fun p => ?_⟩
    · cases hn : t.nested loc with
      | true =>
        rw [hsubset loc hn]
        exact hstructs loc hn
      | false =>
        rw [hleaf hd hn]
        exact not_carries_clear _ flag
    · rcases hp with rfl | hn
      · rwa [happlied.node_other (.inl hroot)]
      · rw [hnode p hn]
        exact not_carries_clear _ flag
    · rcases hd : t.descOf loc with _ | d
      · rw [happlied.elem_other (.inr hd)]
        exact .refl flag _
      · cases hn : t.nested loc with
        | true =>
          rw [hsubset loc hn]
          exact .refl flag _
        | false =>
          rw [hleaf hd hn]
          exact sameBut_clear _ flag
    · cases hn : t.nested p with
      | true =>
        rw [hnode p hn]
        exact sameBut_clear _ flag
      | false =>
        rw [happlied.node_other (.inr hn)]
        exact .refl flag _

end Cube.Struct
