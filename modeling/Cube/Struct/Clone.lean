import Cube.Struct.Create

/-!
# Cloning a template

`clone_struct_template` walks over a blank template of the same description, with
the original beside it. It copies what the original has of each element that is no
structure, and of each node it enters. The elements that are structures keep what
they had when they were blank, and since this goes for their limit, no array is gone
through.

* `cloneVisits_lost`: what the walk of the cloning leaves blank.
* `cloneVisits_follows`: the cloning goes where the creation of the original went.
* `clone_interchangeable_iff`: a clone is the same template exactly if nothing is lost
  in this way: no structure or array of the original has an offset, a size, an element
  that counts it or a flag, and nothing is below an array.
-/

namespace Cube.Struct

open Lib

/-- What the cloning keeps, `struct clone_template_para`: the nodes of the clone and of
    the original that the walk is in. -/
structure ClonePara where
  cloneNode : Loc
  sourceNode : Loc

section CloneTemplate

variable (source : Template)

/-- `_clone_template_start`. -/
def cloneTemplateStart (f : Frame ClonePara) : Option (Int × Frame ClonePara) :=
  some (0, f.setTpl (f.tpl.setNode [] (source.node [])))

/-- `_clone_template_enterstruct`. -/
def cloneTemplateEnterstruct : Callback ClonePara := fun loc f =>
  let index := f.scr.tempVar f.para.cloneNode
  let sourceNode := index :: f.para.sourceNode
  let tpl := f.tpl.setNode loc (source.node sourceNode)
  some (0, ((f.setTpl tpl).setPara ⟨loc, sourceNode⟩).setTempVar loc 0)

/-- `_clone_template_exitstruct`. -/
def cloneTemplateExitstruct : Callback ClonePara := fun _ f =>
  some (0, f.setPara ⟨f.para.cloneNode.tail, f.para.sourceNode.tail⟩)

/-- `_clone_template_proc_func`. The element that counts another one is looked for in
    the clone. -/
def cloneTemplateProcFunc (sourceIndex : Loc → Int) : Callback ClonePara := fun loc f =>
  match f.tpl.descOf loc with
  | none => none
  | some d =>
    let sourceElem := f.scr.tempVar f.para.cloneNode :: f.para.sourceNode
    let e := source.elem sourceElem
    let proc := fun (define : Option Loc) =>
      let tpl := f.tpl.setElem loc { e with define := define }
      some (0, ((f.setTpl tpl).setIndex loc (sourceIndex sourceElem)).setLimit loc
        (sourceIndex sourceElem))
    if d.type.attr.define then
      match f.tpl.countElem f.para.cloneNode d with
      | .fault => none
      | .error ret => some (ret, f)
      | .done define => proc (some define)
    else proc (f.tpl.elem loc).define

/-- The functions of `clone_struct_template`, for an original with the indices of its
    last walk. -/
def cloneTemplateOps (sourceIndex : Loc → Int) : DealOps ClonePara where
  start := cloneTemplateStart source
  enterstruct := cloneTemplateEnterstruct source
  exitstruct := cloneTemplateExitstruct
  procFunc := cloneTemplateProcFunc source sourceIndex

/-- `clone_struct_template` clones the original, which has the indices of its last
    walk. -/
def Clones (sourceIndex : Loc → Int) (t : Template) : Prop :=
  ∃ ret f, 0 ≤ ret ∧ Converts (cloneTemplateOps source sourceIndex)
    ⟨.blank source.desc, .clean, ⟨[], []⟩⟩ ret f ∧ f.tpl = t

end CloneTemplate

/-- There is a clone of the template, it is the same template, and every conversion
    does the same with both. The functions of a conversion know the structure, the
    blob or text and all else it works on. -/
def Interchangeable (sourceIndex : Loc → Int) (t : Template) : Prop :=
  ∃ clone, Clones t sourceIndex clone ∧ clone = t ∧
    ∀ (π : Type) (ops : DealOps π) (scr : Scratch) (para : π) (ret : Int) (para' : π),
      (∃ tpl' scr', Converts ops ⟨clone, scr, para⟩ ret ⟨tpl', scr', para'⟩) ↔
        ∃ tpl' scr', Converts ops ⟨t, scr, para⟩ ret ⟨tpl', scr', para'⟩

/-- A place at, or below, an element with the attribute of an array. -/
def Template.InArray (t : Template) : Loc → Prop
  | [] => False
  | k :: p => (∃ d, t.descOf (k :: p) = some d ∧ d.type.attr.array = true) ∨ InArray t p

/-- Nothing of the template is lost by cloning: its structures and arrays have no
    offset, size, counting element or flag, and neither has anything below an array,
    where there are no further structures. -/
structure NothingLost (t : Template) : Prop where
  subset : ∀ loc d, t.descOf loc = some d → d.type.attr.subset = true → t.elem loc = {}
  below : ∀ k p, t.InArray p → t.elem (k :: p) = {} ∧ t.node (k :: p) = {}

/-! ## What the functions do -/

variable {source : Template} {sourceIndex : Loc → Int} {loc p : Loc} {k : Nat}
  {c c₁ c' : Frame ClonePara} {ret : Int} {d : ElemDesc}

theorem inArray_congr {t t' : Template} (h : t'.desc = t.desc) (p : Loc) :
    t'.InArray p ↔ t.InArray p := by
  induction p with
  | nil => exact Iff.rfl
  | cons k p ih => rw [Template.InArray, Template.InArray, ih, Template.descOf_congr h]

/-- The walk is in none of the structures of the template. -/
def Unused (c : Frame ClonePara) : Prop :=
  ∀ loc d, c.tpl.descOf loc = some d → d.type.attr.subset = true →
    c.scr.limit loc = 0 ∧ c.scr.index loc = 0

/-- Of an element that is no structure, everything is copied, with the element that
    counts it found in the clone. -/
theorem cloneProcFunc_cases (h : cloneTemplateProcFunc source sourceIndex loc c = some (ret, c₁))
    (hd : c.tpl.descOf loc = some d) : (ret < 0 ∧ c₁ = c) ∨ ∃ (e : ElemData) (i : Int),
      (d.type.attr.define = true →
        ∃ r, c.tpl.countElem c.para.cloneNode d = .done r ∧ e.define = some r) ∧
      c₁ = ((c.setTpl (c.tpl.setElem loc e)).setIndex loc i).setLimit loc i := by
  simp only [cloneTemplateProcFunc, hd] at h
  split_ifs at h with hdefine
  · cases hcount : c.tpl.countElem c.para.cloneNode d with
    | fault => simp only [hcount, reduceCtorEq] at h
    | error e =>
      simp only [hcount] at h
      obtain ⟨rfl, rfl⟩ := Prod.mk.inj (Option.some.inj h)
      exact .inl ⟨countElem_error hcount, rfl⟩
    | done define =>
      simp only [hcount] at h
      obtain ⟨_, rfl⟩ := Prod.mk.inj (Option.some.inj h)
      exact .inr ⟨_, _, fun _ => ⟨define, rfl, rfl⟩, rfl⟩
  · obtain ⟨_, rfl⟩ := Prod.mk.inj (Option.some.inj h)
    exact .inr ⟨_, _, fun hdef => absurd hdef hdefine, rfl⟩

theorem cloneProcFunc_spec (h : cloneTemplateProcFunc source sourceIndex loc c = some (ret, c₁))
    (hd : c.tpl.descOf loc = some d) :
    OnlyAt loc c c₁ ∧ c₁.tpl.node = c.tpl.node ∧ c₁.para = c.para ∧
      ∀ q, q ≠ loc → c₁.scr.limit q = c.scr.limit q ∧ c₁.scr.index q = c.scr.index q := by
  rcases cloneProcFunc_cases h hd with ⟨-, rfl⟩ | ⟨e, i, -, rfl⟩
  · exact ⟨.refl _ _, rfl, rfl, fun _ _ => ⟨rfl, rfl⟩⟩
  · exact ⟨⟨rfl, fun _ _ => rfl, fun q hq => Function.update_of_ne hq _ _, fun _ _ => rfl⟩, rfl, rfl,
      fun q hq => ⟨Function.update_of_ne hq _ _, Function.update_of_ne hq _ _⟩⟩

/-- A structure of the clone is entered, which leaves the elements as they are. -/
theorem cloneEnterstruct_spec (h : cloneTemplateEnterstruct source loc c = some (ret, c₁)) :
    OnlyAt loc c c₁ ∧ c₁.tpl.elem = c.tpl.elem ∧ c₁.scr.limit = c.scr.limit ∧
      c₁.scr.index = c.scr.index := by
  obtain ⟨_, rfl⟩ := Prod.mk.inj (Option.some.inj h)
  exact ⟨⟨rfl, fun q hq => Function.update_of_ne hq _ _, fun _ _ => rfl,
    fun q hq => Function.update_of_ne hq _ _⟩, rfl, rfl, rfl⟩

theorem cloneTemplateOps_local : Local (cloneTemplateOps source sourceIndex) where
  enterstruct h := (cloneEnterstruct_spec h).1
  exitstruct h := by
    obtain ⟨_, rfl⟩ := Prod.mk.inj (Option.some.inj h)
    exact ⟨rfl, fun _ _ => rfl, fun _ _ => rfl, fun _ _ => rfl⟩
  procFunc {loc f ret f'} h := by
    cases hd : f.tpl.descOf loc with
    | none => simp [cloneTemplateOps, cloneTemplateProcFunc, hd] at h
    | some d => exact (cloneProcFunc_spec h hd).1

/-! ## What is lost -/

/-- An index or a limit of an element that is no structure is not one the walk uses. -/
theorem Unused.congr (h : Unused c) (hdesc : c₁.tpl.desc = c.tpl.desc)
    (hscr : ∀ q e, c.tpl.descOf q = some e → e.type.attr.subset = true →
      c₁.scr.limit q = c.scr.limit q ∧ c₁.scr.index q = c.scr.index q) : Unused c₁ := by
  intro q e he hsub
  rw [Template.descOf_congr hdesc] at he
  obtain ⟨hlimit, hindex⟩ := hscr q e he hsub
  rw [hlimit, hindex]
  exact h q e he hsub

/-- After a pass through a structure of the clone, the walk leaves it. -/
theorem Unused.leave (h : Unused c) (hd : c.tpl.descOf (k :: p) = some d)
    (hsub : d.type.attr.subset = true) (para : ClonePara) :
    ((c.incIndex (k :: p)).setPara para).afterPass p (k :: p) =
      ((c.incIndex (k :: p)).setPara para).leave p (k :: p) ∧
    Unused (((c.incIndex (k :: p)).setPara para).leave p (k :: p)) := by
  obtain ⟨hlimit, hindex⟩ := h (k :: p) d hd hsub
  constructor
  · refine afterPass_leave ?_
    change Function.update c.scr.index (k :: p) (c.scr.index (k :: p) + 1) (k :: p) ≥
      c.scr.limit (k :: p)
    rw [Function.update_self, hindex, hlimit]
    decide
  · intro q e he hsubq
    by_cases hq : q = k :: p
    · rw [hq]
      exact ⟨Function.update_self .., Function.update_self ..⟩
    · obtain ⟨hlimit, hindex⟩ := h q e he hsubq
      refine ⟨(Function.update_of_ne hq _ _).trans hlimit, (Function.update_of_ne hq _ _).trans ?_⟩
      exact (Function.update_of_ne hq _ _).trans hindex

/-- A place below an array is not an element of a node that is in none. -/
theorem ne_of_inArray {t : Template} (hp : ¬ t.InArray p) {j : Nat} {q : Loc} (hq : t.InArray q) :
    j :: q ≠ k :: p := by
  intro h
  obtain ⟨_, rfl⟩ := List.cons.inj h
  exact hp hq

/-- What is in no array and no array has no array above it. -/
theorem not_inArray_cons {t : Template} (hp : ¬ t.InArray p) (hd : t.descOf (k :: p) = some d)
    (harray : d.type.attr.array = false) : ¬ t.InArray (k :: p) := by
  rintro (⟨e, he, harray'⟩ | h)
  · obtain rfl := Option.some.inj (hd.symm.trans he)
    rw [harray] at harray'
    cases harray'
  · exact hp h

/-- The walk of the cloning does not come into an array: the elements that are
    structures, and everything below an array, are as they were. -/
theorem cloneVisits_lost (h : Visits (cloneTemplateOps source sourceIndex) p c c') (hunused : Unused c)
    (hp : ¬ c.tpl.InArray p) :
    Unused c' ∧ (∀ q d, c.tpl.descOf q = some d → d.type.attr.subset = true →
      c'.tpl.elem q = c.tpl.elem q) ∧
    ∀ j q, c.tpl.InArray q → c'.tpl.elem (j :: q) = c.tpl.elem (j :: q) ∧
      c'.tpl.node (j :: q) = c.tpl.node (j :: q) := by
  induction h with
  | done => exact ⟨hunused, fun _ _ _ _ => rfl, fun _ _ _ => ⟨rfl, rfl⟩⟩
  | skip _ htest => cases htest
  | @leaf p c c₁ c' k d ret cur _ hleaf _ hproc _ _ ih =>
    obtain ⟨honly, hnode, _, hscr⟩ := cloneProcFunc_spec hproc cur.desc
    have hne : ∀ q e, c.tpl.descOf q = some e → e.type.attr.subset = true → q ≠ k :: p := by
      rintro q e he hsub rfl
      obtain rfl := Option.some.inj (cur.desc.symm.trans he)
      rw [hleaf] at hsub
      cases hsub
    obtain ⟨hunused', helem, hbelow⟩ :=
      ih (hunused.congr honly.desc fun q e he hsub => hscr q (hne q e he hsub))
        fun h => hp ((inArray_congr honly.desc p).1 h)
    refine ⟨hunused', fun q e he hsub => ?_, fun j q hq => ?_⟩
    · have he' := (Template.descOf_congr honly.desc q).trans he
      exact (helem q e he' hsub).trans (honly.elem q (hne q e he hsub))
    · obtain ⟨helem', hnode'⟩ := hbelow j q ((inArray_congr honly.desc q).2 hq)
      exact ⟨helem'.trans (honly.elem _ (ne_of_inArray hp hq)),
        hnode'.trans (congrFun hnode (j :: q))⟩
  | @empty p c c₁ c₂ c' k d ret ret' cur _ _ henter _ _ hexit _ _ ih =>
    obtain ⟨honly, helem₁, hlimit, hindex⟩ := cloneEnterstruct_spec henter
    obtain ⟨_, rfl⟩ := Prod.mk.inj (Option.some.inj hexit)
    obtain ⟨hunused', helem, hbelow⟩ :=
      ih (hunused.congr honly.desc fun q _ _ _ => ⟨congrFun hlimit q, congrFun hindex q⟩)
        fun h => hp ((inArray_congr honly.desc p).1 h)
    refine ⟨hunused', fun q e he hsub => ?_, fun j q hq => ?_⟩
    · have he' := (Template.descOf_congr honly.desc q).trans he
      exact (helem q e he' hsub).trans (congrFun helem₁ q)
    · obtain ⟨helem', hnode'⟩ := hbelow j q ((inArray_congr honly.desc q).2 hq)
      exact ⟨helem'.trans (congrFun helem₁ _), hnode'.trans (honly.node _ (ne_of_inArray hp hq))⟩
  | @pass p c c₁ c₂ c₃ c' k d ret ret' cur _ hsub henter _ hsome inside _ hexit _ _ _ ihinside ih =>
    obtain ⟨honly, helem₁, hlimit, hindex⟩ := cloneEnterstruct_spec henter
    obtain ⟨_, rfl⟩ := Prod.mk.inj (Option.some.inj hexit)
    have hunused₁ : Unused (c₁.setTempVar (k :: p) 0) :=
      hunused.congr honly.desc fun q _ _ _ => ⟨congrFun hlimit q, congrFun hindex q⟩
    -- The limit of the element is still 0, so that it is no array.
    have harray : d.type.attr.array = false := by
      refine Bool.eq_false_iff.2 fun harray => hsome ⟨harray, ?_⟩
      exact (congrFun hlimit _).trans (hunused _ d cur.desc hsub).1
    have hp₁ : ¬ c.tpl.InArray (k :: p) := not_inArray_cons hp cur.desc harray
    obtain ⟨hunused₂, helem₂, hbelow₂⟩ :=
      ihinside hunused₁ fun h => hp₁ ((inArray_congr honly.desc _).1 h)
    have hdesc₂ : c₂.tpl.desc = c.tpl.desc :=
      (inside.keeps cloneTemplateOps_local.tame).desc.trans honly.desc
    obtain ⟨hleave, hunused₃⟩ := hunused₂.leave
      ((Template.descOf_congr hdesc₂ _).trans cur.desc) hsub
      ⟨c₂.para.cloneNode.tail, c₂.para.sourceNode.tail⟩
    obtain ⟨hunused', helem, hbelow⟩ := ih (hleave ▸ hunused₃) fun h => hp
      ((inArray_congr (t := c.tpl) (by rw [tpl_afterPass]; exact hdesc₂) p).1 h)
    rw [tpl_afterPass] at helem hbelow
    refine ⟨hunused', fun q e he hsub => ?_, fun j q hq => ?_⟩
    · have he₁ := (Template.descOf_congr honly.desc q).trans he
      have he₂ := (Template.descOf_congr hdesc₂ q).trans he
      exact ((helem q e he₂ hsub).trans (helem₂ q e he₁ hsub)).trans (congrFun helem₁ q)
    · obtain ⟨helem', hnode'⟩ := hbelow j q ((inArray_congr hdesc₂ q).2 hq)
      obtain ⟨helem₂', hnode₂'⟩ := hbelow₂ j q ((inArray_congr honly.desc q).2 hq)
      exact ⟨(helem'.trans helem₂').trans (congrFun helem₁ _),
        (hnode'.trans hnode₂').trans (honly.node _ (ne_of_inArray hp hq))⟩

/-! ## The walk that created the original, followed by the cloning -/

variable {created : Template} {f f₁ f' : Frame CreatePara}

/-- The original has at the place what the creation left there, up to flags. -/
structure Settled (source t : Template) (q : Loc) : Prop where
  elem : { source.elem q with flag := 0 } = { t.elem q with flag := 0 }
  elemNo : (source.node q).elemNo = (t.node q).elemNo

/-- The clone has at the place what the original has. -/
structure Restored (source t : Template) (q : Loc) : Prop where
  elem : t.elem q = source.elem q
  node : t.node q = source.node q

/-- The cloning is in the same node, at the same element, as the creation was, and
    both find the template blank from there on. -/
structure Follows (source : Template) (p : Loc) (f : Frame CreatePara) (c : Frame ClonePara) :
    Prop where
  desc : f.tpl.desc = source.desc
  desc_clone : c.tpl.desc = source.desc
  tempVar : c.scr.tempVar p = f.scr.tempVar p
  full : (f.tpl.node p).elemNo = (source.children p).length
  elemNo : ∀ q, (c.tpl.node q).elemNo = (f.tpl.node q).elemNo
  blank : ∀ q, Beyond p (f.scr.tempVar p) q → f.tpl.elem q = {} ∧ f.tpl.node q = {}
  blank_clone : ∀ q, Beyond p (f.scr.tempVar p) q → c.tpl.elem q = {} ∧ c.tpl.node q = {}
  unused : Unused c
  para : c.para = ⟨p, p⟩

/-- Only what is at, or below, a place differs. -/
structure Within (loc : Loc) (t t' : Template) : Prop where
  desc : t'.desc = t.desc
  same : ∀ q, (∀ s, q ≠ s ++ loc) → t'.node q = t.node q ∧ t'.elem q = t.elem q

theorem OnlyAt.within {π : Type} {f f₁ : Frame π} (h : OnlyAt loc f f₁) :
    Within loc f.tpl f₁.tpl :=
  ⟨h.desc, fun q hq => ⟨h.node q (hq []), h.elem q (hq [])⟩⟩

theorem Within.trans {t t₁ t₂ : Template} (h : Within loc t t₁) (h' : Within loc t₁ t₂) :
    Within loc t t₂ := by
  refine ⟨h'.desc.trans h.desc, fun q hq => ?_⟩
  obtain ⟨hnode, helem⟩ := h.same q hq
  obtain ⟨hnode', helem'⟩ := h'.same q hq
  exact ⟨hnode'.trans hnode, helem'.trans helem⟩

/-- Coming through the structure of an element changes only what is below it. -/
theorem Visits.within {π : Type} {ops : DealOps π} {f f' : Frame π} (hlocal : Local ops)
    (h : Visits ops loc f f') : Within loc f.tpl f'.tpl := by
  refine ⟨(h.keeps hlocal.tame).desc, fun q hq => h.frame hlocal (.inl ?_)⟩
  rintro ⟨s, j, _, rfl⟩
  exact hq (s ++ [j]) (by simp)

/-- A place at, or below, a later element is not one at, or below, this one. -/
theorem Beyond.ne {q : Loc} (h : Beyond p (k + 1) q) (s : Loc) : q ≠ s ++ k :: p := by
  rintro rfl
  exact not_beyond_next p k s h

/-- Both walks go on to the next element, with the same nodes entered. -/
theorem Follows.after (h : Follows source p f c) (hk : f.scr.tempVar p = k)
    (hf : Within (k :: p) f.tpl f₁.tpl) (hc : Within (k :: p) c.tpl c₁.tpl)
    (hvar : f₁.scr.tempVar p = k + 1) (hvar_clone : c₁.scr.tempVar p = k + 1)
    (hunused : Unused c₁) (hpara : c₁.para = ⟨p, p⟩)
    (helemNo : ∀ s, (c₁.tpl.node (s ++ k :: p)).elemNo = (f₁.tpl.node (s ++ k :: p)).elemNo) :
    Follows source p f₁ c₁ where
  desc := hf.desc.trans h.desc
  desc_clone := hc.desc.trans h.desc_clone
  tempVar := hvar_clone.trans hvar.symm
  full := by
    rw [(hf.same p fun s hs => absurd (congrArg List.length hs) (by simp; omega)).1]
    exact h.full
  elemNo q := by
    by_cases hq : ∃ s, q = s ++ k :: p
    · obtain ⟨s, rfl⟩ := hq
      exact helemNo s
    · have hq : ∀ s, q ≠ s ++ k :: p := fun s hs => hq ⟨s, hs⟩
      rw [(hc.same q hq).1, (hf.same q hq).1]
      exact h.elemNo q
  blank q hq := by
    rw [hvar] at hq
    obtain ⟨hnode, helem⟩ := hf.same q hq.ne
    rw [hnode, helem]
    exact h.blank q (hk ▸ beyond_iff.2 (.inr hq))
  blank_clone q hq := by
    rw [hvar] at hq
    obtain ⟨hnode, helem⟩ := hc.same q hq.ne
    rw [hnode, helem]
    exact h.blank_clone q (hk ▸ beyond_iff.2 (.inr hq))
  unused := hunused
  para := hpara

/-- What is blank, and none of the elements of the original, is blank there too. -/
theorem Settled.blank {t : Template} {q : Loc} (h : Settled source t q) (hflag : Flagged created source)
    (hd : ∀ d, source.descOf q = some d → d.type.attr.subset = false) (hq : q ≠ [])
    (hnode : t.node q = {}) : source.node q = {} := by
  have helemNo := h.elemNo
  have hflag := hflag.node_flag q hq hd
  rw [hnode] at helemNo
  cases hn : source.node q with
  | mk elemNo flag =>
    rw [hn] at helemNo hflag
    exact congrArg₂ NodeData.mk helemNo hflag

theorem Settled.blank_elem {t : Template} {q : Loc} (h : Settled source t q)
    (hflag : Flagged created source) (hd : source.descOf q = none) (helem : t.elem q = {}) :
    source.elem q = {} := by
  have heq := h.elem
  rw [helem] at heq
  have hflag := hflag.elem_flag q hd
  calc source.elem q = { source.elem q with flag := 0 } := by rw [← hflag]
    _ = {} := heq

/-- The element that counts another one is found again: an element that is no structure
    gets in the clone all that it has in the original. -/
theorem follow_leaf (hflag : Flagged created source) (h : Follows source p f c)
    (cur : Current f p k d) (hsub : d.type.attr.subset = false)
    (hproc : createTemplateProcFunc (k :: p) f = some (ret, f₁)) (hret : 0 ≤ ret)
    (hsettled : ∀ s, Settled source f₁.tpl (s ++ k :: p)) :
    ∃ c₁, cloneTemplateProcFunc source sourceIndex (k :: p) c = some (0, c₁) ∧
      Follows source p (f₁.next p) (c₁.next p) ∧ ∀ s, Restored source c₁.tpl (s ++ k :: p) := by
  obtain ⟨honly, hnode, hdefine⟩ := createProcFunc_spec hproc cur.desc
  have hdefine := hdefine hret
  have hdesc_clone := h.desc_clone.trans h.desc.symm
  have hd : c.tpl.descOf (k :: p) = some d := (Template.descOf_congr hdesc_clone _).trans cur.desc
  have hds : source.descOf (k :: p) = some d :=
    (Template.descOf_congr h.desc _).symm.trans cur.desc
  have hat : Beyond p (f.scr.tempVar p) (k :: p) := cur.tempVar ▸ beyond_self p k
  have hvar : c.scr.tempVar c.para.cloneNode = k := by
    rw [h.para]
    exact h.tempVar.trans cur.tempVar
  -- The counting element is the one of the original.
  have hself : { source.elem (k :: p) with define := (f₁.tpl.elem (k :: p)).define } =
      source.elem (k :: p) := by
    have hsettled := congrArg ElemData.define (hsettled []).elem
    rw [← show (source.elem (k :: p)).define = (f₁.tpl.elem (k :: p)).define from hsettled]
  have hproc_clone : cloneTemplateProcFunc source sourceIndex (k :: p) c = some (0,
      ((c.setTpl (c.tpl.setElem (k :: p) (source.elem (k :: p)))).setIndex (k :: p)
        (sourceIndex (k :: p))).setLimit (k :: p) (sourceIndex (k :: p))) := by
    simp only [cloneTemplateProcFunc, hd, hvar]
    rw [h.para]
    by_cases hdef : d.type.attr.define = true
    · rw [if_pos hdef] at hdefine
      obtain ⟨define, hcount, hdefine⟩ := hdefine
      rw [hdefine] at hself
      rw [if_pos hdef]
      simp only [countElem_congr hdesc_clone h.elemNo, hcount, hself]
    · rw [if_neg hdef, (h.blank _ hat).1] at hdefine
      rw [hdefine] at hself
      rw [if_neg hdef, (h.blank_clone _ hat).1]
      simp only [hself]
  obtain ⟨honly_clone, hnode_clone, hpara, hscr⟩ := cloneProcFunc_spec hproc_clone hd
  refine ⟨_, hproc_clone, ?_, fun s => ?_⟩
  · refine h.after cur.tempVar honly.within honly_clone.within ?_ ?_ ?_ (hpara.trans h.para) ?_
    · rw [tempVar_next, (cur.of_keeps honly.keeps).tempVar]
    · rw [tempVar_next]
      exact congrArg (· + 1) (h.tempVar.trans cur.tempVar)
    · refine h.unused.congr rfl fun q e he hsubq => hscr q ?_
      rintro rfl
      obtain rfl := Option.some.inj (hd.symm.trans he)
      rw [hsub] at hsubq
      cases hsubq
    · intro s
      refine (h.elemNo _).trans (congrArg NodeData.elemNo ?_)
      by_cases hs : s = []
      · rw [hs]
        exact hnode.symm
      · exact (honly.node _ fun heq => hs (List.append_left_eq_self.1 heq)).symm
  · have hbeyond : Beyond p (f.scr.tempVar p) (s ++ k :: p) :=
      cur.tempVar ▸ beyond_iff.2 (.inl ⟨s, rfl⟩)
    by_cases hs : s = []
    · rw [hs]
      refine ⟨Function.update_self .., ?_⟩
      have hleaf : ∀ e, source.descOf (k :: p) = some e → e.type.attr.subset = false := by
        intro e he
        rwa [← Option.some.inj (hds.symm.trans he)]
      have hblank := (hsettled []).blank hflag hleaf (List.cons_ne_nil _ _)
        (hnode.trans (h.blank _ hat).2)
      exact (h.blank_clone _ hat).2.trans hblank.symm
    · -- There is nothing below the element.
      have hne : s ++ k :: p ≠ k :: p := fun heq => hs (List.append_left_eq_self.1 heq)
      have hnone : source.descOf (s ++ k :: p) = none := Template.descOf_below _ hds hsub hs
      obtain ⟨helem_clone, hnode_clone⟩ := h.blank_clone _ hbeyond
      obtain ⟨helem, hnode⟩ := h.blank _ hbeyond
      constructor
      · rw [(hsettled s).blank_elem hflag hnone ((honly.elem _ hne).trans helem)]
        exact (honly_clone.elem _ hne).trans helem_clone
      · rw [(hsettled s).blank hflag (fun e he => by rw [hnone] at he; cases he) (by simp)
          ((honly.node _ hne).trans hnode)]
        exact (honly_clone.node _ hne).trans hnode_clone

/-- What the original has, the clone has, at and below an element and at the next
    ones. -/
theorem restored_beyond {t : Template} (hat : ∀ s, Restored source t (s ++ k :: p))
    (hnext : ∀ q, Beyond p (k + 1) q → Restored source t q) {q : Loc} (hq : Beyond p k q) :
    Restored source t q := by
  rcases beyond_iff.1 hq with ⟨s, rfl⟩ | hq
  · exact hat s
  · exact hnext q hq

/-- What the original and the creation have at an element when all is done, they had
    when it was left. -/
theorem Settled.at_left (rest : Visits createTemplateOps p f₁ f') (hvar : f₁.scr.tempVar p = k + 1)
    (h : ∀ q, Beyond p k q → Settled source f'.tpl q) (s : Loc) :
    Settled source f₁.tpl (s ++ k :: p) := by
  obtain ⟨helem, helemNo⟩ := h (s ++ k :: p) (beyond_iff.2 (.inl ⟨s, rfl⟩))
  obtain ⟨hnode', helem'⟩ := rest.frame_left createTemplateOps_local hvar s
  exact ⟨helem' ▸ helem, hnode' ▸ helemNo⟩

/-- What was restored at an element when it was left, is when all is done. -/
theorem Restored.at_end (rest : Visits (cloneTemplateOps source sourceIndex) p c₁ c')
    (hvar : c₁.scr.tempVar p = k + 1) (h : ∀ s, Restored source c₁.tpl (s ++ k :: p)) (s : Loc) :
    Restored source c'.tpl (s ++ k :: p) := by
  obtain ⟨hnode', helem'⟩ := rest.frame_left cloneTemplateOps_local hvar s
  exact ⟨helem'.trans (h s).elem, hnode'.trans (h s).node⟩

/-- The current element of the creation is that of the cloning. -/
theorem Follows.current (h : Follows source p f c) (cur : Current f p k d) : Current c p k d := by
  refine ⟨h.tempVar.trans cur.tempVar, ?_,
    (Template.descOf_congr (h.desc_clone.trans h.desc.symm) _).trans cur.desc⟩
  rw [h.elemNo]
  exact cur.lt

/-- The frame of the cloning in a structure that it enters. -/
def entered (source : Template) (p : Loc) (k : Nat) (c : Frame ClonePara) : Frame ClonePara :=
  ((c.setTpl (c.tpl.setNode (k :: p) (source.node (k :: p)))).setPara ⟨k :: p, k :: p⟩).setTempVar
    (k :: p) 0

theorem Follows.enter (h : Follows source p f c) (cur : Current f p k d) :
    cloneTemplateEnterstruct source (k :: p) c = some (0, entered source p k c) := by
  have hvar := h.tempVar.trans cur.tempVar
  simp only [cloneTemplateEnterstruct, h.para, hvar, entered]

theorem Follows.exit (h : Follows source (k :: p) f c) :
    cloneTemplateExitstruct (k :: p) (c.incIndex (k :: p)) =
      some (0, (c.incIndex (k :: p)).setPara ⟨p, p⟩) := by
  have hpara : (c.incIndex (k :: p)).para = ⟨k :: p, k :: p⟩ := h.para
  rw [cloneTemplateExitstruct, hpara]
  rfl

theorem entered_onlyAt (source : Template) (p : Loc) (k : Nat) (c : Frame ClonePara) :
    OnlyAt (k :: p) c (entered source p k c) :=
  ⟨rfl, fun _ hq => Function.update_of_ne hq _ _, fun _ _ => rfl,
    fun _ hq => Function.update_of_ne hq _ _⟩

theorem Unused.entered (h : Unused c) : Unused (entered source p k c) :=
  h.congr rfl fun _ _ _ _ => ⟨rfl, rfl⟩

theorem inArray_append {t : Template} (h : t.InArray p) (s : Loc) : t.InArray (s ++ p) := by
  induction s with
  | nil => exact h
  | cons j s ih => exact .inr ih

/-- An array is entered and left at once by the cloning: it gets its node, and if nothing
    is lost, that is all there is. -/
theorem follow_array (hlost : NothingLost source) (h : Follows source p f c) (cur : Current f p k d)
    (hsub : d.type.attr.subset = true) (harray : d.type.attr.array = true)
    (hwithin : Within (k :: p) f.tpl f₁.tpl) (hvar : f₁.scr.tempVar p = k + 1)
    (hsettled : ∀ s, Settled source f₁.tpl (s ++ k :: p)) :
    Follows source p f₁ (((entered source p k c).setPara ⟨p, p⟩).next p) ∧
      ∀ s, Restored source (entered source p k c).tpl (s ++ k :: p) := by
  have hds : source.descOf (k :: p) = some d := (Template.descOf_congr h.desc _).symm.trans cur.desc
  have hin : source.InArray (k :: p) := .inl ⟨d, hds, harray⟩
  have honly := entered_onlyAt source p k c
  have hrestored : ∀ s, Restored source (entered source p k c).tpl (s ++ k :: p) := by
    intro s
    have hbeyond : Beyond p (f.scr.tempVar p) (s ++ k :: p) :=
      cur.tempVar ▸ beyond_iff.2 (.inl ⟨s, rfl⟩)
    obtain ⟨helem, hnode⟩ := h.blank_clone _ hbeyond
    cases s with
    | nil => exact ⟨helem.trans (hlost.subset _ d hds hsub).symm, Function.update_self ..⟩
    | cons j s =>
      have hne : j :: s ++ k :: p ≠ k :: p := fun heq =>
        List.cons_ne_nil j s (List.append_left_eq_self.1 heq)
      obtain ⟨hselem, hsnode⟩ := hlost.below j (s ++ k :: p) (inArray_append hin s)
      exact ⟨helem.trans hselem.symm, (honly.node _ hne).trans (hnode.trans hsnode.symm)⟩
  refine ⟨h.after cur.tempVar hwithin honly.within hvar ?_ h.unused.entered rfl fun s => ?_, hrestored⟩
  · rw [tempVar_next]
    exact congrArg (· + 1) ((h.current cur).of_keeps honly.keeps).tempVar
  · rw [← (hsettled s).elemNo, ← (hrestored s).node]
    rfl

/-- The cloning follows the creation into a structure. -/
theorem follow_down (h : Follows source p f c) (cur : Current f p k d)
    (henter : createTemplateEnterstruct (k :: p) f = some (ret, f₁))
    (helemNo : (source.node (k :: p)).elemNo = (f₁.tpl.node (k :: p)).elemNo) :
    Follows source (k :: p) (f₁.setTempVar (k :: p) 0)
      ((entered source p k c).setTempVar (k :: p) 0) := by
  obtain ⟨honly, hfull, _⟩ := createEnterstruct_spec henter
  have honly_clone := entered_onlyAt source p k c
  have hbelow : ∀ q, Beyond (k :: p) 0 q → q ≠ k :: p ∧ Beyond p (f.scr.tempVar p) q := by
    intro q hq
    obtain ⟨s, hs, rfl⟩ := beyond_down.1 hq
    exact ⟨fun heq => hs (List.append_left_eq_self.1 heq),
      cur.tempVar ▸ beyond_iff.2 (.inl ⟨s, rfl⟩)⟩
  refine ⟨honly.desc.trans h.desc, h.desc_clone, ?_, ?_, fun q => ?_, fun q hq => ?_, fun q hq => ?_,
    h.unused.entered, rfl⟩
  · rw [tempVar_setTempVar, tempVar_setTempVar]
  · rw [← Template.children_congr h.desc]
    exact hfull
  · by_cases hq : q = k :: p
    · rw [hq, Frame.tpl_setTempVar, Frame.tpl_setTempVar, ← helemNo]
      exact congrArg NodeData.elemNo (Function.update_self ..)
    · rw [Frame.tpl_setTempVar, Frame.tpl_setTempVar, honly.node q hq, honly_clone.node q hq]
      exact h.elemNo q
  · rw [tempVar_setTempVar] at hq
    obtain ⟨hne, hbeyond⟩ := hbelow q hq
    rw [Frame.tpl_setTempVar, honly.node q hne, honly.elem q hne]
    exact h.blank q hbeyond
  · rw [tempVar_setTempVar] at hq
    obtain ⟨hne, hbeyond⟩ := hbelow q hq
    rw [Frame.tpl_setTempVar, honly_clone.node q hne, honly_clone.elem q hne]
    exact h.blank_clone q hbeyond

/-- The cloning follows the creation out of a structure. -/
theorem follow_up (hlost : NothingLost source) (h : Follows source p f c) (cur : Current f p k d)
    (hsub : d.type.attr.subset = true) (hwithin : Within (k :: p) f.tpl f₁.tpl)
    (hvar : f₁.scr.tempVar p = k + 1) {f₂ : Frame CreatePara} (hnode : f₁.tpl.node = f₂.tpl.node)
    {c₂ : Frame ClonePara}
    (inside : Visits (cloneTemplateOps source sourceIndex) (k :: p)
      ((entered source p k c).setTempVar (k :: p) 0) c₂)
    (h₂ : Follows source (k :: p) f₂ c₂)
    (hbelow : ∀ q, Beyond (k :: p) 0 q → Restored source c₂.tpl q) :
    Follows source p f₁ (((c₂.incIndex (k :: p)).setPara ⟨p, p⟩).leave p (k :: p)) ∧
      ∀ s, Restored source c₂.tpl (s ++ k :: p) := by
  have hds : source.descOf (k :: p) = some d := (Template.descOf_congr h.desc _).symm.trans cur.desc
  have hd₂ : c₂.tpl.descOf (k :: p) = some d := (Template.descOf_congr h₂.desc_clone _).trans hds
  have honly := entered_onlyAt source p k c
  have hinside := inside.within cloneTemplateOps_local
  constructor
  · refine h.after cur.tempVar hwithin (honly.within.trans hinside) hvar ?_
      (h₂.unused.leave hd₂ hsub _).2 rfl fun s => ?_
    · rw [tempVar_leave]
      have hkeeps := inside.keeps cloneTemplateOps_local.tame
      have hvar₂ := hkeeps.tempVar p (Nat.lt_succ_self _)
      have hvar₁ := (keeps_setTempVar (k :: p) (entered source p k c) 0).tempVar p (Nat.lt_succ_self _)
      have hvar₀ := ((h.current cur).of_keeps honly.keeps).tempVar
      exact congrArg (· + 1) ((hvar₂.trans hvar₁).trans hvar₀)
    · rw [hnode]
      exact h₂.elemNo _
  · intro s
    cases s with
    | nil =>
      have hat : Beyond p (f.scr.tempVar p) (k :: p) := cur.tempVar ▸ beyond_self p k
      obtain ⟨hnode₂, helem₂⟩ := inside.frame_self cloneTemplateOps_local
      refine ⟨helem₂.trans ?_, hnode₂.trans (Function.update_self ..)⟩
      exact (h.blank_clone _ hat).1.trans (hlost.subset _ d hds hsub).symm
    | cons j s => exact hbelow _ (beyond_down.2 ⟨j :: s, List.cons_ne_nil j s, rfl⟩)

/-- Where the creation went through a node, the cloning does, and if nothing is lost, it
    gives the clone all that the original has there. -/
theorem cloneVisits_follows (hflag : Flagged created source) (hlost : NothingLost source)
    (h : Visits createTemplateOps p f f') (hp : ¬ source.InArray p) (hfollows : Follows source p f c)
    (hsettled : ∀ q, Beyond p (f.scr.tempVar p) q → Settled source f'.tpl q) :
    ∃ c', Visits (cloneTemplateOps source sourceIndex) p c c' ∧ Follows source p f' c' ∧
      ∀ q, Beyond p (f.scr.tempVar p) q → Restored source c'.tpl q := by
  induction h generalizing c with
  | @done p f hend =>
    refine ⟨c, .done ?_, hfollows, fun q hq => ?_⟩
    · rw [hfollows.tempVar, hfollows.elemNo]
      exact hend
    · obtain ⟨s, j, hj, rfl⟩ := hq
      have hlen : (source.children p).length ≤ j := by
        rw [← hfollows.full, ← hend]
        exact hj
      have hnone := (source.descOf_beyond p hlen s).1
      have hbeyond : Beyond p (f.scr.tempVar p) (s ++ j :: p) := ⟨s, j, hj, rfl⟩
      obtain ⟨helem, hnode⟩ := hfollows.blank _ hbeyond
      obtain ⟨helem_clone, hnode_clone⟩ := hfollows.blank_clone _ hbeyond
      have hs := hsettled _ hbeyond
      have hblank := hs.blank hflag (fun e he => by rw [hnone] at he; cases he) (by simp) hnode
      exact ⟨helem_clone.trans (hs.blank_elem hflag hnone helem).symm, hnode_clone.trans hblank.symm⟩
  | skip _ htest => cases htest
  | @leaf p f f₁ f' k d ret cur _ hsub hops hproc hret rest ih =>
    rw [cur.tempVar] at hsettled ⊢
    have hvar : (f₁.next p).scr.tempVar p = k + 1 := by
      rw [tempVar_next, (cur.of_keeps (createTemplateOps_local.procFunc hproc).keeps).tempVar]
    have hsettled₁ := Settled.at_left rest hvar hsettled
    obtain ⟨c₁, hproc_clone, hfollows₁, hrestored⟩ :=
      follow_leaf hflag hfollows cur hsub hproc hret hsettled₁
    obtain ⟨c', hvisits, hfollows', hnext⟩ := ih hp hfollows₁ fun q hq =>
      hsettled q (beyond_iff.2 (.inr (hvar ▸ hq)))
    rw [hvar] at hnext
    refine ⟨c', .leaf (hfollows.current cur) rfl hsub hops hproc_clone (Int.le_refl 0) hvisits,
      hfollows', fun q => restored_beyond ?_ hnext⟩
    exact Restored.at_end hvisits (hfollows₁.tempVar.trans hvar) hrestored
  | empty _ _ _ henter _ hnone =>
    have hlimit := (createEnterstruct_spec henter).2.2
    rw [hnone.2] at hlimit
    exact absurd hlimit (Int.lt_irrefl 0)
  | @pass p f f₁ f₂ f₃ f' k d ret ret' cur _ hsub henter hret hsome inside hvar₂ hexit hret' hdesc rest
      ihinside ih =>
    rw [cur.tempVar] at hsettled ⊢
    obtain ⟨honly, _, _⟩ := createEnterstruct_spec henter
    obtain ⟨honly₃, hnode₃, hleave⟩ := createExitstruct_spec hexit
    -- The creation goes through a structure once.
    rw [afterPass_leave (Int.le_of_eq (hleave hret').symm)] at rest ih
    have hinside := inside.within createTemplateOps_local
    have hwithin : Within (k :: p) f.tpl (f₃.leave p (k :: p)).tpl :=
      (honly.within.trans hinside).trans honly₃.within
    have hvar := honly₃.tempVar_leave hvar₂
    have hsettled₃ := Settled.at_left rest hvar hsettled
    cases harray : d.type.attr.array with
    | true =>
      obtain ⟨hfollows₁, hrestored⟩ :=
        follow_array hlost hfollows cur hsub harray hwithin hvar hsettled₃
      obtain ⟨c', hvisits, hfollows', hnext⟩ := ih hp hfollows₁ fun q hq =>
        hsettled q (beyond_iff.2 (.inr (hvar ▸ hq)))
      rw [hvar] at hnext
      refine ⟨c', .empty (hfollows.current cur) rfl hsub (hfollows.enter cur) (Int.le_refl 0)
        ⟨harray, ?_⟩ rfl (Int.le_refl 0) hvisits, hfollows', fun q => restored_beyond ?_ hnext⟩
      · exact (hfollows.unused _ d (hfollows.current cur).desc hsub).1
      · exact Restored.at_end hvisits (hfollows₁.tempVar.trans hvar) hrestored
    | false =>
      have hds : source.descOf (k :: p) = some d :=
        (Template.descOf_congr hfollows.desc _).symm.trans cur.desc
      have hnode : (f₃.leave p (k :: p)).tpl.node = f₂.tpl.node := by
        funext q
        by_cases hq : q = k :: p
        · rw [hq]
          exact hnode₃
        · exact honly₃.node q hq
      have hfollows₁ := follow_down hfollows cur henter (by
        rw [← List.nil_append (k :: p), (hsettled₃ []).elemNo, List.nil_append, hnode]
        exact congrArg NodeData.elemNo (inside.frame_self createTemplateOps_local).1)
      obtain ⟨c₂, inside_clone, hfollows₂, hbelow⟩ := ihinside (not_inArray_cons hp hds harray)
        hfollows₁ fun q hq => by
          rw [tempVar_setTempVar] at hq
          obtain ⟨s, hs, rfl⟩ := beyond_down.1 hq
          obtain ⟨helem, helemNo⟩ := hsettled₃ s
          refine ⟨helem.trans ?_, hnode ▸ helemNo⟩
          rw [tpl_leave, honly₃.elem _ fun heq => hs (List.append_left_eq_self.1 heq)]
          rfl
      rw [tempVar_setTempVar] at hbelow
      obtain ⟨hfollows₃, hrestored⟩ :=
        follow_up hlost hfollows cur hsub hwithin hvar hnode inside_clone hfollows₂ hbelow
      obtain ⟨c', hvisits, hfollows', hnext⟩ := ih hp hfollows₃ fun q hq =>
        hsettled q (beyond_iff.2 (.inr (hvar ▸ hq)))
      rw [hvar] at hnext
      have hd₂ : c₂.tpl.descOf (k :: p) = some d :=
        (Template.descOf_congr hfollows₂.desc_clone _).trans hds
      have hleave := (hfollows₂.unused.leave hd₂ hsub ⟨p, p⟩).1
      have hvar_clone := (((hfollows.current cur).of_keeps (entered_onlyAt source p k c).keeps).of_keeps
        (keeps_setTempVar _ _ 0)).of_keeps (inside_clone.keeps cloneTemplateOps_local.tame)
      have hatend := Restored.at_end hvisits (hfollows₃.tempVar.trans hvar) hrestored
      rw [← hleave] at hvisits
      refine ⟨c', .pass (hfollows.current cur) rfl hsub (hfollows.enter cur) (Int.le_refl 0) ?_
        inside_clone hvar_clone.tempVar hfollows₂.exit (Int.le_refl 0) hd₂ hvisits, hfollows',
        fun q => restored_beyond hatend hnext⟩
      rw [harray]
      rintro ⟨h, _⟩
      cases h

/-! ## Clones -/

section Clones

variable {desc : List ElemDesc} {t : Template}

/-- A cloning goes through the root of a blank template, to which it gives what the
    original has of it. -/
theorem Clones.visits {clone : Template} (h : Clones t sourceIndex clone) :
    ∃ c c', c.tpl = (Template.blank t.desc).setNode [] (t.node []) ∧ Unused c ∧
      Visits (cloneTemplateOps t sourceIndex) [] c c' ∧ c'.tpl = clone := by
  obtain ⟨ret, c', hret, hconverts, rfl⟩ := h
  obtain ⟨r, c₁, c₂, hstart, _, hvisits, hfinish⟩ :=
    visits_of_converts cloneTemplateOps_local.tame hconverts hret fun hstart => by
      obtain ⟨_, rfl⟩ := Prod.mk.inj (Option.some.inj hstart)
      exact tempVar_setTempVar _ [] 0
  obtain ⟨_, rfl⟩ := Prod.mk.inj (Option.some.inj hstart)
  obtain ⟨_, rfl⟩ := Prod.mk.inj (Option.some.inj hfinish)
  exact ⟨_, c₂, rfl, fun _ _ _ _ => ⟨rfl, rfl⟩, hvisits, rfl⟩

/-- A template that is its own clone loses nothing by cloning. -/
theorem nothingLost_of_clones (h : Clones t sourceIndex t) : NothingLost t := by
  obtain ⟨c, c', htpl, hunused, hvisits, rfl⟩ := h.visits
  have hdesc : c.tpl.desc = c'.tpl.desc := by
    rw [htpl]
    rfl
  obtain ⟨_, hsubset, hbelow⟩ := cloneVisits_lost hvisits hunused id
  constructor
  · intro loc d hd hsub
    rw [hsubset loc d ((Template.descOf_congr hdesc loc).trans hd) hsub, htpl]
    rfl
  · intro k p hp
    obtain ⟨helem, hnode⟩ := hbelow k p ((inArray_congr hdesc p).2 hp)
    rw [helem, hnode, htpl]
    exact ⟨rfl, Template.node_setNode_of_ne (List.cons_ne_nil k p) _⟩

/-- A template that loses nothing by cloning is its own clone. -/
theorem clones_of_nothingLost (hcreated : Created desc created) (hflag : Flagged created t)
    (hlost : NothingLost t) : Clones t sourceIndex t := by
  have hdesc := hflag.desc.trans hcreated.desc
  obtain ⟨f, f', hbegin, hvisits, rfl⟩ := hcreated.visits
  -- The cloning starts in a blank template, with the elements of the root.
  let c : Frame ClonePara := (((⟨.blank t.desc, .clean, ⟨[], []⟩⟩ : Frame ClonePara).setTempVar [] 0).setTpl
    ((Template.blank t.desc).setNode [] (t.node [])))
  have hroot : (t.node []).elemNo = (f.tpl.node []).elemNo := by
    rw [hflag.elemNo, (hvisits.frame_self createTemplateOps_local).1]
  have hblank : ∀ {desc} {n} {q : Loc}, Beyond [] 0 q →
      ((Template.blank desc).setNode [] n).elem q = {} ∧
        ((Template.blank desc).setNode [] n).node q = {} := by
    rintro desc n _ ⟨s, j, _, rfl⟩
    exact ⟨rfl, Template.node_setNode_of_ne (by simp) _⟩
  have hfollows : Follows t [] f c := by
    refine ⟨?_, rfl, ?_, ?_, fun q => ?_, fun q hq => ?_, fun q hq => ?_, fun _ _ _ _ => ⟨rfl, rfl⟩,
      rfl⟩
    · rw [hbegin.tpl, hdesc]
      rfl
    · rw [hbegin.tempVar]
      exact tempVar_setTempVar _ [] 0
    · rw [hbegin.tpl, Template.node_setNode_self, ← hdesc]
      rfl
    · by_cases hq : q = []
      · rw [hq, ← hroot]
        exact congrArg NodeData.elemNo (Template.node_setNode_self _ [] _)
      · rw [hbegin.tpl]
        exact congrArg NodeData.elemNo ((Template.node_setNode_of_ne hq _).trans
          (Template.node_setNode_of_ne hq _).symm)
    · rw [hbegin.tempVar] at hq
      rw [hbegin.tpl]
      exact hblank hq
    · rw [hbegin.tempVar] at hq
      exact hblank hq
  obtain ⟨c', hvisits_clone, _, hrestored⟩ : ∃ c', Visits (cloneTemplateOps t sourceIndex) [] c c' ∧
      Follows t [] f' c' ∧ ∀ q, Beyond [] (f.scr.tempVar []) q → Restored t c'.tpl q :=
    cloneVisits_follows hflag hlost hvisits id hfollows fun q _ => ⟨hflag.elem q, hflag.elemNo q⟩
  have htpl : c'.tpl = t := by
    have hkeeps := (hvisits_clone.keeps cloneTemplateOps_local.tame).desc
    obtain ⟨hnode, helem⟩ := hvisits_clone.frame_self cloneTemplateOps_local
    have hat : ∀ q, Restored t c'.tpl q := by
      intro q
      cases hq : q.reverse with
      | nil =>
        obtain rfl := List.reverse_eq_nil_iff.1 hq
        have hsettled : Settled t f'.tpl [] := ⟨hflag.elem [], hflag.elemNo []⟩
        have hnone : t.elem [] = {} :=
          hsettled.blank_elem hflag rfl (hcreated.blank_outside (q := []) rfl).1
        exact ⟨helem.trans hnone.symm, hnode.trans (Template.node_setNode_self _ [] _)⟩
      | cons k s =>
        obtain rfl : q = s.reverse ++ [k] := by
          rw [← List.reverse_reverse q, hq, List.reverse_cons]
        exact hrestored _ ⟨s.reverse, k, by rw [hbegin.tempVar]; exact Nat.zero_le k, rfl⟩
    exact Template.ext hkeeps (funext fun q => (hat q).node) (funext fun q => (hat q).elem)
  exact ⟨0, c', Int.le_refl 0, converts_of_visits rfl (Int.le_refl 0) hvisits_clone rfl, htpl⟩

/-- Nothing of a template without structures is lost. -/
theorem nothingLost_of_flat (hcreated : Created desc created) (hflag : Flagged created t)
    (hflat : ∀ d ∈ desc, d.type.attr.subset = false) : NothingLost t := by
  have hdesc : t.desc = desc := hflag.desc.trans hcreated.desc
  have hflat' : ∀ d ∈ t.desc, d.type.attr.subset = false := hdesc ▸ hflat
  constructor
  · intro loc d hd hsub
    obtain ⟨k, -, hk⟩ := t.descOf_flat hflat' hd
    rw [hflat' d (List.mem_of_getElem? hk)] at hsub
    cases hsub
  · intro k p hp
    have hnone : t.descOf (k :: p) = none := by
      rcases hd : t.descOf (k :: p) with _ | d
      · rfl
      · obtain ⟨j, hj, -⟩ := t.descOf_flat hflat' hd
        obtain ⟨-, rfl⟩ := List.cons.inj hj
        exact hp.elim
    obtain ⟨helem, hnode⟩ := hcreated.blank_outside
      ((Template.descOf_congr hflag.desc _).symm.trans hnone)
    have hsettled : Settled t created (k :: p) := ⟨hflag.elem _, hflag.elemNo _⟩
    exact ⟨hsettled.blank_elem hflag hnone helem,
      hsettled.blank hflag (fun d hd => by rw [hnone] at hd; cases hd) (List.cons_ne_nil k p)
        (hnode (List.cons_ne_nil k p))⟩

/-- A created template, with whatever flags, is interchangeable with its clone exactly if
    its structures and arrays have nothing that cloning loses. -/
theorem clone_interchangeable_iff (hcreated : Created desc created) (hflag : Flagged created t)
    (sourceIndex : Loc → Int) : Interchangeable sourceIndex t ↔ NothingLost t := by
  constructor
  · rintro ⟨clone, hclones, rfl, _⟩
    exact nothingLost_of_clones hclones
  · intro hlost
    exact ⟨t, clones_of_nothingLost hcreated hflag hlost, rfl, fun _ _ _ _ _ _ => Iff.rfl⟩

/-- A template of two integers is interchangeable with its clone. -/
theorem clone_interchangeable_flat :
    ∃ t, Created [intElem 'a', intElem 'b'] t ∧ Interchangeable (fun _ => 0) t := by
  obtain ⟨t, hcreated⟩ : ∃ t, Created [intElem 'a', intElem 'b'] t :=
    ⟨_, 0, _, Int.le_refl 0, ⟨3, rfl⟩, rfl⟩
  exact ⟨t, hcreated, (clone_interchangeable_iff hcreated hcreated.flagged _).2
    (nothingLost_of_flat hcreated hcreated.flagged (by decide))⟩

/-- The clone of a template with a structure in it is another template: the structure
    has its offset and size in the original alone. -/
theorem clone_not_interchangeable : ¬ ∀ (desc : List ElemDesc) (created t : Template)
    (sourceIndex : Loc → Int), Created desc created → Flagged created t →
      Interchangeable sourceIndex t := by
  intro h
  let nested : List ElemDesc := [intElem 'a', ⟨['s'], .substruct, 0, [intElem 'b'], none, none⟩]
  obtain ⟨t, hcreated, helem⟩ :
      ∃ t, Created nested t ∧ t.elem [1] = { offset := 4, size := 4 } :=
    ⟨_, ⟨0, _, Int.le_refl 0, ⟨6, rfl⟩, rfl⟩, by decide⟩
  obtain ⟨clone, hclones, rfl, _⟩ := h nested t t (fun _ => 0) hcreated hcreated.flagged
  obtain ⟨hsubset, _⟩ := nothingLost_of_clones hclones
  have hblank := hsubset [1] ⟨['s'], .substruct, 0, [intElem 'b'], none, none⟩
    (by rw [Template.descOf, Template.children, hcreated.desc]; rfl) rfl
  rw [helem] at hblank
  cases hblank

end Clones

end Cube.Struct
