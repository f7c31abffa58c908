import Cube.Struct.Passing

/-!
# Creating a template

`create_struct_template` walks over a template whose elements are blank and gives
each its offset, its size and the element that counts it; nodes get their elements
when they are entered.

* `Created.visits`: the creation goes through the root of a blank template.
* `Created.blank_outside`: what is no element of a template that was created is blank.
* `Created.flagless`: a template that was created has no flags.
-/

namespace Cube.Struct

open Lib

/-- The element that counts another one of a node, found by its name. It has to be of
    a type with a value. -/
def Template.countElem (t : Template) (p : Loc) (d : ElemDesc) : Outcome Loc :=
  match d.defName with
  | none => .fault
  | some name =>
    match t.elemByName p name with
    | .null => .error (-EINVAL)
    | .invalid => .fault
    | .elem loc =>
      match t.descOf loc with
      | none => .fault
      | some e => if e.type.attr.value then .done loc else .error (-EINVAL)

/-- The template of a description before it is walked over: all elements are blank. -/
def Template.blank (desc : List ElemDesc) : Template := ⟨desc, fun _ => {}, fun _ => {}⟩

/-- What the creation keeps, `struct create_para`: the offset of the next element. -/
structure CreatePara where
  currOffset : Int

/-- `_create_template_start`. -/
def createTemplateStart (f : Frame CreatePara) : Option (Int × Frame CreatePara) :=
  let tpl := f.tpl.setNode [] { f.tpl.node [] with elemNo := f.tpl.desc.length }
  some (0, (f.setTpl tpl).setPara ⟨0⟩)

/-- `_create_template_enterstruct`. -/
def createTemplateEnterstruct : Callback CreatePara := fun loc f =>
  match f.tpl.descOf loc with
  | none => none
  | some d =>
    let limit := if !d.type.attr.array ∧ d.size > 0 then d.size else 1
    let tpl := f.tpl.setNode loc { f.tpl.node loc with elemNo := (f.tpl.children loc).length }
    let tpl := tpl.setElem loc { f.tpl.elem loc with offset := f.para.currOffset }
    some (0, ((f.setTpl tpl).setPara ⟨0⟩).setLimit loc limit)

/-- `_create_template_exitstruct`. The element that counts an array is looked for from
    the root. -/
def createTemplateExitstruct : Callback CreatePara := fun loc f =>
  match f.tpl.descOf loc with
  | none => none
  | some d =>
    let e := f.tpl.elem loc
    let exit := fun (define : Option Loc) (nextOffset limit : Int) =>
      let tpl := f.tpl.setElem loc { e with define := define, size := f.para.currOffset }
      some (0, (((f.setTpl tpl).setPara ⟨nextOffset⟩).setLimit loc limit).setIndex loc limit)
    if d.type.attr.array then
      if d.type.attr.define then
        match f.tpl.countElem [] d with
        | .fault => none
        | .error ret => some (ret, f)
        | .done define => exit (some define) (e.offset + pointerSize) 0
      else exit e.define (e.offset + pointerSize) 0
    else
      let limit := if d.size = 0 then 1 else d.size
      exit e.define (e.offset + f.para.currOffset * limit) limit

/-- The size of an element that is no structure. -/
def leafSize (d : ElemDesc) : Int :=
  if d.type.attr.pointer ∨ d.type.attr.array then pointerSize
  else if d.type.fixedElemsize < 0 then d.size
  else d.type.fixedElemsize

/-- `_namevalue_2_namelist`: an empty list in the place of none, and none in the place of one
    that does not end within 1024 names. -/
def namevalue2Namelist (names : Option NameList) : Option NameList :=
  let namelist := names.getD []
  if namelist.length < 1024 then some namelist else none

/-- The names of an element. -/
def leafNames (d : ElemDesc) : Option NameList :=
  if d.type.attr.namelist then namevalue2Namelist d.names else d.names

/-- `_create_template_proc_func`. -/
def createTemplateProcFunc : Callback CreatePara := fun loc f =>
  match loc, f.tpl.descOf loc with
  | k :: p, some d =>
    let e := f.tpl.elem (k :: p)
    let proc := fun (define : Option Loc) (ref : Option NameList) =>
      let tpl := f.tpl.setElem (k :: p) { e with
        offset := f.para.currOffset, size := leafSize d, ref := ref, define := define }
      some (0, (f.setTpl tpl).setPara ⟨f.para.currOffset + leafSize d⟩)
    if d.type.attr.define then
      match f.tpl.countElem p d with
      | .fault => none
      | .error ret => some (ret, f)
      | .done define => proc (some define) e.ref
    else proc e.define (leafNames d)
  | _, _ => none

/-- The functions of `create_struct_template`. -/
def createTemplateOps : DealOps CreatePara where
  start := createTemplateStart
  enterstruct := createTemplateEnterstruct
  exitstruct := createTemplateExitstruct
  procFunc := createTemplateProcFunc

/-- `create_struct_template` creates the template of the description. -/
def Created (desc : List ElemDesc) (t : Template) : Prop :=
  ∃ ret f, 0 ≤ ret ∧ Converts createTemplateOps ⟨.blank desc, .clean, ⟨0⟩⟩ ret f ∧ f.tpl = t

/-! ## What the functions do -/

section Congr

variable {t t' : Template} (hdesc : t'.desc = t.desc)
  (helemNo : ∀ p, (t'.node p).elemNo = (t.node p).elemNo)

include hdesc helemNo

theorem followName_congr (p : Loc) (names : List (List Char)) :
    t'.followName p names = t.followName p names := by
  induction names generalizing p with
  | nil => rw [Template.followName, Template.followName]
  | cons name names ih =>
    have hfound : t'.elemFromStruct p name = t.elemFromStruct p name := by
      rw [Template.elemFromStruct, Template.elemFromStruct, Template.children_congr hdesc, helemNo]
    rw [Template.followName, Template.followName, hfound]
    simp only [ih, Template.descOf_congr hdesc]

/-- An element is counted by the same one in templates that have entered the same
    nodes. -/
theorem countElem_congr (p : Loc) (d : ElemDesc) : t'.countElem p d = t.countElem p d := by
  have hname : ∀ name, t'.elemByName p name = t.elemByName p name := fun name => by
    rw [Template.elemByName.eq_def, Template.elemByName.eq_def]
    split
    · exact followName_congr hdesc helemNo _ _
    · exact followName_congr hdesc helemNo _ _
  simp only [Template.countElem, hname, Template.descOf_congr hdesc]

end Congr

variable {t : Template}

/-- The search for the element that counts another one fails with an error. -/
theorem countElem_error {p : Loc} {d : ElemDesc} {e : Int}
    (h : t.countElem p d = .error e) : e < 0 := by
  rw [Template.countElem] at h
  split at h
  · cases h
  split at h
  · obtain rfl := Outcome.error.inj h
    decide
  · cases h
  split at h
  · cases h
  split_ifs at h
  obtain rfl := Outcome.error.inj h
  decide

variable {loc p : Loc} {k : Nat} {f f₁ : Frame CreatePara} {ret : Int}

/-- A structure is entered: its node gets its elements, and its limit is positive. -/
theorem createEnterstruct_spec (h : createTemplateEnterstruct loc f = some (ret, f₁)) :
    OnlyAt loc f f₁ ∧ (f₁.tpl.node loc).elemNo = (f.tpl.children loc).length ∧
      0 < f₁.scr.limit loc := by
  rw [createTemplateEnterstruct] at h
  cases hd : f.tpl.descOf loc with
  | none => simp only [hd, reduceCtorEq] at h
  | some d =>
    simp only [hd] at h
    obtain ⟨_, rfl⟩ := Prod.mk.inj (Option.some.inj h)
    refine ⟨⟨rfl, fun q hq => Function.update_of_ne hq _ _, fun q hq => Function.update_of_ne hq _ _,
      fun _ _ => rfl⟩, by simp, ?_⟩
    rw [Frame.limit_setLimit]
    split_ifs with hsize
    · exact hsize.2
    · exact Int.one_pos

/-- A structure is left with the size of its elements, and an array with the element that counts
    it, if that is found. -/
theorem createExitstruct_cases (h : createTemplateExitstruct loc f = some (ret, f₁)) :
    (ret < 0 ∧ f₁ = f) ∨ ∃ d define limit, f.tpl.descOf loc = some d ∧
      (d.type.attr.array = true → d.type.attr.define = true →
        ∃ r, f.tpl.countElem [] d = .done r ∧ define = some r) ∧
      f₁ = (((f.setTpl (f.tpl.setElem loc
          { f.tpl.elem loc with define := define, size := f.para.currOffset })).setPara
        ⟨(f.tpl.elem loc).offset +
          if d.type.attr.array then pointerSize else f.para.currOffset * d.number⟩).setLimit loc
            limit).setIndex loc limit := by
  rw [createTemplateExitstruct] at h
  cases hd : f.tpl.descOf loc with
  | none => simp only [hd, reduceCtorEq] at h
  | some d =>
    simp only [hd] at h
    by_cases harray : d.type.attr.array = true
    · by_cases hdefine : d.type.attr.define = true
      · simp only [if_pos harray, if_pos hdefine] at h
        cases hcount : f.tpl.countElem [] d with
        | fault => simp only [hcount, reduceCtorEq] at h
        | error e =>
          simp only [hcount] at h
          obtain ⟨rfl, rfl⟩ := Prod.mk.inj (Option.some.inj h)
          exact .inl ⟨countElem_error hcount, rfl⟩
        | done define =>
          simp only [hcount] at h
          obtain ⟨_, rfl⟩ := Prod.mk.inj (Option.some.inj h)
          exact .inr ⟨d, _, _, rfl, fun _ _ => ⟨define, hcount, rfl⟩, by rw [if_pos harray]⟩
      · simp only [if_pos harray, if_neg hdefine] at h
        obtain ⟨_, rfl⟩ := Prod.mk.inj (Option.some.inj h)
        exact .inr ⟨d, _, _, rfl, fun _ hdef => absurd hdef hdefine, by rw [if_pos harray]⟩
    · simp only [if_neg harray] at h
      obtain ⟨_, rfl⟩ := Prod.mk.inj (Option.some.inj h)
      exact .inr ⟨d, _, _, rfl, fun harr _ => absurd harr harray, by rw [if_neg harray]; rfl⟩

/-- A structure is left: only its element is changed, and its index then is its limit. -/
theorem createExitstruct_spec (h : createTemplateExitstruct loc f = some (ret, f₁)) :
    OnlyAt loc f f₁ ∧ f₁.tpl.node loc = f.tpl.node loc ∧
      (0 ≤ ret → f₁.scr.index loc = f₁.scr.limit loc) := by
  rcases createExitstruct_cases h with ⟨hneg, rfl⟩ | ⟨d, define, limit, -, -, rfl⟩
  · exact ⟨.refl _ _, rfl, fun hret => absurd hret (Int.not_le.2 hneg)⟩
  · exact ⟨⟨rfl, fun _ _ => rfl, fun q hq => Function.update_of_ne hq _ _, fun _ _ => rfl⟩, rfl,
      fun _ => by simp⟩

/-- An element that is no structure is put at the current offset, with the element that counts it,
    if that is found. -/
theorem createProcFunc_cases (h : createTemplateProcFunc (k :: p) f = some (ret, f₁)) {d : ElemDesc}
    (hd : f.tpl.descOf (k :: p) = some d) : (ret < 0 ∧ f₁ = f) ∨ ∃ define ref,
      (if d.type.attr.define then ∃ r, f.tpl.countElem p d = .done r ∧ define = some r
        else define = (f.tpl.elem (k :: p)).define) ∧
      f₁ = (f.setTpl (f.tpl.setElem (k :: p) { f.tpl.elem (k :: p) with
        offset := f.para.currOffset, size := leafSize d, ref := ref, define := define })).setPara
          ⟨f.para.currOffset + leafSize d⟩ := by
  simp only [createTemplateProcFunc, hd] at h
  split_ifs at h with hdefine
  · cases hcount : f.tpl.countElem p d with
    | fault => simp only [hcount, reduceCtorEq] at h
    | error e =>
      simp only [hcount] at h
      obtain ⟨rfl, rfl⟩ := Prod.mk.inj (Option.some.inj h)
      exact .inl ⟨countElem_error hcount, rfl⟩
    | done define =>
      simp only [hcount] at h
      obtain ⟨_, rfl⟩ := Prod.mk.inj (Option.some.inj h)
      exact .inr ⟨_, _, by rw [if_pos hdefine]; exact ⟨define, rfl, rfl⟩, rfl⟩
  · obtain ⟨_, rfl⟩ := Prod.mk.inj (Option.some.inj h)
    exact .inr ⟨_, _, by rw [if_neg hdefine], rfl⟩

/-- An element that is no structure gets the element that counts it, if it is of a type
    that is counted. -/
theorem createProcFunc_spec (h : createTemplateProcFunc (k :: p) f = some (ret, f₁)) {d : ElemDesc}
    (hd : f.tpl.descOf (k :: p) = some d) :
    OnlyAt (k :: p) f f₁ ∧ f₁.tpl.node (k :: p) = f.tpl.node (k :: p) ∧
      (0 ≤ ret → if d.type.attr.define then ∃ define, f.tpl.countElem p d = .done define ∧
        (f₁.tpl.elem (k :: p)).define = some define
      else (f₁.tpl.elem (k :: p)).define = (f.tpl.elem (k :: p)).define) := by
  rcases createProcFunc_cases h hd with ⟨hneg, rfl⟩ | ⟨define, ref, hdefine, rfl⟩
  · exact ⟨.refl _ _, rfl, fun hret => absurd hret (Int.not_le.2 hneg)⟩
  · exact ⟨⟨rfl, fun _ _ => rfl, fun q hq => Function.update_of_ne hq _ _, fun _ _ => rfl⟩, rfl,
      fun _ => by simpa using hdefine⟩

theorem createTemplateOps_local : Local createTemplateOps where
  enterstruct h := (createEnterstruct_spec h).1
  exitstruct h := (createExitstruct_spec h).1
  procFunc {loc f ret f'} h := by
    cases loc with
    | nil => simp [createTemplateOps, createTemplateProcFunc] at h
    | cons k p =>
      cases hd : f.tpl.descOf (k :: p) with
      | none => simp [createTemplateOps, createTemplateProcFunc, hd] at h
      | some d => exact (createProcFunc_spec h hd).1

/-- The frame the creation starts in, with the elements of the root. -/
structure CreateBegin (desc : List ElemDesc) (f : Frame CreatePara) : Prop where
  tpl : f.tpl = (Template.blank desc).setNode [] { elemNo := desc.length }
  scr : f.scr = .clean
  para : f.para = ⟨0⟩

theorem CreateBegin.tempVar {desc : List ElemDesc} (h : CreateBegin desc f) :
    f.scr.tempVar [] = 0 := by
  rw [h.scr]
  rfl

theorem createStart_spec {desc : List ElemDesc} (h : createTemplateStart
    ((⟨.blank desc, .clean, ⟨0⟩⟩ : Frame CreatePara).setTempVar [] 0) = some (ret, f)) :
    CreateBegin desc f := by
  obtain ⟨_, rfl⟩ := Prod.mk.inj (Option.some.inj h)
  exact ⟨rfl, congrArg (fun v => Scratch.mk v _ _) (Function.update_eq_self _ _), rfl⟩

/-- The creation goes through the root of a blank template. -/
theorem createBegin_of_converts {desc : List ElemDesc} {f' : Frame CreatePara} (hret : 0 ≤ ret)
    (hconverts : Converts createTemplateOps ⟨.blank desc, .clean, ⟨0⟩⟩ ret f') :
    ∃ f, CreateBegin desc f ∧ Visits createTemplateOps [] f f' := by
  obtain ⟨r, f₁, f₂, hstart, _, hvisits, hfinish⟩ :=
    visits_of_converts createTemplateOps_local.tame hconverts hret fun hstart =>
      (createStart_spec hstart).tempVar
  obtain ⟨_, rfl⟩ := Prod.mk.inj (Option.some.inj hfinish)
  exact ⟨f₁, createStart_spec hstart, hvisits⟩

theorem Created.visits {desc : List ElemDesc} (h : Created desc t) :
    ∃ f f', CreateBegin desc f ∧ Visits createTemplateOps [] f f' ∧ f'.tpl = t := by
  obtain ⟨ret, f', hret, hconverts, rfl⟩ := h
  obtain ⟨f, hbegin, hvisits⟩ := createBegin_of_converts hret hconverts
  exact ⟨f, f', hbegin, hvisits, rfl⟩

theorem Created.desc {desc : List ElemDesc} (h : Created desc t) : t.desc = desc := by
  obtain ⟨f, f', hbegin, hvisits, rfl⟩ := h.visits
  rw [(hvisits.keeps createTemplateOps_local.tame).desc, hbegin.tpl]
  rfl

/-- What is no element of the template is as it was when it was blank. -/
theorem Created.blank_outside {desc : List ElemDesc} (h : Created desc t) {q : Loc}
    (hd : t.descOf q = none) : t.elem q = {} ∧ (q ≠ [] → t.node q = {}) := by
  obtain ⟨f, f', hbegin, hvisits, rfl⟩ := h.visits
  rw [Template.descOf_congr (hvisits.keeps createTemplateOps_local.tame).desc] at hd
  obtain ⟨hnode, helem⟩ := hvisits.frame createTemplateOps_local (.inr hd)
  rw [hbegin.tpl] at hnode helem
  exact ⟨helem, fun hq => hnode.trans (Function.update_of_ne hq _ _)⟩

/-! ## What the creation leaves -/

/-- All nodes of a template have their elements. -/
def Template.Full (t : Template) : Prop :=
  ∀ p, p = [] ∨ t.nested p = true → (t.node p).elemNo = (t.children p).length

/-- The variables are not set but for those of the structures that the walk is in. -/
def Idle (p : Loc) (f : Frame CreatePara) : Prop :=
  ∀ q, q = [] ∨ ¬ q <:+ p → f.scr.index q = 0 ∧ f.scr.limit q = 0

/-- The functions set variables of their element alone. -/
theorem createEnterstruct_scr (h : createTemplateEnterstruct loc f = some (ret, f₁)) :
    f₁.scr.index = f.scr.index ∧ ∀ q, q ≠ loc → f₁.scr.limit q = f.scr.limit q := by
  rw [createTemplateEnterstruct] at h
  split at h
  · cases h
  obtain ⟨_, rfl⟩ := Prod.mk.inj (Option.some.inj h)
  exact ⟨rfl, fun q hq => Function.update_of_ne hq _ _⟩

theorem createExitstruct_scr (h : createTemplateExitstruct loc f = some (ret, f₁)) :
    ∀ q, q ≠ loc → f₁.scr.index q = f.scr.index q ∧ f₁.scr.limit q = f.scr.limit q := by
  intro q hq
  simp only [createTemplateExitstruct] at h
  split at h
  · cases h
  split_ifs at h
  · split at h
    · cases h
    · obtain ⟨_, rfl⟩ := Prod.mk.inj (Option.some.inj h)
      exact ⟨rfl, rfl⟩
    · obtain ⟨_, rfl⟩ := Prod.mk.inj (Option.some.inj h)
      exact ⟨Function.update_of_ne hq _ _, Function.update_of_ne hq _ _⟩
  all_goals
    obtain ⟨_, rfl⟩ := Prod.mk.inj (Option.some.inj h)
    exact ⟨Function.update_of_ne hq _ _, Function.update_of_ne hq _ _⟩

theorem createProcFunc_scr (h : createTemplateProcFunc loc f = some (ret, f₁)) : f₁.scr = f.scr := by
  simp only [createTemplateProcFunc] at h
  split at h
  · split_ifs at h
    · split at h
      · cases h
      · obtain ⟨_, rfl⟩ := Prod.mk.inj (Option.some.inj h)
        rfl
      · obtain ⟨_, rfl⟩ := Prod.mk.inj (Option.some.inj h)
        rfl
    · obtain ⟨_, rfl⟩ := Prod.mk.inj (Option.some.inj h)
      rfl
  · cases h

/-- The walk of the creation is in a node, with those above it entered. -/
structure Creating (desc : List ElemDesc) (p : Loc) (f : Frame CreatePara) : Prop where
  desc : f.tpl.desc = desc
  entered : f.tpl.Entered p

section Creating

variable {desc : List ElemDesc} {f' f₂ : Frame CreatePara}

theorem CreateBegin.creating (h : CreateBegin desc f) : Creating desc [] f := by
  refine ⟨by rw [h.tpl]; rfl, fun q hq => ?_⟩
  rw [List.suffix_nil.1 hq, h.tpl, Template.node_setNode_self]
  rfl

theorem Creating.congr (h : Creating desc p f) (honly : OnlyAt (k :: p) f f₁) : Creating desc p f₁ where
  desc := honly.desc.trans h.desc
  entered := h.entered.congr honly.desc fun _ hq => honly.elemNo_above hq

/-- In a structure that is entered. -/
theorem Creating.down (h : Creating desc p f)
    (henter : createTemplateEnterstruct (k :: p) f = some (ret, f₁)) :
    Creating desc (k :: p) (f₁.setTempVar (k :: p) 0) := by
  obtain ⟨honly, hnode, -⟩ := createEnterstruct_spec henter
  have h₁ := h.congr honly
  exact ⟨h₁.desc, h₁.entered.down
    (hnode.trans (congrArg _ (Template.children_congr honly.desc _).symm))⟩

/-- Behind a structure that is left. -/
theorem Creating.leave (h : Creating desc (k :: p) f)
    (hexit : createTemplateExitstruct (k :: p) (f.incIndex (k :: p)) = some (ret, f₁)) :
    Creating desc p (f₁.leave p (k :: p)) := by
  have hup : Creating desc p (f.incIndex (k :: p)) := ⟨h.desc, h.entered.up⟩
  have h₁ := hup.congr (createExitstruct_spec hexit).1
  exact ⟨h₁.desc, h₁.entered⟩

theorem Creating.visits (h : Creating desc p f) (hvisits : Visits createTemplateOps p f f') :
    Creating desc p f' where
  desc := (hvisits.keeps createTemplateOps_local.tame).desc.trans h.desc
  entered := by
    have hkeeps := hvisits.keeps createTemplateOps_local.tame
    refine h.entered.congr hkeeps.desc fun q hq => ?_
    rcases Nat.lt_or_eq_of_le hq.length_le with hlt | heq
    · exact hkeeps.elemNo q hlt
    · rw [hq.eq_of_length heq, (hvisits.frame_self createTemplateOps_local).1]

/-- The creation goes through every structure once: what its functions keep, the walk keeps, with
    what they give of each element. -/
theorem createPassing {J : Loc → Frame CreatePara → Prop}
    {P : Loc → ElemDesc → NodeData → ElemData → Prop}
    (hleaf : ∀ {p f k d ret f₁}, Creating desc p f → J p f → Current f p k d →
      d.type.attr.subset = false → d.type.hasOps = true →
      createTemplateProcFunc (k :: p) f = some (ret, f₁) → 0 ≤ ret →
      J p (f₁.next p) ∧ P (k :: p) d (f₁.tpl.node (k :: p)) (f₁.tpl.elem (k :: p)))
    (hdown : ∀ {p f k ret f₁}, J p f → createTemplateEnterstruct (k :: p) f = some (ret, f₁) →
      J (k :: p) (f₁.setTempVar (k :: p) 0))
    (hup : ∀ {p f k d ret f₁ f₂ ret' f₃}, Creating desc p f → J p f → Current f p k d →
      d.type.attr.subset = true → createTemplateEnterstruct (k :: p) f = some (ret, f₁) →
      Visits createTemplateOps (k :: p) (f₁.setTempVar (k :: p) 0) f₂ → Creating desc (k :: p) f₂ →
      J (k :: p) f₂ → f₂.scr.tempVar p = k →
      createTemplateExitstruct (k :: p) (f₂.incIndex (k :: p)) = some (ret', f₃) → 0 ≤ ret' →
      J p (f₃.leave p (k :: p)) ∧ P (k :: p) d (f₃.tpl.node (k :: p)) (f₃.tpl.elem (k :: p))) :
    Passing createTemplateOps (fun p f => Creating desc p f ∧ J p f) P where
  count h := h.1.entered _ List.suffix_rfl
  test _ _ := rfl
  leaf h cur hsub hops hproc hret := by
    have h₁ := h.1.congr (createTemplateOps_local.procFunc hproc)
    obtain ⟨hJ, hat⟩ := hleaf h.1 h.2 cur hsub hops hproc hret
    exact ⟨⟨⟨h₁.desc, h₁.entered⟩, hJ⟩, hat⟩
  empty _ _ _ henter hnone _ := by
    have hlimit := (createEnterstruct_spec henter).2.2
    rw [hnone.2] at hlimit
    exact absurd hlimit (Int.lt_irrefl 0)
  down h _ _ henter := ⟨h.1.down henter, hdown h.2 henter⟩
  up h cur hsub henter inside h₂ hvar hexit hret' := by
    obtain ⟨hJ, hat⟩ := hup h.1 h.2 cur hsub henter inside h₂.1 h₂.2 hvar hexit hret'
    exact ⟨Int.le_of_eq ((createExitstruct_spec hexit).2.2 hret').symm,
      ⟨h₂.1.leave hexit, hJ⟩, hat⟩

/-- The creation gives the node of every structure its elements, and leaves no variable set. -/
theorem createVisits_leaves (h : Visits createTemplateOps p f f') (hI : Creating desc p f)
    (hidle : Idle p f) :
    Idle p f' ∧ ∀ q d, Beyond p (f.scr.tempVar p) q → f.tpl.descOf q = some d →
      d.type.attr.subset = true → (f'.tpl.node q).elemNo = d.sub.length := by
  have hpassing : Passing createTemplateOps (fun p f => Creating desc p f ∧ Idle p f)
      fun _ d node _ => d.type.attr.subset = true → node.elemNo = d.sub.length := by
    refine createPassing ?_ ?_ ?_
    · intro p f k d ret f₁ _ hidle _ hsub _ hproc _
      refine ⟨?_, fun h => absurd (hsub.symm.trans h) (by decide)⟩
      change Idle p f₁
      rw [Idle, createProcFunc_scr hproc]
      exact hidle
    · intro p f k ret f₁ hidle henter q hq
      obtain ⟨hindex, hlimit⟩ := createEnterstruct_scr henter
      have hne : q ≠ k :: p := by
        rintro rfl
        exact hq.elim (List.cons_ne_nil k p) fun h => h List.suffix_rfl
      obtain ⟨hi, hl⟩ := hidle q (hq.imp_right fun h hsuffix => h (hsuffix.trans (List.suffix_cons k p)))
      exact ⟨(congrFun hindex q).trans hi, (hlimit q hne).trans hl⟩
    · intro p f k d ret f₁ f₂ ret' f₃ _ _ cur hsub henter inside _ hidle₂ _ hexit _
      refine ⟨fun q hq => ?_, fun _ => ?_⟩
      · by_cases hself : q = k :: p
        · rw [hself]
          exact ⟨Function.update_self .., Function.update_self ..⟩
        · have hq₂ : q = [] ∨ ¬ q <:+ k :: p := hq.imp_right fun h hsuffix =>
            (List.suffix_cons_iff.1 hsuffix).elim hself h
          obtain ⟨hi, hl⟩ := createExitstruct_scr hexit q hself
          obtain ⟨hi₂, hl₂⟩ := hidle₂ q hq₂
          exact ⟨(Function.update_of_ne hself _ _).trans
              (hi.trans ((Function.update_of_ne hself _ _).trans hi₂)),
            (Function.update_of_ne hself _ _).trans (hl.trans hl₂)⟩
      · -- The structure got its elements as it was entered.
        have hnode := (createExitstruct_spec hexit).2.1
        rw [hnode, ← Template.children_of_desc cur.desc hsub, ← (createEnterstruct_spec henter).2.1]
        exact congrArg NodeData.elemNo (inside.frame_self createTemplateOps_local).1
  obtain ⟨⟨-, hidle'⟩, hat⟩ := h.passed createTemplateOps_local hpassing ⟨hI, hidle⟩
  exact ⟨hidle', hat⟩

end Creating

/-- `create_struct_template` creates the template of the description, with these
    variables in it. -/
def Fresh (desc : List ElemDesc) (t : Template) (scr : Scratch) : Prop :=
  ∃ ret f, 0 ≤ ret ∧ Converts createTemplateOps ⟨.blank desc, .clean, ⟨0⟩⟩ ret f ∧ f.tpl = t ∧
    f.scr = scr

theorem Fresh.created {desc : List ElemDesc} {scr : Scratch} (h : Fresh desc t scr) :
    Created desc t := by
  obtain ⟨ret, f, hret, hconverts, htpl, _⟩ := h
  exact ⟨ret, f, hret, hconverts, htpl⟩

theorem Created.fresh {desc : List ElemDesc} (h : Created desc t) :
    ∃ scr, Fresh desc t scr := by
  obtain ⟨ret, f, hret, hconverts, htpl⟩ := h
  exact ⟨f.scr, ret, f, hret, hconverts, htpl, rfl⟩

/-- The creation gives every node its elements, and leaves no variable set. -/
theorem Fresh.leaves {desc : List ElemDesc} {scr : Scratch} (h : Fresh desc t scr) :
    t.Full ∧ ∀ q, scr.index q = 0 ∧ scr.limit q = 0 := by
  obtain ⟨ret, f', hret, hconverts, rfl, rfl⟩ := h
  obtain ⟨f, hbegin, hvisits⟩ := createBegin_of_converts hret hconverts
  have hidle : Idle [] f := fun q _ => by
    rw [hbegin.scr]
    exact ⟨rfl, rfl⟩
  obtain ⟨hidle', hfull⟩ := createVisits_leaves hvisits hbegin.creating hidle
  refine ⟨fun p hp => ?_, fun q => hidle' q (or_iff_not_imp_left.2 fun hne h => hne
    (List.suffix_nil.1 h))⟩
  by_cases hroot : p = []
  · -- The root has its elements from the start.
    rw [hroot]
    exact (hbegin.creating.visits hvisits).entered [] List.suffix_rfl
  · have hdesc := (hvisits.keeps createTemplateOps_local.tame).desc
    obtain ⟨d, hd, hsub⟩ := (Option.any_eq_true _ _).1 (hp.resolve_left hroot)
    have hd₁ := (Template.descOf_congr hdesc p).symm.trans hd
    rw [Template.children_of_desc hd hsub]
    exact hfull p d (hbegin.tempVar.symm ▸ beyond_root hd₁) hd₁ hsub

theorem Created.full {desc : List ElemDesc} (h : Created desc t) : t.Full := by
  obtain ⟨scr, hfresh⟩ := h.fresh
  exact hfresh.leaves.1

/-- No element and no node has a flag. -/
structure Template.Flagless (t : Template) : Prop where
  elem : ∀ loc, (t.elem loc).flag = 0
  node : ∀ p, (t.node p).flag = 0

theorem Template.Flagless.setElem (h : t.Flagless) (loc : Loc) {e : ElemData}
    (he : e.flag = 0) : (t.setElem loc e).Flagless := by
  refine ⟨fun q => ?_, h.node⟩
  by_cases hq : q = loc
  · rw [hq, elem_setElem_self, he]
  · rw [elem_setElem_of_ne hq]
    exact h.elem q

theorem Template.Flagless.setNode (h : t.Flagless) (p : Loc) {n : NodeData}
    (hn : n.flag = 0) : (t.setNode p n).Flagless := by
  refine ⟨h.elem, fun q => ?_⟩
  by_cases hq : q = p
  · rw [hq, node_setNode_self, hn]
  · rw [node_setNode_of_ne hq]
    exact h.node q

theorem createEnterstruct_flagless (h : createTemplateEnterstruct loc f = some (ret, f₁))
    (hflag : f.tpl.Flagless) : f₁.tpl.Flagless := by
  rw [createTemplateEnterstruct] at h
  split at h
  · cases h
  obtain ⟨_, rfl⟩ := Prod.mk.inj (Option.some.inj h)
  refine Template.Flagless.setElem (Template.Flagless.setNode hflag loc ?_) loc ?_
  · exact hflag.node loc
  · exact hflag.elem loc

theorem createExitstruct_flagless (h : createTemplateExitstruct loc f = some (ret, f₁))
    (hflag : f.tpl.Flagless) : f₁.tpl.Flagless := by
  simp only [createTemplateExitstruct] at h
  split at h
  · cases h
  split_ifs at h
  · split at h
    · cases h
    · obtain ⟨_, rfl⟩ := Prod.mk.inj (Option.some.inj h)
      exact hflag
    · obtain ⟨_, rfl⟩ := Prod.mk.inj (Option.some.inj h)
      exact Template.Flagless.setElem hflag loc (hflag.elem loc)
  all_goals
    obtain ⟨_, rfl⟩ := Prod.mk.inj (Option.some.inj h)
    exact Template.Flagless.setElem hflag loc (hflag.elem loc)

theorem createProcFunc_flagless (h : createTemplateProcFunc loc f = some (ret, f₁))
    (hflag : f.tpl.Flagless) : f₁.tpl.Flagless := by
  simp only [createTemplateProcFunc] at h
  split at h
  · split_ifs at h
    · split at h
      · cases h
      · obtain ⟨_, rfl⟩ := Prod.mk.inj (Option.some.inj h)
        exact hflag
      · obtain ⟨_, rfl⟩ := Prod.mk.inj (Option.some.inj h)
        exact Template.Flagless.setElem hflag _ (hflag.elem _)
    · obtain ⟨_, rfl⟩ := Prod.mk.inj (Option.some.inj h)
      exact Template.Flagless.setElem hflag _ (hflag.elem _)
  · cases h

/-- The creation places no flags. -/
theorem Created.flagless {desc : List ElemDesc} (h : Created desc t) :
    t.Flagless := by
  obtain ⟨f, f', hbegin, hvisits, rfl⟩ := h.visits
  refine hvisits.preserves createEnterstruct_flagless createExitstruct_flagless
    createProcFunc_flagless ?_
  rw [hbegin.tpl]
  have hblank : (Template.blank desc).Flagless := ⟨fun _ => rfl, fun _ => rfl⟩
  exact hblank.setNode [] rfl

/-- A template has been created, and flags placed on it. -/
structure Flagged (created t : Template) : Prop where
  desc : t.desc = created.desc
  elemNo : ∀ p, (t.node p).elemNo = (created.node p).elemNo
  elem : ∀ loc, { t.elem loc with flag := 0 } = { created.elem loc with flag := 0 }
  elem_flag : ∀ loc, t.descOf loc = none → (t.elem loc).flag = 0
  node_flag : ∀ p, p ≠ [] → (∀ d, t.descOf p = some d → d.type.attr.subset = false) →
    (t.node p).flag = 0

theorem Flagged.full {created : Template} (h : Flagged created t) (hfull : created.Full) : t.Full := by
  intro p hp
  rw [h.elemNo, Template.children_congr h.desc]
  exact hfull p (hp.imp_right fun hnested => (Template.nested_congr h.desc p).symm.trans hnested)

/-- The template as it was created, on which no flags have been placed. -/
theorem Created.flagged {desc : List ElemDesc} (h : Created desc t) : Flagged t t where
  desc := rfl
  elemNo _ := rfl
  elem _ := rfl
  elem_flag loc _ := h.flagless.elem loc
  node_flag p _ _ := h.flagless.node p

/-- An integer as an element. -/
def intElem (name : Char) : ElemDesc := ⟨[name], .int, 0, [], none, none⟩

end Cube.Struct
