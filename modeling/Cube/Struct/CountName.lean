import Cube.Struct.Clone
import Cube.Struct.Lookup

/-!
# The elements that count, by name

A counted element names the field that counts it. The field is meant to be one of the
structure around the element, or of the root where the name starts with a slash. The
creation of a template looks for the field of an array in the root, and the cloning
leaves arrays, and what is below them, as they were when they were blank.

* `Found.created`: the creation succeeds if it finds all fields where it looks for them.
* `Created.found`: it succeeds only then, and the elements have what it found.
* `Found.cloned`: a clone of a template without counted arrays has the same fields.
* `resolvesCounts_iff`: creation and cloning find the fields that are meant exactly if no
  array is counted, nothing in an array is, and no name is too long.
-/

namespace Cube.Struct

open Lib

namespace Template

variable (t : Template)

/-- The element at the place is a counted one. -/
def Counted (loc : Loc) (d : ElemDesc) : Prop :=
  t.descOf loc = some d ∧ d.type.attr.define = true

/-- A name without the slash at its start. -/
def bareName : List Char → List Char
  | '/' :: name => name
  | name => name

/-- The first element of a structure with the name, if it is of a type with a value. -/
def valueField (p : Loc) (name : List Char) : Option Loc :=
  ((t.children p).findIdx? (·.name = name)).bind fun k =>
    if (t.descOf (k :: p)).any (·.type.attr.value) then some (k :: p) else none

/-- The field with the name of a counted element: of the structure, or of the root if
    the name starts with a slash. -/
def countField (p : Loc) (name : List Char) : Option Loc :=
  t.valueField (startOf p name) (bareName name)

/-- The field that is meant to count the element at a place: one of the structure that
    the element is in. -/
def countOf (loc : Loc) (d : ElemDesc) : Option Loc := d.defName.bind (t.countField loc.tail)

/-- The node that the creation looks in for the field of an element: the root for an
    array, and otherwise the structure that the element is in. -/
def countNode (loc : Loc) (d : ElemDesc) : Loc := if d.type.attr.subset then [] else loc.tail

/-- The field that the creation finds for an element, with a name that is not too long. -/
def countFound (loc : Loc) (d : ElemDesc) : Option Loc :=
  d.defName.bind fun name =>
    if Sized (bareName name) then t.countField (countNode loc d) name else none

end Template

/-- All counted elements of the description name their fields by simple names, with or
    without a slash before them. -/
def SimpleCounts (desc : List ElemDesc) : Prop :=
  ∀ loc d, (Template.blank desc).Counted loc d → ∃ name, d.defName = some name ∧ '.' ∉ name

/-- The creation succeeds exactly if there are fields for all counted elements, which
    then have them, in the template and in its clones. -/
structure ResolvesCounts (desc : List ElemDesc) : Prop where
  created : (∃ t, Created desc t) ↔
    ∀ loc d, (Template.blank desc).Counted loc d → ((Template.blank desc).countOf loc d).isSome
  resolved : ∀ t, Created desc t → ∀ loc d, t.Counted loc d →
    ∃ q, t.countOf loc d = some q ∧ (t.elem loc).define = some q
  cloned : ∀ t, Created desc t → ∀ sourceIndex, ∃ clone, Clones t sourceIndex clone ∧
    ∀ loc d, t.Counted loc d → ∃ q, t.countOf loc d = some q ∧ (clone.elem loc).define = some q

/-- The creation finds the fields of all counted elements where it looks for them, and
    knows the types of all elements. -/
structure Found (desc : List ElemDesc) : Prop where
  count : ∀ loc d, (Template.blank desc).Counted loc d →
    ((Template.blank desc).countFound loc d).isSome
  ops : ∀ loc d, (Template.blank desc).descOf loc = some d → d.type.attr.subset = false →
    d.type.hasOps = true

/-! ## The search by a simple name -/

namespace Template

variable {t t' : Template} {p loc : Loc} {d : ElemDesc} {name : List Char} {k : Nat}

section Congr

variable (hdesc : t'.desc = t.desc)

include hdesc

theorem counted_congr : t'.Counted loc d ↔ t.Counted loc d := by
  rw [Counted, Counted, descOf_congr hdesc]

theorem countField_congr (p : Loc) (name : List Char) :
    t'.countField p name = t.countField p name := by
  rw [countField, countField, valueField, valueField, children_congr hdesc]
  simp only [descOf_congr hdesc]

theorem countOf_congr (loc : Loc) (d : ElemDesc) : t'.countOf loc d = t.countOf loc d := by
  rw [countOf, countOf, funext (countField_congr hdesc loc.tail)]

theorem countFound_congr (loc : Loc) (d : ElemDesc) : t'.countFound loc d = t.countFound loc d := by
  simp only [countFound, countField_congr hdesc]

end Congr

theorem startOf_suffix (p : Loc) (name : List Char) : startOf p name <:+ p := by
  rw [startOf.eq_def]
  split
  · exact List.nil_suffix
  · exact List.suffix_rfl

/-- A simple name is a path of one. -/
theorem namesOf_simple (hdot : '.' ∉ name) : namesOf name = [bareName name] := by
  by_cases hslash : ∃ rest, name = '/' :: rest
  · obtain ⟨rest, rfl⟩ := hslash
    exact List.splitOn_eq_singleton fun h => hdot (List.mem_cons_of_mem _ h)
  · rw [namesOf, bareName]
    · exact List.splitOn_eq_singleton hdot
    · exact fun rest h => hslash ⟨rest, h⟩
    · exact fun rest h => hslash ⟨rest, h⟩

/-- Where the nodes have been entered, the search for a simple name finds the field that
    has it. -/
theorem countElem_simple (h : t.Entered p) (hname : d.defName = some name) (hdot : '.' ∉ name) :
    t.countElem p d =
      (if Sized (bareName name) then t.countField p name else none).elim (.error (-EINVAL))
        .done := by
  have hfull : (t.children (startOf p name)).take (t.node (startOf p name)).elemNo =
      t.children (startOf p name) := by
    rw [h _ (startOf_suffix p name), List.take_length]
  have hlookup : t.elemByName p name = if Sized (bareName name) then
      ((t.children (startOf p name)).findIdx? (·.name = bareName name)).elim .null
        fun k => .elem (k :: startOf p name) else .null := by
    rw [elemByName_eq, namesOf_simple hdot]
    by_cases hsized : Sized (bareName name)
    · rw [if_pos hsized, followName, if_neg (by rw [Sized] at hsized; omega), elemFromStruct, hfull]
      cases (t.children (startOf p name)).findIdx? (·.name = bareName name) <;> rfl
    · rw [if_neg hsized, followName_unsized hsized]
  rw [countElem, hname]
  simp only [hlookup]
  by_cases hsized : Sized (bareName name)
  · rw [if_pos hsized, if_pos hsized, countField, valueField]
    cases hk : (t.children (startOf p name)).findIdx? (·.name = bareName name) with
    | none => rfl
    | some k =>
      obtain ⟨hlt, -⟩ := List.findIdx?_eq_some_iff_getElem.1 hk
      have hd : t.descOf (k :: startOf p name) = some (t.children (startOf p name))[k] :=
        List.getElem?_eq_getElem hlt
      simp only [Option.elim_some, hd, Option.bind_some, Option.any_some]
      split_ifs <;> rfl
  · rw [if_neg hsized, if_neg hsized]
    rfl

end Template

/-! ## The creation -/

section Creation

variable {desc : List ElemDesc} {t : Template} {p loc : Loc} {d : ElemDesc} {k : Nat}
  {f f₁ f' : Frame CreatePara} {ret : Int}

/-- What the search finds for an element is what there is to be found. -/
theorem countElem_found (hsimple : SimpleCounts desc) (hdesc : t.desc = desc)
    (hcounted : t.Counted loc d) (hentered : t.Entered (Template.countNode loc d)) :
    t.countElem (Template.countNode loc d) d =
      (t.countFound loc d).elim (.error (-EINVAL)) .done := by
  obtain ⟨name, hname, hdot⟩ := hsimple loc d ((Template.counted_congr hdesc).1 hcounted)
  rw [Template.countElem_simple hentered hname hdot, Template.countFound, hname, Option.bind_some]

/-- A field that is found is the one there is to be found. -/
theorem countFound_of_done (hsimple : SimpleCounts desc) (hdesc : t.desc = desc)
    (hcounted : t.Counted loc d) (hentered : t.Entered (Template.countNode loc d)) {q : Loc}
    (h : t.countElem (Template.countNode loc d) d = .done q) :
    t.countFound loc d = some q := by
  rw [countElem_found hsimple hdesc hcounted hentered] at h
  cases hfound : t.countFound loc d with
  | none =>
    rw [hfound] at h
    cases h
  | some q' =>
    rw [hfound] at h
    exact congrArg some (Outcome.done.inj h)

theorem Found.isSome (h : Found desc) (hdesc : t.desc = desc) (hcounted : t.Counted loc d) :
    ∃ q, t.countFound loc d = some q := by
  have hsome := h.count loc d ((Template.counted_congr hdesc).1 hcounted)
  rw [Template.countFound_congr (t := .blank desc) hdesc]
  exact Option.isSome_iff_exists.1 hsome

/-- If the fields are found, the creation comes through. -/
theorem Found.passes (hsimple : SimpleCounts desc) (h : Found desc) :
    Passes createTemplateOps (Creating desc) where
  count hI := hI.entered _ List.suffix_rfl
  test _ _ := rfl
  leaf {p f k d} hI cur hsub := by
    have hops := h.ops _ _ ((Template.descOf_congr hI.desc (k :: p)).symm.trans cur.desc) hsub
    obtain ⟨f₁, hproc⟩ : ∃ f₁, createTemplateProcFunc (k :: p) f = some (0, f₁) := by
      simp only [createTemplateProcFunc, cur.desc]
      split_ifs with hdefine
      · have hnode : Template.countNode (k :: p) d = p := by
          rw [Template.countNode, hsub]
          rfl
        have hcounted : f.tpl.Counted (k :: p) d := ⟨cur.desc, hdefine⟩
        obtain ⟨q, hq⟩ := h.isSome hI.desc hcounted
        have hcount := countElem_found hsimple hI.desc hcounted (by rw [hnode]; exact hI.entered)
        rw [hnode, hq] at hcount
        rw [hcount]
        exact ⟨_, rfl⟩
      · exact ⟨_, rfl⟩
    have hI₁ := hI.congr (createProcFunc_spec hproc cur.desc).1
    exact ⟨hops, 0, f₁, hproc, Int.le_refl 0, hI₁.desc, hI₁.entered⟩
  enter {p f k d} hI cur hsub := by
    obtain ⟨f₁, henter⟩ : ∃ f₁, createTemplateEnterstruct (k :: p) f = some (0, f₁) := by
      simp only [createTemplateEnterstruct, cur.desc]
      exact ⟨_, rfl⟩
    obtain ⟨-, -, hlimit⟩ := createEnterstruct_spec henter
    refine ⟨0, f₁, henter, Int.le_refl 0, ?_⟩
    rw [if_neg fun hnone => absurd hnone.2 (Int.ne_of_gt hlimit)]
    refine ⟨hI.down henter, fun f₂ _ hI₂ => ?_⟩
    · have hd : f₂.tpl.descOf (k :: p) = some d :=
        (Template.descOf_congr (hI₂.desc.trans hI.desc.symm) _).trans cur.desc
      obtain ⟨f₃, hexit⟩ :
          ∃ f₃, createTemplateExitstruct (k :: p) (f₂.incIndex (k :: p)) = some (0, f₃) := by
        have htpl : (f₂.incIndex (k :: p)).tpl = f₂.tpl := rfl
        simp only [createTemplateExitstruct, htpl, hd]
        split_ifs with harray hdefine
        · have hroot : Template.countNode (k :: p) d = [] := if_pos hsub
          have hcounted : f₂.tpl.Counted (k :: p) d := ⟨hd, hdefine⟩
          obtain ⟨q, hq⟩ := h.isSome hI₂.desc hcounted
          have hcount := countElem_found hsimple hI₂.desc hcounted
            (by rw [hroot]; exact hI₂.entered.root)
          rw [hroot, hq] at hcount
          rw [hcount]
          exact ⟨_, rfl⟩
        all_goals exact ⟨_, rfl⟩
      exact ⟨0, f₃, hexit, Int.le_refl 0,
        Int.le_of_eq ((createExitstruct_spec hexit).2.2 (Int.le_refl 0)).symm, hI₂.leave hexit⟩

/-- The creation succeeds if it finds all fields. -/
theorem Found.created (hsimple : SimpleCounts desc) (h : Found desc) : ∃ t, Created desc t := by
  obtain ⟨f, hstart⟩ : ∃ f, createTemplateStart
      ((⟨.blank desc, .clean, ⟨0⟩⟩ : Frame CreatePara).setTempVar [] 0) = some (0, f) := ⟨_, rfl⟩
  have hbegin := createStart_spec hstart
  obtain ⟨f', hvisits, -⟩ :=
    (h.passes hsimple).visits_root createTemplateOps_local.tame hbegin.creating hbegin.tempVar
  exact ⟨f'.tpl, 0, f', Int.le_refl 0, converts_of_visits hstart (Int.le_refl 0) hvisits rfl, rfl⟩

/-- A counted array gets the field that is found from the root. -/
theorem createExitstruct_define (h : createTemplateExitstruct loc f = some (ret, f₁)) (hret : 0 ≤ ret)
    (hd : f.tpl.descOf loc = some d) (harray : d.type.attr.array = true)
    (hdefine : d.type.attr.define = true) :
    ∃ define, f.tpl.countElem [] d = .done define ∧ (f₁.tpl.elem loc).define = some define := by
  rcases createExitstruct_cases h with ⟨hneg, -⟩ | ⟨e, define, limit, he, hcounted, rfl⟩
  · exact absurd hret (Int.not_le.2 hneg)
  · obtain rfl := Option.some.inj (hd.symm.trans he)
    obtain ⟨r, hcount, rfl⟩ := hcounted harray hdefine
    exact ⟨r, hcount, congrArg ElemData.define (Template.elem_setElem_self ..)⟩

/-- The creation knows the types of the elements, and finds the fields of those that are counted and
    gives them to these. -/
theorem createPassing_found : Passing createTemplateOps
    (fun p f => Creating desc p f ∧ True)
    fun q d _ elem => (d.type.attr.subset = false → d.type.hasOps = true) ∧
      (SimpleCounts desc → d.type.attr.define = true →
        ∃ r, (Template.blank desc).countFound q d = some r ∧ elem.define = some r) := by
  refine createPassing ?_ (fun _ _ => trivial) ?_
  · intro p f k d ret f₁ hI _ cur hsub hops hproc hret
    refine ⟨trivial, fun _ => hops, fun hsimple hdef => ?_⟩
    have hcounted : f.tpl.Counted (k :: p) d := ⟨cur.desc, hdef⟩
    have hnode : Template.countNode (k :: p) d = p := by
      rw [Template.countNode, hsub]
      rfl
    have hfound := (createProcFunc_spec hproc cur.desc).2.2 hret
    rw [if_pos hdef] at hfound
    obtain ⟨r, hr, hset⟩ := hfound
    refine ⟨r, ?_, hset⟩
    rw [Template.countFound_congr hI.desc.symm]
    exact countFound_of_done hsimple hI.desc hcounted (by rw [hnode]; exact hI.entered)
      (by rw [hnode]; exact hr)
  · intro p f k d ret f₁ f₂ ret' f₃ hI _ cur hsub _ _ hI₂ _ _ hexit hret'
    refine ⟨trivial, fun h => absurd (hsub.symm.trans h) (by decide), fun hsimple hdef => ?_⟩
    -- A structure gets its field when it is left.
    have hd₂ : f₂.tpl.descOf (k :: p) = some d :=
      (Template.descOf_congr (hI₂.desc.trans hI.desc.symm) _).trans cur.desc
    have hroot : Template.countNode (k :: p) d = [] := if_pos hsub
    obtain ⟨r, hr, hset⟩ := createExitstruct_define hexit hret' hd₂ (array_of_define hsub hdef) hdef
    refine ⟨r, ?_, hset⟩
    rw [Template.countFound_congr hI₂.desc.symm]
    exact countFound_of_done hsimple hI₂.desc ⟨hd₂, hdef⟩ (by rw [hroot]; exact hI₂.entered.root)
      (by rw [hroot]; exact hr)

/-- What a creation gives the elements of the template. -/
theorem Created.elem_found (h : Created desc t) (hd : t.descOf loc = some d) :
    (d.type.attr.subset = false → d.type.hasOps = true) ∧
      (SimpleCounts desc → d.type.attr.define = true →
        ∃ r, t.countFound loc d = some r ∧ (t.elem loc).define = some r) := by
  obtain ⟨f, f', hbegin, hvisits, rfl⟩ := h.visits
  have hdesc := h.desc.trans hbegin.creating.desc.symm
  obtain ⟨-, hat⟩ := hvisits.passed createTemplateOps_local createPassing_found
    ⟨hbegin.creating, trivial⟩
  rw [hbegin.tempVar] at hat
  have hd₁ := (Template.descOf_congr hdesc loc).symm.trans hd
  rw [Template.countFound_congr (t := .blank desc) h.desc]
  exact hat loc d (beyond_root hd₁) hd₁

/-- A created template has only types that are known. -/
theorem Created.known (h : Created desc t) (hd : t.descOf loc = some d)
    (hsub : d.type.attr.subset = false) : d.type.hasOps = true := (h.elem_found hd).1 hsub

/-- A creation that succeeds has found all fields, and the elements have them. -/
theorem Created.found (hsimple : SimpleCounts desc) (h : Created desc t) :
    Found desc ∧ ∀ loc d, t.Counted loc d →
      ∃ q, t.countFound loc d = some q ∧ (t.elem loc).define = some q := by
  have hat (loc d) (hcounted : t.Counted loc d) :=
    (h.elem_found hcounted.1).2 hsimple hcounted.2
  have hblank : (Template.blank desc).desc = t.desc := h.desc.symm
  refine ⟨⟨fun loc d hcounted => ?_, fun loc d hd hsub => ?_⟩, hat⟩
  · obtain ⟨q, hq, -⟩ := hat loc d ((Template.counted_congr hblank).1 hcounted)
    rw [Template.countFound_congr hblank, hq]
    rfl
  · exact h.known ((Template.descOf_congr hblank loc).symm.trans hd) hsub

end Creation

/-! ## The cloning -/

section Cloning

variable {t : Template} {sourceIndex : Loc → Int} {p loc : Loc}
  {d : ElemDesc} {k : Nat} {c c₁ c' : Frame ClonePara} {ret : Int}

/-- The walk of the cloning is in a node of both templates, with those above it entered
    and no variable of a structure set. -/
structure Cloning (t : Template) (p : Loc) (c : Frame ClonePara) : Prop where
  desc : c.tpl.desc = t.desc
  above : c.tpl.Entered p
  unused : Unused c
  para : c.para = ⟨p, p⟩

theorem Cloning.next (h : Cloning t p c) (hd : c.tpl.descOf (k :: p) = some d)
    (hsub : d.type.attr.subset = false)
    (hproc : cloneTemplateProcFunc t sourceIndex (k :: p) c = some (ret, c₁)) :
    Cloning t p (c₁.next p) := by
  obtain ⟨honly, hnode, hpara, hscr⟩ := cloneProcFunc_spec hproc hd
  refine ⟨honly.desc.trans h.desc, h.above.congr honly.desc fun q _ => by
    exact congrArg NodeData.elemNo (congrFun hnode q), ?_, hpara.trans h.para⟩
  refine h.unused.congr honly.desc fun q e he hsubq => hscr q ?_
  rintro rfl
  obtain rfl := Option.some.inj (hd.symm.trans he)
  rw [hsub] at hsubq
  cases hsubq

theorem Cloning.enter (h : Cloning t p c) (hk : c.scr.tempVar p = k) :
    cloneTemplateEnterstruct t (k :: p) c = some (0, entered t p k c) := by
  simp only [cloneTemplateEnterstruct, h.para, hk, entered]

/-- Inside a structure that is entered. -/
theorem Cloning.down (hfull : t.Full) (h : Cloning t p c) (hd : c.tpl.descOf (k :: p) = some d)
    (hsub : d.type.attr.subset = true) :
    Cloning t (k :: p) ((entered t p k c).setTempVar (k :: p) 0) where
  desc := h.desc
  above := by
    have honly := entered_onlyAt t p k c
    refine Template.Entered.down (h.above.congr honly.desc fun q hq => ?_) ?_
    · refine congrArg NodeData.elemNo (honly.node q fun heq => ?_)
      have := hq.length_le
      rw [heq, List.length_cons] at this
      omega
    · have hnested : t.nested (k :: p) = true :=
        (Template.nested_of_desc ((Template.descOf_congr h.desc _).symm.trans hd)).trans hsub
      have hchildren : (entered t p k c).tpl.children (k :: p) = t.children (k :: p) :=
        Template.children_congr (honly.desc.trans h.desc) _
      change ((entered t p k c).tpl.node (k :: p)).elemNo = ((entered t p k c).tpl.children _).length
      rw [hchildren, ← hfull (k :: p) (.inr hnested)]
      exact congrArg NodeData.elemNo (Template.node_setNode_self _ _ _)
  unused := h.unused.entered
  para := rfl

/-- An array that is entered and left at once. -/
theorem Cloning.pastArray (h : Cloning t p c) (k : Nat) :
    Cloning t p (((entered t p k c).setPara ⟨p, p⟩).next p) where
  desc := h.desc
  above := h.above.congr (entered_onlyAt t p k c).desc fun q hq =>
    congrArg NodeData.elemNo ((entered_onlyAt t p k c).node q fun heq => by
      have := hq.length_le
      rw [heq, List.length_cons] at this
      omega)
  unused := h.unused.entered
  para := rfl

theorem Cloning.exit (h : Cloning t (k :: p) c) :
    cloneTemplateExitstruct (k :: p) (c.incIndex (k :: p)) =
      some (0, (c.incIndex (k :: p)).setPara ⟨p, p⟩) := by
  have hpara : (c.incIndex (k :: p)).para = ⟨k :: p, k :: p⟩ := h.para
  rw [cloneTemplateExitstruct, hpara]
  rfl

/-- Behind a structure that was gone through, after one pass. -/
theorem Cloning.up (h : Cloning t (k :: p) c) (hd : c.tpl.descOf (k :: p) = some d)
    (hsub : d.type.attr.subset = true) :
    ((c.incIndex (k :: p)).setPara ⟨p, p⟩).scr.index (k :: p) ≥
        ((c.incIndex (k :: p)).setPara ⟨p, p⟩).scr.limit (k :: p) ∧
      Cloning t p (((c.incIndex (k :: p)).setPara ⟨p, p⟩).leave p (k :: p)) := by
  refine ⟨?_, h.desc, h.above.up, (h.unused.leave hd hsub ⟨p, p⟩).2, rfl⟩
  obtain ⟨hlimit, hindex⟩ := h.unused (k :: p) d hd hsub
  change Function.update c.scr.index (k :: p) (c.scr.index (k :: p) + 1) (k :: p) ≥
    c.scr.limit (k :: p)
  rw [Function.update_self, hindex, hlimit]
  decide

/-- If no array is counted and the fields of the other elements are found, the cloning
    comes through. -/
theorem Cloning.passes (hsimple : SimpleCounts t.desc) (hfull : t.Full) (hfound : Found t.desc) :
    Passes (cloneTemplateOps t sourceIndex) (Cloning t) where
  count hI := hI.above _ List.suffix_rfl
  test _ _ := rfl
  leaf {p c k d} hI cur hsub := by
    have hdesc : (Template.blank t.desc).desc = c.tpl.desc := hI.desc.symm
    have hops := hfound.ops _ _ ((Template.descOf_congr hdesc (k :: p)).trans cur.desc) hsub
    obtain ⟨c₁, hproc⟩ : ∃ c₁, cloneTemplateProcFunc t sourceIndex (k :: p) c = some (0, c₁) := by
      simp only [cloneTemplateProcFunc, cur.desc, hI.para]
      split_ifs with hdefine
      · have hnode : Template.countNode (k :: p) d = p := by
          rw [Template.countNode, hsub]
          rfl
        have hcounted : c.tpl.Counted (k :: p) d := ⟨cur.desc, hdefine⟩
        obtain ⟨q, hq⟩ := hfound.isSome hI.desc hcounted
        have hcount := countElem_found hsimple hI.desc hcounted (by rw [hnode]; exact hI.above)
        rw [hnode, hq] at hcount
        rw [hcount]
        exact ⟨_, rfl⟩
      · exact ⟨_, rfl⟩
    exact ⟨hops, 0, c₁, hproc, Int.le_refl 0, hI.next cur.desc hsub hproc⟩
  enter {p c k d} hI cur hsub := by
    have henter := hI.enter (k := k) cur.tempVar
    refine ⟨0, _, henter, Int.le_refl 0, ?_⟩
    split_ifs with hnone
    · have hexit : cloneTemplateExitstruct (k :: p) (entered t p k c) =
          some (0, (entered t p k c).setPara ⟨p, p⟩) := rfl
      exact ⟨0, _, hexit, Int.le_refl 0, hI.pastArray k⟩
    · refine ⟨hI.down hfull cur.desc hsub, fun c₂ _ hI₂ => ?_⟩
      have hd₂ : c₂.tpl.descOf (k :: p) = some d :=
        (Template.descOf_congr (hI₂.desc.trans hI.desc.symm) _).trans cur.desc
      obtain ⟨hleave, hI₃⟩ := hI₂.up hd₂ hsub
      exact ⟨0, _, hI₂.exit, Int.le_refl 0, hleave, hI₃⟩

/-- A counted element of the clone gets the field that is found in the clone. -/
theorem cloneProcFunc_define (h : cloneTemplateProcFunc t sourceIndex loc c = some (ret, c₁))
    (hret : 0 ≤ ret) (hd : c.tpl.descOf loc = some d) (hdefine : d.type.attr.define = true) :
    ∃ define, c.tpl.countElem c.para.cloneNode d = .done define ∧
      (c₁.tpl.elem loc).define = some define := by
  rcases cloneProcFunc_cases h hd with ⟨hneg, -⟩ | ⟨e, i, hcounted, rfl⟩
  · exact absurd hret (Int.not_le.2 hneg)
  · obtain ⟨r, hcount, hr⟩ := hcounted hdefine
    exact ⟨r, hcount, hr ▸ congrArg ElemData.define (Template.elem_setElem_self ..)⟩

/-- The cloning gives the counted elements that are in no array the fields that are found for
    them. -/
theorem clonePassing_found (hsimple : SimpleCounts t.desc) (hfull : t.Full) :
    Passing (cloneTemplateOps t sourceIndex) (Cloning t) fun q d _ elem =>
      d.type.attr.define = true → d.type.attr.subset = false → ¬ t.InArray q.tail →
        ∃ r, t.countFound q d = some r ∧ elem.define = some r where
  count hI := hI.above _ List.suffix_rfl
  test _ _ := rfl
  leaf {p c k d ret c₁} hI cur hsub _ hproc hret := by
    refine ⟨hI.next cur.desc hsub hproc, fun hdef _ _ => ?_⟩
    have hnode : Template.countNode (k :: p) d = p := by
      rw [Template.countNode, hsub]
      rfl
    obtain ⟨r, hr, hset⟩ := cloneProcFunc_define hproc hret cur.desc hdef
    rw [hI.para] at hr
    refine ⟨r, ?_, hset⟩
    have hfound := countFound_of_done hsimple hI.desc ⟨cur.desc, hdef⟩
      (by rw [hnode]; exact hI.above) (by rw [hnode]; exact hr)
    exact (Template.countFound_congr hI.desc _ _).symm.trans hfound
  empty {p c k d ret c₁ ret' c₂} hI cur hsub henter hnone hexit := by
    obtain ⟨-, rfl⟩ := Prod.mk.inj (Option.some.inj ((hI.enter cur.tempVar).symm.trans henter))
    obtain ⟨-, rfl⟩ := Prod.mk.inj (Option.some.inj hexit)
    refine ⟨hI.pastArray k, fun s e he _ hleaf harray => ?_⟩
    exfalso
    rcases s with _ | ⟨j, s⟩
    · obtain rfl := Option.some.inj (cur.desc.symm.trans he)
      exact absurd (hsub.symm.trans hleaf) (by decide)
    · -- What is in an array is not gone through.
      have hin : t.InArray (k :: p) :=
        Or.inl ⟨d, (Template.descOf_congr hI.desc _).symm.trans cur.desc, hnone.1⟩
      exact harray (inArray_append hin s)
  down hI cur hsub henter := by
    obtain ⟨-, rfl⟩ := Prod.mk.inj (Option.some.inj ((hI.enter cur.tempVar).symm.trans henter))
    exact hI.down hfull cur.desc hsub
  up hI cur hsub _ _ hI₂ _ hexit _ := by
    obtain ⟨-, rfl⟩ := Prod.mk.inj (Option.some.inj (hI₂.exit.symm.trans hexit))
    obtain ⟨hleave, hI₃⟩ :=
      hI₂.up ((Template.descOf_congr (hI₂.desc.trans hI.desc.symm) _).trans cur.desc) hsub
    exact ⟨hleave, hI₃, fun _ hleaf => absurd (hsub.symm.trans hleaf) (by decide)⟩

/-- A created template whose fields are found has a clone, in which the counted elements
    that are in no array have these fields. -/
theorem Found.cloned (hsimple : SimpleCounts t.desc) (hfull : t.Full) (hfound : Found t.desc)
    (sourceIndex : Loc → Int) : ∃ clone, Clones t sourceIndex clone ∧
      ∀ loc d, t.Counted loc d → d.type.attr.subset = false → ¬ t.InArray loc.tail →
        ∃ r, t.countFound loc d = some r ∧ (clone.elem loc).define = some r := by
  let c : Frame ClonePara := ((⟨.blank t.desc, .clean, ⟨[], []⟩⟩ : Frame ClonePara).setTempVar [] 0).setTpl
    ((Template.blank t.desc).setNode [] (t.node []))
  have hstart : cloneTemplateStart t ((⟨.blank t.desc, .clean, ⟨[], []⟩⟩ : Frame ClonePara).setTempVar
      [] 0) = some (0, c) := rfl
  have hk : c.scr.tempVar [] = 0 := tempVar_setTempVar _ [] 0
  have hI : Cloning t [] c := by
    refine ⟨rfl, fun q hq => ?_, fun _ _ _ _ => ⟨rfl, rfl⟩, rfl⟩
    rw [List.suffix_nil.1 hq]
    exact (congrArg NodeData.elemNo (Template.node_setNode_self _ _ _)).trans (hfull [] (.inl rfl))
  obtain ⟨c', hvisits, -⟩ :=
    (Cloning.passes hsimple hfull hfound).visits_root cloneTemplateOps_local.tame hI hk
  refine ⟨c'.tpl, ⟨0, c', Int.le_refl 0,
    converts_of_visits hstart (Int.le_refl 0) hvisits rfl, rfl⟩, fun loc d hcounted => ?_⟩
  obtain ⟨-, hat⟩ := hvisits.passed cloneTemplateOps_local (clonePassing_found hsimple hfull) hI
  have hd := (Template.descOf_congr hI.desc _).trans hcounted.1
  exact hat loc d (hk.symm ▸ beyond_root hd) hd hcounted.2

/-- In a clone, arrays and what is in them are not counted. -/
theorem Clones.lost {clone : Template} (h : Clones t sourceIndex clone)
    (hcounted : t.Counted loc d) (hlost : d.type.attr.subset = true ∨ t.InArray loc.tail) :
    (clone.elem loc).define = none := by
  obtain ⟨c, c', htpl, hunused, hvisits, rfl⟩ := h.visits
  have hdesc : c.tpl.desc = t.desc := by
    rw [htpl]
    rfl
  obtain ⟨-, hsubset, hbelow⟩ := cloneVisits_lost hvisits hunused id
  have hblank : c.tpl.elem loc = {} := by
    rw [htpl]
    rfl
  rcases hlost with hsub | hin
  · rw [hsubset loc d ((Template.descOf_congr hdesc loc).trans hcounted.1) hsub, hblank]
  · rcases loc with _ | ⟨k, p⟩
    · cases hcounted.1
    · rw [(hbelow k p ((inArray_congr hdesc p).2 hin)).1, hblank]

end Cloning

/-! ## Names that are resolved -/

section Resolved

variable {desc : List ElemDesc} {t : Template} {loc : Loc} {d : ElemDesc}

/-- The field that is found for an element that is no array is the one that is meant. -/
theorem countFound_eq_countOf (hsub : d.type.attr.subset = false)
    (hsized : ∀ name, d.defName = some name → Template.Sized (Template.bareName name)) :
    t.countFound loc d = t.countOf loc d := by
  rw [Template.countFound, Template.countOf]
  rcases hname : d.defName with _ | name
  · rfl
  · have hnode : Template.countNode loc d = loc.tail := by
      rw [Template.countNode, hsub]
      rfl
    rw [Option.bind_some, Option.bind_some, if_pos (hsized name hname), hnode]

/-- The fields of the counted elements are resolved as they are meant exactly if there are
    some that are neither there nor found, or if all are there, no counted element is an
    array or in one, no name is too long and all types are known. -/
theorem resolvesCounts_iff (hsimple : SimpleCounts desc) : ResolvesCounts desc ↔
    (∃ loc d, (Template.blank desc).Counted loc d ∧ (Template.blank desc).countOf loc d = none) ∧
      ¬ Found desc ∨
    (∀ loc d, (Template.blank desc).Counted loc d →
      ((Template.blank desc).countOf loc d).isSome ∧ d.type.attr.subset = false ∧
        ¬ (Template.blank desc).InArray loc.tail ∧
        ∀ name, d.defName = some name → Template.Sized (Template.bareName name)) ∧
      ∀ loc d, (Template.blank desc).descOf loc = some d → d.type.attr.subset = false →
        d.type.hasOps = true := by
  constructor
  · intro h
    by_cases hcreated : ∃ t, Created desc t
    · obtain ⟨t, hcreated⟩ := hcreated
      have hdesc : t.desc = (Template.blank desc).desc := hcreated.desc
      obtain ⟨hfound, -⟩ := hcreated.found hsimple
      obtain ⟨clone, hclones, hdefine⟩ := h.cloned t hcreated fun _ => 0
      refine .inr ⟨fun loc d hcounted => ?_, hfound.ops⟩
      have hcounted' := (Template.counted_congr hdesc).2 hcounted
      have hkept : ¬ (d.type.attr.subset = true ∨ t.InArray loc.tail) := fun hlost => by
        obtain ⟨q, -, hq⟩ := hdefine loc d hcounted'
        rw [hclones.lost hcounted' hlost] at hq
        cases hq
      obtain ⟨hsub, hin⟩ := not_or.1 hkept
      refine ⟨h.created.1 ⟨t, hcreated⟩ loc d hcounted, Bool.eq_false_iff.2 hsub,
        fun h => hin ((inArray_congr hdesc _).2 h), fun name hname => ?_⟩
      have hsome := hfound.count loc d hcounted
      rw [Template.countFound, hname, Option.bind_some] at hsome
      by_contra hsized
      rw [if_neg hsized] at hsome
      cases hsome
    · refine .inl ⟨?_, fun hfound => hcreated (hfound.created hsimple)⟩
      by_contra hall
      refine hcreated (h.created.2 fun loc d hcounted => ?_)
      exact Option.isSome_iff_ne_none.2 fun hnone => hall ⟨loc, d, hcounted, hnone⟩
  · rintro (⟨⟨loc, d, hcounted, hnone⟩, hfound⟩ | ⟨hcount, hops⟩)
    · have hcreated : ∀ t, ¬ Created desc t := fun t h => hfound (h.found hsimple).1
      refine ⟨⟨fun ⟨t, h⟩ => absurd h (hcreated t), fun h => ?_⟩,
        fun t h => absurd h (hcreated t), fun t h => absurd h (hcreated t)⟩
      have := h loc d hcounted
      rw [hnone] at this
      cases this
    · have hfound : Found desc := ⟨fun loc d hcounted => by
        obtain ⟨hsome, hsub, -, hsized⟩ := hcount loc d hcounted
        rwa [countFound_eq_countOf hsub hsized], hops⟩
      refine ⟨⟨fun _ loc d hcounted => (hcount loc d hcounted).1, fun _ => hfound.created hsimple⟩,
        fun t hcreated loc d hcounted => ?_, fun t hcreated sourceIndex => ?_⟩
      · obtain ⟨-, hsub, -, hsized⟩ :=
          hcount loc d ((Template.counted_congr hcreated.desc).1 hcounted)
        rw [← countFound_eq_countOf hsub hsized]
        exact (hcreated.found hsimple).2 loc d hcounted
      · have hdesc : t.desc = (Template.blank desc).desc := hcreated.desc
        obtain ⟨clone, hclones, hdefine⟩ :=
          Found.cloned (hdesc ▸ hsimple) hcreated.full (hdesc ▸ hfound) sourceIndex
        refine ⟨clone, hclones, fun loc d hcounted => ?_⟩
        obtain ⟨-, hsub, hin, hsized⟩ := hcount loc d ((Template.counted_congr hdesc).1 hcounted)
        rw [← countFound_eq_countOf hsub hsized]
        exact hdefine loc d hcounted hsub fun h => hin ((inArray_congr hdesc _).1 h)

/-- What holds of the elements of a description and of those nested in elements of which
    it holds, holds of all elements. -/
theorem descOf_induction {P : ElemDesc → Prop} (hdesc : ∀ d ∈ desc, P d)
    (hsub : ∀ d, P d → ∀ e ∈ d.sub, P e) {loc : Loc}
    (hd : (Template.blank desc).descOf loc = some d) : P d := by
  have hchildren : ∀ p, ∀ e ∈ (Template.blank desc).children p, P e := by
    intro p
    induction p with
    | nil => exact hdesc
    | cons k p ih =>
      rw [Template.children]
      split
      next d' hd' =>
        split_ifs
        · exact hsub d' (ih d' (List.mem_of_getElem? hd'))
        · exact fun e he => absurd he List.not_mem_nil
      next => exact fun e he => absurd he List.not_mem_nil
  rcases loc with _ | ⟨k, p⟩
  · cases hd
  · exact hchildren p d (List.mem_of_getElem? hd)

/-- An element of a type that is counted by the field `n`. -/
def countedElem (name : Char) (type : ElemType) : ElemDesc :=
  ⟨[name], type, 0, [], none, some ['n']⟩

theorem simpleCounts_of (P : ElemDesc → Prop) (hdesc : ∀ d ∈ desc, P d)
    (hsub : ∀ d, P d → ∀ e ∈ d.sub, P e)
    (hP : ∀ d, P d → d.type.attr.define = false ∨ d.defName = some ['n']) :
    SimpleCounts desc := by
  rintro loc d ⟨hd, hdefine⟩
  rcases hP d (descOf_induction hdesc hsub hd) with hnot | hname
  · rw [hnot] at hdefine
    cases hdefine
  · exact ⟨['n'], hname, by decide⟩

/-- A blob that is counted by an integer before it has its field. -/
theorem resolvesCounts_define : ResolvesCounts [intElem 'n', countedElem 'd' .define] := by
  have hall : ∀ d ∈ [intElem 'n', countedElem 'd' .define],
      d = intElem 'n' ∨ d = countedElem 'd' .define := by simp
  refine (resolvesCounts_iff (simpleCounts_of _ hall ?_ ?_)).2 (.inr ⟨fun loc d hcounted => ?_, ?_⟩)
  · rintro d (rfl | rfl) e he <;> cases he
  · rintro d (rfl | rfl)
    · exact .inl rfl
    · exact .inr rfl
  · obtain ⟨k, rfl, hk⟩ := (Template.blank _).descOf_flat (fun d hd => by
      rcases hall d hd with rfl | rfl <;> rfl) hcounted.1
    rcases hall d (List.mem_of_getElem? hk) with rfl | rfl
    · cases hcounted.2
    · refine ⟨rfl, rfl, id, fun name hname => ?_⟩
      obtain rfl := Option.some.inj hname
      decide
  · intro loc d hd _
    rcases descOf_induction hall (by rintro d (rfl | rfl) e he <;> cases he) hd with rfl | rfl <;> rfl

/-- An array in a structure gets its field from the root. -/
theorem not_resolvesCounts_nested : ∃ desc, SimpleCounts desc ∧ ¬ ResolvesCounts desc := by
  let inner : List ElemDesc := [intElem 'n', countedElem 'a' .defarray]
  let nested : List ElemDesc := [intElem 'n', ⟨['s'], .substruct, 0, inner, none, none⟩]
  refine ⟨nested, ?_, fun h => ?_⟩
  · refine simpleCounts_of (fun d => d = intElem 'n' ∨ d = countedElem 'a' .defarray ∨
      d = ⟨['s'], .substruct, 0, inner, none, none⟩) (by simp [nested]) ?_ ?_
    · rintro d (rfl | rfl | rfl) e he
      · cases he
      · cases he
      · rcases List.mem_cons.1 he with rfl | he
        · exact .inl rfl
        · exact .inr (.inl (List.mem_singleton.1 he))
    · rintro d (rfl | rfl | rfl)
      · exact .inl rfl
      · exact .inr rfl
      · exact .inl rfl
  · obtain ⟨t, hcreated, hdefine⟩ :
        ∃ t, Created nested t ∧ (t.elem [1, 1]).define = some [0] :=
      ⟨_, ⟨0, _, Int.le_refl 0, ⟨12, rfl⟩, rfl⟩, by decide⟩
    have hdesc : t.desc = (Template.blank nested).desc := hcreated.desc
    obtain ⟨q, hcount, hq⟩ := h.resolved t hcreated [1, 1] (countedElem 'a' .defarray)
      ⟨by rw [Template.descOf_congr hdesc]; rfl, rfl⟩
    have hmeant : (Template.blank nested).countOf [1, 1] (countedElem 'a' .defarray) = some [0, 1] :=
      rfl
    rw [Template.countOf_congr hdesc, hmeant] at hcount
    rw [hdefine] at hq
    have := hq.trans hcount.symm
    cases this

end Resolved

end Cube.Struct
