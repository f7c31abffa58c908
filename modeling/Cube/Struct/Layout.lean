import Cube.Struct.CountName

/-!
# The layout of a structure

The bytes that `create_struct_template` gives to the elements of a structure, and
`struct_size`, by which memory for a structure is allocated.

* `Created.laid`: every element has the offset behind those before it in its structure, and the
  size that its description says.
* `Created.structSize_eq`: `struct_size` is the number of bytes of a structure, but for one
  whose last element is an array, where it has the size of an element of the array in the place
  of that of a pointer.
-/

namespace Cube.Struct

open Lib

/-! ## Bytes by the description -/

mutual

/-- The bytes of an element in its structure: of an array, those of the pointer to it. -/
def bytes : ElemDesc → Int
  | ⟨name, type, size, sub, names, defName⟩ =>
    if type.attr.subset then
      if type.attr.array then pointerSize
      else bytesOf sub * ElemDesc.number ⟨name, type, size, sub, names, defName⟩
    else leafSize ⟨name, type, size, sub, names, defName⟩

/-- The bytes of elements one behind the other. -/
def bytesOf : List ElemDesc → Int
  | [] => 0
  | d :: ds => bytes d + bytesOf ds

end

/-- The size of an element: of a structure that of one of them. -/
def elemSize (d : ElemDesc) : Int := if d.type.attr.subset then bytesOf d.sub else leafSize d

section Bytes

variable {d : ElemDesc}

theorem bytes_leaf (hsub : d.type.attr.subset = false) : bytes d = leafSize d := by
  cases d
  simp only [bytes, hsub, Bool.false_eq_true, if_false]

theorem bytes_array (hsub : d.type.attr.subset = true) (harray : d.type.attr.array = true) :
    bytes d = pointerSize := by
  cases d
  simp only [bytes, hsub, harray, if_true]

theorem bytes_struct (hsub : d.type.attr.subset = true) (harray : d.type.attr.array = false) :
    bytes d = bytesOf d.sub * d.number := by
  cases d
  simp only [bytes, hsub, harray, if_true, Bool.false_eq_true, if_false]

theorem bytesOf_append (ds ds' : List ElemDesc) : bytesOf (ds ++ ds') = bytesOf ds + bytesOf ds' := by
  induction ds with
  | nil => simp [bytesOf]
  | cons d ds ih => rw [List.cons_append, bytesOf, bytesOf, ih, Int.add_assoc]

/-- The offset behind an element is that of the next one. -/
theorem bytesOf_take_succ {ds : List ElemDesc} {k : Nat} (hd : ds[k]? = some d) :
    bytesOf (ds.take (k + 1)) = bytesOf (ds.take k) + bytes d := by
  rw [List.take_add_one, hd, Option.toList_some, bytesOf_append, bytesOf, bytesOf, Int.add_zero]

end Bytes

/-! ## What the creation does to the layout -/

section Create

variable {desc : List ElemDesc} {t : Template} {p loc : Loc} {d : ElemDesc} {k : Nat}
  {f f₁ f' : Frame CreatePara} {ret : Int}

/-- An element that is no structure is put at the current offset. -/
theorem createProcFunc_layout (h : createTemplateProcFunc (k :: p) f = some (ret, f₁))
    (hret : 0 ≤ ret) (hd : f.tpl.descOf (k :: p) = some d) :
    f₁.para.currOffset = f.para.currOffset + leafSize d ∧
      (f₁.tpl.elem (k :: p)).offset = f.para.currOffset ∧
      (f₁.tpl.elem (k :: p)).size = leafSize d := by
  rcases createProcFunc_cases h hd with ⟨hneg, -⟩ | ⟨define, ref, -, rfl⟩
  · exact absurd hret (Int.not_le.2 hneg)
  · exact ⟨rfl, by simp, by simp⟩

/-- A structure is put at the current offset, and its elements from 0 on. -/
theorem createEnterstruct_layout (h : createTemplateEnterstruct loc f = some (ret, f₁)) :
    f₁.para.currOffset = 0 ∧ (f₁.tpl.elem loc).offset = f.para.currOffset := by
  rw [createTemplateEnterstruct] at h
  cases hd : f.tpl.descOf loc with
  | none => simp only [hd, reduceCtorEq] at h
  | some d =>
    simp only [hd] at h
    obtain ⟨_, rfl⟩ := Prod.mk.inj (Option.some.inj h)
    exact ⟨rfl, congrArg ElemData.offset (Template.elem_setElem_self ..)⟩

/-- A structure that is left has the size of its elements, and the next one is put behind it. -/
theorem createExitstruct_layout (h : createTemplateExitstruct loc f = some (ret, f₁))
    (hret : 0 ≤ ret) (hd : f.tpl.descOf loc = some d) :
    f₁.para.currOffset = (f.tpl.elem loc).offset +
        (if d.type.attr.array then pointerSize else f.para.currOffset * d.number) ∧
      (f₁.tpl.elem loc).offset = (f.tpl.elem loc).offset ∧
      (f₁.tpl.elem loc).size = f.para.currOffset := by
  rcases createExitstruct_cases h with ⟨hneg, -⟩ | ⟨e, define, limit, he, -, rfl⟩
  · exact absurd hret (Int.not_le.2 hneg)
  · obtain rfl := Option.some.inj (hd.symm.trans he)
    exact ⟨rfl, by simp, by simp⟩

/-- The element is where its description says. -/
def Template.LaidAt (t : Template) (k : Nat) (p : Loc) (d : ElemDesc) : Prop :=
  (t.elem (k :: p)).offset = bytesOf ((t.children p).take k) ∧ (t.elem (k :: p)).size = elemSize d

/-- All elements are where their descriptions say. -/
def Template.Laid (t : Template) : Prop :=
  ∀ k p d, t.descOf (k :: p) = some d → t.LaidAt k p d

/-- The creation puts the elements one behind the other. -/
theorem createPassing_lays : Passing createTemplateOps
    (fun p f => Creating desc p f ∧
      f.para.currOffset = bytesOf ((f.tpl.children p).take (f.scr.tempVar p)))
    fun q d _ elem => ∀ k p, q = k :: p →
      elem.offset = bytesOf (((Template.blank desc).children p).take k) ∧ elem.size = elemSize d := by
  refine createPassing ?_ ?_ ?_
  · intro p f k d ret f₁ hI hpara cur hsub _ hproc hret
    have honly := createTemplateOps_local.procFunc hproc
    obtain ⟨hnext, hoffset, hsize⟩ := createProcFunc_layout hproc hret cur.desc
    rw [cur.tempVar] at hpara
    constructor
    · rw [tempVar_next, (cur.of_keeps honly.keeps).tempVar]
      refine hnext.trans ?_
      change _ = bytesOf ((f₁.tpl.children p).take (k + 1))
      rw [Template.children_congr honly.desc, bytesOf_take_succ cur.desc, bytes_leaf hsub, ← hpara]
    · rintro _ _ ⟨⟩
      rw [Template.children_congr hI.desc.symm, elemSize, hsub, ← hpara]
      exact ⟨hoffset, hsize⟩
  · intro p f k ret f₁ _ henter
    rw [tempVar_setTempVar, List.take_zero]
    exact (createEnterstruct_layout henter).1
  · intro p f k d ret f₁ f₂ ret' f₃ hI hpara cur hsub henter inside hI₂ hpara₂ hvar hexit hret'
    obtain ⟨honly₃, -⟩ := createExitstruct_spec hexit
    have hdesc₂ : f₂.tpl.desc = f.tpl.desc := hI₂.desc.trans hI.desc.symm
    have hd₂ : f₂.tpl.descOf (k :: p) = some d := (Template.descOf_congr hdesc₂ _).trans cur.desc
    -- The elements of the structure, and then the structure itself.
    have hsub₂ : f₂.para.currOffset = bytesOf d.sub := by
      rw [hpara₂, inside.at_end, hI₂.entered _ List.suffix_rfl, List.take_length,
        Template.children_of_desc hd₂ hsub]
    obtain ⟨hnext, hoffset₃, hsize₃⟩ := createExitstruct_layout hexit hret' hd₂
    have hat : (f₂.tpl.elem (k :: p)).offset = f.para.currOffset :=
      (congrArg ElemData.offset (inside.frame_self createTemplateOps_local).2).trans
        (createEnterstruct_layout henter).2
    rw [cur.tempVar] at hpara
    constructor
    · have hnext₃ : f₃.para.currOffset = f.para.currOffset + bytes d := by
        refine (hnext.trans (congrArg₂ _ hat ?_))
        change (if d.type.attr.array then pointerSize else f₂.para.currOffset * d.number) = _
        rw [hsub₂]
        cases harray : d.type.attr.array with
        | true => exact (bytes_array hsub harray).symm
        | false => exact (bytes_struct hsub harray).symm
      rw [honly₃.tempVar_leave hvar]
      refine hnext₃.trans ?_
      change _ = bytesOf ((f₃.tpl.children p).take (k + 1))
      rw [Template.children_congr (honly₃.desc.trans hdesc₂), bytesOf_take_succ cur.desc, ← hpara]
    · rintro _ _ ⟨⟩
      rw [Template.children_congr hI.desc.symm, elemSize, hsub, ← hpara]
      exact ⟨hoffset₃.trans hat, hsize₃.trans hsub₂⟩

/-- Every element of a created template is where its description says. -/
theorem Created.laid (h : Created desc t) : t.Laid := by
  obtain ⟨f, f', hbegin, hvisits, rfl⟩ := h.visits
  intro k p d hd
  have hpara : f.para.currOffset = bytesOf ((f.tpl.children []).take (f.scr.tempVar [])) := by
    rw [hbegin.para, hbegin.tempVar, List.take_zero]
    rfl
  obtain ⟨-, hlaid⟩ :=
    hvisits.passed createTemplateOps_local createPassing_lays ⟨hbegin.creating, hpara⟩
  have hd₁ := (Template.descOf_congr (hvisits.keeps createTemplateOps_local.tame).desc _).symm.trans hd
  rw [Template.LaidAt, Template.children_congr (t := .blank desc) h.desc]
  exact hlaid (k :: p) d (hbegin.tempVar.symm ▸ beyond_root hd₁) hd₁ k p rfl

end Create

/-! ## The size of a structure -/

/-- `struct_size`, of the structure at a place; none if it has no element, as the one before
    the first is looked at then. No operations have an `elem_size`. -/
def Template.structSize (t : Template) (p : Loc) : Option Int :=
  match (t.children p).getLast? with
  | none => none
  | some d =>
    let lastElem := t.elem (((t.children p).length - 1) :: p)
    if d.type = .substruct then
      if d.size = 0 then some (lastElem.offset + lastElem.size)
      else some (lastElem.offset + lastElem.size * d.size)
    else some (lastElem.offset + lastElem.size)

/-- The bytes that `struct_size` takes the last element to have. -/
def lastBytes (d : ElemDesc) : Int :=
  if d.type.attr.subset ∧ d.type.attr.array then bytesOf d.sub else bytes d

/-- A structure that is no array is a `SUBSTRUCT`. -/
theorem substruct_of_attr {type : ElemType} (hsub : type.attr.subset = true)
    (harray : type.attr.array = false) : type = .substruct := by
  revert hsub harray
  cases type <;> decide

/-- `struct_size` is the bytes of the elements before the last, and what the last is taken to
    have. -/
theorem Template.Laid.structSize_eq {t : Template} (h : t.Laid) {p : Loc} {d : ElemDesc}
    (hd : (t.children p).getLast? = some d) :
    t.structSize p = some (bytesOf (t.children p).dropLast + lastBytes d) := by
  have hlast : t.descOf (((t.children p).length - 1) :: p) = some d := by
    rw [Template.descOf, ← List.getLast?_eq_getElem?, hd]
  obtain ⟨hoffset, hsize⟩ := h _ _ _ hlast
  rw [← List.dropLast_eq_take] at hoffset
  simp only [Template.structSize, hd, hoffset, hsize]
  cases hsub : d.type.attr.subset with
  | false =>
    have htype : d.type ≠ .substruct := fun htype => by
      rw [htype] at hsub
      cases hsub
    rw [if_neg htype, elemSize, hsub, lastBytes, hsub, bytes_leaf hsub]
    rfl
  | true =>
    cases harray : d.type.attr.array with
    | false =>
      rw [if_pos (substruct_of_attr hsub harray), elemSize, hsub, lastBytes, hsub, harray,
        bytes_struct hsub harray, ElemDesc.number]
      by_cases hnone : d.size = 0
      · simp [hnone]
      · simp [hnone]
    | true =>
      have htype : d.type ≠ .substruct := fun htype => by
        rw [htype] at harray
        cases harray
      rw [if_neg htype, elemSize, hsub, lastBytes, hsub, harray]
      rfl

/-- The bytes of a structure are those of the elements before the last, and of the last. -/
theorem bytesOf_dropLast {ds : List ElemDesc} {d : ElemDesc} (hd : ds.getLast? = some d) :
    bytesOf ds = bytesOf ds.dropLast + bytes d := by
  obtain ⟨init, rfl⟩ := List.getLast?_eq_some_iff.1 hd
  rw [List.dropLast_concat, bytesOf_append, bytesOf, bytesOf, Int.add_zero]

/-- The bytes that a template gives to an element. -/
def Template.extent (t : Template) (loc : Loc) : Int :=
  match t.descOf loc with
  | none => 0
  | some d =>
    if d.type.attr.subset then
      if d.type.attr.array then pointerSize else (t.elem loc).size * d.number
    else (t.elem loc).size

/-- The bytes given to an element are those of its description. -/
theorem Template.Laid.extent_eq {t : Template} (h : t.Laid) {k : Nat} {p : Loc} {d : ElemDesc}
    (hd : t.descOf (k :: p) = some d) : t.extent (k :: p) = bytes d := by
  have hsize := (h k p d hd).2
  simp only [Template.extent, hd, hsize, elemSize]
  cases hsub : d.type.attr.subset with
  | false => exact (bytes_leaf hsub).symm
  | true =>
    cases harray : d.type.attr.array with
    | true => exact (bytes_array hsub harray).symm
    | false => exact (bytes_struct hsub harray).symm

/-- An element that is behind another one is behind its end, if no bytes are below 0. -/
theorem bytesOf_take_le {ds : List ElemDesc} (hbytes : ∀ d ∈ ds, 0 ≤ bytes d) {j k : Nat}
    (hjk : j ≤ k) : bytesOf (ds.take j) ≤ bytesOf (ds.take k) := by
  induction hjk with
  | refl => exact Int.le_refl _
  | @step k _ ih =>
    refine Int.le_trans ih ?_
    rcases hd : ds[k]? with _ | d
    · refine Int.le_of_eq ?_
      rw [List.take_of_length_le (List.getElem?_eq_none_iff.1 hd),
        List.take_of_length_le (Nat.le_succ_of_le (List.getElem?_eq_none_iff.1 hd))]
    · have hnonneg := hbytes d (List.mem_of_getElem? hd)
      rw [bytesOf_take_succ hd]
      omega

/-- An element ends before the end of its structure. -/
theorem bytesOf_take_add_le {ds : List ElemDesc} (hbytes : ∀ d ∈ ds, 0 ≤ bytes d) {k : Nat}
    {d : ElemDesc} (hd : ds[k]? = some d) : bytesOf (ds.take k) + bytes d ≤ bytesOf ds := by
  have hle := bytesOf_take_le hbytes (Nat.succ_le_of_lt (List.getElem?_eq_some_iff.1 hd).1)
  rwa [Nat.succ_eq_add_one, bytesOf_take_succ hd, List.take_length] at hle

end Cube.Struct
