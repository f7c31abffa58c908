import Cube.Struct.Flags

/-!
# Flags on named elements

`struct_set_flag` and `struct_clear_flag` take a list of names with commas between them.
Setting marks each element, with what is below it and the elements above; clearing takes the
mark off the element alone, and off the nodes above in which nothing else is marked.

* `undoes_iff`: when clearing the names in a list takes back setting them.
* `unmarks_iff`: what clearing one of them leaves.
* `clearFlags_iff`: both, with clearing a flag everywhere.
-/

namespace Cube.Struct

open Lib

/-! ## The names in a list -/

/-- The loop of `Getfiledfromstr`: the characters up to the separator, or to the NUL, if they
    are fewer than the limit. -/
def fieldLoop (ifs : Char) : Nat → List Char → Option (List Char)
  | 0, _ => none
  | _ + 1, [] => some []
  | n + 1, c :: str => if c = ifs then some [] else (fieldLoop ifs n str).map (c :: ·)

/-- `Getfiledfromstr` with a size, on the characters of a string: the field, without the blanks
    before it, and the number of characters it takes. A field that is too long is read as an
    empty one. (`FlagList.getfiledfromstr_done`: what it comes to with its counters.) -/
def getfiledfromstr (str : List Char) (ifs : Char) (maxsize : Nat) : List Char × Nat :=
  let rest := str.dropWhile (· = ' ')
  let blanks := str.length - rest.length
  if rest = [] then ([], 0)
  else match fieldLoop ifs maxsize rest with
  | some name => (name, blanks + name.length)
  | none => ([], blanks + maxsize)

/-- The names that the loop over a list reads, where a turn of it takes a character at least. -/
def namesLoop : Nat → List Char → List (List Char)
  | 0, _ => []
  | n + 1, str =>
    match getfiledfromstr str ',' (maxNameLen + 1) with
    | (_, 0) => []
    | (name, i) =>
      let rest := str.drop i
      name :: namesLoop n (if rest.head? = some ',' then rest.tail else rest)

/-- The names in a list. -/
def namesIn (namelist : List Char) : List (List Char) := namesLoop namelist.length namelist

/-! ## Setting and clearing -/

namespace Template

/-- The elements above one are marked. -/
def markFathers (flag : Int32) : Loc → Template → Template
  | [], t => t
  | k :: p, t => markFathers flag p (t.mapElem (k :: p) (· ||| flag))

/-- What `struct_set_flag` does with an element it has found. -/
def setElemFlag (flag : Int32) (loc : Loc) (t : Template) : Option Template :=
  let t := t.mapElem loc (· ||| flag)
  let below := if t.nested loc then structSetAllflag loc flag t else some t
  below.map (markFathers flag loc.tail)

/-- The mark of an element: that of its node, if it is a structure. -/
def Marked (flag : Int32) (t : Template) (loc : Loc) : Prop :=
  if t.nested loc then Carries (t.node loc).flag flag else Carries (t.elem loc).flag flag

instance (flag : Int32) (t : Template) (loc : Loc) : Decidable (t.Marked flag loc) :=
  inferInstanceAs (Decidable (if t.nested loc then Carries (t.node loc).flag flag
    else Carries (t.elem loc).flag flag))

/-- The nodes above an element are cleared, up to one in which an element is marked. -/
def clearFathers (flag : Int32) : Loc → Template → Template
  | [], t =>
    if ∃ i < (t.node []).elemNo, t.Marked flag [i] then t
    else t.mapNode [] (· &&& ~~~flag)
  | k :: p, t =>
    if ∃ i < (t.node (k :: p)).elemNo, t.Marked flag (i :: k :: p) then t
    else clearFathers flag p (t.mapNode (k :: p) (· &&& ~~~flag))

/-- What `struct_clear_flag` does with an element it has found. In a structure it sets the
    flag. -/
def clearElemFlag (flag : Int32) (loc : Loc) (t : Template) : Option Template :=
  let cleared := if t.nested loc then structSetAllflag loc flag t
    else some (t.mapElem loc (· &&& ~~~flag))
  cleared.map (clearFathers flag loc.tail)

end Template

/-- The loop over names, with what is done to the element of each: the number of elements, or
    the error of a name without one. The pointer that stands for an error is used as one to
    an element. -/
def overNames (act : Loc → Template → Option Template) :
    List (List Char) → Int → Template → Outcome (Int × Template)
  | [], count, t => .done (count, t)
  | name :: names, count, t =>
    match t.elemByName [] name with
    | .null => .done (-EINVAL, t)
    | .invalid => .fault
    | .elem loc =>
      match act loc t with
      | none => .fault
      | some t => overNames act names (count + 1) t

/-- `struct_set_flag`. -/
def structSetFlag (flag : Int32) (namelist : List Char) (t : Template) :
    Outcome (Int × Template) :=
  overNames (Template.setElemFlag flag) (namesIn namelist) 0 t

/-- `struct_clear_flag`. -/
def structClearFlag (flag : Int32) (namelist : List Char) (t : Template) :
    Outcome (Int × Template) :=
  overNames (Template.clearElemFlag flag) (namesIn namelist) 0 t

/-! ## What is asked of them -/

/-- The elements that the names stand for, up to the first that stands for none; nothing if
    the search for one of them ends with the pointer of an error. -/
def located (t : Template) : List (List Char) → Option (List Loc)
  | [] => some []
  | name :: names =>
    match t.elemByName [] name with
    | .null => some []
    | .invalid => none
    | .elem loc => (located t names).map (loc :: ·)

/-- Setting the names in a list and then clearing them leaves no element with the flag. -/
def Undoes (t : Template) (flag : Int32) (namelist : List Char) : Prop :=
  ∃ ret t₁ ret' t₂, structSetFlag flag namelist t = .done (ret, t₁) ∧
    structClearFlag flag namelist t₁ = .done (ret', t₂) ∧
    ∀ loc d, t.descOf loc = some d → ¬ Carries (t₂.elem loc).flag flag

/-- Clearing a list with the element's name takes the flag off the element and all below it,
    and keeps the other leaves that carry it, with what carries it above them. -/
def Unmarks (t : Template) (flag : Int32) (namelist : List Char) (loc : Loc) : Prop :=
  ∃ ret t', structClearFlag flag namelist t = .done (ret, t') ∧
    (∀ q d, loc <:+ q → t.descOf q = some d →
      ¬ Carries (t'.elem q).flag flag ∧ (t.nested q = true → ¬ Carries (t'.node q).flag flag)) ∧
    ∀ q d, t.descOf q = some d → t.nested q = false → ¬ loc <:+ q →
      Carries (t.elem q).flag flag →
      Carries (t'.elem q).flag flag ∧ ∀ p, p <:+ q.tail →
        (Carries (t.elem p).flag flag → Carries (t'.elem p).flag flag) ∧
        (Carries (t.node p).flag flag → Carries (t'.node p).flag flag)

/-- A node above an element stays as it is when the element is cleared: a node from the
    element's up to it has another element that is marked. -/
def Guarded (t : Template) (flag : Int32) (loc p : Loc) : Prop :=
  ∃ r, p <:+ r ∧ r <:+ loc.tail ∧
    ∃ i < (t.node r).elemNo, ¬ (i :: r <:+ loc) ∧ t.Marked flag (i :: r)

/-- The nodes above an element that carry the flag are guarded, where they are above another
    leaf that carries it. -/
def GuardedAbove (t : Template) (flag : Int32) (loc : Loc) : Prop :=
  ∀ p, p <:+ loc.tail → Carries (t.node p).flag flag →
    (∃ q d, t.descOf q = some d ∧ t.nested q = false ∧ q ≠ loc ∧ p <:+ q.tail ∧
      Carries (t.elem q).flag flag) → Guarded t flag loc p

/-! ## The loop over names -/

/-- Two templates with the same elements in their nodes. -/
structure Alike (t t' : Template) : Prop where
  desc : t'.desc = t.desc
  elemNo : ∀ p, (t'.node p).elemNo = (t.node p).elemNo

namespace Alike

variable {t t' t'' : Template}

theorem refl (t : Template) : Alike t t := ⟨rfl, fun _ => rfl⟩

theorem trans (h : Alike t t') (h' : Alike t' t'') : Alike t t'' :=
  ⟨h'.desc.trans h.desc, fun p => (h'.elemNo p).trans (h.elemNo p)⟩

theorem descOf (h : Alike t t') (loc : Loc) : t'.descOf loc = t.descOf loc :=
  Template.descOf_congr h.desc loc

theorem nested (h : Alike t t') (loc : Loc) : t'.nested loc = t.nested loc :=
  Template.nested_congr h.desc loc

theorem full (h : Alike t t') (hfull : t.Full) : t'.Full := by
  intro p hp
  rw [h.elemNo, Template.children_congr h.desc]
  exact hfull p (hp.imp_right fun hn => (h.nested p).symm.trans hn)

theorem elemByName (h : Alike t t') (p : Loc) (name : List Char) :
    t'.elemByName p name = t.elemByName p name := by
  rw [Template.elemByName_eq, Template.elemByName_eq]
  exact followName_congr h.desc h.elemNo _ _

theorem located (h : Alike t t') (names : List (List Char)) :
    located t' names = located t names := by
  induction names with
  | nil => rfl
  | cons name names ih =>
    rw [Struct.located, Struct.located, h.elemByName, ih]

theorem of_applied {ops : FlagOps} {P : Loc → Prop} (h : Applied ops P t t') : Alike t t' :=
  ⟨h.desc, h.elemNo⟩

theorem mapElem (t : Template) (loc : Loc) (g : Int32 → Int32) : Alike t (t.mapElem loc g) :=
  ⟨rfl, fun _ => rfl⟩

theorem mapNode (t : Template) (p : Loc) (g : Int32 → Int32) : Alike t (t.mapNode p g) := by
  refine ⟨rfl, fun q => ?_⟩
  rcases eq_or_ne q p with rfl | hq
  · rw [Template.mapNode, Template.node_setNode_self]
  · rw [Template.mapNode, Template.node_setNode_of_ne hq]

end Alike

variable {t : Template} {loc q : Loc}

/-- The path of a name leads to an element. -/
theorem Template.Reaches.exists_desc {p : Loc} {names : List (List Char)}
    (h : t.Reaches p names loc) : ∃ d, t.descOf loc = some d := by
  induction h with
  | last hname =>
    obtain ⟨d, hd, -⟩ := hname.name_eq
    exact ⟨d, hd⟩
  | inner _ _ _ ih => exact ih

theorem exists_desc_of_name {name : List Char}
    (h : t.elemByName [] name = .elem loc) : ∃ d, t.descOf loc = some d := by
  rw [Template.elemByName_eq, Template.followName_eq_elem] at h
  exact h.1.exists_desc

theorem exists_desc_of_located {names : List (List Char)} {locs : List Loc}
    (h : located t names = some locs) : ∀ loc ∈ locs, ∃ d, t.descOf loc = some d := by
  induction names generalizing locs with
  | nil =>
    obtain rfl := Option.some.inj h
    simp
  | cons name names ih =>
    rw [located] at h
    split at h
    · obtain rfl := Option.some.inj h
      simp
    · cases h
    · rename_i loc hname
      obtain ⟨rest, hrest, rfl⟩ := Option.map_eq_some_iff.1 h
      exact List.forall_mem_cons.2 ⟨exists_desc_of_name hname, ih hrest⟩

/-- What is done to an element of the template leaves the elements in its nodes. -/
def Acts (act : Loc → Template → Option Template) : Prop :=
  ∀ {t loc d}, t.Full → t.descOf loc = some d → ∃ t', act loc t = some t' ∧ Alike t t'

/-- What is done to elements one after the other. -/
inductive Run (act : Loc → Template → Option Template) : List Loc → Template → Template → Prop
  | nil (t : Template) : Run act [] t t
  | cons {loc locs t t₁ t'} : act loc t = some t₁ → Run act locs t₁ t' →
      Run act (loc :: locs) t t'

section Names

variable {act : Loc → Template → Option Template} {t t' : Template} {names : List (List Char)}
  {locs : List Loc}

/-- The loop over names is a run over the elements that they stand for. -/
theorem overNames_located (hact : Acts act) (hfull : t.Full) (h : located t names = some locs)
    (count : Int) :
    ∃ ret t', overNames act names count t = .done (ret, t') ∧ Run act locs t t' := by
  induction names generalizing t locs count with
  | nil =>
    obtain rfl := Option.some.inj h
    exact ⟨count, t, rfl, .nil t⟩
  | cons name names ih =>
    rw [located] at h
    rw [overNames]
    rcases hname : t.elemByName [] name with _ | loc | _ <;> rw [hname] at h
    · obtain rfl := Option.some.inj h
      exact ⟨_, t, rfl, .nil t⟩
    · obtain ⟨rest, hrest, rfl⟩ := Option.map_eq_some_iff.1 h
      obtain ⟨d, hd⟩ := exists_desc_of_name hname
      obtain ⟨t₁, hstep, halike⟩ := hact hfull hd
      obtain ⟨ret, t', hloop, hrun⟩ :=
        ih (halike.full hfull) ((halike.located names).trans hrest) (count + 1)
      refine ⟨ret, t', ?_, .cons hstep hrun⟩
      simp only [hstep]
      exact hloop
    · cases h

/-- The loop uses the pointer of an error. -/
theorem overNames_fault (hact : Acts act) (hfull : t.Full) (h : located t names = none)
    (count : Int) : overNames act names count t = .fault := by
  induction names generalizing t count with
  | nil => cases h
  | cons name names ih =>
    rw [located] at h
    rw [overNames]
    rcases hname : t.elemByName [] name with _ | loc | _
    · rw [hname] at h
      cases h
    · rw [hname] at h
      obtain ⟨d, hd⟩ := exists_desc_of_name hname
      obtain ⟨t₁, hstep, halike⟩ := hact hfull hd
      simp only [hstep]
      exact ih (halike.full hfull) ((halike.located names).trans (Option.map_eq_none_iff.1 h)) _
    · rfl

theorem Run.alike (hact : Acts act) (hfull : t.Full) (h : Run act locs t t')
    (hlocs : ∀ loc ∈ locs, ∃ d, t.descOf loc = some d) : Alike t t' := by
  induction h with
  | nil t => exact .refl t
  | @cons loc locs t t₁ t' hstep _ ih =>
    obtain ⟨d, hd⟩ := hlocs loc List.mem_cons_self
    obtain ⟨t₂, hstep', halike⟩ := hact hfull hd
    obtain rfl := Option.some.inj (hstep.symm.trans hstep')
    refine halike.trans (ih (halike.full hfull) fun q hq => ?_)
    rw [halike.descOf]
    exact hlocs q (List.mem_cons_of_mem _ hq)

end Names

/-! ## What setting does -/

/-- The elements at the places that carry the flag carry it afterwards. -/
def Retains (flag : Int32) (P : Loc → Prop) (t t' : Template) : Prop :=
  ∀ q, P q → Carries (t.elem q).flag flag → Carries (t'.elem q).flag flag

section Actions

variable {t : Template} {loc root p : Loc} {d : ElemDesc} {flag : Int32}

theorem retains_mapElem (t : Template) (loc : Loc) :
    Retains flag (fun _ => True) t (t.mapElem loc (· ||| flag)) := by
  intro q _ hq
  rcases eq_or_ne q loc with rfl | hne
  · rw [Template.mapElem, Template.elem_setElem_self]
    exact hq.set
  · rwa [Template.mapElem, Template.elem_setElem_of_ne hne]

/-- `struct_set_allflag` marks all elements below a node. -/
theorem structSetAllflag_spec (flag : Int32) (hfull : t.Full)
    (hroot : root = [] ∨ t.nested root = true) :
    ∃ t', structSetAllflag root flag t = some t' ∧ Alike t t' ∧
      Retains flag (fun _ => True) t t' := by
  obtain ⟨t₁, hwalk, happlied⟩ := allflag_spec ⟨(· ||| flag), id, (· ||| flag)⟩ hfull hroot
  refine ⟨t₁.mapNode root (· ||| flag), by rw [structSetAllflag, hwalk, Option.map_some],
    (Alike.of_applied happlied).trans (.mapNode _ _ _), fun q _ hq => ?_⟩
  rw [Template.mapNode, Template.elem_setNode]
  by_cases hnone : ¬ Beyond root 0 q ∨ t.descOf q = none
  · rwa [happlied.elem_other hnone]
  · rw [not_or, not_not, ← Ne, Option.ne_none_iff_exists'] at hnone
    obtain ⟨hbelow, e, he⟩ := hnone
    rw [happlied.elem hbelow he]
    split_ifs <;> exact hq.set

theorem markFathers_spec (flag : Int32) (p : Loc) (t : Template) :
    Alike t (t.markFathers flag p) ∧ Retains flag (fun _ => True) t (t.markFathers flag p) ∧
      (flag ≠ 0 → p ≠ [] → Carries ((t.markFathers flag p).elem p).flag flag) := by
  induction p generalizing t with
  | nil => exact ⟨.refl t, fun _ _ hq => hq, fun _ h => absurd rfl h⟩
  | cons k p ih =>
    obtain ⟨halike, hretains, -⟩ := ih (t.mapElem (k :: p) (· ||| flag))
    refine ⟨(Alike.mapElem _ _ _).trans halike,
      fun q _ hq => hretains q trivial (retains_mapElem _ _ q trivial hq), fun hflag _ => ?_⟩
    refine hretains _ trivial ?_
    rw [Template.mapElem, Template.elem_setElem_self]
    exact carries_set hflag _

/-- Setting marks an element and that above it. -/
theorem setElemFlag_spec (flag : Int32) (hfull : t.Full) (loc : Loc) :
    ∃ t', t.setElemFlag flag loc = some t' ∧ Alike t t' ∧ Retains flag (fun _ => True) t t' ∧
      (flag ≠ 0 → Carries (t'.elem loc).flag flag ∧
        (loc.tail ≠ [] → Carries (t'.elem loc.tail).flag flag)) := by
  have hmap := Alike.mapElem t loc (· ||| flag)
  obtain ⟨t₂, ht₂, halike₂, hretains₂⟩ : ∃ t₂, (if (t.mapElem loc (· ||| flag)).nested loc then
      structSetAllflag loc flag (t.mapElem loc (· ||| flag))
      else some (t.mapElem loc (· ||| flag))) = some t₂ ∧ Alike (t.mapElem loc (· ||| flag)) t₂ ∧
      Retains flag (fun _ => True) (t.mapElem loc (· ||| flag)) t₂ := by
    split_ifs with hn
    · exact structSetAllflag_spec flag (hmap.full hfull) (.inr hn)
    · exact ⟨_, rfl, .refl _, fun _ _ hq => hq⟩
  obtain ⟨halike₃, hretains₃, hmark⟩ := markFathers_spec flag loc.tail t₂
  refine ⟨t₂.markFathers flag loc.tail, by rw [Template.setElemFlag, ht₂, Option.map_some],
    (hmap.trans halike₂).trans halike₃, fun q _ hq => ?_, fun hflag => ⟨?_, hmark hflag⟩⟩
  · exact hretains₃ q trivial (hretains₂ q trivial (retains_mapElem _ _ q trivial hq))
  · refine hretains₃ _ trivial (hretains₂ _ trivial ?_)
    rw [Template.mapElem, Template.elem_setElem_self]
    exact carries_set hflag _

theorem acts_setElemFlag (flag : Int32) : Acts (Template.setElemFlag flag) := fun hfull _ => by
  obtain ⟨t', hset, halike, -⟩ := setElemFlag_spec flag hfull _
  exact ⟨t', hset, halike⟩

/-! ## What clearing does -/

theorem clearFathers_elem (flag : Int32) (p : Loc) (t : Template) :
    (t.clearFathers flag p).elem = t.elem ∧ Alike t (t.clearFathers flag p) := by
  induction p generalizing t with
  | nil =>
    rw [Template.clearFathers]
    split_ifs
    · exact ⟨rfl, .refl t⟩
    · exact ⟨rfl, .mapNode _ _ _⟩
  | cons k p ih =>
    rw [Template.clearFathers]
    split_ifs
    · exact ⟨rfl, .refl t⟩
    · obtain ⟨helem, halike⟩ := ih (t.mapNode (k :: p) (· &&& ~~~flag))
      exact ⟨helem, (Alike.mapNode _ _ _).trans halike⟩

/-- Clearing leaves the mark of every element that is a structure. -/
theorem clearElemFlag_spec (flag : Int32) (hfull : t.Full) (hd : t.descOf loc = some d) :
    ∃ t', t.clearElemFlag flag loc = some t' ∧ Alike t t' ∧
      Retains flag (t.nested · = true) t t' := by
  obtain ⟨t₁, ht₁, halike₁, hretains₁⟩ : ∃ t₁, (if t.nested loc then structSetAllflag loc flag t
      else some (t.mapElem loc (· &&& ~~~flag))) = some t₁ ∧ Alike t t₁ ∧
      Retains flag (t.nested · = true) t t₁ := by
    split_ifs with hn
    · obtain ⟨t₁, hset, halike, hretains⟩ := structSetAllflag_spec flag hfull (.inr hn)
      exact ⟨t₁, hset, halike, fun q _ hq => hretains q trivial hq⟩
    · refine ⟨_, rfl, .mapElem _ _ _, fun q hq hcarries => ?_⟩
      rwa [Template.mapElem, Template.elem_setElem_of_ne]
      rintro rfl
      exact hn hq
  obtain ⟨helem, halike₂⟩ := clearFathers_elem flag loc.tail t₁
  refine ⟨t₁.clearFathers flag loc.tail, by rw [Template.clearElemFlag, ht₁, Option.map_some],
    halike₁.trans halike₂, fun q hq hcarries => ?_⟩
  rw [helem]
  exact hretains₁ q hq hcarries

theorem acts_clearElemFlag (flag : Int32) : Acts (Template.clearElemFlag flag) := fun hfull hd => by
  obtain ⟨t', hclear, halike, -⟩ := clearElemFlag_spec flag hfull hd
  exact ⟨t', hclear, halike⟩

end Actions

/-! ## Clearing after setting -/

section Runs

variable {flag : Int32} {t t' : Template} {locs : List Loc}

/-- A run keeps what each of its steps keeps. -/
theorem Run.retains {act : Loc → Template → Option Template} {P : Template → Loc → Prop}
    (hact : ∀ {t loc d}, t.Full → t.descOf loc = some d →
      ∃ t', act loc t = some t' ∧ Alike t t' ∧ Retains flag (P t) t t')
    (hP : ∀ {t t'}, Alike t t' → ∀ q, P t q → P t' q) (hfull : t.Full) (h : Run act locs t t')
    (hlocs : ∀ loc ∈ locs, ∃ d, t.descOf loc = some d) : Retains flag (P t) t t' := by
  induction h with
  | nil t => exact fun _ _ hq => hq
  | @cons loc locs t t₁ t' hstep _ ih =>
    obtain ⟨d, hd⟩ := hlocs loc List.mem_cons_self
    obtain ⟨t₂, hstep', halike, hretains⟩ := hact hfull hd
    obtain rfl := Option.some.inj (hstep.symm.trans hstep')
    intro q hq hcarries
    refine ih (halike.full hfull) (fun r hr => ?_) q (hP halike q hq) (hretains q hq hcarries)
    rw [halike.descOf]
    exact hlocs r (List.mem_cons_of_mem _ hr)

theorem run_set_retains (hfull : t.Full) (h : Run (Template.setElemFlag flag) locs t t')
    (hlocs : ∀ loc ∈ locs, ∃ d, t.descOf loc = some d) :
    Retains flag (fun _ => True) t t' :=
  h.retains (fun hfull _ => by
    obtain ⟨t', hset, halike, hretains, -⟩ := setElemFlag_spec flag hfull _
    exact ⟨t', hset, halike, hretains⟩) (fun _ _ h => h) hfull hlocs

/-- A run that sets the flag leaves a mark on its elements, and on those above them. -/
theorem run_set_carries (hflag : flag ≠ 0) (hfull : t.Full)
    (h : Run (Template.setElemFlag flag) locs t t')
    (hlocs : ∀ loc ∈ locs, ∃ d, t.descOf loc = some d) :
    ∀ loc ∈ locs, Carries (t'.elem loc).flag flag ∧
      (loc.tail ≠ [] → Carries (t'.elem loc.tail).flag flag) := by
  induction h with
  | nil t => simp
  | @cons loc locs t t₁ t' hstep hrun ih =>
    obtain ⟨t₂, hstep', halike, -, hmark⟩ := setElemFlag_spec flag hfull loc
    obtain rfl := Option.some.inj (hstep.symm.trans hstep')
    have hlocs' : ∀ q ∈ locs, ∃ d, t₁.descOf q = some d := fun q hq => by
      rw [halike.descOf]
      exact hlocs q (List.mem_cons_of_mem _ hq)
    have hretains := run_set_retains (halike.full hfull) hrun hlocs'
    obtain ⟨hloc, htail⟩ := hmark hflag
    exact List.forall_mem_cons.2 ⟨⟨hretains _ trivial hloc,
      fun hne => hretains _ trivial (htail hne)⟩, ih (halike.full hfull) hlocs'⟩

theorem run_clear_retains (hfull : t.Full) (h : Run (Template.clearElemFlag flag) locs t t')
    (hlocs : ∀ loc ∈ locs, ∃ d, t.descOf loc = some d) :
    Retains flag (t.nested · = true) t t' :=
  h.retains (P := fun t q => t.nested q = true) (clearElemFlag_spec flag)
    (fun halike q hq => (halike.nested q).trans hq) hfull hlocs

/-- A leaf of the root. -/
def TopLeaf (t : Template) (loc : Loc) : Prop := loc.tail = [] ∧ t.nested loc = false

/-- Setting leaves of the root marks no other element. -/
theorem run_set_topLeaf (h : Run (Template.setElemFlag flag) locs t t')
    (htop : ∀ loc ∈ locs, TopLeaf t loc) (hq : Carries (t'.elem q).flag flag) :
    Carries (t.elem q).flag flag ∨ q ∈ locs := by
  induction h with
  | nil t => exact .inl hq
  | @cons loc locs t t₁ t' hstep _ ih =>
    obtain ⟨htail, hn⟩ := htop loc List.mem_cons_self
    have halike := Alike.mapElem t loc (· ||| flag)
    have hn' := (halike.nested loc).trans hn
    obtain rfl : t₁ = t.mapElem loc (· ||| flag) := by
      simp only [Template.setElemFlag, hn', htail, Template.markFathers, Bool.false_eq_true,
        if_false, Option.map_some] at hstep
      exact (Option.some.inj hstep).symm
    rcases ih (fun r hr => by
      obtain ⟨htail, hn⟩ := htop r (List.mem_cons_of_mem _ hr)
      exact ⟨htail, (halike.nested r).trans hn⟩) hq with hcarries | hmem
    · rcases eq_or_ne q loc with rfl | hne
      · exact .inr List.mem_cons_self
      · rw [Template.mapElem, Template.elem_setElem_of_ne hne] at hcarries
        exact .inl hcarries
    · exact .inr (List.mem_cons_of_mem _ hmem)

/-- Clearing leaves of the root takes the mark off them. -/
theorem run_clear_topLeaf (h : Run (Template.clearElemFlag flag) locs t t')
    (htop : ∀ loc ∈ locs, TopLeaf t loc) (hq : Carries (t'.elem q).flag flag) :
    Carries (t.elem q).flag flag ∧ q ∉ locs := by
  induction h with
  | nil t => exact ⟨hq, List.not_mem_nil⟩
  | @cons loc locs t t₁ t' hstep _ ih =>
    obtain ⟨htail, hn⟩ := htop loc List.mem_cons_self
    have helem : t₁.elem = (t.mapElem loc (· &&& ~~~flag)).elem ∧ Alike t t₁ := by
      simp only [Template.clearElemFlag, hn, Bool.false_eq_true, if_false, Option.map_some] at hstep
      obtain ⟨helem, halike⟩ := clearFathers_elem flag loc.tail (t.mapElem loc (· &&& ~~~flag))
      rw [← Option.some.inj hstep]
      exact ⟨helem, (Alike.mapElem _ _ _).trans halike⟩
    obtain ⟨hcarries, hmem⟩ := ih (fun r hr => by
      obtain ⟨htail, hn⟩ := htop r (List.mem_cons_of_mem _ hr)
      exact ⟨htail, (helem.2.nested r).trans hn⟩) hq
    rw [helem.1] at hcarries
    rcases eq_or_ne q loc with rfl | hne
    · rw [Template.mapElem, Template.elem_setElem_self] at hcarries
      exact absurd hcarries (not_carries_clear _ flag)
    · rw [Template.mapElem, Template.elem_setElem_of_ne hne] at hcarries
      exact ⟨hcarries, by simp [hne, hmem]⟩

end Runs

/-- Clearing takes back setting exactly if the names stand for leaves of the root, up to a
    name that stands for no element, or the flag has no bits. -/
theorem undoes_iff (hfull : t.Full) {flag : Int32}
    (hfree : ∀ loc, ¬ Carries (t.elem loc).flag flag) (namelist : List Char) :
    Undoes t flag namelist ↔ ∃ locs, located t (namesIn namelist) = some locs ∧
      (flag = 0 ∨ ∀ loc ∈ locs, TopLeaf t loc) := by
  rcases hlocated : located t (namesIn namelist) with _ | locs
  · refine iff_of_false ?_ (by simp)
    rintro ⟨ret, t₁, -, -, hset, -⟩
    rw [structSetFlag, overNames_fault (acts_setElemFlag flag) hfull hlocated] at hset
    cases hset
  · have hlocs := exists_desc_of_located hlocated
    obtain ⟨ret, t₁, hset, hrun⟩ := overNames_located (acts_setElemFlag flag) hfull hlocated 0
    have halike := hrun.alike (acts_setElemFlag flag) hfull hlocs
    have hfull₁ := halike.full hfull
    have hlocs₁ : ∀ loc ∈ locs, ∃ d, t₁.descOf loc = some d := fun loc hloc => by
      rw [halike.descOf]
      exact hlocs loc hloc
    obtain ⟨ret', t₂, hclear, hrun'⟩ := overNames_located (acts_clearElemFlag flag) hfull₁
      ((halike.located _).trans hlocated) 0
    constructor
    · rintro ⟨ret, t₁', ret', t₂', hset', hclear', hnone⟩
      have hsame := hset.symm.trans hset'
      rw [Outcome.done.injEq, Prod.mk.injEq] at hsame
      obtain ⟨-, rfl⟩ := hsame
      have hsame := hclear.symm.trans hclear'
      rw [Outcome.done.injEq, Prod.mk.injEq] at hsame
      obtain ⟨-, rfl⟩ := hsame
      refine ⟨locs, rfl, ?_⟩
      rcases eq_or_ne flag 0 with hzero | hflag
      · exact .inl hzero
      refine .inr fun loc hloc => ?_
      obtain ⟨d, hd⟩ := hlocs loc hloc
      obtain ⟨hmark, hmark'⟩ := run_set_carries hflag hfull hrun hlocs loc hloc
      -- A structure that is marked stays so.
      have hkept : ∀ q, t.nested q = true → ¬ Carries (t₁.elem q).flag flag := by
        intro q hn hcarries
        obtain ⟨e, he, -⟩ := Template.exists_desc hn
        exact hnone q e he (run_clear_retains hfull₁ hrun' hlocs₁ q
          ((halike.nested q).trans hn) hcarries)
      refine ⟨?_, Bool.eq_false_iff.2 fun hn => hkept loc hn hmark⟩
      by_contra hne
      exact hkept loc.tail (nested_tail hd hne) (hmark' hne)
    · rintro ⟨locs', hlocs', hcases⟩
      obtain rfl := Option.some.inj hlocs'
      refine ⟨ret, t₁, ret', t₂, hset, hclear, fun loc d _ hcarries => ?_⟩
      rcases hcases with rfl | htop
      · exact not_carries_zero _ hcarries
      · obtain ⟨hcarries, hmem⟩ := run_clear_topLeaf hrun' (fun q hq => by
          obtain ⟨htail, hn⟩ := htop q hq
          exact ⟨htail, (halike.nested q).trans hn⟩) hcarries
        rcases run_set_topLeaf hrun htop hcarries with hbefore | hin
        · exact hfree loc hbefore
        · exact hmem hin

/-! ## Clearing one element -/

section One

variable {flag : Int32} {t : Template} {k : Nat} {p : Loc}

theorem not_suffix_of_length {a b : Loc} (h : b.length < a.length) : ¬ a <:+ b :=
  fun hs => absurd hs.length_le (by omega)

/-- Where an element of the node is marked, it is not the one that has been cleared. -/
theorem guarded_of_marked (hloc : ¬ t.Marked flag (k :: p))
    (h : ∃ i < (t.node p).elemNo, t.Marked flag (i :: p)) (hq : q <:+ p) :
    Guarded t flag (k :: p) q := by
  obtain ⟨i, hi, hmarked⟩ := h
  refine ⟨p, hq, List.suffix_refl p, i, hi, fun hs => ?_, hmarked⟩
  obtain ⟨rfl, -⟩ := List.cons.inj (hs.eq_of_length rfl)
  exact hloc hmarked

/-- With no element of the node marked, what guards a node is above it. -/
theorem guarded_up (h : ¬ ∃ i < (t.node p).elemNo, t.Marked flag (i :: p)) (q : Loc) :
    Guarded t flag (k :: p) q ↔ Guarded (t.mapNode p (· &&& ~~~flag)) flag p q := by
  have hmarked : ∀ {r : Loc}, r ≠ p →
      ((t.mapNode p (· &&& ~~~flag)).Marked flag r ↔ t.Marked flag r) := by
    intro r hr
    rw [Template.Marked, Template.Marked, (Alike.mapNode t p _).nested, Template.mapNode,
      Template.elem_setNode, Template.node_setNode_of_ne hr]
  constructor
  · rintro ⟨r, hqr, hrp, i, hi, hpath, hm⟩
    rw [List.tail_cons] at hrp
    have hne : r ≠ p := by
      rintro rfl
      exact h ⟨i, hi, hm⟩
    -- The node is above `p`, so that an element of it is no element of `p`.
    have hpath' : ¬ i :: r <:+ p := fun hs => hpath (hs.trans (List.suffix_cons k p))
    have hrp' : r <:+ p.tail := by
      rcases p with _ | ⟨j, p⟩
      · exact hrp
      · exact (List.suffix_cons_iff.1 hrp).resolve_left hne
    refine ⟨r, hqr, hrp', i, ?_, hpath', ?_⟩
    · rwa [(Alike.mapNode t p _).elemNo]
    · rw [hmarked fun heq => hpath' (heq ▸ List.suffix_refl _)]
      exact hm
  · rintro ⟨r, hqr, hrp, i, hi, hpath, hm⟩
    rw [(Alike.mapNode t p _).elemNo] at hi
    rw [hmarked fun heq => hpath (heq ▸ List.suffix_refl _)] at hm
    refine ⟨r, hqr, hrp.trans (List.tail_suffix p), i, hi, fun hs => ?_, hm⟩
    rcases List.suffix_cons_iff.1 hs with heq | hs
    · obtain ⟨-, rfl⟩ := List.cons.inj heq
      exact h ⟨i, hi, hm⟩
    · exact hpath hs

theorem suffix_nil_of_guarded (h : Guarded t flag loc q) : q <:+ loc.tail := by
  obtain ⟨r, hqr, hrloc, -⟩ := h
  exact hqr.trans hrloc

/-- The nodes above an element that is cleared are cleared, if nothing guards them. -/
theorem clearFathers_node (hloc : ¬ t.Marked flag (k :: p)) (hp : p = [] ∨ t.nested p = true)
    (q : Loc) :
    (q <:+ p → ¬ Guarded t flag (k :: p) q → ¬ Carries ((t.clearFathers flag p).node q).flag flag) ∧
      (Guarded t flag (k :: p) q ∨ ¬ q <:+ p →
        (t.clearFathers flag p).node q = t.node q) := by
  induction p generalizing k t with
  | nil =>
    rw [Template.clearFathers]
    split_ifs with h
    · exact ⟨fun hq hguard => absurd (guarded_of_marked hloc h hq) hguard, fun _ => rfl⟩
    · constructor
      · intro hq _
        obtain rfl := List.suffix_nil.1 hq
        rw [Template.mapNode, Template.node_setNode_self]
        exact not_carries_clear _ flag
      · intro hq
        rw [Template.mapNode, Template.node_setNode_of_ne]
        rintro rfl
        rcases hq with hguard | hq
        · obtain ⟨r, -, hr, i, hi, -, hm⟩ := hguard
          obtain rfl : r = [] := List.suffix_nil.1 hr
          exact h ⟨i, hi, hm⟩
        · exact hq (List.suffix_refl _)
  | cons j p ih =>
    rw [Template.clearFathers]
    split_ifs with h
    · exact ⟨fun hq hguard => absurd (guarded_of_marked hloc h hq) hguard, fun _ => rfl⟩
    · have halike := Alike.mapNode t (j :: p) (· &&& ~~~flag)
      have hn : t.nested (j :: p) = true := hp.resolve_left (by simp)
      have hself : (t.mapNode (j :: p) (· &&& ~~~flag)).node (j :: p) =
          { t.node (j :: p) with flag := (t.node (j :: p)).flag &&& ~~~flag } :=
        Template.node_setNode_self ..
      have hcleared : ¬ (t.mapNode (j :: p) (· &&& ~~~flag)).Marked flag (j :: p) := by
        rw [Template.Marked, halike.nested, if_pos hn, hself]
        exact not_carries_clear _ flag
      have hp' : p = [] ∨ (t.mapNode (j :: p) (· &&& ~~~flag)).nested p = true := by
        obtain ⟨d, hd, -⟩ := Template.exists_desc hn
        rcases eq_or_ne p [] with rfl | hne
        · exact .inl rfl
        · exact .inr ((halike.nested p).trans (nested_tail hd hne))
      obtain ⟨hclear, hkeep⟩ := ih hcleared hp'
      have hlen : ¬ j :: p <:+ p := not_suffix_of_length (by simp)
      rw [guarded_up h]
      constructor
      · intro hq hguard
        rcases List.suffix_cons_iff.1 hq with rfl | hq
        · rw [hkeep (.inr hlen), hself]
          exact not_carries_clear _ flag
        · exact hclear hq hguard
      · intro hq
        have hne : q ≠ j :: p := by
          rintro rfl
          rcases hq with hguard | hq
          · exact hlen (suffix_nil_of_guarded hguard)
          · exact hq (List.suffix_refl _)
        rw [hkeep (hq.imp_right fun hnot hs => hnot (hs.trans (List.suffix_cons j p))),
          Template.mapNode, Template.node_setNode_of_ne hne]

/-- The mark of the element itself guards no node. -/
theorem guarded_mapElem (g : Int32 → Int32) (loc q : Loc) :
    Guarded (t.mapElem loc g) flag loc q ↔ Guarded t flag loc q := by
  have hmarked : ∀ {r : Loc}, r ≠ loc → ((t.mapElem loc g).Marked flag r ↔ t.Marked flag r) := by
    intro r hr
    rw [Template.Marked, Template.Marked, (Alike.mapElem t loc g).nested, Template.mapElem,
      Template.elem_setElem_of_ne hr, Template.node_setElem]
  constructor <;>
  · rintro ⟨r, hqr, hrloc, i, hi, hpath, hm⟩
    refine ⟨r, hqr, hrloc, i, hi, hpath, ?_⟩
    first
      | exact (hmarked fun heq => hpath (heq ▸ List.suffix_refl _)).1 hm
      | exact (hmarked fun heq => hpath (heq ▸ List.suffix_refl _)).2 hm

/-- Clearing an element that carries the flag does what it should exactly if the element is
    no structure and what is above other leaves is guarded, or the flag has no bits. -/
theorem unmarks_iff (hfull : t.Full) {one : List Char} (hone : located t (namesIn one) = some [loc])
    (hmark : flag ≠ 0 → Carries (t.elem loc).flag flag) :
    Unmarks t flag one loc ↔
      flag = 0 ∨ t.nested loc = false ∧ GuardedAbove t flag loc := by
  have hlocs := exists_desc_of_located hone
  obtain ⟨d, hd⟩ := hlocs loc List.mem_cons_self
  obtain ⟨ret, t', hclear, hrun⟩ := overNames_located (acts_clearElemFlag flag) hfull hone 0
  rcases eq_or_ne flag 0 with rfl | hflag
  · exact iff_of_true ⟨ret, t', hclear, fun q e _ _ => ⟨not_carries_zero _, fun _ =>
      not_carries_zero _⟩, fun q e _ _ _ hq => absurd hq (not_carries_zero _)⟩ (.inl rfl)
  have hunmarks : Unmarks t flag one loc ↔
      (∀ q d, loc <:+ q → t.descOf q = some d → ¬ Carries (t'.elem q).flag flag ∧
        (t.nested q = true → ¬ Carries (t'.node q).flag flag)) ∧
      ∀ q d, t.descOf q = some d → t.nested q = false → ¬ loc <:+ q →
        Carries (t.elem q).flag flag →
        Carries (t'.elem q).flag flag ∧ ∀ p, p <:+ q.tail →
          (Carries (t.elem p).flag flag → Carries (t'.elem p).flag flag) ∧
          (Carries (t.node p).flag flag → Carries (t'.node p).flag flag) := by
    constructor
    · rintro ⟨ret', t'', hclear', hthen⟩
      have hsame := hclear.symm.trans hclear'
      rw [Outcome.done.injEq, Prod.mk.injEq] at hsame
      rwa [hsame.2]
    · exact fun h => ⟨ret, t', hclear, h⟩
  rw [hunmarks]
  cases hn : t.nested loc with
  | true =>
    -- The mark of a structure is not taken off.
    refine iff_of_false (fun h => ?_) (by simp [hflag])
    exact (h.1 loc d (List.suffix_refl loc) hd).1
      (run_clear_retains hfull hrun hlocs loc hn (hmark hflag))
  | false =>
    obtain ⟨k, p, rfl⟩ : ∃ k p, loc = k :: p := by
      rcases loc with _ | ⟨k, p⟩
      · cases hd
      · exact ⟨k, p, rfl⟩
    have ht' : t' = (t.mapElem (k :: p) (· &&& ~~~flag)).clearFathers flag p := by
      cases hrun with
      | cons hstep hrest =>
        cases hrest
        simp only [Template.clearElemFlag, hn, Bool.false_eq_true, if_false,
          Option.map_some] at hstep
        exact (Option.some.inj hstep).symm
    have halike := Alike.mapElem t (k :: p) (· &&& ~~~flag)
    have hself : (t.mapElem (k :: p) (· &&& ~~~flag)).elem (k :: p) =
        { t.elem (k :: p) with flag := (t.elem (k :: p)).flag &&& ~~~flag } :=
      Template.elem_setElem_self ..
    have helem : ∀ q, q ≠ k :: p → t'.elem q = t.elem q := fun q hq => by
      rw [ht', (clearFathers_elem flag p _).1, Template.mapElem, Template.elem_setElem_of_ne hq]
    have hcleared : ¬ Carries (t'.elem (k :: p)).flag flag := by
      rw [ht', (clearFathers_elem flag p _).1, hself]
      exact not_carries_clear _ flag
    have hunmarked : ¬ (t.mapElem (k :: p) (· &&& ~~~flag)).Marked flag (k :: p) := by
      rw [Template.Marked, halike.nested, hn, hself]
      exact not_carries_clear _ flag
    have hp : p = [] ∨ (t.mapElem (k :: p) (· &&& ~~~flag)).nested p = true := by
      rcases eq_or_ne p [] with rfl | hne
      · exact .inl rfl
      · exact .inr ((halike.nested p).trans (nested_tail hd hne))
    have hnode := clearFathers_node hunmarked hp
    simp only [guarded_mapElem, ← ht'] at hnode
    constructor
    · rintro ⟨-, hkeeps⟩
      refine .inr ⟨rfl, fun r hr hcarries hmarked => ?_⟩
      obtain ⟨q, e, he, hleaf, hne, hrq, hq⟩ := hmarked
      have hbelow : ¬ k :: p <:+ q := by
        rintro ⟨s, rfl⟩
        have hs : s ≠ [] := by
          rintro rfl
          exact hne rfl
        rw [Template.nested_of_desc hd] at hn
        exact absurd ((t.descOf_below hd hn hs).symm.trans he) (by simp)
      by_contra hguard
      exact (hnode r).1 hr hguard (((hkeeps q e he hleaf hbelow hq).2 r hrq).2 hcarries)
    · rintro (hzero | ⟨-, hguarded⟩)
      · exact absurd hzero hflag
      refine ⟨fun q e hs he => ?_, fun q e he hleaf hs hq => ⟨?_, fun r hr => ⟨?_, ?_⟩⟩⟩
      · obtain ⟨s, rfl⟩ := hs
        rcases eq_or_ne s [] with rfl | hne
        · exact ⟨hcleared, fun h => absurd (hn.symm.trans h) (by simp)⟩
        · rw [Template.nested_of_desc hd] at hn
          exact absurd ((t.descOf_below hd hn hne).symm.trans he) (by simp)
      · rwa [helem q fun heq => hs (heq ▸ List.suffix_refl _)]
      · rw [helem r fun heq => hs (heq ▸ hr.trans (List.tail_suffix q))]
        exact id
      · intro hcarries
        by_cases hrp : r <:+ p
        · have hne : q ≠ k :: p := fun heq => hs (heq ▸ List.suffix_refl _)
          rw [(hnode r).2 (.inl (hguarded r hrp hcarries ⟨q, e, he, hleaf, hne, hr, hq⟩))]
          exact hcarries
        · rw [(hnode r).2 (.inr hrp)]
          exact hcarries

end One

/-! ## Clearing undoes setting -/

/-- When clearing a flag undoes setting it: everywhere, on the names in a list, and on one of
    the elements that a list has marked. -/
theorem clearFlags_iff {desc : List ElemDesc} {created t : Template}
    (hcreated : Created desc created) (hflagged : Flagged created t) (flag : Int32) :
    (ClearsAll t flag ↔ ¬ Carries (t.node []).flag flag ∧
        ∀ loc, t.nested loc = true → ¬ Carries (t.elem loc).flag flag) ∧
      ((∀ loc, ¬ Carries (t.elem loc).flag flag) → (∀ p, ¬ Carries (t.node p).flag flag) →
        ∀ namelist, (Undoes t flag namelist ↔ ∃ locs, located t (namesIn namelist) = some locs ∧
            (flag = 0 ∨ ∀ loc ∈ locs, TopLeaf t loc)) ∧
          ∀ ret t₁ locs loc one, structSetFlag flag namelist t = .done (ret, t₁) →
            located t (namesIn namelist) = some locs → loc ∈ locs →
            located t (namesIn one) = some [loc] →
            (Unmarks t₁ flag one loc ↔
              flag = 0 ∨ t.nested loc = false ∧ GuardedAbove t₁ flag loc)) := by
  have hfull := hflagged.full hcreated.full
  refine ⟨clearsAll_iff hfull flag, fun hfree _ namelist => ⟨undoes_iff hfull hfree namelist, ?_⟩⟩
  intro ret t₁ locs loc one hset hlocated hloc hone
  have hlocs := exists_desc_of_located hlocated
  obtain ⟨ret', t₁', hset', hrun⟩ :=
    overNames_located (acts_setElemFlag flag) hfull hlocated 0
  have hsame := hset.symm.trans hset'
  rw [Outcome.done.injEq, Prod.mk.injEq] at hsame
  obtain ⟨-, rfl⟩ := hsame
  have halike := hrun.alike (acts_setElemFlag flag) hfull hlocs
  rw [unmarks_iff (halike.full hfull) ((halike.located _).trans hone)
    fun hflag => (run_set_carries hflag hfull hrun hlocs loc hloc).1, halike.nested]

/-- The names of both integers of a template are set and cleared; one of them is cleared
    alone. -/
theorem clearFlags_iff_pair : ∃ t, Created [intElem 'a', intElem 'b'] t ∧ Undoes t 1 ['a', ',', 'b'] ∧
    ∃ ret t₁, structSetFlag 1 ['a', ',', 'b'] t = .done (ret, t₁) ∧ Unmarks t₁ 1 ['a'] [0] := by
  obtain ⟨t, hcreated, hnames, hname, ha, hb, hcount⟩ : ∃ t, Created [intElem 'a', intElem 'b'] t ∧
      located t (namesIn ['a', ',', 'b']) = some [[0], [1]] ∧ located t (namesIn ['a']) = some [[0]] ∧
      t.nested [0] = false ∧ t.nested [1] = false ∧ (t.node []).elemNo = 2 :=
    ⟨_, ⟨0, _, Int.le_refl 0, ⟨3, rfl⟩, rfl⟩, by decide, by decide, by decide, by decide, by decide⟩
  have hzero : ∀ {word : Int32}, word = 0 → ¬ Carries word 1 := by
    rintro _ rfl
    decide
  obtain ⟨hundoes, hunmarks⟩ := (clearFlags_iff hcreated hcreated.flagged 1).2
    (fun loc => hzero (hcreated.flagless.elem loc)) (fun p => hzero (hcreated.flagless.node p))
    ['a', ',', 'b']
  have hundo := hundoes.2 ⟨_, hnames, .inr (by simpa [TopLeaf] using ⟨ha, hb⟩)⟩
  obtain ⟨ret, t₁, ret', t₂, hset, hclear, hnone⟩ := hundo
  refine ⟨t, hcreated, ⟨ret, t₁, ret', t₂, hset, hclear, hnone⟩, ret, t₁, hset,
    (hunmarks ret t₁ _ [0] ['a'] hset hnames List.mem_cons_self hname).2 (.inr ⟨ha, ?_⟩)⟩
  -- The other integer is marked as well, and guards the root.
  have hlocs := exists_desc_of_located hnames
  obtain ⟨ret', t₁', hset', hrun⟩ :=
    overNames_located (acts_setElemFlag 1) hcreated.full hnames 0
  have hsame := hset.symm.trans hset'
  rw [Outcome.done.injEq, Prod.mk.injEq] at hsame
  obtain ⟨-, rfl⟩ := hsame
  have halike := hrun.alike (acts_setElemFlag 1) hcreated.full hlocs
  have hmark := (run_set_carries (by decide) hcreated.full hrun hlocs [1] (by simp)).1
  intro p hp _ _
  obtain rfl : p = [] := List.suffix_nil.1 hp
  refine ⟨[], List.suffix_refl _, List.suffix_refl _, 1, ?_, by decide, ?_⟩
  · rw [halike.elemNo, hcount]
    decide
  · rw [Template.Marked, halike.nested, hb]
    simpa using hmark

/-- A structure in a template keeps its mark, and the root of a template keeps its own. -/
theorem clearFlags_not : ∃ t, Created [⟨['s'], .substruct, 0, [intElem 'b'], none, none⟩] t ∧
    Flagged t (t.mapNode [] (· ||| 1)) ∧ ¬ ClearsAll (t.mapNode [] (· ||| 1)) 1 ∧
    located t (namesIn ['s']) = some [[0]] ∧ ¬ Undoes t 1 ['s'] := by
  obtain ⟨t, hcreated, hname, hnested⟩ : ∃ t,
      Created [⟨['s'], .substruct, 0, [intElem 'b'], none, none⟩] t ∧
      located t (namesIn ['s']) = some [[0]] ∧ t.nested [0] = true :=
    ⟨_, ⟨0, _, Int.le_refl 0, ⟨5, rfl⟩, rfl⟩, by decide, by decide⟩
  have halike := Alike.mapNode t [] (· ||| 1)
  refine ⟨t, hcreated, ⟨rfl, halike.elemNo, fun _ => rfl, fun loc _ => hcreated.flagless.elem loc,
    fun p hp _ => ?_⟩, fun hclears => ?_, hname, fun hundoes => ?_⟩
  · rw [Template.mapNode, Template.node_setNode_of_ne hp]
    exact hcreated.flagless.node p
  · refine ((clearsAll_iff (halike.full hcreated.full) 1).1 hclears).1 ?_
    rw [Template.mapNode, Template.node_setNode_self]
    exact carries_set (by decide) _
  · have hfree : ∀ loc, ¬ Carries (t.elem loc).flag 1 := fun loc => by
      rw [hcreated.flagless.elem loc]
      decide
    obtain ⟨locs, hlocs, hzero | htop⟩ := (undoes_iff hcreated.full hfree ['s']).1 hundoes
    · exact absurd hzero (by decide)
    · obtain rfl := Option.some.inj (hname.symm.trans hlocs)
      exact absurd (hnested.symm.trans (htop [0] (by simp)).2) (by simp)

end Cube.Struct
