import Cube.Struct.Create

/-!
# Elements by path

What a path of names means in a template: each name is that of the first element so
called in the structure that the names before it lead to. `_get_elem_by_name` finds the
element, with two exceptions: a name that is too long is not looked for, and the search
ends with the pointer that stands for `-EINVAL` where an inner name is missing.

* `followName_eq_elem`, `followName_eq_invalid`: what the search comes to.
* `looksUp_iff`: it finds what the path means exactly without those.
-/

namespace Cube.Struct

open Lib

namespace Template

variable (t : Template)

/-- The element at a place is the first with the name among those its node has. -/
structure Named (p : Loc) (name : List Char) (k : Nat) : Prop where
  lt : k < (t.node p).elemNo
  name_eq : ∃ d, t.descOf (k :: p) = some d ∧ d.name = name
  first : ∀ j < k, ∀ d, t.descOf (j :: p) = some d → d.name ≠ name

/-- A path of names leads from a node to an element, through structures. -/
inductive Reaches : Loc → List (List Char) → Loc → Prop
  | last {p name k} (hname : t.Named p name k) : Reaches p [name] (k :: p)
  | inner {p name k names loc} (hname : t.Named p name k) (hsub : t.nested (k :: p) = true)
      (rest : Reaches (k :: p) names loc) : Reaches p (name :: names) loc

/-- A name that `_get_next_name` takes whole. -/
def Sized (name : List Char) : Prop := 0 < name.length ∧ name.length ≤ maxNameLen

instance (name : List Char) : Decidable (Sized name) := inferInstanceAs (Decidable (_ ∧ _))

/-- On a path from a node, an inner name is missing in the structure that the names
    before it lead to. -/
inductive Breaks : Loc → List (List Char) → Prop
  | here {p name names} (hsized : Sized name) (hnone : ∀ k, ¬ t.Named p name k)
      (hinner : names ≠ []) : Breaks p (name :: names)
  | deeper {p name k names} (hsized : Sized name) (hname : t.Named p name k)
      (hsub : t.nested (k :: p) = true) (rest : Breaks (k :: p) names) : Breaks p (name :: names)

/-- The node that a path starts from, the root if it begins with a slash. -/
def startOf (p : Loc) : List Char → Loc
  | '/' :: _ => []
  | _ => p

/-- The names of a path. -/
def namesOf : List Char → List (List Char)
  | '/' :: path => path.splitOn '.'
  | path => path.splitOn '.'

/-- `struct_read_elem`, with the function that reads an element. It tells the pointer
    that stands for an error from no other. -/
def structReadElem (getBinValue : Loc → Outcome Int) (p : Loc) (path : List Char) : Outcome Int :=
  match t.elemByName p path with
  | .null => .error (-EINVAL)
  | .elem loc => getBinValue loc
  | .invalid => .fault

/-- The path leads to an element exactly if the lookup finds it, and the reader of
    elements fails where there is none. -/
structure LooksUp (p : Loc) (path : List Char) : Prop where
  found : ∀ loc, t.Reaches (startOf p path) (namesOf path) loc → t.elemByName p path = .elem loc
  missing : (∀ loc, ¬ t.Reaches (startOf p path) (namesOf path) loc) → t.elemByName p path = .null
  read : ∀ getBinValue loc, t.Reaches (startOf p path) (namesOf path) loc →
    t.structReadElem getBinValue p path = getBinValue loc
  error : ∀ getBinValue, (∀ loc, ¬ t.Reaches (startOf p path) (namesOf path) loc) →
    t.structReadElem getBinValue p path = .error (-EINVAL)

/-! ## What the search comes to -/

variable {t} {p loc : Loc} {name : List Char} {names : List (List Char)} {k : Nat}

theorem elemFromStruct_eq_some : t.elemFromStruct p name = some loc ↔
    ∃ k, loc = k :: p ∧ t.Named p name k := by
  rw [elemFromStruct, Option.map_eq_some_iff]
  constructor
  · rintro ⟨k, hk, rfl⟩
    obtain ⟨hlt, hname, hfirst⟩ := List.findIdx?_eq_some_iff_getElem.1 hk
    rw [List.length_take] at hlt
    rw [List.getElem_take] at hname
    refine ⟨k, rfl, by omega, ⟨_, List.getElem?_eq_getElem _, of_decide_eq_true hname⟩,
      fun j hj d hd heq => ?_⟩
    obtain ⟨hlen, rfl⟩ := List.getElem?_eq_some_iff.1 hd
    refine hfirst j hj ?_
    rw [List.getElem_take]
    exact decide_eq_true heq
  · rintro ⟨k, rfl, hlt, ⟨d, hd, hname⟩, hfirst⟩
    obtain ⟨hlen, rfl⟩ := List.getElem?_eq_some_iff.1 hd
    have hlen' : k < ((t.children p).take (t.node p).elemNo).length := by
      rw [List.length_take]
      omega
    refine ⟨k, List.findIdx?_eq_some_iff_getElem.2 ⟨hlen', ?_, fun j hj hname' => ?_⟩, rfl⟩
    · rw [List.getElem_take]
      exact decide_eq_true hname
    · rw [List.getElem_take] at hname'
      exact hfirst j hj _ (List.getElem?_eq_getElem (by omega)) (of_decide_eq_true hname')

theorem elemFromStruct_eq_none : t.elemFromStruct p name = none ↔ ∀ k, ¬ t.Named p name k := by
  constructor
  · intro hnone k hname
    rw [elemFromStruct_eq_some.2 ⟨k, rfl, hname⟩] at hnone
    cases hnone
  · intro h
    rcases hfound : t.elemFromStruct p name with _ | loc
    · rfl
    · obtain ⟨k, -, hname⟩ := elemFromStruct_eq_some.1 hfound
      exact absurd hname (h k)

/-- There is one first element with a name. -/
theorem Named.inj {j : Nat} (hk : t.Named p name k) (hj : t.Named p name j) : k = j := by
  have heq := (elemFromStruct_eq_some.2 ⟨k, rfl, hk⟩).symm.trans
    (elemFromStruct_eq_some.2 ⟨j, rfl, hj⟩)
  exact (List.cons.inj (Option.some.inj heq)).1

/-- The search from a node where the name is that of an element. -/
theorem followName_named (hsized : Sized name) (hname : t.Named p name k) :
    t.followName p (name :: names) =
      if names.isEmpty then .elem (k :: p)
      else if t.nested (k :: p) then t.followName (k :: p) names else .null := by
  obtain ⟨d, hd, -⟩ := hname.name_eq
  have hsize : ¬ (name.length = 0 ∨ name.length > maxNameLen) := by
    rintro (h | h)
    · exact absurd hsized.1 (by omega)
    · exact absurd hsized.2 (by omega)
  rw [followName, if_neg hsize, elemFromStruct_eq_some.2 ⟨k, rfl, hname⟩]
  simp only [hd, nested_of_desc hd]

/-- The search from a node that has no element with the name. -/
theorem followName_unnamed (hsized : Sized name) (hnone : ∀ k, ¬ t.Named p name k) :
    t.followName p (name :: names) = if names.isEmpty then .null else .invalid := by
  have hsize : ¬ (name.length = 0 ∨ name.length > maxNameLen) := by
    rintro (h | h)
    · exact absurd hsized.1 (by omega)
    · exact absurd hsized.2 (by omega)
  rw [followName, if_neg hsize, elemFromStruct_eq_none.2 hnone]

/-- The search ends at a name that is empty or too long. -/
theorem followName_unsized (hsized : ¬ Sized name) : t.followName p (name :: names) = .null := by
  rw [followName, if_pos]
  rw [Sized] at hsized
  omega

/-- The search finds the element that the path leads to, if no name is too long. -/
theorem followName_eq_elem : t.followName p names = .elem loc ↔
    t.Reaches p names loc ∧ ∀ name ∈ names, Sized name := by
  induction names generalizing p with
  | nil =>
    rw [followName]
    constructor
    · rintro ⟨⟩
    · rintro ⟨⟨⟩, -⟩
  | cons name names ih =>
    by_cases hsized : Sized name
    · by_cases hnamed : ∃ k, t.Named p name k
      · obtain ⟨k, hname⟩ := hnamed
        rw [followName_named hsized hname, List.forall_mem_cons]
        rcases names with _ | ⟨next, names⟩
        · simp only [List.isEmpty_nil, if_true, Lookup.elem.injEq]
          constructor
          · rintro rfl
            exact ⟨.last hname, hsized, List.forall_mem_nil _⟩
          · rintro ⟨hreach, -⟩
            cases hreach with
            | last hname' => rw [hname.inj hname']
            | inner _ _ rest => cases rest
        · simp only [List.isEmpty_cons, Bool.false_eq_true, if_false]
          by_cases hsub : t.nested (k :: p) = true
          · rw [if_pos hsub, ih]
            constructor
            · rintro ⟨hreach, hall⟩
              exact ⟨.inner hname hsub hreach, hsized, hall⟩
            · rintro ⟨hreach, -, hall⟩
              cases hreach with
              | inner hname' _ rest =>
                obtain rfl := hname.inj hname'
                exact ⟨rest, hall⟩
          · rw [if_neg hsub]
            constructor
            · rintro ⟨⟩
            · rintro ⟨hreach, -⟩
              cases hreach with
              | inner hname' hsub' _ =>
                obtain rfl := hname.inj hname'
                exact absurd hsub' hsub
      · rw [followName_unnamed hsized (not_exists.1 hnamed)]
        constructor
        · intro h
          split_ifs at h
        · rintro ⟨hreach, -⟩
          cases hreach with
          | last hname => exact absurd ⟨_, hname⟩ hnamed
          | inner hname => exact absurd ⟨_, hname⟩ hnamed
    · rw [followName_unsized hsized]
      constructor
      · rintro ⟨⟩
      · rintro ⟨-, hall⟩
        exact absurd (hall name List.mem_cons_self) hsized

/-- The search ends with the pointer of the error where the path breaks. -/
theorem followName_eq_invalid : t.followName p names = .invalid ↔ t.Breaks p names := by
  induction names generalizing p with
  | nil =>
    rw [followName]
    constructor
    · rintro ⟨⟩
    · rintro ⟨⟩
  | cons name names ih =>
    by_cases hsized : Sized name
    · by_cases hnamed : ∃ k, t.Named p name k
      · obtain ⟨k, hname⟩ := hnamed
        rw [followName_named hsized hname]
        constructor
        · intro h
          split_ifs at h with _ hsub
          exact .deeper hsized hname hsub (ih.1 h)
        · intro h
          cases h with
          | here _ hnone => exact absurd hname (hnone k)
          | deeper _ hname' hsub rest =>
            obtain rfl := hname.inj hname'
            have hne : names.isEmpty = false := by
              rcases names with _ | ⟨next, names⟩
              · cases rest
              · rfl
            rw [if_neg (by simp [hne]), if_pos hsub]
            exact ih.2 rest
      · rw [followName_unnamed hsized (not_exists.1 hnamed)]
        constructor
        · intro h
          split_ifs at h with hempty
          exact .here hsized (not_exists.1 hnamed) fun hnil => hempty (by rw [hnil]; rfl)
        · intro h
          cases h with
          | here _ _ hinner => rw [if_neg (by simpa using hinner)]
          | deeper _ hname => exact absurd ⟨_, hname⟩ hnamed
    · rw [followName_unsized hsized]
      constructor
      · rintro ⟨⟩
      · intro h
        cases h with
        | here hsized' => exact absurd hsized' hsized
        | deeper hsized' => exact absurd hsized' hsized

theorem elemByName_eq (p : Loc) (path : List Char) :
    t.elemByName p path = t.followName (startOf p path) (namesOf path) := by
  rw [elemByName.eq_def]
  split
  · rfl
  next hslash =>
    rw [startOf, namesOf]
    · intro rest hpath
      exact hslash rest hpath
    · intro rest hpath
      exact hslash rest hpath

/-- A lookup that is right never comes to the pointer of the error. -/
theorem LooksUp.ne_invalid {path : List Char} (h : t.LooksUp p path) :
    t.elemByName p path ≠ .invalid := by
  by_cases hreach : ∃ loc, t.Reaches (startOf p path) (namesOf path) loc
  · obtain ⟨loc, hreach⟩ := hreach
    rw [h.found loc hreach]
    exact nofun
  · rw [h.missing (not_exists.1 hreach)]
    exact nofun

/-- The lookup is right exactly for the paths that do not break at an inner name and that
    have no name out of size if they lead to an element. -/
theorem looksUp_iff (t : Template) (p : Loc) (path : List Char) : t.LooksUp p path ↔
    ¬ t.Breaks (startOf p path) (namesOf path) ∧
      ((∃ loc, t.Reaches (startOf p path) (namesOf path) loc) →
        ∀ name ∈ namesOf path, Sized name) := by
  constructor
  · intro h
    constructor
    · intro hbreaks
      exact h.ne_invalid ((elemByName_eq p path).trans (followName_eq_invalid.2 hbreaks))
    · rintro ⟨loc, hreach⟩
      exact (followName_eq_elem.1 ((elemByName_eq p path).symm.trans (h.found loc hreach))).2
  · rintro ⟨hbreaks, hsized⟩
    have hfound : ∀ loc, t.Reaches (startOf p path) (namesOf path) loc →
        t.elemByName p path = .elem loc := fun loc hreach =>
      (elemByName_eq p path).trans (followName_eq_elem.2 ⟨hreach, hsized ⟨loc, hreach⟩⟩)
    have hmissing : (∀ loc, ¬ t.Reaches (startOf p path) (namesOf path) loc) →
        t.elemByName p path = .null := by
      intro hnone
      rw [elemByName_eq]
      rcases hres : t.followName (startOf p path) (namesOf path) with _ | loc | _
      · rfl
      · exact absurd (followName_eq_elem.1 hres).1 (hnone loc)
      · exact absurd (followName_eq_invalid.1 hres) hbreaks
    refine ⟨hfound, hmissing, fun getBinValue loc hreach => ?_, fun getBinValue hnone => ?_⟩
    · rw [structReadElem, hfound loc hreach]
    · rw [structReadElem, hmissing hnone]

/-- In a template of one integer, a path through a structure that is missing is not
    looked up. -/
theorem not_looksUp_missing : ∃ t, Created [intElem 'a'] t ∧ ¬ t.LooksUp [] ['b', '.', 'c'] := by
  obtain ⟨t, hcreated, hinvalid⟩ : ∃ t, Created [intElem 'a'] t ∧
      t.elemByName [] ['b', '.', 'c'] = .invalid :=
    ⟨_, ⟨0, _, Int.le_refl 0, ⟨2, rfl⟩, rfl⟩, by decide⟩
  exact ⟨t, hcreated, fun h => h.ne_invalid hinvalid⟩

end Template

end Cube.Struct
