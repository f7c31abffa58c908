import Cube.Struct.Create

/-!
# The walk and the recursion it stands for

Most conversions give functions to the loop that read nothing of its variables but
the indices of the structures they are in, and set nothing but the limit of a
structure as they enter it: a `Visitor`. For these, the loop with its variables in
the template does what a recursion over the description does.

* `Visitor.convert`: the recursion. A structure is gone through as often as its limit
  says, elements that fail the test are left out with all that is nested in them.
* `convert_refines`: a conversion returns what the recursion does, with the same data,
  and leaves the variables of the walk as they were, except where an error ended it
  in a nested structure.
-/

namespace Cube.Struct

open Lib Function

/-! ## Functions of a conversion -/

/-- The index of each element. -/
abbrev Indices := Loc → Int

/-- What a function makes of a structure it enters. -/
structure Entered (π : Type) where
  ret : Int
  index : Int
  limit : Int
  para : π

/-- The functions of a conversion. They are given the indices of the structures, and
    the function for a structure its limit. The function for a leaf may store a number
    in the index of the leaf, which is no other use of the loop. -/
structure Visitor (π : Type) where
  start : π → Option (Int × π) := fun m => some (0, m)
  test : Loc → π → Bool := fun _ _ => true
  enter : Loc → Indices → Int → π → Option (Entered π)
  exit : Loc → Indices → Int → π → Option (Int × π) := fun _ _ _ m => some (0, m)
  leaf : Loc → Indices → π → Option (Int × Option Int × π)
  finish : π → Option (Int × π) := fun m => some (0, m)

namespace Frame

variable {π : Type} (f : Frame π)

/-- The indices of the structures in a frame. -/
def indices : Indices := fun loc => if f.tpl.nested loc then f.scr.index loc else 0

/-- The frame with a number stored in the index of an element, if there is one. -/
def storeIndex (loc : Loc) : Option Int → Frame π
  | none => f
  | some i => f.setIndex loc i

end Frame

variable {π : Type}

/-- The functions the loop is given. -/
def Visitor.ops (v : Visitor π) : DealOps π where
  start f := (v.start f.para).map fun (ret, m) => (ret, f.setPara m)
  testelem loc f := v.test loc f.para
  enterstruct loc f := (v.enter loc f.indices (f.scr.limit loc) f.para).map fun e =>
    (e.ret, ((f.setIndex loc e.index).setLimit loc e.limit).setPara e.para)
  exitstruct loc f := (v.exit loc f.indices (f.scr.limit loc) f.para).map fun (ret, m) =>
    (ret, f.setPara m)
  procFunc loc f := (v.leaf loc f.indices f.para).map fun (ret, i, m) =>
    (ret, (f.storeIndex loc i).setPara m)
  finish f := (v.finish f.para).map fun (ret, m) => (ret, f.setPara m)

/-- What the functions of a conversion keep to: a limit is set only where there is
    none, and an element that passes the test once always does. -/
structure Visitor.Orderly (v : Visitor π) : Prop where
  first : ∀ {loc idx m e}, v.enter loc idx 0 m = some e → idx loc = 0 → e.index = 0
  again : ∀ {loc idx limit m e}, v.enter loc idx limit m = some e → limit ≠ 0 →
    e.index = idx loc ∧ e.limit = limit
  test_enter : ∀ {loc idx limit m e}, v.enter loc idx limit m = some e →
    ∀ q, v.test q e.para = v.test q m
  test_exit : ∀ {loc idx limit m r}, v.exit loc idx limit m = some r →
    ∀ q, v.test q r.2 = v.test q m
  test_leaf : ∀ {loc idx m r}, v.leaf loc idx m = some r → ∀ q, v.test q r.2.2 = v.test q m

/-! ## The recursion -/

/-- How the recursion comes through an element: with the data after it, or with an
    error, in a structure whose variables are set or not; or it does what the language
    leaves undefined. -/
inductive Passage (π : Type)
  | done (m : π)
  | failed (ret : Int) (inside : Bool) (m : π)
  | undefined
  deriving DecidableEq

namespace Passage

/-- One passage after another. -/
def bind : Passage π → (π → Passage π) → Passage π
  | done m, next => next m
  | failed ret inside m, _ => failed ret inside m
  | undefined, _ => undefined

/-- A passage in a structure. -/
def within (set : Bool) : Passage π → Passage π
  | failed ret inside m => failed ret (inside || set) m
  | x => x

/-- A function is called, in a structure whose variables are set or not. -/
def ofCall (inside : Bool) : Option (Int × π) → Passage π
  | none => undefined
  | some (ret, m) => if ret < 0 then failed ret inside m else done m

theorem bind_eq_done {x : Passage π} {next : π → Passage π} {m' : π} :
    x.bind next = .done m' ↔ ∃ m, x = .done m ∧ next m = .done m' := by
  cases x with
  | done m => exact ⟨fun h => ⟨m, rfl, h⟩, fun ⟨_, h, h'⟩ => by cases h; exact h'⟩
  | failed ret inside m => exact ⟨nofun, fun ⟨_, h, _⟩ => nomatch h⟩
  | undefined => exact ⟨nofun, fun ⟨_, h, _⟩ => nomatch h⟩

theorem within_eq_done {x : Passage π} {set : Bool} {m : π} :
    x.within set = .done m ↔ x = .done m := by
  cases x with
  | done m => exact Iff.rfl
  | failed ret inside m => exact ⟨nofun, nofun⟩
  | undefined => exact Iff.rfl

theorem ofCall_eq_done {inside : Bool} {r : Option (Int × π)} {m : π} :
    ofCall inside r = .done m ↔ ∃ ret, 0 ≤ ret ∧ r = some (ret, m) := by
  rcases r with _ | ⟨ret, m'⟩
  · exact ⟨nofun, fun ⟨_, _, h⟩ => nomatch h⟩
  · rw [ofCall]
    split_ifs with hret
    · exact ⟨nofun, fun ⟨_, h, h'⟩ => by cases h'; exact absurd hret (Int.not_lt.2 h)⟩
    · constructor
      · rintro ⟨⟩
        exact ⟨ret, Int.not_lt.1 hret, rfl⟩
      · rintro ⟨_, _, h⟩
        cases h
        rfl

end Passage

section Recursion

variable (v : Visitor π)

/-- A pass through a structure, with its index. -/
def pass (loc : Loc) (inside : Indices → π → Passage π) (idx : Indices) (limit i : Int) (m : π) :
    Passage π :=
  ((inside (update idx loc i) m).within (limit ≠ 0)).bind fun m =>
    .ofCall true (v.exit loc (update idx loc (i + 1)) limit m)

/-- A structure is entered again, for the pass with the index. -/
def enterAgain (loc : Loc) (idx : Indices) (limit i : Int) (m : π) : Passage π :=
  .ofCall true ((v.enter loc (update idx loc i) limit m).map fun e => (e.ret, e.para))

/-- The pass through a structure with an index, and as many more as are left. -/
def passes (loc : Loc) (inside : Indices → π → Passage π) (idx : Indices) (limit : Int) :
    Nat → Int → π → Passage π
  | 0, i, m => pass v loc inside idx limit i m
  | left + 1, i, m => (pass v loc inside idx limit i m).bind fun m =>
    (enterAgain v loc idx limit (i + 1) m).bind (passes loc inside idx limit left (i + 1))

/-- A structure is gone through as often as the limit says that is set as it is
    entered, an array with the limit 0 not at all. -/
def visitNested (loc : Loc) (array : Bool) (inside : Indices → π → Passage π) (idx : Indices)
    (m : π) : Passage π :=
  match v.enter loc idx 0 m with
  | none => .undefined
  | some e =>
    if e.ret < 0 then .failed e.ret (e.limit ≠ 0) e.para
    else if array ∧ e.limit = 0 then .ofCall false (v.exit loc idx 0 e.para)
    else passes v loc inside idx e.limit (e.limit.toNat - 1) 0 e.para

/-- An element is gone through, with what is to be done inside it. -/
def visitElem (loc : Loc) (type : ElemType) (inside : Indices → π → Passage π) (idx : Indices)
    (m : π) : Passage π :=
  if !v.test loc m then .done m
  else if type.attr.subset then visitNested v loc type.attr.array inside idx m
  else if !type.hasOps then .failed (-EINVAL) false m
  else .ofCall false ((v.leaf loc idx m).map fun (ret, _, m) => (ret, m))

mutual

/-- The recursion through an element. -/
def traverseElem (loc : Loc) : ElemDesc → Indices → π → Passage π
  | ⟨_, type, _, sub, _, _⟩ => visitElem v loc type (traverse loc 0 sub)

/-- The recursion through the elements of a node, in their order from an index on. -/
def traverse (p : Loc) (k : Nat) : List ElemDesc → Indices → π → Passage π
  | [], _, m => .done m
  | d :: ds, idx, m => (traverseElem (k :: p) d idx m).bind (traverse p (k + 1) ds idx)

end

/-- A conversion as a recursion: what it returns, whether it ended in a structure whose
    variables are set, and the data. -/
def Visitor.convert (desc : List ElemDesc) (m : π) : Option (Int × Bool × π) :=
  match v.start m with
  | none => none
  | some (ret, m) =>
    if ret < 0 then some (ret, false, m)
    else match traverse v [] 0 desc (fun _ => 0) m with
    | .undefined => none
    | .failed ret inside m => some (ret, inside, m)
    | .done m => (v.finish m).map fun (ret, m) => (ret, false, m)

end Recursion

/-! ### Verdicts of the test -/

/-- What passes the test before an element is gone through does so after it. -/
def Steady (v : Visitor π) (go : Indices → π → Passage π) : Prop :=
  ∀ {idx m m'}, go idx m = .done m' → ∀ q, v.test q m' = v.test q m

section Steady

variable {v : Visitor π} (hv : v.Orderly) {loc : Loc} {inside : Indices → π → Passage π}
  {idx : Indices} {limit i : Int} {m m' : π}

include hv

theorem enterAgain_steady (h : enterAgain v loc idx limit i m = .done m') (q : Loc) :
    v.test q m' = v.test q m := by
  obtain ⟨ret, _, hcall⟩ := Passage.ofCall_eq_done.1 h
  obtain ⟨e, henter, he⟩ := Option.map_eq_some_iff.1 hcall
  obtain ⟨_, rfl⟩ := Prod.mk.inj he
  exact hv.test_enter henter q

variable (hinside : Steady v inside)

include hinside

theorem pass_steady (h : pass v loc inside idx limit i m = .done m') (q : Loc) :
    v.test q m' = v.test q m := by
  obtain ⟨m₁, h₁, h₂⟩ := Passage.bind_eq_done.1 h
  obtain ⟨ret, _, hexit⟩ := Passage.ofCall_eq_done.1 h₂
  exact (hv.test_exit hexit q).trans (hinside (Passage.within_eq_done.1 h₁) q)

theorem passes_steady {left : Nat} (h : passes v loc inside idx limit left i m = .done m') (q : Loc) :
    v.test q m' = v.test q m := by
  induction left generalizing i m with
  | zero => exact pass_steady hv hinside h q
  | succ left ih =>
    obtain ⟨m₁, h₁, h₂⟩ := Passage.bind_eq_done.1 h
    obtain ⟨m₂, h₃, h₄⟩ := Passage.bind_eq_done.1 h₂
    exact ((ih h₄).trans (enterAgain_steady hv h₃ q)).trans (pass_steady hv hinside h₁ q)

theorem visitNested_steady {array : Bool} (h : visitNested v loc array inside idx m = .done m')
    (q : Loc) : v.test q m' = v.test q m := by
  rw [visitNested] at h
  cases henter : v.enter loc idx 0 m with
  | none => simp only [henter, reduceCtorEq] at h
  | some e =>
    simp only [henter] at h
    have htest := hv.test_enter henter q
    split_ifs at h
    · obtain ⟨ret, _, hexit⟩ := Passage.ofCall_eq_done.1 h
      exact (hv.test_exit hexit q).trans htest
    · exact (passes_steady hv hinside h q).trans htest

theorem visitElem_steady (loc : Loc) (type : ElemType) : Steady v (visitElem v loc type inside) := by
  intro idx m m' h q
  rw [visitElem] at h
  split_ifs at h
  · cases h
    rfl
  · exact visitNested_steady hv hinside h q
  · obtain ⟨ret, _, hcall⟩ := Passage.ofCall_eq_done.1 h
    obtain ⟨r, hleaf, hr⟩ := Option.map_eq_some_iff.1 hcall
    obtain ⟨_, rfl⟩ := Prod.mk.inj hr
    exact hv.test_leaf hleaf q

end Steady

mutual

theorem traverseElem_steady {v : Visitor π} (hv : v.Orderly) (loc : Loc) :
    ∀ d, Steady v (traverseElem v loc d)
  | ⟨_, type, _, sub, _, _⟩ => by
    intro h
    rw [traverseElem] at h
    exact visitElem_steady hv (traverse_steady hv loc 0 sub) loc type h

theorem traverse_steady {v : Visitor π} (hv : v.Orderly) (p : Loc) (k : Nat) :
    ∀ ds, Steady v (traverse v p k ds)
  | [] => by
    intro h q
    rw [traverse] at h
    cases h
    rfl
  | d :: ds => by
    intro h q
    rw [traverse] at h
    obtain ⟨m₁, h₁, h₂⟩ := Passage.bind_eq_done.1 h
    exact (traverse_steady hv p (k + 1) ds h₂ q).trans (traverseElem_steady hv (k :: p) d h₁ q)

end

/-! ## Rounds of the loop that lead to others -/

section Leads

variable {ops : DealOps π} {p q r : Loc} {f g h : Frame π}

/-- The loop comes from one node and frame to another. -/
def Leads (ops : DealOps π) (p : Loc) (f : Frame π) (q : Loc) (g : Frame π) : Prop :=
  ∃ j, ∀ n, walk ops (n + j) p f = walk ops n q g

theorem Leads.refl (p : Loc) (f : Frame π) : Leads ops p f p f := ⟨0, fun _ => rfl⟩

theorem Leads.trans (h₁ : Leads ops p f q g) (h₂ : Leads ops q g r h) : Leads ops p f r h := by
  obtain ⟨j₁, hj₁⟩ := h₁
  obtain ⟨j₂, hj₂⟩ := h₂
  exact ⟨j₂ + j₁, fun n => by rw [← Nat.add_assoc, hj₁, hj₂]⟩

theorem Leads.of_step (hstep : step ops p f = some (.go q g)) : Leads ops p f q g :=
  ⟨1, fun n => by rw [walk, hstep]⟩

/-- A loop that has ended ends in any larger number of rounds. -/
theorem walk_mono {n : Nat} {res : Int × Frame π} (hwalk : walk ops n p f = some res) (j : Nat) :
    walk ops (n + j) p f = some res := by
  induction n generalizing p f with
  | zero => cases hwalk
  | succ n ih =>
    rw [Nat.add_right_comm, walk]
    rw [walk] at hwalk
    cases hstep : step ops p f with
    | none => simp only [hstep, reduceCtorEq] at hwalk
    | some next =>
      cases next with
      | stop ret f => simpa only [hstep] using hwalk
      | go q g =>
        simp only [hstep] at hwalk
        exact ih hwalk

/-- A conversion that has returned returns the same in any larger number of rounds. -/
theorem convertFrame_mono {n : Nat} {res : Int × Frame π} (hconvert : convertFrame ops n f = some res)
    (j : Nat) : convertFrame ops (n + j) f = some res := by
  rw [convertFrame] at hconvert ⊢
  cases hstart : ops.start (f.setTempVar [] 0) with
  | none => simp only [hstart, reduceCtorEq] at hconvert
  | some s =>
    simp only [hstart] at hconvert ⊢
    split_ifs at hconvert ⊢ with hs
    · exact hconvert
    · cases hwalk : walk ops n [] s.2 with
      | none => simp only [hwalk, reduceCtorEq] at hconvert
      | some res' =>
        rw [walk_mono hwalk j]
        simpa only [hwalk] using hconvert

/-- A conversion returns one value, in one frame. -/
theorem Converts.unique {ret ret' : Int} (h₁ : Converts ops f ret g) (h₂ : Converts ops f ret' h) :
    ret = ret' ∧ g = h := by
  obtain ⟨n₁, hn₁⟩ := h₁
  obtain ⟨n₂, hn₂⟩ := h₂
  have hsame := (convertFrame_mono hn₁ n₂).symm.trans (Nat.add_comm n₂ n₁ ▸ convertFrame_mono hn₂ n₁)
  exact Prod.mk.inj (Option.some.inj hsame)

theorem Leads.ends (hleads : Leads ops p f q g) {res : Int × Frame π}
    (hends : ∃ n, walk ops n q g = some res) : ∃ n, walk ops n p f = some res := by
  obtain ⟨j, hj⟩ := hleads
  obtain ⟨n, hn⟩ := hends
  exact ⟨n + j, by rw [hj, hn]⟩

theorem Leads.never (hleads : Leads ops p f q g) (hnever : ∀ n, walk ops n q g = none) (n : Nat) :
    walk ops n p f = none := by
  obtain ⟨j, hj⟩ := hleads
  cases hwalk : walk ops n p f with
  | none => rfl
  | some res => exact absurd (walk_mono hwalk j) (by rw [hj, hnever]; exact Option.some_ne_none _ |>.symm)

theorem ends_of_step {ret : Int} (hstep : step ops p f = some (.stop ret g)) :
    ∃ n, walk ops n p f = some (ret, g) := ⟨1, by rw [walk, hstep]⟩

theorem never_of_step (hstep : step ops p f = none) (n : Nat) : walk ops n p f = none := by
  cases n with
  | zero => rfl
  | succ n => rw [walk, hstep]

end Leads

/-! ## The loop follows the recursion -/

section Indices

variable {f : Frame π} {loc : Loc}

theorem indices_setIndex (hnested : f.tpl.nested loc = true) (i : Int) :
    (f.setIndex loc i).indices = update f.indices loc i := by
  funext q
  by_cases hq : q = loc
  · subst hq
    rw [update_self]
    exact (if_pos hnested).trans (f.index_setIndex q i)
  · rw [update_of_ne hq]
    change (if f.tpl.nested q then update f.scr.index loc i q else 0) = _
    rw [update_of_ne hq]
    rfl

/-- What is stored in the index of a leaf is no index of a structure. -/
theorem indices_storeIndex (hleaf : f.tpl.nested loc = false) (i : Option Int) :
    (f.storeIndex loc i).indices = f.indices := by
  cases i with
  | none => rfl
  | some i =>
    funext q
    by_cases hq : q = loc
    · subst hq
      change (if f.tpl.nested q then _ else 0) = if f.tpl.nested q then _ else 0
      rw [hleaf]
      rfl
    · change (if f.tpl.nested q then update f.scr.index loc i q else 0) = _
      rw [update_of_ne hq]
      rfl

theorem indices_setLimit (f : Frame π) (i : Int) : (f.setLimit loc i).indices = f.indices := rfl

end Indices

/-- A place of the walk with its variables: the node and the element in it, the indices
    and limits, and the elements the nodes above are at. -/
structure Spot where
  node : Loc
  elem : Nat
  index : Indices
  limit : Loc → Int
  tempVar : Loc → Nat

/-- The walk through a template is at a spot, with the data. -/
structure At (t : Template) (s : Spot) (m : π) (f : Frame π) : Prop where
  tpl : f.tpl = t
  tempVar : f.scr.tempVar s.node = s.elem
  above : ∀ q, q <:+ s.node → q ≠ s.node → f.scr.tempVar q = s.tempVar q
  indices : f.indices = s.index
  limit : f.scr.limit = s.limit
  para : f.para = m

/-- From a frame the loop does what the recursion does: it comes to the spot, or ends
    with the error, in a frame with the variables of another spot if no structure is
    left with its variables set. -/
def Reaches (v : Visitor π) (t : Template) (p : Loc) (f : Frame π) (base target : Spot) :
    Passage π → Prop
  | .done m => ∃ f', Leads v.ops p f target.node f' ∧ At t target m f'
  | .failed ret inside m => ret < 0 ∧ ∃ f', (∃ n, walk v.ops n p f = some (ret, f')) ∧ f'.tpl = t ∧
    f'.para = m ∧ (inside = false → f'.indices = base.index ∧ f'.scr.limit = base.limit)
  | .undefined => ∀ n, walk v.ops n p f = none

section Reaches

variable {v : Visitor π} {t : Template} {p q : Loc} {f g : Frame π} {base base' s target : Spot}
  {x : Passage π}

theorem Reaches.of_leads (hleads : Leads v.ops p f q g) (h : Reaches v t q g base target x) :
    Reaches v t p f base target x := by
  cases x with
  | done m =>
    obtain ⟨f', hleads', hat⟩ := h
    exact ⟨f', hleads.trans hleads', hat⟩
  | failed ret inside m =>
    obtain ⟨hret, f', hends, hrest⟩ := h
    exact ⟨hret, f', hleads.ends hends, hrest⟩
  | undefined => exact hleads.never h

/-- What is done at the spot that is reached first is done from the start. -/
theorem Reaches.bind {next : π → Passage π} (h : Reaches v t p f base s x)
    (hnext : ∀ {m g}, x = .done m → At t s m g → Reaches v t s.node g base target (next m)) :
    Reaches v t p f base target (x.bind next) := by
  cases x with
  | done m =>
    obtain ⟨f', hleads, hat⟩ := h
    exact (hnext rfl hat).of_leads hleads
  | failed ret inside m => exact h
  | undefined => exact h

/-- In a structure, what the variables were before it is found again after an error if
    they are not set. -/
theorem Reaches.within {set : Bool} (h : Reaches v t p f base target x)
    (hbase : set = false → base.index = base'.index ∧ base.limit = base'.limit) :
    Reaches v t p f base' target (x.within set) := by
  cases x with
  | done m => exact h
  | failed ret inside m =>
    obtain ⟨hret, f', hends, htpl, hpara, hrest⟩ := h
    refine ⟨hret, f', hends, htpl, hpara, fun hinside => ?_⟩
    rw [Bool.or_eq_false_iff] at hinside
    obtain ⟨hindices, hlimit⟩ := hrest hinside.1
    obtain ⟨hindex', hlimit'⟩ := hbase hinside.2
    exact ⟨hindices.trans hindex', hlimit.trans hlimit'⟩
  | undefined => exact h

/-- A round of the loop that calls a function does what the call does. -/
theorem Reaches.of_call {inside : Bool} {r : Option (Int × π)} (call : Option (Int × Frame π))
    (cont : Frame π → Option (Next π)) (hstep : step v.ops p f = afterCall call cont)
    (hcall : call.map (fun c => (c.1, c.2.para)) = r)
    (herror : ∀ {ret g}, call = some (ret, g) → ret < 0 → g.tpl = t ∧
      (inside = false → g.indices = base.index ∧ g.scr.limit = base.limit))
    (hdone : ∀ {ret g}, call = some (ret, g) → 0 ≤ ret →
      ∃ f', cont g = some (.go target.node f') ∧ At t target g.para f') :
    Reaches v t p f base target (.ofCall inside r) := by
  subst hcall
  cases call with
  | none => exact never_of_step hstep
  | some c =>
    obtain ⟨ret, g⟩ := c
    simp only [Option.map_some, Passage.ofCall]
    by_cases hret : ret < 0
    · rw [if_pos hret]
      rw [afterCall, if_pos hret] at hstep
      obtain ⟨htpl, hrest⟩ := herror rfl hret
      exact ⟨hret, g, ends_of_step hstep, htpl, rfl, hrest⟩
    · rw [if_neg hret]
      rw [afterCall, if_neg hret] at hstep
      obtain ⟨f', hcont, hat⟩ := hdone rfl (Int.not_lt.1 hret)
      exact ⟨f', .of_step (hstep.trans hcont), hat⟩

end Reaches

/-- The recursion through the elements of a node from an index on is done by the loop. -/
def Carries (v : Visitor π) (t : Template) (p : Loc) (k : Nat) (go : Indices → π → Passage π) : Prop :=
  ∀ {idx lim tv m f}, At t ⟨p, k, idx, lim, tv⟩ m f → (∀ q, Beyond p k q → idx q = 0 ∧ lim q = 0) →
    Reaches v t p f ⟨p, k, idx, lim, tv⟩ ⟨p, (t.children p).length, idx, lim, tv⟩ (go idx m)

section Follow

variable {v : Visitor π} {t : Template} {p : Loc} {k : Nat} {d : ElemDesc} {idx : Indices}
  {lim : Loc → Int} {tv : Loc → Nat} {m : π} {f : Frame π}

theorem At.next (h : At t ⟨p, k, idx, lim, tv⟩ m f) : At t ⟨p, k + 1, idx, lim, tv⟩ m (f.next p) where
  tpl := h.tpl
  tempVar := (tempVar_next f p).trans (congrArg (· + 1) h.tempVar)
  above q hq hne := (Function.update_of_ne hne _ _).trans (h.above q hq hne)
  indices := h.indices
  limit := h.limit
  para := h.para

theorem At.current {L : Loc → Int} (h : At t ⟨p, k, idx, L, tv⟩ m f) (hd : t.descOf (k :: p) = some d)
    (hlt : k < (t.node p).elemNo) : Current f p k d :=
  ⟨h.tempVar, h.tpl ▸ hlt, h.tpl ▸ hd⟩

/-- An element that fails the test is left out. -/
theorem reaches_skip (h : At t ⟨p, k, idx, lim, tv⟩ m f) (hd : t.descOf (k :: p) = some d)
    (hlt : k < (t.node p).elemNo) (htest : v.test (k :: p) m = false) :
    Reaches v t p f ⟨p, k, idx, lim, tv⟩ ⟨p, k + 1, idx, lim, tv⟩ (.done m) := by
  have hstep : step v.ops p f = some (.go p (f.next p)) :=
    step_skip (h.current hd hlt) ((congrArg _ h.para).trans htest)
  exact ⟨f.next p, .of_step hstep, h.next⟩

/-- The round for an element that passes the test. -/
theorem At.step (h : At t ⟨p, k, idx, lim, tv⟩ m f) (hd : t.descOf (k :: p) = some d)
    (hlt : k < (t.node p).elemNo) (htest : v.test (k :: p) m = true) :
    Struct.step v.ops p f = stepElem v.ops p (k :: p) d f := by
  have htest' : v.ops.testelem (k :: p) f = true := (congrArg _ h.para).trans htest
  rw [step_current (h.current hd hlt), htest']
  rfl

/-- A leaf is gone through. -/
theorem reaches_leaf (h : At t ⟨p, k, idx, lim, tv⟩ m f) (hd : t.descOf (k :: p) = some d)
    (hlt : k < (t.node p).elemNo) (htest : v.test (k :: p) m = true)
    (hsub : d.type.attr.subset = false) (hops : d.type.hasOps = true) :
    Reaches v t p f ⟨p, k, idx, lim, tv⟩ ⟨p, k + 1, idx, lim, tv⟩
      (.ofCall false ((v.leaf (k :: p) idx m).map fun (ret, _, m) => (ret, m))) := by
  have hleaf : f.tpl.nested (k :: p) = false := by rw [h.tpl, Template.nested_of_desc hd, hsub]
  -- What the function stores in the index of the leaf is seen by none.
  have hat : ∀ i m', At t ⟨p, k, idx, lim, tv⟩ m' ((f.storeIndex (k :: p) i).setPara m') := by
    intro i m'
    have hindices := (indices_storeIndex hleaf i).trans h.indices
    cases i with
    | none => exact ⟨h.tpl, h.tempVar, h.above, hindices, h.limit, rfl⟩
    | some i => exact ⟨h.tpl, h.tempVar, h.above, hindices, h.limit, rfl⟩
  refine .of_call (v.ops.procFunc (k :: p) f) (fun f => some (.go p (f.next p)))
    ?_ ?_ ?_ ?_
  · rw [h.step hd hlt htest, stepElem, hsub, hops]
    simp only [Bool.false_eq_true, if_false, Bool.not_true]
  · simp only [Visitor.ops, Option.map_map, h.indices, h.para]
    rfl
  · intro ret g hcall _
    obtain ⟨⟨ret', i, m'⟩, _, hg⟩ := Option.map_eq_some_iff.1 hcall
    obtain ⟨rfl, rfl⟩ := Prod.mk.inj hg
    exact ⟨(hat i m').tpl, fun _ => ⟨(hat i m').indices, (hat i m').limit⟩⟩
  · intro ret g hcall _
    obtain ⟨⟨ret', i, m'⟩, _, hg⟩ := Option.map_eq_some_iff.1 hcall
    obtain ⟨rfl, rfl⟩ := Prod.mk.inj hg
    exact ⟨_, rfl, (hat i m').next⟩

/-- A structure is entered: the walk goes down to its node. -/
theorem At.down (h : At t ⟨p, k, idx, lim, tv⟩ m f) :
    At t ⟨k :: p, 0, idx, lim, update tv p k⟩ m (f.setTempVar (k :: p) 0) where
  tpl := h.tpl
  tempVar := tempVar_setTempVar f (k :: p) 0
  above q hq hne := by
    refine (Function.update_of_ne hne _ _).trans ?_
    rcases List.suffix_cons_iff.1 hq with rfl | hq
    · exact absurd rfl hne
    · by_cases hqp : q = p
      · subst hqp
        have hself : update tv q k q = k := update_self ..
        exact h.tempVar.trans hself.symm
      · exact (h.above q hq hqp).trans (Function.update_of_ne hqp _ _).symm
  indices := h.indices
  limit := h.limit
  para := h.para

/-- The place of the walk after a pass through a structure: the next element after the
    last pass, else the structure again. -/
def Spot.afterPass (p : Loc) (k : Nat) (idx : Indices) (lim : Loc → Int) (tv : Loc → Nat) (i L : Int) :
    Spot :=
  if i ≥ L then ⟨p, k + 1, idx, lim, tv⟩
  else ⟨p, k, update idx (k :: p) i, update lim (k :: p) L, tv⟩

theorem At.index {L : Loc → Int} (h : At t ⟨p, k, idx, L, tv⟩ m f) {loc : Loc}
    (hnested : t.nested loc = true) : f.scr.index loc = idx loc := by
  have happ := congrFun h.indices loc
  rwa [Frame.indices, if_pos (by rw [h.tpl]; exact hnested)] at happ

/-- A structure is left for the next element, or entered again. -/
theorem At.afterPass {i L : Int} (hnested : t.nested (k :: p) = true) (hidx : idx (k :: p) = 0)
    (hlim : lim (k :: p) = 0)
    (h : At t ⟨p, k, update idx (k :: p) i, update lim (k :: p) L, tv⟩ m f) :
    At t (Spot.afterPass p k idx lim tv i L) m (f.afterPass p (k :: p)) := by
  have hindex : f.scr.index (k :: p) = i := (h.index hnested).trans (update_self ..)
  have hlimit : f.scr.limit (k :: p) = L := by
    rw [h.limit]
    exact update_self ..
  rw [Spot.afterPass, Frame.afterPass, hindex, hlimit]
  by_cases hge : i ≥ L
  · rw [if_pos hge, if_pos hge]
    have hnested' : ((f.next p).setLimit (k :: p) 0).tpl.nested (k :: p) = true := by
      rw [← hnested, ← h.tpl]
      rfl
    have hnext := h.next
    refine ⟨hnext.tpl, hnext.tempVar, hnext.above, ?_, ?_, hnext.para⟩
    · rw [Frame.leave, indices_setIndex hnested', indices_setLimit, hnext.indices]
      exact (update_idem ..).trans (update_eq_iff.2 ⟨hidx.symm, fun _ _ => rfl⟩)
    · change update (f.next p).scr.limit (k :: p) 0 = lim
      rw [hnext.limit]
      exact (update_idem ..).trans (update_eq_iff.2 ⟨hlim.symm, fun _ _ => rfl⟩)
  · rw [if_neg hge, if_neg hge]
    exact h

/-- The loop leaves the node of a structure: for the next element after the last pass,
    else to enter the structure again. -/
theorem reaches_up {base : Spot} {i L : Int} (hd : t.descOf (k :: p) = some d)
    (hsub : d.type.attr.subset = true) (hidx : idx (k :: p) = 0) (hlim : lim (k :: p) = 0)
    (h : At t ⟨k :: p, (t.node (k :: p)).elemNo, update idx (k :: p) i, update lim (k :: p) L,
      update tv p k⟩ m f) :
    Reaches v t (k :: p) f base (Spot.afterPass p k idx lim tv (i + 1) L)
      (.ofCall true (v.exit (k :: p) (update idx (k :: p) (i + 1)) L m)) := by
  have hp : f.scr.tempVar p = k :=
    (h.above p (List.suffix_cons k p) (List.cons_ne_self k p).symm).trans (update_self ..)
  have htv : ∀ q, q <:+ p → q ≠ p → f.scr.tempVar q = tv q := fun q hq hne =>
    (h.above q (hq.trans (List.suffix_cons k p)) fun he => by
      have hlen := hq.length_le
      rw [he, List.length_cons] at hlen
      omega).trans (update_of_ne hne _ _)
  have hnested : f.tpl.nested (k :: p) = true := by rw [h.tpl, Template.nested_of_desc hd, hsub]
  have hat : At t ⟨p, k, update idx (k :: p) (i + 1), update lim (k :: p) L, tv⟩ m
      (f.incIndex (k :: p)) := by
    refine ⟨h.tpl, hp, htv, ?_, h.limit, h.para⟩
    have hindex : f.scr.index (k :: p) = i :=
      (h.index (h.tpl ▸ hnested)).trans (update_self ..)
    rw [Frame.incIndex, indices_setIndex hnested, h.indices, hindex]
    exact update_idem ..
  have hround : step v.ops (k :: p) f = stepUp v.ops p f := by
    rw [Struct.step.eq_def]
    simp only [h.tempVar, h.tpl, Nat.lt_irrefl, gt_iff_lt, if_false, if_true]
  simp only [stepUp, hp] at hround
  refine .of_call _ _ hround ?_ ?_ ?_
  · have hlimit : (f.incIndex (k :: p)).scr.limit (k :: p) = L := by
      rw [hat.limit]
      exact update_self ..
    simp only [Visitor.ops, Option.map_map, hat.indices, hat.para, hlimit]
    exact Option.map_id'
  · intro ret g hcall _
    obtain ⟨⟨ret', m'⟩, _, hg⟩ := Option.map_eq_some_iff.1 hcall
    obtain ⟨rfl, rfl⟩ := Prod.mk.inj hg
    exact ⟨h.tpl, fun hnone => by cases hnone⟩
  · intro ret g hcall _
    obtain ⟨⟨ret', m'⟩, _, hg⟩ := Option.map_eq_some_iff.1 hcall
    obtain ⟨rfl, rfl⟩ := Prod.mk.inj hg
    have hat' : At t ⟨p, k, update idx (k :: p) (i + 1), update lim (k :: p) L, tv⟩ m'
        ((f.incIndex (k :: p)).setPara m') := ⟨hat.tpl, hat.tempVar, hat.above, hat.indices, hat.limit, rfl⟩
    have hdesc : ((f.incIndex (k :: p)).setPara m').tpl.descOf (k :: p) = some d := by
      rw [hat'.tpl]
      exact hd
    have hpass := hat'.afterPass (h.tpl ▸ hnested) hidx hlim
    refine ⟨_, ?_, hpass⟩
    simp only [hdesc, hsub, Bool.not_true, Bool.false_eq_true, if_false]
    rw [Frame.afterPass, Spot.afterPass]
    split_ifs <;> rfl

/-- A place below an element is not the element. -/
theorem ne_of_beyond_down {q : Loc} (hq : Beyond (k :: p) 0 q) : q ≠ k :: p := by
  obtain ⟨s, hs, rfl⟩ := beyond_down.1 hq
  intro he
  have hlen := congrArg List.length he
  rw [List.length_append] at hlen
  exact hs (List.length_eq_zero_iff.1 (by omega))

/-- A structure is entered again for another pass. -/
theorem reaches_again {base : Spot} {i L : Int} (hv : v.Orderly) (hd : t.descOf (k :: p) = some d)
    (hsub : d.type.attr.subset = true) (hlt : k < (t.node p).elemNo) (hL : L ≠ 0)
    (htest : v.test (k :: p) m = true)
    (h : At t ⟨p, k, update idx (k :: p) i, update lim (k :: p) L, tv⟩ m f) :
    Reaches v t p f base
      ⟨k :: p, 0, update idx (k :: p) i, update lim (k :: p) L, update tv p k⟩
      (enterAgain v (k :: p) idx L i m) := by
  have hnested : f.tpl.nested (k :: p) = true := by rw [h.tpl, Template.nested_of_desc hd, hsub]
  have hlimit : f.scr.limit (k :: p) = L := by
    rw [h.limit]
    exact update_self ..
  refine .of_call (v.ops.enterstruct (k :: p) f) (fun f =>
    if d.type.attr.array ∧ f.scr.limit (k :: p) = 0 then
      afterCall (v.ops.exitstruct (k :: p) f) fun f => some (.go p (f.next p))
    else some (.go (k :: p) (f.setTempVar (k :: p) 0))) ?_ ?_ ?_ ?_
  · rw [h.step hd hlt htest, stepElem, hsub, if_pos rfl]
  · simp only [Visitor.ops, Option.map_map, h.indices, h.para, hlimit]
    rfl
  · intro ret g hcall _
    obtain ⟨e, _, hg⟩ := Option.map_eq_some_iff.1 hcall
    obtain ⟨rfl, rfl⟩ := Prod.mk.inj hg
    exact ⟨h.tpl, fun hnone => by cases hnone⟩
  · intro ret g hcall _
    obtain ⟨e, henter, hg⟩ := Option.map_eq_some_iff.1 hcall
    obtain ⟨rfl, rfl⟩ := Prod.mk.inj hg
    rw [h.indices, hlimit] at henter
    -- The limit is set, so that the function leaves it and the index as they are.
    obtain ⟨hindex, helimit⟩ := hv.again henter hL
    have hat : At t ⟨p, k, update idx (k :: p) i, update lim (k :: p) L, tv⟩ e.para
        (((f.setIndex (k :: p) e.index).setLimit (k :: p) e.limit).setPara e.para) := by
      refine ⟨h.tpl, h.tempVar, h.above, ?_, ?_, rfl⟩
      · change (f.setIndex (k :: p) e.index).indices = _
        rw [indices_setIndex hnested, hindex, h.indices]
        exact update_eq_self ..
      · change update f.scr.limit (k :: p) e.limit = _
        rw [helimit, h.limit]
        exact update_idem ..
    refine ⟨_, ?_, hat.down⟩
    rw [if_neg]
    rintro ⟨_, hzero⟩
    rw [hat.limit] at hzero
    exact hL ((update_self ..).symm.trans hzero)

variable {inside : Indices → π → Passage π} (hfull : t.Full) (hd : t.descOf (k :: p) = some d)
  (hsub : d.type.attr.subset = true) (hcarries : Carries v t (k :: p) 0 inside)
  (hrest : ∀ q, Beyond p k q → idx q = 0 ∧ lim q = 0)

include hfull hd hsub hcarries hrest

/-- A pass through a structure is done by the loop. -/
theorem reaches_pass {i L : Int} (hi : L = 0 → i = 0)
    (h : At t ⟨k :: p, 0, update idx (k :: p) i, update lim (k :: p) L, update tv p k⟩ m f) :
    Reaches v t (k :: p) f ⟨p, k, idx, lim, tv⟩ (Spot.afterPass p k idx lim tv (i + 1) L)
      (pass v (k :: p) inside idx L i m) := by
  obtain ⟨hidx, hlim⟩ := hrest (k :: p) (beyond_self p k)
  have hnested : t.nested (k :: p) = true := (Template.nested_of_desc hd).trans hsub
  have hbelow : ∀ q, Beyond (k :: p) 0 q →
      update idx (k :: p) i q = 0 ∧ update lim (k :: p) L q = 0 := fun q hq => by
    rw [update_of_ne (ne_of_beyond_down hq), update_of_ne (ne_of_beyond_down hq)]
    obtain ⟨s, _, rfl⟩ := beyond_down.1 hq
    exact hrest _ (beyond_iff.2 (.inl ⟨s, rfl⟩))
  refine Reaches.bind (Reaches.within (hcarries h hbelow) fun hset => ?_) fun _ hat => ?_
  · -- Without a limit the first pass is the only one, and the variables are not set.
    obtain rfl : L = 0 := by simpa using hset
    obtain rfl := hi rfl
    exact ⟨update_eq_iff.2 ⟨hidx.symm, fun _ _ => rfl⟩, update_eq_iff.2 ⟨hlim.symm, fun _ _ => rfl⟩⟩
  · rw [← hfull _ (.inr hnested)] at hat
    exact reaches_up hd hsub hidx hlim hat

variable (hv : v.Orderly) (hlt : k < (t.node p).elemNo)

include hv hlt

/-- The passes through a structure that is entered are done by the loop. -/
theorem reaches_passes {L : Int} {left : Nat} {i : Int} (hi : 0 ≤ i)
    (hleft : left = 0 ∧ L ≤ i + 1 ∧ (L = 0 → i = 0) ∨ i + 1 + left = L)
    (hsteady : Steady v inside)
    (htest : v.test (k :: p) m = true)
    (h : At t ⟨k :: p, 0, update idx (k :: p) i, update lim (k :: p) L, update tv p k⟩ m f) :
    Reaches v t (k :: p) f ⟨p, k, idx, lim, tv⟩ ⟨p, k + 1, idx, lim, tv⟩
      (passes v (k :: p) inside idx L left i m) := by
  have hnested : t.nested (k :: p) = true := (Template.nested_of_desc hd).trans hsub
  induction left generalizing i m f with
  | zero =>
    have hpass := reaches_pass hfull hd hsub hcarries hrest (i := i) (L := L) (by omega) h
    rwa [Spot.afterPass, if_pos (by omega)] at hpass
  | succ left ih =>
    have hL : i + 1 + (left + 1 : Nat) = L := by omega
    have hpass := reaches_pass hfull hd hsub hcarries hrest (i := i) (L := L) (by omega) h
    rw [Spot.afterPass, if_neg (by omega)] at hpass
    refine hpass.bind fun {m₁ g} hdone hat => ?_
    have htest₁ : v.test (k :: p) m₁ = true := (pass_steady hv hsteady hdone _).trans htest
    refine (reaches_again hv hd hsub hlt (by omega) htest₁ hat).bind fun {m₂ g'} hdone' hat' => ?_
    have htest₂ := (enterAgain_steady hv hdone' (k :: p)).trans htest₁
    exact ih (by omega) (by omega) htest₂ hat'

variable (hsteady : Steady v inside)

include hsteady

/-- An element that is a structure is gone through by the loop. -/
theorem reaches_nested (h : At t ⟨p, k, idx, lim, tv⟩ m f) (htest : v.test (k :: p) m = true) :
    Reaches v t p f ⟨p, k, idx, lim, tv⟩ ⟨p, k + 1, idx, lim, tv⟩
      (visitNested v (k :: p) d.type.attr.array inside idx m) := by
  obtain ⟨hidx, hlim⟩ := hrest (k :: p) (beyond_self p k)
  have hnested : f.tpl.nested (k :: p) = true := by rw [h.tpl, Template.nested_of_desc hd, hsub]
  have hlimit : f.scr.limit (k :: p) = 0 := by
    rw [h.limit]
    exact hlim
  have hround : step v.ops p f = afterCall (v.ops.enterstruct (k :: p) f) fun f =>
      if d.type.attr.array ∧ f.scr.limit (k :: p) = 0 then
        afterCall (v.ops.exitstruct (k :: p) f) fun f => some (.go p (f.next p))
      else some (.go (k :: p) (f.setTempVar (k :: p) 0)) := by
    rw [h.step hd hlt htest, stepElem, hsub, if_pos rfl]
  rw [visitNested]
  cases henter : v.enter (k :: p) idx 0 m with
  | none =>
    have hcall : v.ops.enterstruct (k :: p) f = none := by
      simp only [Visitor.ops, h.indices, h.para, hlimit, henter, Option.map_none]
    rw [hcall] at hround
    exact never_of_step hround
  | some e =>
    have hcall : v.ops.enterstruct (k :: p) f = some
        (e.ret, ((f.setIndex (k :: p) e.index).setLimit (k :: p) e.limit).setPara e.para) := by
      simp only [Visitor.ops, h.indices, h.para, hlimit, henter, Option.map_some]
    have hat : At t ⟨p, k, idx, update lim (k :: p) e.limit, tv⟩ e.para
        (((f.setIndex (k :: p) e.index).setLimit (k :: p) e.limit).setPara e.para) := by
      refine ⟨h.tpl, h.tempVar, h.above, ?_, ?_, rfl⟩
      · change (f.setIndex (k :: p) e.index).indices = _
        rw [indices_setIndex hnested, h.indices, hv.first henter hidx]
        exact update_eq_iff.2 ⟨hidx.symm, fun _ _ => rfl⟩
      · change update f.scr.limit (k :: p) e.limit = _
        rw [h.limit]
    have hzero : e.limit = 0 → update lim (k :: p) e.limit = lim := fun hL =>
      update_eq_iff.2 ⟨hL.trans hlim.symm, fun _ _ => rfl⟩
    generalize ((f.setIndex (k :: p) e.index).setLimit (k :: p) e.limit).setPara e.para = g at hcall hat
    rw [hcall] at hround
    simp only
    by_cases hret : e.ret < 0
    · rw [afterCall, if_pos hret] at hround
      rw [if_pos hret]
      refine ⟨hret, g, ends_of_step hround, hat.tpl, hat.para, fun hinside => ⟨hat.indices, ?_⟩⟩
      exact hat.limit.trans (hzero (by simpa using hinside))
    · rw [afterCall, if_neg hret] at hround
      rw [if_neg hret]
      have hglimit : g.scr.limit (k :: p) = e.limit := by
        rw [hat.limit]
        exact update_self ..
      rw [hglimit] at hround
      by_cases hnone : d.type.attr.array = true ∧ e.limit = 0
      · -- An array with the limit 0 is left at once.
        rw [if_pos hnone] at hround
        rw [if_pos hnone]
        have hat₀ : At t ⟨p, k, idx, lim, tv⟩ e.para g :=
          ⟨hat.tpl, hat.tempVar, hat.above, hat.indices, hat.limit.trans (hzero hnone.2), hat.para⟩
        refine .of_call _ _ hround ?_ ?_ ?_
        · simp only [Visitor.ops, Option.map_map, hat.indices, hat.para, hglimit, hnone.2]
          exact Option.map_id'
        · intro ret g' hcall' _
          obtain ⟨r, _, hg⟩ := Option.map_eq_some_iff.1 hcall'
          obtain ⟨rfl, rfl⟩ := Prod.mk.inj hg
          exact ⟨hat₀.tpl, fun _ => ⟨hat₀.indices, hat₀.limit⟩⟩
        · intro ret g' hcall' _
          obtain ⟨r, _, hg⟩ := Option.map_eq_some_iff.1 hcall'
          obtain ⟨rfl, rfl⟩ := Prod.mk.inj hg
          have hat' : At t ⟨p, k, idx, lim, tv⟩ r.2 (g.setPara r.2) :=
            ⟨hat₀.tpl, hat₀.tempVar, hat₀.above, hat₀.indices, hat₀.limit, rfl⟩
          exact ⟨_, rfl, hat'.next⟩
      · rw [if_neg hnone] at hround
        rw [if_neg hnone]
        have hdown := hat.down
        have hidx₀ : idx = update idx (k :: p) 0 := (update_eq_iff.2 ⟨hidx.symm, fun _ _ => rfl⟩).symm
        rw [hidx₀] at hdown
        have htest' := (hv.test_enter henter (k :: p)).trans htest
        rw [← hat.para] at htest'
        have hleft : e.limit.toNat - 1 = 0 ∧ e.limit ≤ 0 + 1 ∧ (e.limit = 0 → (0 : Int) = 0) ∨
            0 + 1 + ((e.limit.toNat - 1 : Nat) : Int) = e.limit := by omega
        have hpasses := reaches_passes hfull hd hsub hcarries hrest hv hlt (Int.le_refl 0) hleft hsteady
          (hat.para ▸ htest') hdown
        exact hpasses.of_leads (.of_step hround)

end Follow

/-! ### The whole template -/

section Whole

variable {v : Visitor π} {t : Template} (hv : v.Orderly) (hfull : t.Full)

include hv hfull

/-- An element is gone through by the loop. -/
theorem reaches_elem {p : Loc} {k : Nat} {d : ElemDesc} {inside : Indices → π → Passage π}
    (hd : t.descOf (k :: p) = some d) (hlt : k < (t.node p).elemNo)
    (hcarries : d.type.attr.subset = true → Carries v t (k :: p) 0 inside) (hsteady : Steady v inside)
    {idx : Indices} {lim : Loc → Int} {tv : Loc → Nat} {m : π} {f : Frame π}
    (hrest : ∀ q, Beyond p k q → idx q = 0 ∧ lim q = 0) (h : At t ⟨p, k, idx, lim, tv⟩ m f) :
    Reaches v t p f ⟨p, k, idx, lim, tv⟩ ⟨p, k + 1, idx, lim, tv⟩
      (visitElem v (k :: p) d.type inside idx m) := by
  rw [visitElem]
  cases htest : v.test (k :: p) m with
  | false =>
    rw [Bool.not_false, if_pos rfl]
    exact reaches_skip h hd hlt htest
  | true =>
    rw [Bool.not_true, if_neg Bool.false_ne_true]
    cases hsub : d.type.attr.subset with
    | true =>
      rw [if_pos rfl]
      exact reaches_nested hfull hd hsub (hcarries hsub) hrest hv hlt hsteady h htest
    | false =>
      rw [if_neg Bool.false_ne_true]
      cases hops : d.type.hasOps with
      | true =>
        rw [Bool.not_true, if_neg Bool.false_ne_true]
        exact reaches_leaf h hd hlt htest hsub hops
      | false =>
        rw [Bool.not_false, if_pos rfl]
        have hround : step v.ops p f = some (.stop (-EINVAL) f) := by
          rw [h.step hd hlt htest, stepElem, hsub, hops]
          rfl
        have hneg : -EINVAL < 0 := by decide
        exact ⟨hneg, f, ends_of_step hround, h.tpl, h.para, fun _ => ⟨h.indices, h.limit⟩⟩

end Whole

theorem Beyond.succ {p q : Loc} {k : Nat} (h : Beyond p (k + 1) q) : Beyond p k q :=
  beyond_iff.2 (.inr h)

mutual

theorem traverseElem_reaches {v : Visitor π} {t : Template} (hv : v.Orderly) (hfull : t.Full) {p : Loc}
    {k : Nat} {idx : Indices} {lim : Loc → Int} {tv : Loc → Nat} {m : π} {f : Frame π}
    (hrest : ∀ q, Beyond p k q → idx q = 0 ∧ lim q = 0) (h : At t ⟨p, k, idx, lim, tv⟩ m f)
    (hlt : k < (t.node p).elemNo) : ∀ d, t.descOf (k :: p) = some d →
      Reaches v t p f ⟨p, k, idx, lim, tv⟩ ⟨p, k + 1, idx, lim, tv⟩ (traverseElem v (k :: p) d idx m)
  | ⟨name, type, size, sub, names, defName⟩, hd => by
    rw [traverseElem]
    refine reaches_elem hv hfull hd hlt (fun hsub => ?_) (traverse_steady hv _ _ sub) hrest h
    exact traverse_carries hv hfull (.inr ((Template.nested_of_desc hd).trans hsub)) sub (Nat.zero_le _)
      (Template.children_of_desc hd hsub)

/-- The recursion through the elements of a node is done by the loop. -/
theorem traverse_carries {v : Visitor π} {t : Template} (hv : v.Orderly) (hfull : t.Full) {p : Loc}
    {k : Nat} (hnode : p = [] ∨ t.nested p = true) : ∀ ds, k ≤ (t.children p).length →
      (t.children p).drop k = ds → Carries v t p k (traverse v p k ds)
  | [], hle, hdrop => by
    intro h _
    obtain rfl : k = (t.children p).length := Nat.le_antisymm hle (List.drop_eq_nil_iff.1 hdrop)
    exact ⟨_, .refl _ _, h⟩
  | d :: ds, hle, hdrop => by
    intro h hrest
    obtain ⟨hlt, hd, htail⟩ := t.children_drop_cons hdrop
    rw [traverse]
    refine Reaches.bind (traverseElem_reaches hv hfull hrest h (hfull p hnode ▸ hlt) d hd) fun _ hat => ?_
    exact (traverse_carries hv hfull hnode ds hlt htail hat fun q hq => hrest q hq.succ)

end

/-- No variable of the walk is set, apart from what is stored in the indices of leaves. -/
structure AtRest (t : Template) (scr : Scratch) : Prop where
  index : ∀ q, t.nested q = true → scr.index q = 0
  limit : ∀ q, scr.limit q = 0

theorem Fresh.atRest {desc : List ElemDesc} {created t : Template} {scr : Scratch}
    (h : Fresh desc created scr) : AtRest t scr :=
  ⟨fun q _ => (h.leaves.2 q).1, fun q => (h.leaves.2 q).2⟩

theorem AtRest.indices {t : Template} {scr : Scratch} (h : AtRest t scr) (m : π) :
    (⟨t, scr, m⟩ : Frame π).indices = fun _ => 0 := by
  funext q
  rw [Frame.indices]
  split_ifs with hnested
  · exact h.index q hnested
  · rfl

theorem AtRest.of_indices {t : Template} {f : Frame π} (htpl : f.tpl = t)
    (hindices : f.indices = fun _ => 0) (hlimit : f.scr.limit = fun _ => 0) : AtRest t f.scr := by
  refine ⟨fun q hnested => ?_, fun q => congrFun hlimit q⟩
  have happ := congrFun hindices q
  rwa [Frame.indices, if_pos (by rw [htpl]; exact hnested)] at happ

/-- A conversion returns what the recursion does, with the same data. It leaves no variable
    set, except where it ends with an error in a structure whose variables are set. -/
theorem convert_refines {v : Visitor π} {t : Template} {scr : Scratch} (hv : v.Orderly)
    (hfull : t.Full) (hrest : AtRest t scr) (m : π) :
    match v.convert t.desc m with
    | none => ∀ n, convertFrame v.ops n ⟨t, scr, m⟩ = none
    | some (ret, inside, m') => ∃ scr', Converts v.ops ⟨t, scr, m⟩ ret ⟨t, scr', m'⟩ ∧
      (inside = false → AtRest t scr') := by
  have hstart : v.ops.start ((⟨t, scr, m⟩ : Frame π).setTempVar [] 0) =
      (v.start m).map fun r => (r.1, ((⟨t, scr, m⟩ : Frame π).setTempVar [] 0).setPara r.2) := rfl
  rw [Visitor.convert]
  cases hcall : v.start m with
  | none =>
    rw [hcall] at hstart
    intro n
    rw [convertFrame, hstart]
    rfl
  | some r =>
    obtain ⟨r, m₀⟩ := r
    rw [hcall, Option.map_some] at hstart
    generalize hg : ((⟨t, scr, m⟩ : Frame π).setTempVar [] 0).setPara m₀ = g at hstart
    have hat : At t ⟨[], 0, fun _ => 0, fun _ => 0, g.scr.tempVar⟩ m₀ g := by
      subst hg
      exact ⟨rfl, tempVar_setTempVar .., fun _ _ _ => rfl, hrest.indices m, funext hrest.limit, rfl⟩
    simp only
    by_cases hr : r < 0
    · rw [if_pos hr]
      refine ⟨g.scr, ⟨0, ?_⟩, fun _ => .of_indices hat.tpl hat.indices hat.limit⟩
      simp only [convertFrame, hstart]
      rw [if_pos hr, ← hat.tpl, ← hat.para]
    rw [if_neg hr]
    have hnever : ∀ {n}, walk v.ops n [] g = none → convertFrame v.ops n ⟨t, scr, m⟩ = none :=
      fun hn => by simp only [convertFrame, hstart, if_neg hr, hn]
    have hends : ∀ {n ret f}, walk v.ops n [] g = some (ret, f) → convertFrame v.ops n ⟨t, scr, m⟩ =
        if ret < 0 then some (ret, f) else v.ops.finish f :=
      fun hn => by simp only [convertFrame, hstart, if_neg hr, hn]
    have hreaches := traverse_carries hv hfull (.inl rfl) t.desc (Nat.zero_le _) List.drop_zero hat
      fun _ _ => ⟨rfl, rfl⟩
    cases hgo : traverse v [] 0 t.desc (fun _ => 0) m₀ with
    | undefined =>
      rw [hgo] at hreaches
      intro n
      exact hnever (hreaches n)
    | failed ret inside m' =>
      rw [hgo] at hreaches
      obtain ⟨hret, f', ⟨n, hn⟩, htpl, rfl, hback⟩ := hreaches
      refine ⟨f'.scr, ⟨n, ?_⟩, fun hinside => ?_⟩
      · rw [hends hn, ← htpl]
        exact if_pos hret
      · obtain ⟨hindices, hlimit⟩ := hback hinside
        exact .of_indices htpl hindices hlimit
    | done m' =>
      rw [hgo] at hreaches
      obtain ⟨f', hleads, hat'⟩ := hreaches
      have hend : f'.scr.tempVar [] = (f'.tpl.node []).elemNo := by
        rw [hat'.tpl, hfull [] (.inl rfl)]
        exact hat'.tempVar
      obtain ⟨n, hn⟩ := hleads.ends ⟨1, walk_root hend 0⟩
      have hpara : v.ops.finish f' = (v.finish m').map fun r => (r.1, f'.setPara r.2) := by
        simp only [Visitor.ops, hat'.para]
      cases hfinish : v.finish m' with
      | none =>
        -- However many rounds there are, the loop is not done or the last function is undefined.
        simp only [hfinish, Option.map_none]
        intro n'
        cases hn' : walk v.ops n' [] g with
        | none => exact hnever hn'
        | some res =>
          have hsame := (walk_mono hn' n).symm.trans (Nat.add_comm n n' ▸ walk_mono hn n')
          obtain rfl := Option.some.inj hsame
          rw [hends hn', if_neg (Int.lt_irrefl 0), hpara, hfinish, Option.map_none]
      | some r' =>
        simp only [hfinish, Option.map_some]
        have hat'' : At t ⟨[], (t.children []).length, fun _ => 0, fun _ => 0, g.scr.tempVar⟩ r'.2
            (f'.setPara r'.2) :=
          ⟨hat'.tpl, hat'.tempVar, hat'.above, hat'.indices, hat'.limit, rfl⟩
        refine ⟨f'.scr, ⟨n, ?_⟩, fun _ => .of_indices hat''.tpl hat''.indices hat''.limit⟩
        rw [hends hn, if_neg (Int.lt_irrefl 0), hpara, hfinish, Option.map_some, ← hat'.tpl]
        rfl

end Cube.Struct
