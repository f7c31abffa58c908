import Cube.Connector.Hub

/-!
# A round over the readable connectors

After `select`, a round calls `connector_hub_getactiveread` until it returns
`NULL`, and handles each connector it is given. The handler may delete
connectors of the hub, the one it was given among them: then the cursor moves to
the next connector, and the next call starts *behind* that one.

* `mem_inTurn_iff`: the connectors a round is to give;
* `round_inTurn_iff`: a round gives them, and ends, exactly when every deletion of
  the connector being handled leaves the cursor where no readable connector is
  missed or met again (`Spares`);
* `spares_of_others`: this is so when the handlers only delete other connectors.
-/

namespace Cube.Connector

variable {A C : Type*} [DecidableEq C]

section Spec

/-- The connectors of `l` that are not in `gone`. -/
def remaining (gone l : List C) : List C := l.filter fun c => c ∉ gone

variable (readable : C → Bool) (handle : Nat → List C)

/-- The connectors a round is to give: each readable one of the list in turn,
    unless a handler before has deleted it. The `n`th handler of the round
    deletes the connectors `handle n`. -/
def inTurn : Nat → List C → List C → List C
  | _, _, [] => []
  | n, gone, c :: cs =>
    if c ∉ gone ∧ readable c then c :: inTurn (n + 1) (gone ++ handle n) cs
    else inTurn n gone cs

end Spec

variable [DecidableEq A] (getfd : C → Int)

/-- A round from the `n`th call on gives the connectors of a list and ends with
    `NULL`. The handler of the `n`th connector deletes the connectors `handle n`. -/
inductive Round (handle : Nat → List C) : Nat → Hub A C → List C → Prop
  | null {n : Nat} {hub hub' : Hub A C}
      (hcall : connectorHubGetactiveread getfd hub = some (.null, hub')) : Round handle n hub []
  | conn {n : Nat} {hub hub' hub'' : Hub A C} {c : C} {cs : List C}
      (hcall : connectorHubGetactiveread getfd hub = some (.conn c, hub'))
      (hdel : delConnectors getfd hub' (handle n) = some hub'')
      (hrest : Round handle (n + 1) hub'' cs) : Round handle n hub (c :: cs)

/-- The deletions of a round spare its cursor. The connectors linked are
    `passed`, and `ahead` those whose turn is to come. A handler that deletes the
    connector it was given has the cursor move on: then the connector behind it
    is not readable, or there is none and no connector linked is readable. -/
inductive Spares (readable : C → Bool) (handle : Nat → List C) : Nat → List C → List C → Prop
  | done {n : Nat} {passed : List C} : Spares readable handle n passed []
  | idle {n : Nat} {passed ahead : List C} {c : C} (hfd : 0 < getfd c) (hc : ¬ readable c)
      (hrest : Spares readable handle n (passed ++ [c]) ahead) :
      Spares readable handle n passed (c :: ahead)
  | other {n : Nat} {passed ahead : List C} {c : C} (hc : readable c) (hdel : c ∉ handle n)
      (hrest : Spares readable handle (n + 1) (remaining (handle n) passed ++ [c])
        (remaining (handle n) ahead)) :
      Spares readable handle n passed (c :: ahead)
  | next {n : Nat} {passed ahead ahead' : List C} {c y : C} (hc : readable c)
      (hdel : c ∈ handle n) (hahead : remaining (handle n) ahead = y :: ahead') (hy : ¬ readable y)
      (hrest : Spares readable handle (n + 1) (remaining (handle n) passed ++ [y]) ahead') :
      Spares readable handle n passed (c :: ahead)
  | last {n : Nat} {passed ahead : List C} {c : C} (hc : readable c) (hdel : c ∈ handle n)
      (hahead : remaining (handle n) ahead = [])
      (hpassed : ∀ b ∈ remaining (handle n) passed, 0 < getfd b ∧ ¬ readable b) :
      Spares readable handle n passed (c :: ahead)

variable {getfd} {readable : C → Bool} {handle : Nat → List C} {hub : Hub A C}

/-! ## What is left after deletions -/

section Left

omit [DecidableEq A]

variable {ds l p q : List C} {c : C}

@[simp] theorem remaining_nil : remaining [] l = l := by simp [remaining]

theorem mem_remaining {b : C} : b ∈ remaining ds l ↔ b ∈ l ∧ b ∉ ds := by simp [remaining]

theorem remaining_cons_of_mem (hc : c ∈ ds) : remaining ds (c :: l) = remaining ds l := by simp [remaining, hc]

theorem remaining_cons_of_not_mem (hc : c ∉ ds) : remaining ds (c :: l) = c :: remaining ds l := by
  simp [remaining, hc]

/-- Deleting one connector before others. -/
theorem remaining_erase (hl : l.Nodup) (d : C) : remaining ds (l.erase d) = remaining (d :: ds) l := by
  rw [hl.erase_eq_filter, remaining, List.filter_filter, remaining]
  refine List.filter_congr fun b _ => ?_
  by_cases hb : b = d <;> simp [hb]

theorem remaining_of_not_mem (hc : c ∉ l) : remaining (c :: ds) l = remaining ds l := by
  refine List.filter_congr fun b hb => ?_
  have hbc : b ≠ c := fun h => hc (h ▸ hb)
  simp [hbc]

variable {n : Nat} {c : C} {hub' : Hub A C} {cs : List C}

/-- The connectors given in turn are those of the list left. -/
theorem inTurn_remaining {gone gone' : List C} :
    inTurn readable handle n (gone ++ gone') l = inTurn readable handle n gone' (remaining gone l) := by
  induction l generalizing n gone' with
  | nil => rfl
  | cons c l ih =>
    by_cases hc : c ∈ gone
    · rw [remaining_cons_of_mem hc, inTurn, if_neg (by simp [hc]), ih]
    · rw [remaining_cons_of_not_mem hc, inTurn, inTurn, List.append_assoc, ih, ih]
      simp [hc]

/-- Where the deletions of a handler leave the cursor. -/
def delsAt : List C → List C → List C → List C × List C
  | [], p, q => (p, q)
  | d :: ds, p, q => delsAt ds (delAt d p q).1 (delAt d p q).2

/-- A deletion takes the connector out of the two lists. -/
theorem delAt_append (hnd : (p ++ q).Nodup) :
    (delAt c p q).1 ++ (delAt c p q).2 = (p ++ q).erase c := by
  by_cases hlast : p.getLast? = some c
  · obtain ⟨p, rfl⟩ := List.getLast?_eq_some_iff.1 hlast
    have hcp : c ∉ p := by simp at hnd; grind
    rw [List.append_assoc, List.erase_append_right _ hcp]
    rcases q with _ | ⟨y, q⟩
    · simp [delAt_last_nil]
    · simp [delAt_last_cons]
  · rw [delAt_of_ne q hlast, List.erase_append]
    split_ifs with hcp
    · rw [List.erase_of_not_mem fun hcq => List.disjoint_of_nodup_append hnd hcp hcq]
    · rw [List.erase_of_not_mem hcp]

/-- Deletions take the connectors out of the two lists. -/
theorem delsAt_append (hnd : (p ++ q).Nodup) :
    (delsAt ds p q).1 ++ (delsAt ds p q).2 = remaining ds (p ++ q) := by
  induction ds generalizing p q with
  | nil => simp [delsAt]
  | cons d ds ih =>
    have happ := delAt_append (c := d) hnd
    rw [delsAt, ih (happ ▸ hnd.erase d), happ, remaining_erase hnd]

/-- With the cursor on the head, deletions leave it there. -/
theorem delsAt_head (hnd : q.Nodup) : delsAt ds [] q = ([], remaining ds q) := by
  induction ds generalizing q with
  | nil => simp [delsAt, remaining]
  | cons d ds ih =>
    have hd : delAt d [] q = ([], q.erase d) := delAt_of_ne q (by simp)
    rw [delsAt, hd, ih (hnd.erase d), remaining_erase hnd]

/-- With the cursor on `c`, deletions leave it there, or on the first connector
    left behind `c` when they delete `c`. -/
theorem delsAt_last (ds : List C) (hnd : (p ++ [c] ++ q).Nodup) :
    (c ∉ ds → delsAt ds (p ++ [c]) q = (remaining ds p ++ [c], remaining ds q)) ∧
    (∀ y r, c ∈ ds → remaining ds q = y :: r → delsAt ds (p ++ [c]) q = (remaining ds p ++ [y], r)) ∧
    (c ∈ ds → remaining ds q = [] → delsAt ds (p ++ [c]) q = ([], remaining ds p)) := by
  induction ds generalizing p c q with
  | nil => simp [delsAt, remaining]
  | cons d ds ih =>
    by_cases hdc : c = d
    · -- the cursor moves behind `c`
      subst hdc
      have hp : c ∉ p := by simp at hnd; grind
      have hq : c ∉ q := by simp at hnd; grind
      simp only [delsAt, remaining_of_not_mem hp, remaining_of_not_mem hq, List.mem_cons_self,
        not_true_eq_false, false_implies, true_implies, true_and]
      rcases q with _ | ⟨y, q⟩
      · simp only [delAt_last_nil, delsAt_head (show p.Nodup by simp at hnd; grind)]
        simp [remaining]
      · simp only [delAt_last_cons]
        obtain ⟨hkeep, hmove, hend⟩ := ih (p := p) (c := y) (q := q) (by simp at hnd ⊢; grind)
        by_cases hy : y ∈ ds
        · rw [remaining_cons_of_mem hy]
          exact ⟨fun z r => hmove z r hy, hend hy⟩
        · rw [remaining_cons_of_not_mem hy, hkeep hy]
          refine ⟨fun z r hzr => ?_, fun h => by simp at h⟩
          obtain ⟨rfl, rfl⟩ := List.cons_eq_cons.1 hzr
          rfl
    · -- the cursor stays on `c`
      have hp : p.Nodup := by simp at hnd; grind
      have hq : q.Nodup := by simp at hnd; grind
      have hd : delAt d (p ++ [c]) q = (p.erase d ++ [c], q.erase d) := by
        rw [delAt_of_ne q (by simpa using hdc), erase_concat_of_ne hdc]
      have hmem : c ∈ d :: ds ↔ c ∈ ds := by simp [hdc]
      have hnd' : (p.erase d ++ [c] ++ q.erase d).Nodup := by
        refine hnd.sublist ?_
        exact (List.erase_sublist.append (List.Sublist.refl _)).append List.erase_sublist
      rw [delsAt, hd, hmem, ← remaining_erase hp, ← remaining_erase hq]
      exact ih hnd'

end Left

/-! ## The deletions of a handler -/

/-- Open descriptors belong to one connector of the list each. -/
def Distinct (getfd : C → Int) (l : List C) : Prop :=
  ∀ b ∈ l, ∀ c ∈ l, 0 < getfd b → getfd b = getfd c → b = c

/-- A handler deletes connectors of a list without losing its place in it, and
    leaves the descriptors of the others as they were. -/
theorem linked_delConnectors (ds : List C) {p q : List C} (h : Linked hub p q) (hnd : (p ++ q).Nodup)
    (hfd : Distinct getfd (p ++ q)) (hpos : ∀ fd ∈ hub.readfds, 0 < fd) :
    ∃ hub', delConnectors getfd hub ds = some hub' ∧
      Linked hub' (delsAt ds p q).1 (delsAt ds p q).2 ∧
      (∀ fd ∈ hub'.readfds, 0 < fd) ∧
      ∀ b ∈ p ++ q, b ∉ ds → (getfd b ∈ hub'.readfds ↔ getfd b ∈ hub.readfds) := by
  induction ds generalizing hub p q with
  | nil => exact ⟨hub, rfl, h, hpos, fun b _ _ => Iff.rfl⟩
  | cons d ds ih =>
    by_cases hd : d ∈ p ++ q
    · obtain ⟨r, hub₁, hdel, h₁, hfds₁⟩ := linked_delConnector getfd h hnd hd
      have happ := delAt_append (c := d) hnd
      have hsub : ∀ b ∈ (delAt d p q).1 ++ (delAt d p q).2, b ∈ p ++ q := by
        rw [happ]
        exact fun b hb => List.mem_of_mem_erase hb
      have hmem (fd : Int) (hfd₁ : fd ∈ hub₁.readfds) : fd ∈ hub.readfds := by
        rw [hfds₁, fdsWithout] at hfd₁
        split_ifs at hfd₁
        · exact hfd₁
        · exact Finset.mem_of_mem_erase hfd₁
      obtain ⟨hub', hdels, h', hpos', hfds'⟩ := ih h₁ (happ ▸ hnd.erase d)
        (fun b hb c hc => hfd b (hsub b hb) c (hsub c hc)) fun fd hfd₁ => hpos fd (hmem fd hfd₁)
      refine ⟨hub', ?_, h', hpos', ?_⟩
      · rw [delConnectors, hdel, Option.bind_some]
        exact hdels
      intro b hb hbds
      rw [List.mem_cons, not_or] at hbds
      rw [hfds' b (by rw [happ]; exact (List.mem_erase_of_ne hbds.1).2 hb) hbds.2]
      refine ⟨hmem _, fun hset => ?_⟩
      -- the descriptor of `b` is open, so it is not the one of `d`
      rw [hfds₁, fdsWithout]
      split_ifs
      · exact hset
      · exact Finset.mem_erase.2 ⟨fun heq => hbds.1 (hfd b hb d hd (hpos _ hset) heq), hset⟩
    · have hdelAt : delAt d p q = (p, q) := by
        have hdp : p.getLast? ≠ some d := fun hlast =>
          hd (List.mem_append_left q (List.mem_of_getLast? hlast))
        rw [delAt_of_ne q hdp, List.erase_of_not_mem fun hp => hd (List.mem_append_left q hp),
          List.erase_of_not_mem fun hq => hd (List.mem_append_right p hq)]
      obtain ⟨hub', hdels, h', hpos', hfds'⟩ := ih h hnd hfd hpos
      refine ⟨hub', ?_, ?_, hpos', fun b hb hbds => hfds' b hb fun hbd =>
        hbds (List.mem_cons_of_mem d hbd)⟩
      · rw [delConnectors, delConnector_of_not_mem h hd, Option.bind_some]
        exact hdels
      · rw [delsAt, hdelAt]
        exact h'

/-! ## The turns of a round -/

/-- A round has passed the connectors `p`, and those of `q` are still to have
    their turn. -/
structure AtTurn (getfd : C → Int) (readable : C → Bool) (hub : Hub A C) (p q : List C) :
    Prop where
  linked : Linked hub p q
  nodup : (p ++ q).Nodup
  distinct : Distinct getfd (p ++ q)
  fds_pos : ∀ fd ∈ hub.readfds, 0 < fd
  mem_fds : ∀ c ∈ p ++ q, getfd c ∈ hub.readfds ↔ readable c

namespace AtTurn

variable {p q : List C}

omit [DecidableEq A] [DecidableEq C] in
/-- A readable connector has an open descriptor. -/
theorem fd_pos (h : AtTurn getfd readable hub p q) (hc : c ∈ p ++ q)
    (hr : readable c) : 0 < getfd c := h.fds_pos _ ((h.mem_fds c hc).2 hr)

omit [DecidableEq A] [DecidableEq C] in
theorem idle_iff (h : AtTurn getfd readable hub p q) (hc : c ∈ p ++ q) :
    Idle getfd hub.readfds c ↔ 0 < getfd c ∧ ¬ readable c := by
  rw [Idle, h.mem_fds c hc]

/-- The round goes on after the deletions of a handler. -/
theorem delConnectors (h : AtTurn getfd readable hub p q) (ds : List C) :
    ∃ hub', delConnectors getfd hub ds = some hub' ∧
      AtTurn getfd readable hub' (delsAt ds p q).1 (delsAt ds p q).2 := by
  obtain ⟨hub', hdels, hlinked, hpos, hfds⟩ :=
    linked_delConnectors ds h.linked h.nodup h.distinct h.fds_pos
  have hmem (b : C) (hb : b ∈ remaining ds (p ++ q)) : b ∈ p ++ q ∧ b ∉ ds := mem_remaining.1 hb
  refine ⟨hub', hdels, hlinked, ?_, ?_, hpos, ?_⟩
  all_goals rw [delsAt_append h.nodup]
  · exact h.nodup.filter _
  · exact fun b hb c hc => h.distinct b (hmem b hb).1 c (hmem c hc).1
  · exact fun b hb => (hfds b (hmem b hb).1 (hmem b hb).2).trans (h.mem_fds b (hmem b hb).1)

end AtTurn

section Turns

omit [DecidableEq A]

variable {n : Nat} {p s q : List C} {c : C}

/-- Connectors that are not readable have no turn. -/
theorem inTurn_idle (hs : ∀ b ∈ s, ¬ readable b) :
    inTurn readable handle n [] (s ++ q) = inTurn readable handle n [] q := by
  induction s with
  | nil => rfl
  | cons b s ih =>
    rw [List.forall_mem_cons] at hs
    rw [List.cons_append, inTurn, if_neg (by simp [hs.1]), ih hs.2]

theorem inTurn_readable (hc : readable c) : inTurn readable handle n [] (c :: q) =
    c :: inTurn readable handle (n + 1) [] (remaining (handle n) q) := by
  have hgone : inTurn readable handle (n + 1) (handle n ++ []) q = _ := inTurn_remaining
  rw [List.append_nil] at hgone
  rw [inTurn, if_pos (by simp [hc]), List.nil_append, hgone]

/-- Connectors that are not readable are passed. -/
theorem spares_idle (hs : ∀ b ∈ s, 0 < getfd b ∧ ¬ readable b) :
    Spares getfd readable handle n p (s ++ q) ↔ Spares getfd readable handle n (p ++ s) q := by
  induction s generalizing p with
  | nil => rw [List.nil_append, List.append_nil]
  | cons b s ih =>
    rw [List.forall_mem_cons] at hs
    have hstep : Spares getfd readable handle n p (b :: (s ++ q)) ↔
        Spares getfd readable handle n (p ++ [b]) (s ++ q) := by
      refine ⟨fun h => ?_, .idle hs.1.1 hs.1.2⟩
      rcases h with _ | ⟨_, _, h⟩ | ⟨hb⟩ | ⟨hb⟩ | ⟨hb⟩
      · exact h
      all_goals exact absurd hb hs.1.2
    rw [List.cons_append, hstep, ih hs.2, List.append_assoc, List.singleton_append]

/-- What the turn of a readable connector asks of its handler. -/
theorem spares_readable (hc : readable c) : Spares getfd readable handle n p (c :: q) ↔
    (c ∉ handle n ∧ Spares getfd readable handle (n + 1) (remaining (handle n) p ++ [c])
      (remaining (handle n) q)) ∨
    (c ∈ handle n ∧ ∃ y r, remaining (handle n) q = y :: r ∧ ¬ readable y ∧
      Spares getfd readable handle (n + 1) (remaining (handle n) p ++ [y]) r) ∨
    (c ∈ handle n ∧ remaining (handle n) q = [] ∧
      ∀ b ∈ remaining (handle n) p, 0 < getfd b ∧ ¬ readable b) := by
  constructor
  · rintro (_ | ⟨_, hnc, _⟩ | ⟨_, hdel, hrest⟩ | ⟨_, hdel, hq, hy, hrest⟩ | ⟨_, hdel, hq, hp⟩)
    · exact absurd hc hnc
    · exact .inl ⟨hdel, hrest⟩
    · exact .inr (.inl ⟨hdel, _, _, hq, hy, hrest⟩)
    · exact .inr (.inr ⟨hdel, hq, hp⟩)
  · rintro (⟨hdel, hrest⟩ | ⟨hdel, y, r, hq, hy, hrest⟩ | ⟨hdel, hq, hp⟩)
    · exact .other hc hdel hrest
    · exact .next hc hdel hq hy hrest
    · exact .last hc hdel hq hp

/-- A round whose handlers delete other connectors only spares its cursor. -/
theorem spares_of_others (hfd : ∀ b ∈ q, 0 < getfd b)
    (hown : ∀ k b, (inTurn readable handle n [] q)[k]? = some b → b ∉ handle (n + k)) :
    Spares getfd readable handle n p q := by
  obtain ⟨m, hm⟩ : ∃ m, q.length = m := ⟨_, rfl⟩
  induction m using Nat.strong_induction_on generalizing n p q with
  | _ m ih =>
    rcases q with _ | ⟨c, q⟩
    · exact .done
    rw [List.forall_mem_cons] at hfd
    rw [List.length_cons] at hm
    by_cases hc : readable c
    · rw [inTurn_readable hc] at hown
      have hrem : (remaining (handle n) q).length ≤ q.length := List.length_filter_le ..
      refine .other hc (hown 0 c rfl) (ih _ (by omega) ?_ (fun k b hb => ?_) rfl)
      · exact fun b hb => hfd.2 b (mem_remaining.1 hb).1
      · rw [Nat.add_assoc, Nat.add_comm 1 k]
        exact hown (k + 1) b hb
    · have hskip : inTurn readable handle n [] ([c] ++ q) = inTurn readable handle n [] q :=
        inTurn_idle (by simpa using hc)
      rw [List.singleton_append] at hskip
      rw [hskip] at hown
      exact .idle hfd.1 hc (ih _ (by omega) hfd.2 hown rfl)

/-- The connectors of a round are given in the order of the list, each at most once. -/
theorem inTurn_sublist {gone l : List C} : (inTurn readable handle n gone l).Sublist l := by
  induction l generalizing n gone with
  | nil => exact List.Sublist.refl _
  | cons c l ih =>
    rw [inTurn]
    split_ifs
    · exact ih.cons_cons c
    · exact ih.cons c

/-- A connector has its turn when it is readable and no handler of a connector
    before it in the list deletes it. -/
theorem mem_inTurn_iff {gone l : List C} (hl : l.Nodup) :
    c ∈ inTurn readable handle n gone l ↔ c ∈ l ∧ readable c ∧ c ∉ gone ∧
      ∀ k b, (inTurn readable handle n gone l)[k]? = some b → [b, c].Sublist l →
        c ∉ handle (n + k) := by
  induction l generalizing n gone with
  | nil => simp [inTurn]
  | cons d l ih =>
    obtain ⟨hd, hl⟩ := List.nodup_cons.1 hl
    have hbefore (b : C) (hb : b ≠ d) : [b, c].Sublist (d :: l) ↔ [b, c].Sublist l := by
      rw [List.sublist_cons_iff]
      simp [hb]
    have hmem (n : Nat) (gone : List C) (b : C) (hb : b ∈ inTurn readable handle n gone l) : b ≠ d :=
      fun hbd => hd (hbd ▸ inTurn_sublist.subset hb)
    by_cases hturn : d ∉ gone ∧ readable d
    · rw [inTurn, if_pos hturn, List.mem_cons, ih hl]
      by_cases hcd : c = d
      · subst hcd
        have hnone (b : C) : ¬ [b, c].Sublist (c :: l) := fun hb => by
          rcases List.sublist_cons_iff.1 hb with hb | ⟨r, hr, hb⟩
          · exact hd (hb.subset (by simp))
          · rw [← (List.cons_eq_cons.1 hr).2] at hb
            exact hd (hb.subset (by simp))
        simp [hturn, hnone]
      · constructor
        · rintro (hc | ⟨hcl, hr, hg, hk⟩)
          · exact absurd hc hcd
          rw [List.mem_append, not_or] at hg
          refine ⟨List.mem_cons_of_mem d hcl, hr, hg.1, fun k b hb hbc => ?_⟩
          rcases k with _ | k
          · exact hg.2
          · rw [List.getElem?_cons_succ] at hb
            rw [← Nat.add_assoc, Nat.add_right_comm]
            exact hk k b hb ((hbefore b (hmem _ _ b (List.mem_of_getElem? hb))).1 hbc)
        · rintro ⟨hcl, hr, hg, hk⟩
          have hcl : c ∈ l := (List.mem_cons.1 hcl).resolve_left hcd
          have hown : c ∉ handle n :=
            hk 0 d rfl (List.cons_sublist_cons.2 (List.singleton_sublist.2 hcl))
          refine .inr ⟨hcl, hr, by simp [hg, hown], fun k b hb hbc => ?_⟩
          rw [Nat.add_right_comm, Nat.add_assoc]
          exact hk (k + 1) b hb (hbc.cons d)
    · rw [inTurn, if_neg hturn, ih hl]
      have hcd (hc : readable c ∧ c ∉ gone) : c ≠ d := fun h => hturn (h ▸ ⟨hc.2, hc.1⟩)
      constructor
      · rintro ⟨hcl, hr, hg, hk⟩
        exact ⟨List.mem_cons_of_mem d hcl, hr, hg, fun k b hb hbc =>
          hk k b hb ((hbefore b (hmem _ _ b (List.mem_of_getElem? hb))).1 hbc)⟩
      · rintro ⟨hcl, hr, hg, hk⟩
        exact ⟨(List.mem_cons.1 hcl).resolve_left (hcd ⟨hr, hg⟩), hr, hg,
          fun k b hb hbc => hk k b hb (hbc.cons d)⟩

end Turns

/-- A round that gives a connector goes on behind the deletions of its handler. -/
theorem round_cons_iff {hub'' : Hub A C}
    (hcall : connectorHubGetactiveread getfd hub = some (.conn c, hub'))
    (hdel : delConnectors getfd hub' (handle n) = some hub'') :
    Round getfd handle n hub (c :: cs) ↔ Round getfd handle (n + 1) hub'' cs := by
  refine ⟨fun h => ?_, .conn hcall hdel⟩
  rcases h with _ | ⟨hcall', hdel', hrest⟩
  rw [hcall] at hcall'
  rw [← (Prod.mk.inj (Option.some_inj.1 hcall')).2, hdel] at hdel'
  rwa [Option.some_inj.1 hdel']

/-- The first connector a round gives is the one its first call returns. -/
theorem not_round_cons {a : Active C}
    (hcall : connectorHubGetactiveread getfd hub = some (a, hub')) (ha : a ≠ .conn c) :
    ¬ Round getfd handle n hub (c :: cs) := by
  rintro (_ | ⟨hcall', _, _⟩)
  rw [hcall] at hcall'
  exact ha (Prod.mk.inj (Option.some_inj.1 hcall')).1

/-- No round goes on behind `-EINVAL`. -/
theorem not_round_of_einval (hcall : connectorHubGetactiveread getfd hub = some (.einval, hub')) :
    ¬ Round getfd handle n hub cs := by
  rintro (hcall' | ⟨hcall', _, _⟩) <;> rw [hcall] at hcall' <;> simp at hcall'

theorem round_nil_iff {a : Active C}
    (hcall : connectorHubGetactiveread getfd hub = some (a, hub')) :
    Round getfd handle n hub [] ↔ a = .null := by
  constructor
  · rintro ⟨hcall'⟩
    rw [hcall] at hcall'
    exact (Prod.mk.inj (Option.some_inj.1 hcall')).1
  · rintro rfl
    exact .null hcall

namespace AtTurn

variable {n : Nat} {p q : List C}

omit [DecidableEq C] in
/-- What the next call returns: the first connector ahead that is readable. -/
theorem call (h : AtTurn getfd readable hub p q) :
    (∃ hub', connectorHubGetactiveread getfd hub = some (.null, hub') ∧
      ∀ b ∈ q, 0 < getfd b ∧ ¬ readable b) ∨
    (connectorHubGetactiveread getfd hub = some (.einval, hub) ∧
      ∃ s c r, q = s ++ c :: r ∧ (∀ b ∈ s, 0 < getfd b ∧ ¬ readable b) ∧ getfd c ≤ 0) ∨
    ∃ hub' s c r, connectorHubGetactiveread getfd hub = some (.conn c, hub') ∧ q = s ++ c :: r ∧
      (∀ b ∈ s, 0 < getfd b ∧ ¬ readable b) ∧ readable c ∧
      AtTurn getfd readable hub' (p ++ s ++ [c]) r := by
  have hidle (l : List C) (hl : ∀ b ∈ l, b ∈ q) (hb : ∀ b ∈ l, Idle getfd hub.readfds b) :
      ∀ b ∈ l, 0 < getfd b ∧ ¬ readable b :=
    fun b hbl => (h.idle_iff (List.mem_append_right p (hl b hbl))).1 (hb b hbl)
  rcases idle_or_first getfd hub.readfds q with hq | ⟨s, c, r, rfl, hs, hc⟩
  · obtain ⟨hub', hcall, _, _⟩ := linked_getactiveread_null h.linked hq
    exact .inl ⟨hub', hcall, hidle q (fun _ => id) hq⟩
  have hs' := hidle s (by simp +contextual) hs
  by_cases hfd : 0 < getfd c
  · have hset : getfd c ∈ hub.readfds := by
      by_contra hset
      exact hc ⟨hfd, hset⟩
    obtain ⟨hub', hcall, hfds, hlinked⟩ := linked_getactiveread_conn h.linked hs hfd hset
    refine .inr (.inr ⟨hub', s, c, r, hcall, rfl, hs', ?_, hlinked, ?_, ?_, ?_, ?_⟩)
    · exact (h.mem_fds c (by simp)).1 hset
    · simpa using h.nodup
    · simpa using h.distinct
    · exact hfds ▸ h.fds_pos
    · intro b hb
      rw [hfds]
      exact h.mem_fds b (by simpa using hb)
  · exact .inr (.inl ⟨linked_getactiveread_einval h.linked hs (Int.not_lt.1 hfd), s, c, r, rfl,
      hs', Int.not_lt.1 hfd⟩)

/-- A round ends at once when no connector ahead is readable. -/
theorem round_nil_iff (h : AtTurn getfd readable hub p q) :
    Round getfd handle n hub [] ↔ ∀ b ∈ q, 0 < getfd b ∧ ¬ readable b := by
  rcases h.call with ⟨hub', hcall, hq⟩ | ⟨hcall, s, c, r, rfl, _, hc⟩ |
      ⟨hub', s, c, r, hcall, rfl, _, hc, _⟩
  all_goals rw [Connector.round_nil_iff hcall]
  · exact iff_of_true rfl hq
  · exact iff_of_false (by simp) fun hq => absurd (hq c (by simp)).1 (Int.not_lt.2 hc)
  · exact iff_of_false (by simp) fun hq => (hq c (by simp)).2 hc

/-- A connector that is not ahead of the cursor is not given next. -/
theorem not_round_of_not_mem (h : AtTurn getfd readable hub p q) {y : C} (hy : y ∉ q) : ¬ Round getfd handle n hub (y :: cs) := by
  rcases h.call with ⟨hub', hcall, _⟩ | ⟨hcall, _⟩ | ⟨hub', s, c, r, hcall, rfl, _⟩
  · exact not_round_cons hcall (by simp)
  · exact not_round_cons hcall (by simp)
  · refine not_round_cons hcall fun hcy => hy ?_
    rw [Active.conn.inj hcy]
    simp

/-- From any turn on, a round gives the connectors in turn exactly when its
    deletions spare the cursor. -/
theorem round_iff (h : AtTurn getfd readable hub p q) :
    Round getfd handle n hub (inTurn readable handle n [] q) ↔
      Spares getfd readable handle n p q := by
  obtain ⟨m, hm⟩ : ∃ m, q.length = m := ⟨_, rfl⟩
  induction m using Nat.strong_induction_on generalizing n hub p q with
  | _ m ih =>
    rcases h.call with ⟨hub', hcall, hq⟩ | ⟨hcall, s, c, r, rfl, hs, hc⟩ |
        ⟨hub₁, s, c, r, hcall, rfl, hs, hc, h₁⟩
    · -- no turn is left
      have hinTurn : inTurn readable handle n [] (q ++ []) = inTurn readable handle n [] [] :=
        inTurn_idle fun b hb => (hq b hb).2
      have hspares : Spares getfd readable handle n p (q ++ []) ↔
          Spares getfd readable handle n (p ++ q) [] := spares_idle hq
      rw [List.append_nil] at hinTurn hspares
      rw [hinTurn, hspares]
      exact iff_of_true (.null hcall) .done
    · -- the call stops at a connector without an open descriptor
      have hnr : ¬ readable c := fun hr => absurd (h.fd_pos (by simp) hr) (Int.not_lt.2 hc)
      rw [spares_idle hs]
      refine iff_of_false (not_round_of_einval hcall) fun hspares => ?_
      · rcases hspares with _ | ⟨hfd⟩ | ⟨hr⟩ | ⟨hr⟩ | ⟨hr⟩
        · exact absurd hfd (Int.not_lt.2 hc)
        all_goals exact hnr hr
    · -- the turn of `c`
      obtain ⟨hub₂, hdel, h₂⟩ := h₁.delConnectors (handle n)
      obtain ⟨hkeep, hmove, hend⟩ := delsAt_last (handle n) h₁.nodup
      have hlen (r' : List C) (hr' : r'.length ≤ r.length) : r'.length < m := by
        rw [← hm, List.length_append, List.length_cons]
        omega
      have hrem : (remaining (handle n) r).length ≤ r.length := List.length_filter_le ..
      rw [inTurn_idle fun b hb => (hs b hb).2, spares_idle hs, inTurn_readable hc,
        round_cons_iff hcall hdel, spares_readable hc]
      by_cases hcd : c ∈ handle n
      · simp only [hcd, not_true_eq_false, false_and, true_and, false_or]
        rcases hr : remaining (handle n) r with _ | ⟨y, r'⟩
        · -- nothing is left behind `c`: the cursor is back on the head
          rw [hend hcd hr] at h₂
          rw [inTurn, h₂.round_nil_iff]
          simp
        · -- the cursor stands on `y`
          rw [hmove y r' hcd hr] at h₂
          rw [hr, List.length_cons] at hrem
          by_cases hy : readable y
          · have hnd := h₂.nodup
            have hyr : y ∉ r' := by simp at hnd; grind
            rw [inTurn_readable hy]
            exact iff_of_false (h₂.not_round_of_not_mem hyr) (by simp [hy])
          · have hskip : inTurn readable handle (n + 1) [] ([y] ++ r') =
                inTurn readable handle (n + 1) [] r' := inTurn_idle (by simpa using hy)
            rw [List.singleton_append] at hskip
            rw [hskip, ih _ (hlen r' (by omega)) h₂ rfl]
            simp [hy]
      · simp only [hcd, not_false_eq_true, false_and, true_and, or_false]
        rw [hkeep hcd] at h₂
        exact ih _ (hlen _ hrem) h₂ rfl

end AtTurn

/-! ## Rounds behind `select` -/

/-- A round behind `select` gives each readable connector that is not deleted
    before its turn, and then ends, exactly when the deletions made by its
    handlers spare the cursor. -/
theorem round_inTurn_iff {passed ahead : List C} (h : Linked hub passed ahead)
    (hnd : (passed ++ ahead).Nodup) (hfd : Distinct getfd (passed ++ ahead))
    (ready : Int → Bool) (handle : Nat → List C) :
    ∃ count hub', connectorHubSelect getfd ready hub = some (count, hub') ∧
      (Round getfd handle 0 hub'
          (inTurn (fun c => getfd c ∈ hub'.readfds) handle 0 [] (passed ++ ahead)) ↔
        Spares getfd (fun c => getfd c ∈ hub'.readfds) handle 0 [] (passed ++ ahead)) := by
  obtain ⟨count, hub', hselect, hlinked, hpos⟩ := linked_select getfd ready h
  have hturn : AtTurn getfd (fun c => getfd c ∈ hub'.readfds) hub' [] (passed ++ ahead) :=
    ⟨hlinked, hnd, hfd, hpos, by simp⟩
  exact ⟨count, hub', hselect, hturn.round_iff⟩

/-! ### A handler that deletes the connector it was given -/

/-- A hub of the connectors `4` and `5`, each with its own number as descriptor. -/
def twoConnectors : Hub Nat Nat :=
  let hub := connectorHubInit 0 ⟨id, id⟩ id
  let hub := (connectorHubAddConnector Int.ofNat ExModule.Malloc.counting hub 4).2
  (connectorHubAddConnector Int.ofNat ExModule.Malloc.counting hub 5).2

theorem linked_twoConnectors : Linked twoConnectors [] [4, 5] := by
  have h₀ : Linked (connectorHubInit 0 ⟨id, id⟩ id) [] [] := linked_init
  have h₁ := (linked_addConnector Int.ofNat ExModule.Malloc.counting h₀ 4).resolve_left
    (by simp [connectorHubAddConnector, ExModule.Malloc.counting, connectorHubInit])
  exact (linked_addConnector Int.ofNat ExModule.Malloc.counting h₁ 5).resolve_left
    (by simp [connectorHubAddConnector, ExModule.Malloc.counting, connectorHubInit])

/-- The first handler deletes the connector `4` it was given. -/
def deletesOwn (n : Nat) : List Nat := if n = 0 then [4] else []

/-- Both connectors are readable and `5` is never deleted, but the round ends
    without it. -/
theorem next_connector_missed :
    ∃ hub', connectorHubSelect Int.ofNat (fun _ => true) twoConnectors = some (2, hub') ∧
      inTurn (fun c => Int.ofNat c ∈ hub'.readfds) deletesOwn 0 [] [4, 5] = [4, 5] ∧
      Round Int.ofNat deletesOwn 0 hub' [4] ∧ ¬ Round Int.ofNat deletesOwn 0 hub' [4, 5] := by
  refine ⟨_, rfl, by decide, .conn rfl rfl (.null rfl), ?_⟩
  rw [round_cons_iff rfl rfl]
  exact not_round_cons rfl (by decide)

/-- The round over the two connectors. -/
theorem twoConnectors_round :
    ∃ count hub', connectorHubSelect Int.ofNat (fun _ => true) twoConnectors =
        some (count, hub') ∧
      (Round Int.ofNat deletesOwn 0 hub'
          (inTurn (fun c => Int.ofNat c ∈ hub'.readfds) deletesOwn 0 [] [4, 5]) ↔
        Spares Int.ofNat (fun c => Int.ofNat c ∈ hub'.readfds) deletesOwn 0 [] [4, 5]) :=
  round_inTurn_iff linked_twoConnectors (by decide) (fun _ _ _ _ _ => Int.ofNat.inj) _ _

end Cube.Connector
