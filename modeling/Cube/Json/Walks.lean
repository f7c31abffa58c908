import Cube.Json.Links

/-!
# Walks over a tree that changes

What `json_get_first_child` and `json_get_next_child` come to while `json_add_child` and
`json_remove_node` change the tree of a text. A node keeps the place where a walk over its children
stands, which all of these functions set.

* `Linked.removeNode`: a removal at the child that a walk stands at.
* `runCalls_iff`: the trees that come of a text by calls, and are as expected.
-/

namespace Cube.Json

open Lib

/-! ## The calls -/

/-- `json_get_first_child`: the child, if there is one. -/
def jsonGetFirstChild (store : Store) (father : Nat) : Outcome (Option Nat × Store) :=
  match store[father]? with
  | none => .fault
  | some cell => .done (cell.children[0]?, store.set father { cell with curr := some 0 })

/-- `json_get_next_child`. -/
def jsonGetNextChild (store : Store) (father : Nat) : Outcome (Option Nat × Store) :=
  match store[father]? with
  | none => .fault
  | some cell => match cell.curr with
    | none => .fault
    | some i =>
      if i = cell.children.length then .done (none, store)
      else .done (cell.children[i + 1]?, store.set father { cell with curr := some (i + 1) })

/-- `json_remove_node`. A node that stands at the child goes on to the next one. -/
def jsonRemoveNode (store : Store) (node : Nat) : Outcome (Int × Store) :=
  match fatherOf store node with
  | none => .done (-EINVAL, store)
  | some father => match store[father]? with
    | none => .fault
    | some cell => match cell.curr with
      | none => .fault
      | some i =>
        let i := if cell.children[i]? = some node then i + 1 else i
        match cell.children.findIdx? (· = node) with
        | none => .done (-EINVAL, store.set father { cell with curr := some i })
        | some j => .done (0, store.set father { cell with
            elemNo := cell.elemNo - 1
            children := cell.children.eraseIdx j
            curr := some (if j < i then i - 1 else i) })

/-- `json_add_child`: the child is put at the start of the list. -/
def jsonAddChild (store : Store) (node child : Nat) : Outcome Store :=
  match store[node]? with
  | none => .fault
  | some cell =>
    .done (store.set node { cell with children := child :: cell.children, curr := some 0 })

/-! ## Walks -/

/-- What comes of `json_get_next_child`, called `n` times. -/
def nextChildren (father : Nat) : Nat → Store → Outcome (List (Option Nat))
  | 0, _ => .done []
  | n + 1, store => do
    let (child, store) ← jsonGetNextChild store father
    let rest ← nextChildren father n store
    .done (child :: rest)

/-- What comes of `json_get_first_child`, and of `json_get_next_child` called `n` times then. -/
def childrenFrom (father n : Nat) (store : Store) : Outcome (List (Option Nat)) := do
  let (child, store) ← jsonGetFirstChild store father
  let rest ← nextChildren father n store
  .done (child :: rest)

/-- What is expected of a tree: the number of elements of every node is that of its children; the
    father of every child is the node that lists it; and a walk over the children of a node comes
    to each of them, once and in order, and to none from then on. -/
structure TreeKept (store : Store) : Prop where
  counts : ∀ (id : Nat) (cell : Cell), store[id]? = some cell → cell.elemNo = cell.children.length
  fathers : ∀ (id : Nat) (cell : Cell), store[id]? = some cell → ∀ child ∈ cell.children,
    fatherOf store child = some id
  once : ∀ (id : Nat) (cell : Cell), store[id]? = some cell → cell.children.Nodup
  walks : ∀ (id : Nat) (cell : Cell), store[id]? = some cell → ∀ n,
    childrenFrom id n store = .done ((List.range (n + 1)).map (cell.children[·]?))

/-- What is expected where a node stands at a child that is removed: the walk goes on with the
    children that are left, in order, and comes to none from then on. -/
def Continues (store : Store) : Prop :=
  ∀ (father : Nat) (cell : Cell) (i node : Nat), store[father]? = some cell → cell.curr = some i →
    cell.children[i]? = some node → ∃ store', jsonRemoveNode store node = .done (0, store') ∧
      ∀ n, nextChildren father n store' =
        .done ((List.range n).map fun m => cell.children[i + 1 + m]?)

/-! ## Runs -/

/-- The calls that change a tree or go over it. -/
inductive Call
  | addChild (node child : Nat)
  | removeNode (node : Nat)
  | getFirstChild (father : Nat)
  | getNextChild (father : Nat)
  deriving DecidableEq

/-- A call puts a child into the list of a node. -/
def Call.adds (call : Call) (id : Nat) : Prop := ∃ child, call = .addChild id child

/-- What comes of a store by a call. -/
def Call.run (store : Store) : Call → Outcome Store
  | addChild node child => jsonAddChild store node child
  | removeNode node => do
    let (_, store) ← jsonRemoveNode store node
    .done store
  | getFirstChild father => do
    let (_, store) ← jsonGetFirstChild store father
    .done store
  | getNextChild father => do
    let (_, store) ← jsonGetNextChild store father
    .done store

/-- What comes of a store by calls one after the other. -/
def runCalls : List Call → Store → Outcome Store
  | [], store => .done store
  | call :: calls, store => do
    let store ← call.run store
    runCalls calls store

/-- No node stands at a child that another one follows. -/
def AtEnd (store : Store) : Prop :=
  ∀ (father : Nat) (cell : Cell) (i : Nat), store[father]? = some cell → cell.curr = some i →
    cell.children.length ≤ i + 1

/-! ## What a call changes -/

/-- What a call that adds no child makes of the cell of a father: its list may lose a child, which
    is then counted no more, and it stands at a child of the list or behind it. -/
structure Cell.Changes (cell cell' : Cell) : Prop where
  father : cell'.father = cell.father
  slack : cell'.elemNo - cell'.children.length = cell.elemNo - cell.children.length
  sublist : cell'.children.Sublist cell.children
  curr : (∀ i, cell.curr = some i → i ≤ cell.children.length) →
    ∀ i, cell'.curr = some i → i ≤ cell'.children.length
  stands : cell'.curr ≠ none

theorem Cell.Changes.linked {cell cell' : Cell} (h : cell.Changes cell')
    {fathers : Nat → Option Nat} {id : Nat} (hlinked : cell.Linked fathers id) :
    cell'.Linked fathers id where
  father := fun child hchild => hlinked.father child (h.sublist.mem hchild)
  nodup := hlinked.nodup.sublist h.sublist
  curr := h.curr hlinked.curr
  stands := fun _ => h.stands

/-- A cell that stands elsewhere. -/
theorem Cell.Changes.stand {cell : Cell} {i : Nat}
    (h : (∀ j, cell.curr = some j → j ≤ cell.children.length) → i ≤ cell.children.length) :
    cell.Changes { cell with curr := some i } :=
  ⟨rfl, rfl, .refl _, fun hcurr j hj => Option.some.inj hj ▸ h hcurr, by simp⟩

section Calls

variable {store store' : Store} {call : Call} {father f node i : Nat} {cell cell' : Cell}

theorem jsonGetFirstChild_cases {child : Option Nat}
    (h : jsonGetFirstChild store father = .done (child, store')) :
    ∃ cell cell', store[father]? = some cell ∧ store' = store.set father cell' ∧
      cell.Changes cell' := by
  unfold jsonGetFirstChild at h
  split at h
  · cases h
  · next cell hcell =>
    rw [Outcome.done.injEq, Prod.mk.injEq] at h
    exact ⟨cell, _, hcell, h.2.symm, .stand fun _ => Nat.zero_le _⟩

theorem jsonGetNextChild_cases {child : Option Nat}
    (h : jsonGetNextChild store father = .done (child, store')) :
    store' = store ∨ ∃ cell cell', store[father]? = some cell ∧ store' = store.set father cell' ∧
      cell.Changes cell' := by
  unfold jsonGetNextChild at h
  split at h
  · cases h
  · next cell hcell =>
    split at h
    · cases h
    · next i hi =>
      split at h <;> rw [Outcome.done.injEq, Prod.mk.injEq] at h
      · exact .inl h.2.symm
      · next hne =>
        refine .inr ⟨cell, _, hcell, h.2.symm, .stand fun hcurr => ?_⟩
        have hle := hcurr i hi
        omega

theorem jsonRemoveNode_cases {ret : Int} (h : jsonRemoveNode store node = .done (ret, store')) :
    store' = store ∨ ∃ father cell cell', store[father]? = some cell ∧
      store' = store.set father cell' ∧ cell.Changes cell' := by
  unfold jsonRemoveNode at h
  split at h
  · exact .inl (Outcome.pair_inj h).2.symm
  · next father hfather =>
    split at h
    · cases h
    · next cell hcell =>
      split at h
      · cases h
      · next i hi =>
        -- A cell that stands at the child is not behind its list, and goes on to the next place.
        have hle : (∀ j, cell.curr = some j → j ≤ cell.children.length) →
            (if cell.children[i]? = some node then i + 1 else i) ≤ cell.children.length := by
          intro hcurr
          split
          · next hnode => exact (List.getElem?_eq_some_iff.1 hnode).1
          · exact hcurr i hi
        simp only at h
        split at h <;> rw [Outcome.done.injEq, Prod.mk.injEq] at h
        · exact .inr ⟨father, cell, _, hcell, h.2.symm, .stand hle⟩
        · next j hj =>
          have hlt := (List.findIdx?_eq_some_iff_getElem.1 hj).1
          have hlen := List.length_eraseIdx_of_lt hlt
          refine .inr ⟨father, cell, _, hcell, h.2.symm, rfl, ?_, List.eraseIdx_sublist _ _,
            fun hcurr m hm => ?_, by simp⟩
          · simp only [hlen]
            omega
          · have hle := hle hcurr
            simp only [Option.some.injEq] at hm
            simp only [hlen]
            generalize (if cell.children[i]? = some node then i + 1 else i) = n at hm hle
            split at hm <;> omega

/-- What a call may do: it puts a child into the list of a node, or leaves the store, or changes
    the cell of a father. -/
theorem Call.run_cases (h : call.run store = .done store') :
    (∃ node child cell, call = .addChild node child ∧ store[node]? = some cell ∧
        store' = store.set node { cell with children := child :: cell.children, curr := some 0 }) ∨
      (∀ id, ¬ call.adds id) ∧ (store' = store ∨ ∃ father cell cell', store[father]? = some cell ∧
        store' = store.set father cell' ∧ cell.Changes cell') := by
  cases call with
  | addChild node child =>
    simp only [Call.run, jsonAddChild] at h
    split at h
    · cases h
    · next cell hcell => exact .inl ⟨node, child, cell, rfl, hcell, (Outcome.done.inj h).symm⟩
  | removeNode node =>
    obtain ⟨⟨ret, store₁⟩, hremove, h⟩ := Outcome.bind_eq_done.1 h
    obtain rfl := Outcome.done.inj h
    exact .inr ⟨fun id ⟨_, hadds⟩ => Call.noConfusion hadds, jsonRemoveNode_cases hremove⟩
  | getFirstChild father =>
    obtain ⟨⟨child, store₁⟩, hfirst, h⟩ := Outcome.bind_eq_done.1 h
    obtain rfl := Outcome.done.inj h
    obtain ⟨cell, hcell⟩ := jsonGetFirstChild_cases hfirst
    exact .inr ⟨fun id ⟨_, hadds⟩ => Call.noConfusion hadds, .inr ⟨father, cell, hcell⟩⟩
  | getNextChild father =>
    obtain ⟨⟨child, store₁⟩, hnext, h⟩ := Outcome.bind_eq_done.1 h
    obtain rfl := Outcome.done.inj h
    refine .inr ⟨fun id ⟨_, hadds⟩ => Call.noConfusion hadds, ?_⟩
    exact (jsonGetNextChild_cases hnext).imp_right fun ⟨cell, hcell⟩ => ⟨father, cell, hcell⟩

theorem Linked.set (h : Linked store) (hcell : store[f]? = some cell)
    (hchanges : cell.Changes cell') : Linked (store.set f cell') := by
  -- The cell of the father is all that changes.
  rw [List.set_eq_modify]
  refine h.modify (fun cell₁ hcell₁ => ?_) fun cell₁ hcell₁ => ?_
  · rw [Option.some.inj (hcell₁.symm.trans hcell)]
    exact hchanges.father
  · exact hchanges.linked (h f cell hcell)

theorem slack_set (hcell : store[f]? = some cell) (id : Nat) : slack (store.set f cell') id =
    if f = id then some (cell'.elemNo - cell'.children.length) else slack store id := by
  rw [List.set_eq_modify, slack_modify]
  split
  · next hid =>
    subst hid
    rw [hcell]
    rfl
  · rfl

/-- A call keeps the number of the nodes. -/
theorem Call.length_run (h : call.run store = .done store') : store'.length = store.length := by
  rcases Call.run_cases h with ⟨_, _, _, _, _, rfl⟩ | ⟨_, rfl | ⟨_, _, _, _, rfl, _⟩⟩
  · exact List.length_set
  · rfl
  · exact List.length_set

/-- A call that adds no child keeps the nodes linked. -/
theorem Linked.run (h : Linked store) (hadds : ∀ id, ¬ call.adds id)
    (hrun : call.run store = .done store') : Linked store' := by
  rcases Call.run_cases hrun with ⟨id, child, _, rfl, _⟩ |
    ⟨-, rfl | ⟨father, cell, cell', hcell, rfl, hchanges⟩⟩
  · exact absurd ⟨child, rfl⟩ (hadds id)
  · exact h
  · exact h.set hcell hchanges

/-- A call that adds no child keeps by how much every count is off. -/
theorem Call.slack_run (hadds : ∀ id, ¬ call.adds id) (hrun : call.run store = .done store') :
    slack store' = slack store := by
  rcases Call.run_cases hrun with ⟨id, child, _, rfl, _⟩ |
    ⟨-, rfl | ⟨father, cell, cell', hcell, rfl, hchanges⟩⟩
  · exact absurd ⟨child, rfl⟩ (hadds id)
  · rfl
  · funext id
    rw [slack_set hcell]
    split
    · next hid =>
      subst hid
      rw [hchanges.slack, slack, hcell]
      rfl
    · rfl

/-- A child that is added is not counted. -/
theorem Call.slack_addChild {child : Nat} (hrun : (Call.addChild node child).run store =
    .done store') (id : Nat) : slack store' id =
      if node = id then (slack store id).map (· - 1) else slack store id := by
  rcases Call.run_cases hrun with ⟨_, _, cell, heq, hcell, rfl⟩ | ⟨hadds, -⟩
  · obtain ⟨rfl, rfl⟩ := Call.addChild.inj heq
    rw [slack_set hcell]
    split
    · next hid =>
      subst hid
      rw [slack, hcell, Option.map_some, Option.map_some, List.length_cons]
      congr 1
      dsimp only
      omega
    · rfl
  · exact absurd ⟨child, rfl⟩ (hadds node)

/-- A node that is too little counted is so from then on, and one to which a child is added. -/
theorem Call.slack_le {id : Nat} {n : Int} (hrun : call.run store = .done store')
    (h : slack store id = some n) : ∃ m ≤ n, slack store' id = some m ∧
      (call.adds id → m < n) := by
  -- Only a child that is added changes what the counts are off by, and it makes them too small.
  by_cases hadds : ∀ id, ¬ call.adds id
  · exact ⟨n, le_rfl, by rw [Call.slack_run hadds hrun, h], fun h => absurd h (hadds id)⟩
  · push Not at hadds
    obtain ⟨node, child, rfl⟩ := hadds
    rw [Call.slack_addChild hrun, h]
    split
    · exact ⟨n - 1, by omega, rfl, fun _ => by omega⟩
    · next hne =>
      refine ⟨n, le_rfl, rfl, fun ⟨_, hadds⟩ => absurd (Call.addChild.inj hadds).1 hne⟩

end Calls

section Runs

variable {store store' : Store} {calls : List Call}

/-- A run without a child that is added keeps the nodes linked, and by how much every count is
    off. -/
theorem Linked.runCalls (h : Linked store) (hadds : ∀ call ∈ calls, ∀ id, ¬ call.adds id)
    (hrun : runCalls calls store = .done store') : Linked store' ∧ slack store' = slack store := by
  induction calls generalizing store with
  | nil =>
    obtain rfl := Outcome.done.inj hrun
    exact ⟨h, rfl⟩
  | cons call calls ih =>
    obtain ⟨store₁, hcall, hrun⟩ := Outcome.bind_eq_done.1 hrun
    have hcalls := List.forall_mem_cons.1 hadds
    obtain ⟨hlinked, hslack⟩ := ih (h.run hcalls.1 hcall) hcalls.2 hrun
    exact ⟨hlinked, hslack.trans (Call.slack_run hcalls.1 hcall)⟩

theorem length_runCalls (hrun : runCalls calls store = .done store') :
    store'.length = store.length := by
  induction calls generalizing store with
  | nil => rw [Outcome.done.inj hrun]
  | cons call calls ih =>
    obtain ⟨store₁, hcall, hrun⟩ := Outcome.bind_eq_done.1 hrun
    rw [ih hrun, Call.length_run hcall]

/-- A child is added only to a node that is there. -/
theorem lt_of_adds (hrun : runCalls calls store = .done store') {call : Call} (hmem : call ∈ calls)
    {id : Nat} (hadds : call.adds id) : id < store.length := by
  induction calls generalizing store with
  | nil => exact absurd hmem List.not_mem_nil
  | cons call' calls ih =>
    obtain ⟨store₁, hcall, hrun⟩ := Outcome.bind_eq_done.1 hrun
    rcases List.mem_cons.1 hmem with rfl | hmem
    · rcases Call.run_cases hcall with ⟨node, child, cell, rfl, hcell, -⟩ | ⟨hno, -⟩
      · obtain ⟨_, heq⟩ := hadds
        obtain ⟨rfl, -⟩ := Call.addChild.inj heq
        exact (List.getElem?_eq_some_iff.1 hcell).1
      · exact absurd hadds (hno id)
    · rw [← Call.length_run hcall]
      exact ih hrun hmem

/-- In a run, a node is counted too little once a child is added to it. -/
theorem slack_runCalls {id : Nat} {n : Int} (hrun : runCalls calls store = .done store')
    (h : slack store id = some n) : ∃ m ≤ n, slack store' id = some m ∧
      ((∃ call ∈ calls, call.adds id) → m < n) := by
  induction calls generalizing store n with
  | nil =>
    obtain rfl := Outcome.done.inj hrun
    exact ⟨n, le_rfl, h, fun ⟨_, hmem, _⟩ => absurd hmem List.not_mem_nil⟩
  | cons call calls ih =>
    obtain ⟨store₁, hcall, hrun⟩ := Outcome.bind_eq_done.1 hrun
    obtain ⟨m₁, hle₁, hslack₁, hlt₁⟩ := Call.slack_le hcall h
    obtain ⟨m, hle, hslack, hlt⟩ := ih hrun hslack₁
    refine ⟨m, hle.trans hle₁, hslack, fun ⟨call', hmem, hadds⟩ => ?_⟩
    rcases List.mem_cons.1 hmem with rfl | hmem
    · exact hle.trans_lt (hlt₁ hadds)
    · exact (hlt ⟨call', hmem, hadds⟩).trans_le hle₁

end Runs

/-! ## What is expected of a tree -/

section Walks

variable {store : Store} {father node i : Nat} {cell : Cell}

/-- A walk from a child goes over the ones behind it. -/
theorem nextChildren_eq (hcell : store[father]? = some cell) (hcurr : cell.curr = some i)
    (hi : i ≤ cell.children.length) (n : Nat) :
    nextChildren father n store =
      .done ((List.range n).map fun m => cell.children[i + 1 + m]?) := by
  induction n generalizing store cell i with
  | zero => rfl
  | succ n ih =>
    rw [List.range_succ_eq_map, List.map_cons, List.map_map, nextChildren, jsonGetNextChild, hcell]
    simp only [hcurr]
    split
    · next hlast =>
      -- Behind the list, the walk stays where it is.
      subst hlast
      simp only [Outcome.done_bind, ih hcell hcurr hi, Outcome.done.injEq, List.cons.injEq,
        List.map_inj_left, Function.comp]
      refine ⟨(List.getElem?_eq_none (by omega)).symm, fun m _ => ?_⟩
      rw [List.getElem?_eq_none (by omega), List.getElem?_eq_none (by omega)]
    · next hlast =>
      have hlt : father < store.length := (List.getElem?_eq_some_iff.1 hcell).1
      have hnext : (store.set father { cell with curr := some (i + 1) })[father]? =
          some { cell with curr := some (i + 1) } := List.getElem?_set_self hlt
      have hle : i + 1 ≤ cell.children.length := by omega
      simp only [Outcome.done_bind, ih hnext rfl hle, Outcome.done.injEq, List.cons.injEq,
        List.map_inj_left, Function.comp]
      exact ⟨trivial, fun m _ => by congr 1; omega⟩

/-- A walk goes over the children of a node. -/
theorem childrenFrom_eq (hcell : store[father]? = some cell) (n : Nat) :
    childrenFrom father n store = .done ((List.range (n + 1)).map (cell.children[·]?)) := by
  have hlt : father < store.length := (List.getElem?_eq_some_iff.1 hcell).1
  have hfirst : (store.set father { cell with curr := some 0 })[father]? =
      some { cell with curr := some 0 } := List.getElem?_set_self hlt
  rw [childrenFrom, jsonGetFirstChild, hcell, List.range_succ_eq_map, List.map_cons, List.map_map]
  simp only [Outcome.done_bind, nextChildren_eq hfirst rfl (Nat.zero_le _), Outcome.done.injEq,
    List.cons.injEq, List.map_inj_left, Function.comp]
  exact ⟨trivial, fun m _ => by congr 1; omega⟩

/-- In linked nodes, the number of elements is all that may be wrong. -/
theorem Linked.treeKept_iff (h : Linked store) :
    TreeKept store ↔ ∀ id < store.length, slack store id = some 0 := by
  constructor
  · intro hkept id hid
    have hcell := List.getElem?_eq_getElem hid
    rw [slack, hcell, Option.map_some, hkept.counts id _ hcell]
    simp
  · intro hslack
    refine ⟨fun id cell hcell => ?_, fun id cell hcell => (h id cell hcell).father,
      fun id cell hcell => (h id cell hcell).nodup, fun id cell hcell => childrenFrom_eq hcell⟩
    have hzero := hslack id (List.getElem?_eq_some_iff.1 hcell).1
    rw [slack, hcell, Option.map_some, Option.some.injEq] at hzero
    omega

/-- The walk after the child that a node stands at is removed: it leaves one out. -/
theorem Linked.removeNode (h : Linked store) (hcell : store[father]? = some cell)
    (hcurr : cell.curr = some i) (hnode : cell.children[i]? = some node) :
    ∃ store', jsonRemoveNode store node = .done (0, store') ∧ ∀ n, nextChildren father n store' =
      .done ((List.range n).map fun m => cell.children[i + 2 + m]?) := by
  obtain ⟨hi, hget⟩ := List.getElem?_eq_some_iff.1 hnode
  have hlinked := h father cell hcell
  have hfather : fatherOf store node = some father := hlinked.father _ (List.mem_of_getElem? hnode)
  -- The child is listed once, so that the first place where it is found is the one stood at.
  have hfind : cell.children.findIdx? (· = node) = some i := by
    refine List.findIdx?_eq_some_iff_getElem.2 ⟨hi, by simpa using hget, fun j hj heq => ?_⟩
    have hj' : cell.children[j]? = some node := by
      rw [List.getElem?_eq_getElem (hj.trans hi)]
      simpa using heq
    have hij := (List.getElem?_inj (hj.trans hi) hlinked.nodup).1 (hj'.trans hnode.symm)
    omega
  have hlt : father < store.length := (List.getElem?_eq_some_iff.1 hcell).1
  let cell' : Cell := { cell with
    elemNo := cell.elemNo - 1
    children := cell.children.eraseIdx i
    curr := some i }
  have hcell' : (store.set father cell')[father]? = some cell' := List.getElem?_set_self hlt
  refine ⟨store.set father cell', ?_, fun n => ?_⟩
  · simp only [jsonRemoveNode, hfather, hcell, hcurr, hnode, hfind, if_pos, Nat.lt_succ_self,
      Nat.add_sub_cancel, cell']
  · have hle : i ≤ cell'.children.length := by
      rw [List.length_eraseIdx_of_lt hi]
      omega
    rw [nextChildren_eq hcell' rfl hle]
    congr 2
    funext m
    rw [List.getElem?_eraseIdx_of_ge (by omega)]
    congr 1
    omega

/-- In linked nodes, a walk goes on exactly where no child is left out. -/
theorem Linked.continues_iff (h : Linked store) : Continues store ↔ AtEnd store := by
  constructor
  -- Where a child follows, the walk would have to come to it and leaves it out.
  · intro hcont father cell i hcell hcurr
    by_contra hlt
    have hi : i < cell.children.length := by omega
    have hnode := List.getElem?_eq_getElem hi
    obtain ⟨store', hremove, hnext⟩ := hcont father cell i _ hcell hcurr hnode
    obtain ⟨store'', hremove', hnext'⟩ := h.removeNode hcell hcurr hnode
    obtain rfl : store' = store'' := by
      rw [hremove, Outcome.done.injEq, Prod.mk.injEq] at hremove'
      exact hremove'.2
    have heq := (hnext 1).symm.trans (hnext' 1)
    have heq' : cell.children[i + 1]? = cell.children[i + 2]? := by simpa using heq
    have hij := (List.getElem?_inj (by omega) (h father cell hcell).nodup).1 heq'
    omega
  -- Behind the last child there is none to leave out.
  · intro hend father cell i node hcell hcurr hnode
    obtain ⟨store', hremove, hnext⟩ := h.removeNode hcell hcurr hnode
    refine ⟨store', hremove, fun n => ?_⟩
    rw [hnext]
    have hlast := hend father cell i hcell hcurr
    congr 2
    funext m
    rw [List.getElem?_eq_none (by omega), List.getElem?_eq_none (by omega)]

end Walks

/-- The trees that come of a text by calls are as expected exactly where the text leaves no
    container open inside another one, no child is added, and no node stands at a child that
    another one follows. -/
theorem runCalls_iff {s : List Char} (hs : '\x00' ∉ s) {store store' : Store}
    (hsolved : Solved s store) {calls : List Call} (hrun : runCalls calls store = .done store') :
    TreeKept store' ∧ Continues store' ↔
      ¬ LeavesInner s ∧ (∀ call ∈ calls, ∀ id, ¬ call.adds id) ∧ AtEnd store' := by
  obtain ⟨hlinked, opens, hslack, hopens, hinner⟩ := hsolved.links hs
  have hlength := length_runCalls hrun
  rw [← hinner]
  constructor
  · rintro ⟨hkept, hcont⟩
    -- A node to which a child is added is counted too little.
    have hadds : ∀ call ∈ calls, ∀ id, ¬ call.adds id := by
      intro call hmem id hadds
      have hid := lt_of_adds hrun hmem hadds
      obtain ⟨m, -, hm, hlt⟩ := slack_runCalls hrun (hslack id hid)
      have hzero : m = 0 := by
        have hcell := List.getElem?_eq_getElem (hlength ▸ hid : id < store'.length)
        rw [slack, hcell, Option.map_some, hkept.counts id _ hcell, Int.sub_self] at hm
        exact (Option.some.inj hm).symm
      have hneg := hlt ⟨call, hmem, hadds⟩
      split at hneg <;> omega
    obtain ⟨hlinked', hslack'⟩ := hlinked.runCalls hadds hrun
    refine ⟨List.eq_nil_iff_forall_not_mem.2 fun id hid => ?_, hadds,
      hlinked'.continues_iff.1 hcont⟩
    have hzero := hlinked'.treeKept_iff.1 hkept id (hlength ▸ hopens id hid)
    rw [hslack', hslack id (hopens id hid), if_pos hid] at hzero
    cases hzero
  · rintro ⟨rfl, hadds, hend⟩
    obtain ⟨hlinked', hslack'⟩ := hlinked.runCalls hadds hrun
    refine ⟨hlinked'.treeKept_iff.2 fun id hid => ?_, hlinked'.continues_iff.2 hend⟩
    rw [hslack', hslack id (hlength ▸ hid)]
    rfl

/-- The nodes of a text with a complete object or array. -/
theorem solved_of_closed {k k' : Container} {text rest : List Char} {node : JsonNode} {store : Store}
    {curr : Nat} (hs : '\x00' ∉ k.opening :: text) (hmakes : Relation.ReflTransGen Makes
      ((k.rootNode, [], text), [{}], 0) ((node, [], k'.closing :: rest), store, curr))
    (hk : node.elemType = k'.elemType) : Solved (k.opening :: text) store := by
  have hblanks : ∀ c ∈ ([] : List Char), isSplitChar c := by simp
  have hdone := jsonSolveStr_of_moves hblanks hs (moves_of_makes hmakes) (solves_closed hk _ rest)
  rw [List.nil_append] at hdone
  exact ⟨_, node, hdone, .inr ⟨[], k, text, _, curr, rfl, hblanks, hmakes, hdone ▸ .closed hk⟩⟩

/-- The array of two strings, `["a","b"]`. -/
def pairText : List Char := ['[', '"', 'a', '"', ',', '"', 'b', '"', ']']

/-- The nodes of the array of two strings. -/
def pairStore : Store :=
  [⟨2, none, [1, 2], some 1⟩, ⟨0, some 0, [], none⟩, ⟨0, some 0, [], none⟩]

theorem pair_solved : Solved pairText pairStore := by
  have hstring : ∀ (c : Char) (after : List Char), c ≠ '"' → c ≠ '\\' → c ≠ '\x00' →
      Leaf (some 1) .array [] ('"' :: ([c] ++ ['"'])) after
        { elemType := .string, isValue := Container.array.isValue, name := [],
          valueStr := some [c] } := by
    intro c after hquote hback hnul
    exact .string (.plain hquote hback hnul .nil) (by simp)
  have hmakes : Relation.ReflTransGen Makes
      ((Container.array.rootNode, [], pairText.tail), [{}], 0) ((_, [], [Container.array.closing]), pairStore, 0) :=
    (Relation.ReflTransGen.single (.leaf (.leaf rfl .element
      (hstring 'a' _ (by decide) (by decide) (by decide))) rfl rfl)).trans
      ((Relation.ReflTransGen.single (.blank (.blank rfl) rfl rfl rfl rfl)).trans
        (.single (.leaf (.leaf rfl .element
          (hstring 'b' _ (by decide) (by decide) (by decide))) rfl rfl)))
  exact solved_of_closed (k := .array) (by decide) hmakes rfl

/-- A text whose nodes are all counted right leaves no container open inside another one. -/
theorem Solved.not_leavesInner {s : List Char} {store : Store} (h : Solved s store)
    (hs : '\x00' ∉ s) (hzero : ∀ id < store.length, slack store id = some 0) :
    ¬ LeavesInner s := by
  obtain ⟨-, opens, hslack, hopens, hinner⟩ := h.links hs
  refine hinner.1 (List.eq_nil_iff_forall_not_mem.2 fun id hid => ?_)
  have hoff := hslack id (hopens id hid)
  rw [hzero id (hopens id hid), if_pos hid] at hoff
  cases hoff

/-- The last of two children is removed where a walk stands at it. -/
theorem runCalls_iff_pair : ∃ store,
    runCalls [.getFirstChild 0, .getNextChild 0, .removeNode 2] pairStore = .done store ∧
      TreeKept store ∧ Continues store := by
  have hrun : runCalls [.getFirstChild 0, .getNextChild 0, .removeNode 2] pairStore =
      .done [⟨1, none, [1], some 1⟩, ⟨0, some 0, [], none⟩, ⟨0, some 0, [], none⟩] := rfl
  refine ⟨_, hrun, (runCalls_iff (by decide) pair_solved hrun).2
    ⟨pair_solved.not_leavesInner (by decide) (by decide), ?_, ?_⟩⟩
  · rintro call hmem id ⟨child, rfl⟩
    simp at hmem
  · intro father cell i hcell hcurr
    have hmem := List.mem_of_getElem? hcell
    simp only [List.mem_cons, List.not_mem_nil, or_false] at hmem
    rcases hmem with rfl | rfl | rfl
    · obtain rfl : 1 = i := Option.some.inj hcurr
      decide
    · cases hcurr
    · cases hcurr

/-- A child that is removed and put back is not counted again. -/
theorem runCalls_not : ¬ ∀ (s : List Char) (store store' : Store) (calls : List Call), '\x00' ∉ s →
    Solved s store → runCalls calls store = .done store' → TreeKept store' ∧ Continues store' := by
  intro h
  have hkept := (h pairText pairStore _ [.removeNode 2, .addChild 0 2] (by decide) pair_solved rfl).1
  have hcount := hkept.counts 0 _ rfl
  exact absurd hcount (by decide)

end Cube.Json
