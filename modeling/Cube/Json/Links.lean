import Cube.Json.Cut

/-!
# The links between the nodes of a tree

The nodes of a tree in memory, with what `json.c` keeps of each besides its value: the number of
its elements, its father, the list of its children and the child that it stands at. The parser
sets these by `_new_json_node` and by counting, and goes back to a father by its link.

* `exists_solved`: every text that is accepted has its nodes.
* `Solved.links`: the links and the counts of the nodes of a text.
-/

namespace Cube.Json

open Lib

/-! ## Nodes in memory -/

/-- What a node keeps of others. They are numbers of nodes; `curr`, where it is set, is the place
    in the list of children that the node stands at, where the place behind the last is that of
    the list itself. -/
structure Cell where
  elemNo : Int := 0
  father : Option Nat := none
  children : List Nat := []
  curr : Option Nat := none

/-- The nodes that were made, in order. -/
abbrev Store := List Cell

/-- The father that a node has a link to. -/
def fatherOf (store : Store) (node : Nat) : Option Nat := store[node]?.bind (·.father)

/-- A cell with a child at the end of its list, at which it then stands. -/
def Cell.addTail (cell : Cell) (child : Nat) : Cell :=
  { cell with children := cell.children ++ [child], curr := some cell.children.length }

/-- A cell with one more element. -/
def Cell.count (cell : Cell) : Cell := { cell with elemNo := cell.elemNo + 1 }

/-- `_new_json_node`, for a father that is there: the node is the last one of the store. -/
def newJsonNode (store : Store) (father : Nat) : Store :=
  (store ++ [({ father := some father } : Cell)]).modify father (·.addTail store.length)

/-! ## What the parser makes -/

/-- The parser with the nodes that it has made, and the one it is at. -/
abbrev Making := Place × Store × Nat

/-- The moves of the parser, with what it makes. At a value, a child of the current node is made,
    and the node counts it; at a bracket, the child is the current node next; and at the bracket
    that closes a node, its father is, which then counts it. -/
inductive Makes : Making → Making → Prop
  | blank {x y : Place} {store : Store} {curr : Nat} {c : Char} : Moves (some 1) x y →
      x.1 = y.1 → x.2.1 = y.2.1 → x.2.2 = c :: y.2.2 → isSplitChar c →
      Makes (x, store, curr) (y, store, curr)
  | leaf {x y : Place} {store : Store} {curr : Nat} {child : JsonNode} : Moves (some 1) x y →
      y.1 = (x.1.addChild child).countElem → x.2.1 = y.2.1 →
      Makes (x, store, curr) (y, (newJsonNode store curr).modify curr Cell.count, curr)
  | nest {x y : Place} {store : Store} {curr : Nat} : Moves (some 1) x y →
      y.2.1 = x.1 :: x.2.1 →
      Makes (x, store, curr) (y, newJsonNode store curr, store.length)
  | close {x y : Place} {store : Store} {curr father : Nat} {node : JsonNode} :
      Moves (some 1) x y → x.2.1 = node :: y.2.1 → fatherOf store curr = some father →
      Makes (x, store, curr) (y, store.modify father Cell.count, father)

/-! ## The links that a store keeps -/

/-- What holds of the children of a cell, where `fathers` are the links to fathers: they have the
    cell for father, none is listed twice, and the cell stands at one of them or behind them. -/
structure Cell.Linked (fathers : Nat → Option Nat) (id : Nat) (cell : Cell) : Prop where
  father : ∀ child ∈ cell.children, fathers child = some id
  nodup : cell.children.Nodup
  curr : ∀ i, cell.curr = some i → i ≤ cell.children.length
  stands : cell.children ≠ [] → cell.curr ≠ none

/-- The cells of a store are linked. -/
def Linked (store : Store) : Prop :=
  ∀ (id : Nat) (cell : Cell), store[id]? = some cell → cell.Linked (fatherOf store) id

/-- By how much the number of elements of a node is off that of its children. -/
def slack (store : Store) (id : Nat) : Option Int :=
  store[id]?.map fun cell => cell.elemNo - cell.children.length

section Linked

variable {store : Store} {f id : Nat}

theorem fatherOf_lt {father : Nat} (h : fatherOf store id = some father) : id < store.length := by
  obtain ⟨cell, hcell, -⟩ := Option.bind_eq_some_iff.1 h
  exact (List.getElem?_eq_some_iff.1 hcell).1

/-- A change of a cell that keeps its father keeps all the fathers. -/
theorem fatherOf_modify {g : Cell → Cell} (hg : ∀ cell, store[f]? = some cell →
    (g cell).father = cell.father) (id : Nat) : fatherOf (store.modify f g) id = fatherOf store id := by
  simp only [fatherOf, List.getElem?_modify]
  split
  · next h =>
    subst h
    rcases hcell : store[f]? with _ | cell
    · rfl
    · simpa using hg cell hcell
  · simp

/-- A change of a cell that keeps its father keeps the store linked, if it keeps the cell so. -/
theorem Linked.modify (h : Linked store) {g : Cell → Cell}
    (hg : ∀ cell, store[f]? = some cell → (g cell).father = cell.father)
    (hcell : ∀ cell, store[f]? = some cell → (g cell).Linked (fatherOf store) f) :
    Linked (store.modify f g) := by
  intro id cell hid
  rw [funext (fatherOf_modify hg)]
  rw [List.getElem?_modify] at hid
  split at hid
  · next hf =>
    subst hf
    obtain ⟨cell, hcell', rfl⟩ := Option.map_eq_some_iff.1 hid
    exact hcell cell hcell'
  · exact h id cell (by simpa using hid)

theorem slack_modify (g : Cell → Cell) (id : Nat) :
    slack (store.modify f g) id = if f = id then store[id]?.map fun cell =>
      (g cell).elemNo - (g cell).children.length else slack store id := by
  simp only [slack, List.getElem?_modify]
  split
  · simp [Option.map_map, Function.comp_def]
  · simp

/-! ## Counting -/

theorem fatherOf_count (id : Nat) : fatherOf (store.modify f Cell.count) id = fatherOf store id :=
  fatherOf_modify (g := Cell.count) (fun _ _ => rfl) id

theorem Linked.count (h : Linked store) : Linked (store.modify f Cell.count) := by
  refine h.modify (fun _ _ => rfl) fun cell hcell => ?_
  obtain ⟨hfather, hnodup, hcurr, hstands⟩ := h f cell hcell
  exact ⟨hfather, hnodup, hcurr, hstands⟩

theorem slack_count (id : Nat) : slack (store.modify f Cell.count) id =
    if f = id then (slack store id).map (· + 1) else slack store id := by
  rw [slack_modify]
  split
  · simp only [slack, Option.map_map]
    congr 1
    funext cell
    simp only [Cell.count, Function.comp]
    omega
  · rfl

/-! ## Nodes that are made -/

theorem length_newJsonNode (store : Store) (f : Nat) :
    (newJsonNode store f).length = store.length + 1 := by
  simp [newJsonNode]

theorem fatherOf_append (father : Nat) (hid : id < store.length) :
    fatherOf (store ++ [({ father := some father } : Cell)]) id = fatherOf store id := by
  rw [fatherOf, List.getElem?_append_left hid]
  rfl

/-- The father of a node that is made, and of the others. -/
theorem fatherOf_newJsonNode (store : Store) (f id : Nat) : fatherOf (newJsonNode store f) id =
    if id = store.length then some f else fatherOf store id := by
  rw [newJsonNode, fatherOf_modify (g := (·.addTail store.length)) fun _ _ => rfl]
  split
  · next h => simp [h, fatherOf]
  · next h =>
    rcases Nat.lt_or_ge id store.length with hlt | hge
    · exact fatherOf_append f hlt
    · rw [fatherOf, fatherOf, List.getElem?_eq_none (by simp; omega), List.getElem?_eq_none hge]

theorem Linked.newJsonNode (h : Linked store) (hf : f < store.length) :
    Linked (newJsonNode store f) := by
  intro id cell hid
  -- The new node is nobody's child yet, for the children have a father.
  have hfresh : ∀ (id : Nat) (cell : Cell), store[id]? = some cell → store.length ∉ cell.children := by
    intro id cell hcell hmem
    exact Nat.lt_irrefl _ (fatherOf_lt ((h id cell hcell).father _ hmem))
  have hfather : ∀ (id : Nat) (cell : Cell), store[id]? = some cell → ∀ child ∈ cell.children,
      fatherOf (Cube.Json.newJsonNode store f) child = some id := by
    intro id cell hcell child hchild
    have hlink := (h id cell hcell).father child hchild
    rwa [fatherOf_newJsonNode, if_neg (fatherOf_lt hlink).ne]
  rw [Cube.Json.newJsonNode, List.getElem?_modify] at hid
  split at hid
  · next hfid =>
    -- The father has one child more, that it stands at.
    subst hfid
    rw [List.getElem?_append_left hf] at hid
    obtain ⟨cell, hcell, rfl⟩ := Option.map_eq_some_iff.1 hid
    obtain ⟨-, hnodup, hcurr, hstands⟩ := h f cell hcell
    refine ⟨fun child hchild => ?_, ?_, fun i hi => ?_, by simp [Cell.addTail]⟩
    · rcases List.mem_append.1 hchild with hchild | hchild
      · exact hfather f cell hcell child hchild
      · rw [List.mem_singleton.1 hchild, fatherOf_newJsonNode, if_pos rfl]
    · exact List.Nodup.append hnodup (List.nodup_singleton _) (by simpa using hfresh f cell hcell)
    · obtain rfl : cell.children.length = i := by simpa [Cell.addTail] using hi
      simp [Cell.addTail]
  · rcases Nat.lt_or_ge id store.length with hlt | hge
    · rw [List.getElem?_append_left hlt] at hid
      have hcell : store[id]? = some cell := by simpa using hid
      obtain ⟨-, hnodup, hcurr, hstands⟩ := h id cell hcell
      exact ⟨hfather id cell hcell, hnodup, hcurr, hstands⟩
    · -- The node that is made has no children.
      rw [List.getElem?_append_right hge] at hid
      obtain rfl : ({ father := some f } : Cell) = cell := by
        have hid' := List.mem_of_getElem? (by simpa using hid :
          [({ father := some f } : Cell)][id - store.length]? = some cell)
        exact (List.mem_singleton.1 hid').symm
      exact ⟨by simp, List.nodup_nil, by simp, by simp⟩

theorem slack_newJsonNode (hf : f < store.length) (id : Nat) : slack (newJsonNode store f) id =
    if id = store.length then some 0
    else if f = id then (slack store id).map (· - 1) else slack store id := by
  rw [newJsonNode, slack_modify]
  rcases eq_or_ne id store.length with rfl | hid
  · rw [if_neg hf.ne, if_pos rfl]
    simp [slack]
  · have happend : (store ++ [({ father := some f } : Cell)])[id]? = store[id]? := by
      rcases Nat.lt_or_ge id store.length with hlt | hge
      · exact List.getElem?_append_left hlt
      · rw [List.getElem?_eq_none (by simp; omega), List.getElem?_eq_none hge]
    rw [if_neg hid, slack, slack, happend]
    split
    · rw [Option.map_map]
      congr 1
      funext cell
      simp only [Cell.addTail, Function.comp, List.length_append, List.length_singleton]
      omega
    · rfl

end Linked

/-! ## The tree of a text -/

/-- The nodes of a text that `json_solve_str` accepts. -/
def Solved (s : List Char) (store : Store) : Prop :=
  ∃ ret root, jsonSolveStr (s ++ ['\x00']) = .done (ret, some root) ∧
    ((∀ c ∈ s, isSplitChar c) ∧ store = [{}] ∨
      ∃ blanks k text x curr, s = blanks ++ Container.opening k :: text ∧
        (∀ c ∈ blanks, isSplitChar c) ∧
        Relation.ReflTransGen Makes ((k.rootNode, [], text), [{}], 0) (x, store, curr) ∧
        Ends s.length x (jsonSolveStr (s ++ ['\x00'])))

/-- A text that leaves a container open inside another one. -/
def LeavesInner (s : List Char) : Prop := ∃ ks, Leaves s ks ∧ 1 < ks.length

/-- What holds of the nodes while a text is read: they are linked, the current node and the ones
    above it lead from child to father, and these above count all their children but the one that
    leads to the current node. -/
structure Growing (m : Making) (opens : List Nat) : Prop where
  linked : Linked m.2.1
  slack : ∀ id < m.2.1.length, slack m.2.1 id = some (if id ∈ opens then -1 else 0)
  length : opens.length = m.1.2.1.length
  chain : (m.2.2 :: opens).IsChain fun child father => fatherOf m.2.1 child = some father
  lt : ∀ id ∈ m.2.2 :: opens, id < m.2.1.length
  nodup : (m.2.2 :: opens).Nodup

variable {m m' : Making} {store : Store} {opens : List Nat}

theorem Makes.moves (h : Makes m m') : Moves (some 1) m.1 m'.1 := by
  cases h <;> assumption

theorem growing_root (k : Container) (text : List Char) :
    Growing ((k.rootNode, [], text), [{}], 0) [] where
  linked := by
    intro id cell hid
    obtain rfl : ({} : Cell) = cell := (List.mem_singleton.1 (List.mem_of_getElem? hid)).symm
    exact ⟨by simp, List.nodup_nil, by simp, by simp⟩
  slack := by
    intro id hid
    obtain rfl : id = 0 := by simpa using hid
    rfl
  length := rfl
  chain := .singleton 0
  lt := by simp
  nodup := List.nodup_singleton 0

/-- The links from child to father are the same where a node is made. -/
theorem isChain_newJsonNode {f : Nat} {ids : List Nat}
    (h : ids.IsChain fun child father => fatherOf store child = some father) :
    ids.IsChain fun child father => fatherOf (newJsonNode store f) child = some father := by
  refine h.imp fun child father hlink => ?_
  rwa [fatherOf_newJsonNode, if_neg (fatherOf_lt hlink).ne]

section Growing

variable {x y : Place} {store : Store} {curr : Nat} {opens : List Nat}

/-- A value is made and counted, so that its father lacks no child again. -/
theorem Growing.leaf (h : Growing (x, store, curr) opens) (hfathers : x.2.1 = y.2.1) :
    Growing (y, (newJsonNode store curr).modify curr Cell.count, curr) opens := by
  obtain ⟨hlinked, hslack, hlength, hchain, hlt, hnodup⟩ := h
  simp only at hlinked hslack hlength hchain hlt hnodup
  have hcurr : curr < store.length := hlt curr List.mem_cons_self
  have hnotin : curr ∉ opens := (List.nodup_cons.1 hnodup).1
  refine ⟨(hlinked.newJsonNode hcurr).count, fun id hid => ?_, by simpa [hfathers] using hlength,
    ?_, fun id hid => ?_, hnodup⟩
  · simp only [List.length_modify, length_newJsonNode] at hid
    rw [slack_count, slack_newJsonNode hcurr]
    rcases eq_or_ne id store.length with rfl | hne
    · have hfresh : store.length ∉ opens := fun hmem =>
        Nat.lt_irrefl _ (hlt _ (List.mem_cons_of_mem _ hmem))
      simp [hcurr.ne, hfresh]
    · rw [if_neg hne, hslack id (by omega)]
      rcases eq_or_ne curr id with rfl | hcid
      · simp [hnotin]
      · simp [hcid]
  · refine (isChain_newJsonNode (f := curr) hchain).imp fun child father hlink => ?_
    rwa [fatherOf_count]
  · simp only [List.length_modify, length_newJsonNode]
    exact (hlt id hid).trans (Nat.lt_succ_self _)

/-- A container is made, and is the current node; its father does not count it yet. -/
theorem Growing.nest (h : Growing (x, store, curr) opens) (hfathers : y.2.1 = x.1 :: x.2.1) :
    Growing (y, newJsonNode store curr, store.length) (curr :: opens) := by
  obtain ⟨hlinked, hslack, hlength, hchain, hlt, hnodup⟩ := h
  simp only at hlinked hslack hlength hchain hlt hnodup
  have hcurr : curr < store.length := hlt curr List.mem_cons_self
  have hnotin : curr ∉ opens := (List.nodup_cons.1 hnodup).1
  have hfresh : store.length ∉ curr :: opens := fun hmem => Nat.lt_irrefl _ (hlt _ hmem)
  refine ⟨hlinked.newJsonNode hcurr, fun id hid => ?_, by simpa [hfathers] using hlength,
    .cons_cons ?_ (isChain_newJsonNode hchain), fun id hid => ?_,
    List.nodup_cons.2 ⟨hfresh, hnodup⟩⟩
  · simp only [length_newJsonNode] at hid
    rw [slack_newJsonNode hcurr]
    rcases eq_or_ne id store.length with rfl | hne
    · simp [hfresh]
    · rw [if_neg hne, hslack id (by omega)]
      rcases eq_or_ne curr id with rfl | hcid
      · simp [hnotin]
      · simp [hcid, hcid.symm]
  · rw [fatherOf_newJsonNode, if_pos rfl]
  · simp only [length_newJsonNode]
    rcases List.mem_cons.1 hid with rfl | hid
    · exact Nat.lt_succ_self _
    · exact (hlt id hid).trans (Nat.lt_succ_self _)

/-- The father of the current node counts it. -/
theorem Growing.close {f : Nat} (h : Growing (x, store, curr) (f :: opens)) {node : JsonNode}
    (hfathers : x.2.1 = node :: y.2.1) : Growing (y, store.modify f Cell.count, f) opens := by
  obtain ⟨hlinked, hslack, hlength, hchain, hlt, hnodup⟩ := h
  simp only [hfathers, List.length_cons] at hlinked hslack hlength hchain hlt hnodup
  have hnotin : f ∉ opens := (List.nodup_cons.1 (List.nodup_cons.1 hnodup).2).1
  refine ⟨hlinked.count, fun id hid => ?_, by simpa using hlength, ?_, fun id hid => ?_,
    (List.nodup_cons.1 hnodup).2⟩
  · simp only [List.length_modify] at hid
    rw [slack_count, hslack id hid]
    rcases eq_or_ne f id with rfl | hfid
    · simp [hnotin]
    · simp [hfid, hfid.symm]
  · refine (List.isChain_cons_cons.1 hchain).2.imp fun child father hlink => ?_
    rwa [fatherOf_count]
  · simpa using hlt id (List.mem_cons_of_mem _ hid)

end Growing

/-- Every move of the parser keeps the nodes so. -/
theorem Growing.of_makes (h : Growing m opens)
    (hmakes : Makes m m') : ∃ opens', Growing m' opens' := by
  cases hmakes with
  | blank _ _ hfathers _ _ =>
    obtain ⟨hlinked, hslack, hlength, hchain, hlt, hnodup⟩ := h
    exact ⟨opens, hlinked, hslack, by simpa [hfathers] using hlength, hchain, hlt, hnodup⟩
  | leaf _ _ hfathers => exact ⟨opens, h.leaf hfathers⟩
  | nest _ hfathers => exact ⟨_, h.nest hfathers⟩
  | close _ hfathers hfather =>
    have hlength := h.length
    rw [hfathers, List.length_cons] at hlength
    obtain ⟨f, opens, rfl⟩ := List.exists_cons_of_length_eq_add_one hlength
    -- The link leads to the next of the nodes above.
    have hlink := (List.isChain_cons_cons.1 h.chain).1
    obtain rfl := Option.some.inj (hlink.symm.trans hfather)
    exact ⟨opens, h.close hfathers⟩

theorem Growing.of_reflTransGen (h : Growing m opens)
    (hmakes : Relation.ReflTransGen Makes m m') : ∃ opens', Growing m' opens' := by
  induction hmakes with
  | refl => exact ⟨opens, h⟩
  | tail _ hstep ih =>
    obtain ⟨opens', h'⟩ := ih
    exact h'.of_makes hstep

/-- Where the parser moves, it makes nodes. -/
theorem Growing.exists_makes {x y : Place} {curr : Nat}
    (h : Growing (x, store, curr) opens) (hmoves : Moves (some 1) x y) :
    ∃ store' curr', Makes (x, store, curr) (y, store', curr') := by
  cases hmoves with
  | blank hc => exact ⟨_, _, .blank (.blank hc) rfl rfl rfl hc⟩
  | leaf hk hlead hleaf => exact ⟨_, _, .leaf (.leaf hk hlead hleaf) rfl rfl⟩
  | nest hk hlead => exact ⟨_, _, .nest (.nest hk hlead) rfl⟩
  | close hk =>
    obtain ⟨f, opens, rfl⟩ := List.exists_cons_of_length_eq_add_one h.length
    exact ⟨_, _, .close (.close hk) rfl (List.isChain_cons_cons.1 h.chain).1⟩

theorem exists_makes {x y : Place} (h : Relation.ReflTransGen (Moves (some 1)) x y)
    {curr : Nat} (hgrowing : Growing (x, store, curr) opens) :
    ∃ store' curr', Relation.ReflTransGen Makes (x, store, curr) (y, store', curr') := by
  induction h with
  | refl => exact ⟨store, curr, .refl⟩
  | tail _ hstep ih =>
    obtain ⟨store', curr', hmakes⟩ := ih
    obtain ⟨opens', hgrowing'⟩ := hgrowing.of_reflTransGen hmakes
    obtain ⟨store'', curr'', hmake⟩ := hgrowing'.exists_makes hstep
    exact ⟨store'', curr'', hmakes.tail hmake⟩

/-- Every text that is accepted has its nodes. -/
theorem exists_solved {s : List Char} (hs : '\x00' ∉ s) {ret : Nat} {root : JsonNode}
    (h : jsonSolveStr (s ++ ['\x00']) = .done (ret, some root)) : ∃ store, Solved s store := by
  rcases exists_run hs with ⟨hblanks, -⟩ | hr | ⟨blanks, k, text, x, hdoc, hblanks, hmoves, hends⟩
  · exact ⟨_, ret, root, h, .inl ⟨hblanks, rfl⟩⟩
  · rw [h] at hr
    cases hr
  · obtain ⟨store, curr, hmakes⟩ := exists_makes hmoves (growing_root k text)
    exact ⟨store, ret, root, h, .inr ⟨blanks, k, text, x, curr, hdoc, hblanks, hmakes, hends⟩⟩

theorem moves_of_makes (h : Relation.ReflTransGen Makes m m') :
    Relation.ReflTransGen (Moves (some 1)) m.1 m'.1 :=
  h.lift Prod.fst fun _ _ hmakes => hmakes.moves

/-- A blank text leaves no bracket open. -/
theorem not_leaves_of_blanks {s : List Char} (h : ∀ c ∈ s, isSplitChar c) (ks : List Container) :
    ¬ Leaves s ks := by
  rintro ⟨-, root, blanks, k, text, nodes, heq, -⟩
  have hmem : k.opening ∈ s ++ ks.map Container.closing := by
    rw [heq]
    exact List.mem_append_right _ List.mem_cons_self
  -- A bracket that opens is neither a blank nor a bracket that closes.
  rcases List.mem_append.1 hmem with hmem | hmem
  · have hsplit := h _ hmem
    rw [k.isSplitChar_opening] at hsplit
    cases hsplit
  · obtain ⟨k', hk'⟩ := closers_map ks _ hmem
    exact Container.opening_ne_closing _ _ hk'

/-- A text that starts with a complete object or array leaves no container open. -/
theorem Document.not_leavesInner {doc rest : List Char} {root : JsonNode}
    (h : Document (some 1) doc root) (hs : '\x00' ∉ doc ++ rest) : ¬ LeavesInner (doc ++ rest) := by
  rintro ⟨ks, ⟨-, root', hroot'⟩, hks⟩
  obtain ⟨root'', hroot''⟩ := hroot'.reword 1
  -- With the brackets of `ks`, the text would be another document.
  have hnul := not_nul_closers hs ks
  rw [List.append_assoc] at hroot'' hnul
  have hnil := h.eq_nil_of_append hroot'' hnul
  rw [List.map_eq_nil_iff.1 (List.append_eq_nil_iff.1 hnil).2] at hks
  exact absurd hks (by simp)

/-- The nodes of a text are linked, and the ones that lack a child are those of the containers
    that the text leaves open around another one. -/
theorem Solved.links {s : List Char} (h : Solved s store) (hs : '\x00' ∉ s) :
    Linked store ∧ ∃ opens, (∀ id < store.length, slack store id =
        some (if id ∈ opens then -1 else 0)) ∧
      (∀ id ∈ opens, id < store.length) ∧ (opens = [] ↔ ¬ LeavesInner s) := by
  obtain ⟨ret, root, hdone, ⟨hblanks, rfl⟩ | ⟨blanks, k, text, x, curr, rfl, hblanks, hmakes, hends⟩⟩
    := h
  · have hgrowing := growing_root .map []
    refine ⟨hgrowing.linked, [], hgrowing.slack, by simp, ?_⟩
    simp [LeavesInner, not_leaves_of_blanks hblanks]
  · obtain ⟨opens, hlinked, hslack, hlength, hchain, hlt, hnodup⟩ :=
      (growing_root k text).of_reflTransGen hmakes
    refine ⟨hlinked, opens, hslack, fun id hid => hlt id (List.mem_cons_of_mem _ hid), ?_⟩
    have hmoves := moves_of_makes hmakes
    rw [hdone] at hends
    simp only at hlength hmoves
    generalize hr : Outcome.done (ret, some root) = r at hends
    cases hends with
    | @closed node k' rest hk =>
      obtain ⟨pieces, rfl, hdoc⟩ := document_of_reflTransGen hblanks hmoves hk
      refine iff_of_true (List.length_eq_zero_iff.1 hlength) ?_
      have heq : blanks ++ k.opening :: (pieces ++ k'.closing :: rest) =
          blanks ++ k.opening :: (pieces ++ [k'.closing]) ++ rest := by simp
      rw [heq] at hs ⊢
      exact hdoc.not_leavesInner hs
    | cut node fathers =>
      -- The containers that are open are the ones at the place where the text ends.
      obtain ⟨pre, ks, htext, hframes, hleaves⟩ := leaves_of_reflTransGen hblanks hmoves
        (fun ⟨_, _, h, _⟩ => by simp at h)
      rw [List.append_nil] at htext
      subst htext
      have hks : opens.length + 1 = ks.length := by
        rw [hlength, ← hframes.length_eq, List.length_cons]
      rw [← List.length_eq_zero_iff]
      constructor
      · rintro hzero ⟨ks', hleaves', hlt'⟩
        rw [← hleaves.unique hleaves' hs hframes.ne_nil] at hlt'
        omega
      · intro hinner
        by_contra hne
        exact hinner ⟨ks, hleaves, by omega⟩
    | refused => cases hr
    | longName _ _ => cases hr
    | fault _ _ => cases hr

end Cube.Json
