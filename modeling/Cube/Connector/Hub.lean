import Cube.Lib.DList
import Cube.Lib.Outcome
import Cube.ExModule.MsgQueue

/-!
# The connectors of a hub

A hub (`connector_hub.c`) keeps its connectors in a circular list of records,
the sets of descriptors it hands to `select`, and cursors into the list. A
round takes the readable connectors one after the other with
`connector_hub_getactiveread`, which moves the cursor `curr_read`.

* `linked_addConnector`, `linked_select`: the list keeps what is put in, and a
  round starts with the cursor at its head;
* `linked_getactiveread_conn`: a call goes from the cursor to the next connector
  whose descriptor is set;
* `linked_delConnector`: where a deletion leaves the cursor.
-/

namespace Cube.Connector

open Lib Links
open ExModule (Malloc)

variable {A C : Type*}

/-- `struct tcloud_connector_hub`: the address of the head of the list, the
    links and connectors of the records, the addresses allocated, the set of
    descriptors to read and the cursors. -/
structure Hub (A C : Type*) where
  connList : A
  links : Links A
  record : A → C
  used : List A
  nfds : Int
  readfds : Finset Int
  currRead : A
  currWrite : A
  currExcept : A

/-- What `connector_hub_getactiveread` returns: a connector, `NULL` or `-EINVAL`. -/
inductive Active (C : Type*) where
  | conn (c : C)
  | null
  | einval
deriving DecidableEq

section Operations

variable [DecidableEq A] [DecidableEq C]

/-- `connector_hub_init`. -/
def connectorHubInit (connList : A) (links : Links A) (record : A → C) : Hub A C where
  connList := connList
  links := links.init connList
  record := record
  used := [connList]
  nfds := 1
  readfds := ∅
  currRead := connList
  currWrite := connList
  currExcept := connList

variable (getfd : C → Int)

/-- The loop of `connector_hub_reset` over the list, from `curr` on: the value
    returned and the hub. It needs no more turns than there are records. -/
def resetFrom : Nat → A → Hub A C → Option (Int × Hub A C)
  | 0, _, _ => none
  | n + 1, curr, hub =>
    if curr = hub.connList then some (-EINVAL, hub)
    else
      let newFd := getfd (hub.record curr)
      if newFd ≤ 0 then some (-EINVAL, hub)
      else resetFrom n (hub.links.next curr)
        { hub with readfds := insert newFd hub.readfds, nfds := max hub.nfds (newFd + 1) }

/-- `connector_hub_reset`. -/
def connectorHubReset (hub : Hub A C) : Option (Int × Hub A C) :=
  resetFrom getfd hub.used.length (hub.links.next hub.connList)
    { hub with
      readfds := ∅
      currRead := hub.connList
      currWrite := hub.connList
      currExcept := hub.connList }

/-- `connector_hub_select`: the number of descriptors `select` finds readable,
    which are the ones it leaves in the set. -/
def connectorHubSelect (ready : Int → Bool) (hub : Hub A C) : Option (Nat × Hub A C) :=
  (connectorHubReset getfd hub).map fun (_, hub) =>
    let readfds := hub.readfds.filter fun fd => fd < hub.nfds ∧ ready fd
    (readfds.card, { hub with readfds := readfds })

/-- `connector_hub_add_connector`. -/
def connectorHubAddConnector (m : Malloc A) (hub : Hub A C) (connector : C) : Int × Hub A C :=
  match m.malloc hub.used with
  | none => (-ENOMEM, hub)
  | some recordElem =>
    let hub := { hub with
      used := recordElem :: hub.used
      record := Function.update hub.record recordElem connector
      links := (hub.links.init recordElem).addTail recordElem hub.connList }
    let newFd := getfd connector
    if newFd ≤ 0 then (-EINVAL, hub)
    else (0, { hub with readfds := insert newFd hub.readfds, nfds := max hub.nfds (newFd + 1) })

/-- The loop of `connector_hub_del_connector`: the record of `connector`, or the
    head when there is none. -/
def findFrom (hub : Hub A C) (connector : C) : Nat → A → Option A
  | 0, _ => none
  | n + 1, curr =>
    if curr = hub.connList then some curr
    else if hub.record curr = connector then some curr
    else findFrom hub connector n (hub.links.next curr)

/-- `connector_hub_del_connector`. -/
def connectorHubDelConnector (hub : Hub A C) (connector : C) : Option (Int × Hub A C) :=
  (findFrom hub connector hub.used.length (hub.links.next hub.connList)).map fun curr =>
    if curr = hub.connList then (-EINVAL, hub)
    else
      let next := hub.links.next curr
      let hub := { hub with
        currRead := if hub.currRead = curr then next else hub.currRead
        currWrite := if hub.currWrite = curr then next else hub.currWrite
        currExcept := if hub.currExcept = curr then next else hub.currExcept
        links := hub.links.del curr
        used := hub.used.erase curr }
      let newFd := getfd connector
      if newFd ≤ 0 then (-EINVAL, hub)
      else (0, { hub with readfds := hub.readfds.erase newFd })

/-- The loop of `connector_hub_getactiveread`: the record it stops at, which is
    the head at the end of the list. A descriptor that is not open ends the call. -/
def activeFrom (hub : Hub A C) : Nat → A → Option (Option A)
  | 0, _ => none
  | n + 1, curr =>
    if curr = hub.connList then some (some curr)
    else
      let newFd := getfd (hub.record curr)
      if newFd ≤ 0 then some none
      else if newFd ∈ hub.readfds then some (some curr)
      else activeFrom hub n (hub.links.next curr)

/-- `connector_hub_getactiveread`: the value returned and the hub after the call. -/
def connectorHubGetactiveread (hub : Hub A C) : Option (Active C × Hub A C) :=
  (activeFrom getfd hub hub.used.length (hub.links.next hub.currRead)).map fun
    | none => (.einval, hub)
    | some curr =>
      let hub' := { hub with currRead := curr }
      -- at the end of the list the cursor is back at its head
      if curr = hub.connList then (.null, hub') else (.conn (hub.record curr), hub')

/-- The deletions a handler makes, whatever they return. -/
def delConnectors : Hub A C → List C → Option (Hub A C)
  | hub, [] => some hub
  | hub, c :: cs => (connectorHubDelConnector getfd hub c).bind fun (_, hub) => delConnectors hub cs

end Operations

/-! ## The connectors before and after the cursor -/

variable {hub : Hub A C}

/-- The records `p` are linked up to the one the cursor stands on, and the
    records `q` behind it. -/
structure LinkedAt (hub : Hub A C) (p q : List A) : Prop where
  ring : IsRing hub.links hub.connList (p ++ q)
  currRead_eq : (hub.connList :: p).getLast? = some hub.currRead
  mem_used : ∀ u ∈ hub.connList :: (p ++ q), u ∈ hub.used

/-- The connectors of the hub are `passed` up to the one the cursor stands on,
    and `ahead` behind it. With no connector passed, the cursor stands on the
    head of the list. -/
def Linked (hub : Hub A C) (passed ahead : List C) : Prop :=
  ∃ p q, LinkedAt hub p q ∧ p.map hub.record = passed ∧ q.map hub.record = ahead

namespace LinkedAt

variable {p q : List A}

/-- The records are fewer than the addresses in use. -/
theorem length_lt (h : LinkedAt hub p q) : (p ++ q).length < hub.used.length :=
  (List.subperm_of_subset h.ring.nodup h.mem_used).length_le

/-- Behind the cursor the records `q` are linked, up to the head. -/
theorem seg_ahead (h : LinkedAt hub p q) : Seg hub.links hub.currRead q hub.connList := by
  have hseg := h.ring.seg
  have hcurr := h.currRead_eq
  rcases List.eq_nil_or_concat p with rfl | ⟨s, u, rfl⟩
  · rw [List.getLast?_singleton, Option.some_inj] at hcurr
    rw [← hcurr]
    exact hseg
  · rw [List.concat_eq_append, ← List.cons_append, List.getLast?_concat, Option.some_inj] at hcurr
    rw [List.concat_eq_append, List.append_assoc] at hseg
    rw [← hcurr]
    exact (seg_append.1 hseg).2

end LinkedAt

section Calls

variable {getfd : C → Int}

/-- The descriptor of the connector `c` is open and not set. -/
def Idle (getfd : C → Int) (readfds : Finset Int) (c : C) : Prop :=
  0 < getfd c ∧ getfd c ∉ readfds

/-- The connectors of a list are all idle, or there is a first one that is not. -/
theorem idle_or_first (getfd : C → Int) (readfds : Finset Int) (l : List C) :
    (∀ c ∈ l, Idle getfd readfds c) ∨
      ∃ s c r, l = s ++ c :: r ∧ (∀ b ∈ s, Idle getfd readfds b) ∧ ¬ Idle getfd readfds c := by
  induction l with
  | nil => exact .inl fun c hc => absurd hc List.not_mem_nil
  | cons c l ih =>
    by_cases hc : Idle getfd readfds c
    · rcases ih with hl | ⟨s, b, r, rfl, hs, hb⟩
      · exact .inl (List.forall_mem_cons.2 ⟨hc, hl⟩)
      · exact .inr ⟨c :: s, b, r, rfl, List.forall_mem_cons.2 ⟨hc, hs⟩, hb⟩
    · exact .inr ⟨[], c, l, rfl, fun b hb => absurd hb List.not_mem_nil, hc⟩

variable [DecidableEq A]

variable {s : List A} {p q : List C} {u : A} {c : C}

/-- The loop of `connector_hub_getactiveread` passes the records of idle connectors. -/
theorem activeFrom_idle {a b : A} (hs : Seg hub.links a s b)
    (hhead : hub.connList ∉ s) (hidle : ∀ u ∈ s, Idle getfd hub.readfds (hub.record u)) (n : Nat) :
    activeFrom getfd hub (n + s.length) (hub.links.next a) = activeFrom getfd hub n b := by
  refine hs.loop (fun n u hu => ?_) n
  have hne : u ≠ hub.connList := fun h => hhead (h ▸ hu)
  obtain ⟨hpos, hset⟩ := hidle u hu
  rw [activeFrom, if_neg hne]
  simp only [if_neg (Int.not_le.2 hpos), if_neg hset]

/-- With only idle connectors ahead, the call returns `NULL` and leaves the
    cursor on the head. -/
theorem linked_getactiveread_null (h : Linked hub p q) (hq : ∀ c ∈ q, Idle getfd hub.readfds c) :
    ∃ hub', connectorHubGetactiveread getfd hub = some (.null, hub') ∧
      hub'.readfds = hub.readfds ∧ Linked hub' [] (p ++ q) := by
  obtain ⟨p, q, h, rfl, rfl⟩ := h
  have hnd := h.ring.nodup
  have hlt := h.length_lt
  rw [List.length_append] at hlt
  obtain ⟨n, hn⟩ : ∃ n, hub.used.length = n + 1 + q.length :=
    ⟨hub.used.length - q.length - 1, by omega⟩
  have hstop : activeFrom getfd hub hub.used.length (hub.links.next hub.currRead) =
      some (some hub.connList) := by
    rw [hn, activeFrom_idle h.seg_ahead (by grind) (by simpa using hq), activeFrom, if_pos rfl]
  refine ⟨{ hub with currRead := hub.connList }, ?_, rfl, [], p ++ q, ⟨h.ring, rfl, h.mem_used⟩,
    rfl, List.map_append⟩
  simp [connectorHubGetactiveread, hstop]

/-- Where the call stops at a record behind idle ones. -/
theorem activeFrom_first {p r : List A} (h : LinkedAt hub p (s ++ u :: r))
    (hs : ∀ v ∈ s, Idle getfd hub.readfds (hub.record v))
    (hu : ¬ Idle getfd hub.readfds (hub.record u)) :
    activeFrom getfd hub hub.used.length (hub.links.next hub.currRead) =
      some (if getfd (hub.record u) ≤ 0 then none else some u) := by
  have hnd := h.ring.nodup
  have hlt := h.length_lt
  rw [List.length_append, List.length_append, List.length_cons] at hlt
  obtain ⟨n, hn⟩ : ∃ n, hub.used.length = n + 1 + s.length :=
    ⟨hub.used.length - s.length - 1, by omega⟩
  have hne : u ≠ hub.connList := by grind
  rw [hn, activeFrom_idle (seg_append.1 h.seg_ahead).1 (by grind) hs, activeFrom, if_neg hne]
  simp only
  split_ifs with hpos hset
  · rfl
  · rfl
  · exact absurd ⟨Int.not_le.1 hpos, hset⟩ hu

/-- The call stops at a connector without an open descriptor. -/
theorem linked_getactiveread_einval {s r : List C} (h : Linked hub p (s ++ c :: r))
    (hs : ∀ b ∈ s, Idle getfd hub.readfds b) (hc : getfd c ≤ 0) :
    connectorHubGetactiveread getfd hub = some (.einval, hub) := by
  obtain ⟨p, q, h, rfl, hq⟩ := h
  obtain ⟨s, q, rfl, rfl, hcons⟩ := List.map_eq_append_iff.1 hq
  obtain ⟨u, r, rfl, rfl, rfl⟩ := List.map_eq_cons_iff.1 hcons
  have hu : ¬ Idle getfd hub.readfds (hub.record u) := fun hu => absurd hu.1 (Int.not_lt.2 hc)
  rw [connectorHubGetactiveread, activeFrom_first h (by simpa using hs) hu, if_pos hc]
  rfl

/-- The call returns the next connector whose descriptor is set, and the cursor
    stands on it. -/
theorem linked_getactiveread_conn {s r : List C} (h : Linked hub p (s ++ c :: r))
    (hs : ∀ b ∈ s, Idle getfd hub.readfds b) (hc : 0 < getfd c) (hset : getfd c ∈ hub.readfds) :
    ∃ hub', connectorHubGetactiveread getfd hub = some (.conn c, hub') ∧
      hub'.readfds = hub.readfds ∧ Linked hub' (p ++ s ++ [c]) r := by
  obtain ⟨p, q, h, rfl, hq⟩ := h
  obtain ⟨s, q, rfl, rfl, hcons⟩ := List.map_eq_append_iff.1 hq
  obtain ⟨u, r, rfl, rfl, rfl⟩ := List.map_eq_cons_iff.1 hcons
  have hnd := h.ring.nodup
  have hne : u ≠ hub.connList := by grind
  have hu : ¬ Idle getfd hub.readfds (hub.record u) := fun hu => hu.2 hset
  refine ⟨{ hub with currRead := u }, ?_, rfl, p ++ s ++ [u], r, ⟨?_, ?_, ?_⟩, ?_, rfl⟩
  · rw [connectorHubGetactiveread, activeFrom_first h (by simpa using hs) hu,
      if_neg (Int.not_le.2 hc)]
    simp [hne]
  · simpa using h.ring
  · rw [← List.cons_append, List.getLast?_concat]
  · simpa using h.mem_used
  · simp

/-- A record taken out leaves the others linked, around the new cursor. -/
theorem LinkedAt.del {hub' : Hub A C} {p q t p' q' : List A} (h : LinkedAt hub p q)
    (hu : p ++ q = s ++ u :: t) (hst : p' ++ q' = s ++ t) (hhead : hub'.connList = hub.connList)
    (hlinks : hub'.links = hub.links.del u) (hused : hub'.used = hub.used.erase u)
    (hcurr : (hub.connList :: p').getLast? = some hub'.currRead) : LinkedAt hub' p' q' := by
  have hring := h.ring
  have hmem := h.mem_used
  rw [hu] at hring hmem
  have hnd := hring.nodup
  refine ⟨?_, by rw [hhead, hcurr], fun v hv => ?_⟩
  · rw [hst, hlinks, hhead]
    exact isRing_del hring
  · rw [hst, hhead] at hv
    rw [hused]
    exact (List.mem_erase_of_ne (by grind)).2 (hmem v (by grind))

variable [DecidableEq C]

/-- The loop of `connector_hub_del_connector` passes the records of other connectors. -/
theorem findFrom_other {a b : A} (hs : Seg hub.links a s b)
    (hhead : hub.connList ∉ s) (hc : ∀ u ∈ s, hub.record u ≠ c) (n : Nat) :
    findFrom hub c (n + s.length) (hub.links.next a) = findFrom hub c n b := by
  refine hs.loop (fun n u hu => ?_) n
  have hne : u ≠ hub.connList := fun h => hhead (h ▸ hu)
  rw [findFrom, if_neg hne, if_neg (hc u hu)]

/-- A connector that is not linked is not found, and nothing changes. -/
theorem delConnector_of_not_mem (h : Linked hub p q) (hc : c ∉ p ++ q) :
    connectorHubDelConnector getfd hub c = some (-EINVAL, hub) := by
  obtain ⟨p, q, h, rfl, rfl⟩ := h
  have hnd := h.ring.nodup
  have hlt := h.length_lt
  obtain ⟨n, hn⟩ : ∃ n, hub.used.length = n + 1 + (p ++ q).length :=
    ⟨hub.used.length - (p ++ q).length - 1, by omega⟩
  have hfind : findFrom hub c hub.used.length (hub.links.next hub.connList) =
      some hub.connList := by
    rw [hn, findFrom_other h.ring.seg (by grind) (by grind), findFrom, if_pos rfl]
  simp [connectorHubDelConnector, hfind]

/-- The record of a connector is found, when the ones before it are of others. -/
theorem delConnector_of_mem (getfd : C → Int) {p q t : List A} (h : LinkedAt hub p q)
    (hu : p ++ q = s ++ u :: t) (hs : ∀ v ∈ s, hub.record v ≠ hub.record u) :
    ∃ r hub', connectorHubDelConnector getfd hub (hub.record u) = some (r, hub') ∧
      hub'.connList = hub.connList ∧ hub'.record = hub.record ∧
      hub'.links = hub.links.del u ∧ hub'.used = hub.used.erase u ∧
      hub'.readfds = (if getfd (hub.record u) ≤ 0 then hub.readfds
        else hub.readfds.erase (getfd (hub.record u))) ∧
      hub'.currRead = if hub.currRead = u then hub.links.next u else hub.currRead := by
  have hring := h.ring
  have hlt := h.length_lt
  rw [hu] at hring hlt
  have hnd := hring.nodup
  have hne : u ≠ hub.connList := by grind
  rw [List.length_append, List.length_cons] at hlt
  obtain ⟨n, hn⟩ : ∃ n, hub.used.length = n + 1 + s.length :=
    ⟨hub.used.length - s.length - 1, by omega⟩
  have hfind : findFrom hub (hub.record u) hub.used.length (hub.links.next hub.connList) =
      some u := by
    rw [hn, findFrom_other (seg_append.1 hring.seg).1 (by grind) hs, findFrom, if_neg hne,
      if_pos rfl]
  rw [connectorHubDelConnector, hfind, Option.map_some, if_neg hne]
  simp only
  split_ifs with hfd <;> exact ⟨_, _, rfl, rfl, rfl, rfl, rfl, rfl, rfl⟩

/-- The lists before and after the cursor when `c` is deleted. When the cursor
    stands on `c`, it moves to the next connector. -/
def delAt (c : C) (p q : List C) : List C × List C :=
  if p.getLast? = some c then
    match q with
    | [] => ([], p.dropLast)
    | y :: q => (p.dropLast ++ [y], q)
  else (p.erase c, q.erase c)

theorem delAt_last_nil (c : C) (p : List C) : delAt c (p ++ [c]) [] = ([], p) := by
  simp [delAt]

theorem delAt_last_cons (c y : C) (p q : List C) :
    delAt c (p ++ [c]) (y :: q) = (p ++ [y], q) := by
  simp [delAt]

theorem delAt_of_ne (q : List C) (hp : p.getLast? ≠ some c) :
    delAt c p q = (p.erase c, q.erase c) := if_neg hp

/-- What is left of the descriptors when `c` is deleted. -/
def fdsWithout (getfd : C → Int) (readfds : Finset Int) (c : C) : Finset Int :=
  if getfd c ≤ 0 then readfds else readfds.erase (getfd c)

/-- The cursor stands on the record deleted. -/
theorem linked_delConnector_last (h : Linked hub (p ++ [c]) q) (hnd : (p ++ [c] ++ q).Nodup) :
    ∃ r hub', connectorHubDelConnector getfd hub c = some (r, hub') ∧
      Linked hub' (delAt c (p ++ [c]) q).1 (delAt c (p ++ [c]) q).2 ∧
      hub'.readfds = fdsWithout getfd hub.readfds c := by
  obtain ⟨p', q, h, hp, rfl⟩ := h
  obtain ⟨s, p', rfl, rfl, hlast⟩ := List.map_eq_append_iff.1 hp
  obtain ⟨u, rfl, rfl⟩ := List.map_eq_singleton_iff.1 hlast
  have hcurr := h.currRead_eq
  rw [← List.cons_append, List.getLast?_concat, Option.some_inj] at hcurr
  subst hcurr
  obtain ⟨r, hub', hdel, hhead, hrec, hlinks, hused, hfds, hnext⟩ :=
    delConnector_of_mem getfd h (u := hub.currRead) (s := s) (t := q) (by simp)
      (by simp at hnd; grind)
  rw [if_pos rfl] at hnext
  refine ⟨r, hub', hdel, ?_, hfds⟩
  cases q with
  | nil =>
    have hback : hub.links.next hub.currRead = hub.connList := h.seg_ahead.1
    rw [List.map_nil, delAt_last_nil]
    refine ⟨[], s, h.del (s := s) (t := []) (by simp) (by simp) hhead hlinks hused ?_, rfl, ?_⟩
    · rw [hnext, hback, List.getLast?_singleton]
    · rw [hrec]
  | cons v q =>
    have hv : hub.links.next hub.currRead = v := h.seg_ahead.1.1
    rw [List.map_cons, delAt_last_cons]
    refine ⟨s ++ [v], q, h.del (s := s) (t := v :: q) (by simp) (by simp) hhead hlinks hused ?_,
      ?_, ?_⟩
    · rw [hnext, hv, ← List.cons_append, List.getLast?_concat]
    · simp [hrec]
    · rw [hrec]

/-- Records of different connectors are erased as their connectors are. -/
theorem map_erase_of_inj {l used : List A} {f : A → C} (hu : u ∈ used)
    (hf : ∀ v ∈ used, f v = f u → v = u) (hl : ∀ v ∈ l, v ∈ used) :
    (l.erase u).map f = (l.map f).erase (f u) := by
  induction l with
  | nil => rfl
  | cons v l ih =>
    rw [List.forall_mem_cons] at hl
    by_cases hv : v = u
    · subst hv
      rw [List.map_cons, List.erase_cons_head, List.erase_cons_head]
    · have hvu : f v ≠ f u := fun h => hv (hf v hl.1 h)
      rw [List.map_cons, List.erase_cons_tail (by simpa using hv),
        List.erase_cons_tail (by simpa using hvu), List.map_cons, ih hl.2]

theorem erase_concat_of_ne {l : List A} {v : A} (hv : v ≠ u) :
    (l ++ [v]).erase u = l.erase u ++ [v] := by
  by_cases hu : u ∈ l
  · rw [List.erase_append_left _ hu]
  · rw [List.erase_append_right _ hu, List.erase_of_not_mem hu,
      List.erase_of_not_mem (by simpa using hv.symm)]

/-- The cursor stands on another record than the one deleted. -/
theorem linked_delConnector_other (h : Linked hub p q)
    (hnd : (p ++ q).Nodup) (hc : c ∈ p ++ q) (hp : p.getLast? ≠ some c) :
    ∃ r hub', connectorHubDelConnector getfd hub c = some (r, hub') ∧
      Linked hub' (delAt c p q).1 (delAt c p q).2 ∧
      hub'.readfds = fdsWithout getfd hub.readfds c := by
  rw [delAt_of_ne q hp]
  obtain ⟨p, q, h, rfl, rfl⟩ := h
  have hcurr := h.currRead_eq
  have hring := h.ring.nodup
  rw [← List.map_append] at hc hnd
  obtain ⟨u, hu, rfl⟩ := List.mem_map.1 hc
  have hinj := List.inj_on_of_nodup_map hnd
  rw [← map_erase_of_inj hu (fun v hv => hinj hv hu) (by simp +contextual),
    ← map_erase_of_inj hu (fun v hv => hinj hv hu) (by simp +contextual)]
  obtain ⟨s, t, hst⟩ := List.append_of_mem hu
  obtain ⟨r, hub', hdel, hhead, hrec, hlinks, hused, hfds, hnext⟩ :=
    delConnector_of_mem getfd h hst fun v hv hvu => by
      have := hinj (by rw [hst]; simp [hv]) hu hvu
      grind
  have hne : hub.currRead ≠ u ∧ (hub.connList :: p.erase u).getLast? = some hub.currRead := by
    rcases List.eq_nil_or_concat p with rfl | ⟨p, v, rfl⟩
    · rw [List.getLast?_singleton, Option.some_inj] at hcurr
      rw [List.erase_nil, List.getLast?_singleton, ← hcurr]
      exact ⟨by grind, rfl⟩
    · rw [List.concat_eq_append] at hcurr hp ⊢
      rw [← List.cons_append, List.getLast?_concat, Option.some_inj] at hcurr
      subst hcurr
      have hvu : hub.currRead ≠ u := by
        rintro rfl
        simp at hp
      refine ⟨hvu, ?_⟩
      rw [erase_concat_of_ne hvu, ← List.cons_append, List.getLast?_concat]
  rw [if_neg hne.1] at hnext
  refine ⟨r, hub', hdel, ⟨p.erase u, q.erase u, h.del hst ?_ hhead hlinks hused ?_, ?_, ?_⟩, hfds⟩
  · have happ : (p ++ q).erase u = s ++ t := by
      rw [hst, List.erase_append_right _ (by grind), List.erase_cons_head]
    rw [← happ]
    by_cases hup : u ∈ p
    · have huq : u ∉ q := fun huq =>
        List.disjoint_of_nodup_append (List.nodup_cons.1 hring).2 hup huq
      rw [List.erase_append_left _ hup, List.erase_of_not_mem huq]
    · rw [List.erase_append_right _ hup, List.erase_of_not_mem hup]
  · rw [hnext, hne.2]
  · rw [hrec]
  · rw [hrec]

/-- A deletion takes the connector out of the list, and its descriptor out of
    the set. -/
theorem linked_delConnector (getfd : C → Int) (h : Linked hub p q)
    (hnd : (p ++ q).Nodup) (hc : c ∈ p ++ q) :
    ∃ r hub', connectorHubDelConnector getfd hub c = some (r, hub') ∧
      Linked hub' (delAt c p q).1 (delAt c p q).2 ∧
      hub'.readfds = fdsWithout getfd hub.readfds c := by
  by_cases hp : p.getLast? = some c
  · obtain ⟨p, rfl⟩ := List.getLast?_eq_some_iff.1 hp
    exact linked_delConnector_last h hnd
  · exact linked_delConnector_other h hnd hc hp

end Calls

/-! ## The list between rounds -/

section Between

variable [DecidableEq A] {getfd : C → Int}

/-- A new hub has no connectors. -/
theorem linked_init {connList : A} {links : Links A} {record : A → C} :
    Linked (connectorHubInit connList links record) [] [] :=
  ⟨[], [], ⟨isRing_init, rfl, by simp [connectorHubInit]⟩, rfl, rfl⟩

/-- A connector put in is linked last, if there is the memory for its record. -/
theorem linked_addConnector (getfd : C → Int) (m : Malloc A) (h : Linked hub p q) (c : C) :
    connectorHubAddConnector getfd m hub c = (-ENOMEM, hub) ∨
      Linked (connectorHubAddConnector getfd m hub c).2 p (q ++ [c]) := by
  obtain ⟨p, q, h, rfl, rfl⟩ := h
  rw [connectorHubAddConnector]
  rcases hm : m.malloc hub.used with _ | x
  · exact .inl rfl
  have hx : x ∉ hub.connList :: (p ++ q) := fun hx => m.fresh _ _ hm (h.mem_used x hx)
  have hother (u : A) (hu : u ∈ hub.connList :: (p ++ q)) : u ≠ x := fun hux => hx (hux ▸ hu)
  have hinit : IsRing (hub.links.init x) hub.connList (p ++ q) :=
    h.ring.congr (fun u hu => by simp [init, hother u hu]) (fun u hu => by simp [init, hother u hu])
  have hrecord (l : List A) (hl : ∀ u ∈ l, u ∈ p ++ q) :
      l.map (Function.update hub.record x c) = l.map hub.record :=
    List.map_congr_left fun u hu =>
      Function.update_of_ne (hother u (List.mem_cons_of_mem _ (hl u hu))) _ _
  refine .inr ⟨p, q ++ [x], ?_, ?_, ?_⟩
  all_goals simp only
  · -- the new record is linked whether or not its descriptor is open
    split_ifs
    all_goals
      refine ⟨?_, h.currRead_eq, ?_⟩
      · rw [← List.append_assoc]
        exact isRing_addTail hinit hx
      · have hmem := h.mem_used
        simp only
        grind
  · split_ifs <;> exact hrecord p (by simp +contextual)
  · rw [← hrecord q (by simp +contextual)]
    split_ifs <;> simp

/-- The loop of `connector_hub_reset` changes the set of descriptors only, and
    puts only open ones in. -/
theorem resetFrom_spec (hub : Hub A C) {a : A} {l : List A} (hl : Seg hub.links a l hub.connList)
    (hhead : hub.connList ∉ l) (hpos : ∀ fd ∈ hub.readfds, 0 < fd) {n : Nat} (hn : l.length < n) :
    ∃ r readfds nfds, resetFrom getfd n (hub.links.next a) hub =
      some (r, { hub with readfds := readfds, nfds := nfds }) ∧ ∀ fd ∈ readfds, 0 < fd := by
  induction l generalizing a n hub with
  | nil =>
    obtain ⟨n, rfl⟩ : ∃ m, n = m + 1 := ⟨n - 1, by rw [List.length_nil] at hn; omega⟩
    exact ⟨-EINVAL, hub.readfds, hub.nfds, by rw [hl.1, resetFrom, if_pos rfl], hpos⟩
  | cons u l ih =>
    obtain ⟨⟨hau, _⟩, hl⟩ := hl
    rw [List.length_cons] at hn
    rw [List.mem_cons, not_or] at hhead
    obtain ⟨n, rfl⟩ : ∃ m, n = m + 1 := ⟨n - 1, by omega⟩
    rw [hau, resetFrom, if_neg (Ne.symm hhead.1)]
    simp only
    split_ifs with hfd
    · exact ⟨-EINVAL, hub.readfds, hub.nfds, rfl, hpos⟩
    · obtain ⟨r, fds, nfds, hr, hfds⟩ := ih { hub with
          readfds := insert (getfd (hub.record u)) hub.readfds
          nfds := max hub.nfds (getfd (hub.record u) + 1) } hl hhead.2
        (by simpa using ⟨Int.not_le.1 hfd, hpos⟩) (Nat.lt_of_succ_lt_succ hn)
      exact ⟨r, fds, nfds, hr, hfds⟩

/-- Before the first call of a round the cursor stands on the head of the list,
    and the descriptors set are open ones. -/
theorem linked_select (getfd : C → Int) (ready : Int → Bool) (h : Linked hub p q) :
    ∃ n hub', connectorHubSelect getfd ready hub = some (n, hub') ∧ Linked hub' [] (p ++ q) ∧
      ∀ fd ∈ hub'.readfds, 0 < fd := by
  obtain ⟨p, q, h, rfl, rfl⟩ := h
  have hhead := (List.nodup_cons.1 h.ring.nodup).1
  let start : Hub A C := { hub with
    readfds := ∅
    currRead := hub.connList
    currWrite := hub.connList
    currExcept := hub.connList }
  obtain ⟨r, fds, nfds, hr, hfds⟩ : ∃ r fds nfds, connectorHubReset getfd hub =
      some (r, { start with readfds := fds, nfds := nfds }) ∧ ∀ fd ∈ fds, 0 < fd :=
    resetFrom_spec start h.ring.seg hhead (by simp [start]) h.length_lt
  let readable := fds.filter fun fd => fd < nfds ∧ ready fd
  refine ⟨readable.card, { start with readfds := readable, nfds := nfds }, ?_,
    ⟨[], p ++ q, ⟨h.ring, rfl, h.mem_used⟩, rfl, List.map_append⟩,
    fun fd hfd => hfds fd (Finset.mem_filter.1 hfd).1⟩
  rw [connectorHubSelect, hr]
  rfl

end Between

end Cube.Connector
