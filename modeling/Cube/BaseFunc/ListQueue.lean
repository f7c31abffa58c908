import Cube.Dispatch.WaitingList
import Cube.Lib.Replies

/-!
# The list queue

A queue of records in a linked list (`basefunc.c`), with a cursor that goes over them:
`list_queue_getfirst` puts it on the first slot, `list_queue_getnext` moves it on, and
`list_queue_removecurr` is there to remove the slot it is on. This one frees the slot,
but neither takes it out of the list nor counts it. And `list_queue_get` takes no notice of
the cursor when it frees the slot that it is on.

* `keeps_put`, `keeps_get`, `keeps_getfirst`, `keeps_getnext`: what a call does to the
  records of the queue and to the iteration over them.
* `queue_serves`: every run is right that does not remove a record under the cursor, and
  does not use the cursor after the slot under it was got.
-/

namespace Cube.BaseFunc

open Lib Route
open ExModule (Malloc)

variable {A M : Type} [DecidableEq A]

/-- A list queue (`LIST_QUEUE`): its address, which is the one of the head of its list,
    its fields, the slots, and the addresses of the memory in use. -/
structure ListQueue (A M : Type) where
  head : A
  recordNum : Int
  curr : Option A
  mem : Records A M
  used : List A

/-- `init_list_queue`. -/
def initListQueue (m : Malloc A) (mem : Records A M) (used : List A) : Option (ListQueue A M) :=
  match m.malloc used with
  | none => none
  | some head =>
    some { head := head, recordNum := 0, curr := none, mem := nodeListInit mem head,
           used := head :: used }

/-- To read or write at an address. -/
def ListQueue.touch (q : ListQueue A M) (a : A) : Outcome Unit :=
  if a ∈ q.used then .done () else .fault

/-- `Free`, of a slot. -/
def ListQueue.free (q : ListQueue A M) (slot : A) : ListQueue A M :=
  { q with used := q.used.erase slot }

/-- What the functions return: the number of records, `list_queue_get` with the record it
    sets, or a record. -/
inductive Reply (M : Type)
  | count (n : Int) (record : Option M)
  | pointer (record : Option M)
  deriving DecidableEq, Repr

/-- `list_queue_put`. -/
def listQueuePut (m : Malloc A) (q : ListQueue A M) (record : M) :
    Outcome (Reply M × ListQueue A M) :=
  match m.malloc q.used with
  | none => .error (-EINVAL)
  | some slot => do
    q.touch q.head
    q.touch (q.mem.links.prev q.head)
    if q.recordNum + 1 < 2 ^ 31 then
      pure (.count (q.recordNum + 1) none, { q with
        recordNum := q.recordNum + 1
        mem := (nodeListAdd (some slot) q.mem q.head record).2
        used := slot :: q.used })
    else .fault

/-- `list_queue_get`. -/
def listQueueGet (q : ListQueue A M) : Outcome (Reply M × ListQueue A M) := do
  q.touch q.head
  if q.recordNum = 0 then pure (.count 0 none, q)
  else do
    let slot := q.mem.links.next q.head
    q.touch slot
    q.touch (q.mem.links.next slot)
    q.touch (q.mem.links.prev slot)
    let record := q.mem.record slot
    let q := { q with
      recordNum := q.recordNum - 1
      mem := { q.mem with links := q.mem.links.del slot } }
    pure (.count q.recordNum record, q.free slot)

/-- `list_queue_getfirst`. -/
def listQueueGetfirst (q : ListQueue A M) : Outcome (Reply M × ListQueue A M) := do
  q.touch q.head
  if q.recordNum = 0 then pure (.pointer none, q)
  else do
    let slot := q.mem.links.next q.head
    q.touch slot
    pure (.pointer (q.mem.record slot), { q with curr := some slot })

/-- `list_queue_getnext`. -/
def listQueueGetnext (q : ListQueue A M) : Outcome (Reply M × ListQueue A M) := do
  q.touch q.head
  if q.recordNum = 0 then pure (.pointer none, q)
  else
    match q.curr with
    | none => pure (.pointer none, q)
    | some slot => do
      q.touch slot
      let slot := q.mem.links.next slot
      if slot = q.head then pure (.pointer none, { q with curr := none })
      else do
        q.touch slot
        pure (.pointer (q.mem.record slot), { q with curr := some slot })

/-- `list_queue_removecurr`. The slot stays in the list. -/
def listQueueRemovecurr (q : ListQueue A M) : Outcome (Reply M × ListQueue A M) := do
  q.touch q.head
  if q.recordNum = 0 then pure (.pointer none, q)
  else
    match q.curr with
    | none => pure (.pointer none, q)
    | some slot => do
      q.touch slot
      let record := q.mem.record slot
      let q := if q.mem.links.next slot = q.head then { q with curr := none } else q
      let q := { q with curr := some (q.mem.links.next slot) }
      pure (.pointer record, q.free slot)

/-- A call on a list queue. -/
inductive ListQueueCall (M : Type)
  | put (record : M)
  | get
  | getfirst
  | getnext
  | removecurr
  deriving DecidableEq, Repr

/-! ## What a queue is for -/

/-- The records of a queue and an iteration over them: those in front of the one last
    returned, this one as long as it is in the queue, and those to come. -/
structure Iteration (M : Type) where
  before : List M
  curr : Option M
  after : List M
  active : Bool
  deriving DecidableEq, Repr

namespace Iteration

/-- A queue without records. -/
def empty (M : Type) : Iteration M := ⟨[], none, [], false⟩

/-- The records of the queue, in the order in which they were put. -/
def records (t : Iteration M) : List M := t.before ++ t.curr.toList ++ t.after

def put (t : Iteration M) (record : M) : Iteration M := { t with after := t.after ++ [record] }

/-- The first record leaves the queue. If it is the one last returned, the iteration goes
    on with the one behind it. -/
def get : Iteration M → Option M × Iteration M
  | ⟨record :: before, curr, after, active⟩ => (some record, ⟨before, curr, after, active⟩)
  | ⟨[], some record, after, active⟩ => (some record, ⟨[], none, after, active⟩)
  | ⟨[], none, record :: after, active⟩ => (some record, ⟨[], none, after, active⟩)
  | ⟨[], none, [], active⟩ => (none, ⟨[], none, [], active⟩)

/-- An iteration starts with the first record. -/
def getfirst (t : Iteration M) : Option M × Iteration M :=
  match t.records with
  | [] => (none, empty M)
  | record :: after => (some record, ⟨[], some record, after, true⟩)

/-- The iteration goes on with the next record, or ends. -/
def getnext (t : Iteration M) : Option M × Iteration M :=
  if t.active then
    match t.after with
    | [] => (none, ⟨t.before ++ t.curr.toList, none, [], false⟩)
    | record :: after => (some record, ⟨t.before ++ t.curr.toList, some record, after, true⟩)
  else (none, t)

/-- The record last returned leaves the queue. -/
def removecurr (t : Iteration M) : Option M × Iteration M :=
  match t.curr with
  | none => (none, t)
  | some record => (some record, { t with curr := none })

end Iteration

/-- What is a right answer of the queue to a call, and the queue after it. A record that
    there is no memory for may be refused. -/
def Answers (t : Iteration M) (c : ListQueueCall M) (reply : Outcome (Reply M))
    (t' : Iteration M) : Prop :=
  match c with
  | .put record =>
    reply = .error (-EINVAL) ∧ t' = t ∨
      reply = .done (.count (t.records.length + 1) none) ∧ t' = t.put record
  | .get => reply = .done (.count t.get.2.records.length t.get.1) ∧ t' = t.get.2
  | .getfirst => reply = .done (.pointer t.getfirst.1) ∧ t' = t.getfirst.2
  | .getnext => reply = .done (.pointer t.getnext.1) ∧ t' = t.getnext.2
  | .removecurr => reply = .done (.pointer t.removecurr.1) ∧ t' = t.removecurr.2

/-! ## The slots -/

/-- The records of the queue are `l`, in the slots `sites`, and they are counted. -/
structure Kept (q : ListQueue A M) (sites : List A) (l : List M) : Prop where
  holds : Holds q.mem q.head sites l
  used : ∀ u ∈ q.head :: sites, u ∈ q.used
  recordNum_eq : q.recordNum = l.length

variable {m : Malloc A} {q : ListQueue A M} {x : A} {sites : List A} {record : M} {l : List M}

theorem touch_eq {a : A} (h : a ∈ q.used) : q.touch a = .done () := if_pos h

theorem Kept.touch_head (h : Kept q sites l) : q.touch q.head = .done () :=
  touch_eq (h.used _ List.mem_cons_self)

theorem kept_init {mem : Records A M} {used : List A} (hq : initListQueue m mem used = some q) :
    Kept q [] [] ∧ q.curr = none := by
  rw [initListQueue] at hq
  cases hm : m.malloc used with
  | none => rw [hm] at hq; cases hq
  | some head =>
    rw [hm] at hq
    obtain rfl := Option.some.inj hq
    exact ⟨⟨holds_nodeListInit, fun u hu => List.mem_cons.2 (.inl (List.mem_singleton.1 hu)), rfl⟩, rfl⟩

/-- A record put is the last one, if there is memory for its slot. -/
theorem keeps_put (h : Kept q sites l) (hcount : q.recordNum + 1 < 2 ^ 31) (record : M) :
    listQueuePut m q record = .error (-EINVAL) ∨
      ∃ y q', listQueuePut m q record = .done (.count (l.length + 1) none, q') ∧
        Kept q' (sites ++ [y]) (l ++ [record]) ∧ q'.curr = q.curr := by
  rw [listQueuePut]
  cases hm : m.malloc q.used with
  | none => exact .inl rfl
  | some y =>
    have hy : y ∉ q.head :: sites := fun hy => m.fresh _ _ hm (h.used y hy)
    have hprev := h.used _ h.holds.ring.seg.prev_mem
    refine .inr ⟨y, { q with
        recordNum := q.recordNum + 1
        mem := (nodeListAdd (some y) q.mem q.head record).2
        used := y :: q.used }, ?_, ⟨holds_nodeListAdd h.holds hy record, fun u hu => ?_, ?_⟩, rfl⟩
    · simp only [h.touch_head, touch_eq hprev, Outcome.done_bind]
      rw [if_pos hcount, ← h.recordNum_eq]
      rfl
    · have := h.used
      simp only at hu ⊢
      grind
    · simp [h.recordNum_eq]

/-- From an empty queue nothing is got, and there is nothing to be visited. -/
theorem Kept.empty (h : Kept q sites []) :
    listQueueGet q = .done (.count 0 none, q) ∧ listQueueGetfirst q = .done (.pointer none, q) ∧
      listQueueGetnext q = .done (.pointer none, q) ∧
      listQueueRemovecurr q = .done (.pointer none, q) := by
  have hnum : q.recordNum = 0 := h.recordNum_eq
  simp [listQueueGet, listQueueGetfirst, listQueueGetnext, listQueueRemovecurr, h.touch_head, hnum]

omit [DecidableEq A] in
/-- If none is counted, there is none. -/
theorem Kept.eq_nil (h : Kept q sites l) (hnum : q.recordNum = 0) : l = [] := by
  have hlen := h.recordNum_eq.symm.trans hnum
  exact List.eq_nil_of_length_eq_zero (by omega)

omit [DecidableEq A] in
theorem Kept.recordNum_ne (h : Kept q sites (record :: l)) : q.recordNum ≠ 0 := by
  rw [h.recordNum_eq, List.length_cons]
  omega

/-- The first record is got, and its slot freed. -/
theorem keeps_get (h : Kept q (x :: sites) (record :: l)) :
    ∃ q', listQueueGet q = .done (.count l.length (some record), q') ∧ Kept q' sites l ∧
      q'.curr = q.curr := by
  have hring := h.holds.ring
  have hnd := hring.nodup
  have hx := h.used x (by simp)
  have hnext : q.mem.links.next x ∈ q.used := by
    have := hring.seg.2.next_mem
    have := h.used
    grind
  have hprev : q.mem.links.prev x ∈ q.used := by
    rw [hring.seg.1.2]
    exact h.used _ List.mem_cons_self
  have hrec : q.mem.record x = some record := (List.cons.inj h.holds.record).1
  have hnum : q.recordNum - 1 = l.length := by
    rw [h.recordNum_eq, List.length_cons]
    omega
  refine ⟨{ q with
    recordNum := q.recordNum - 1
    mem := { q.mem with links := q.mem.links.del x }
    used := q.used.erase x }, ?_, ⟨Waiting.holds_del_first h.holds, fun u hu => ?_, hnum⟩, rfl⟩
  · simp [listQueueGet, h.touch_head, h.recordNum_ne, hring.next_head, touch_eq hx, touch_eq hnext,
      touch_eq hprev, hrec, hnum, ListQueue.free]
  · have hux : u ≠ x := by
      simp only at hu
      grind
    exact (List.mem_erase_of_ne hux).2 (h.used u (by simp only at hu; grind))

/-- The cursor is put on the first slot. -/
theorem keeps_getfirst (h : Kept q (x :: sites) (record :: l)) :
    listQueueGetfirst q = .done (.pointer (some record), { q with curr := some x }) := by
  have hx := h.used x (by simp)
  have hrec : q.mem.record x = some record := (List.cons.inj h.holds.record).1
  simp [listQueueGetfirst, h.touch_head, h.recordNum_ne, h.holds.ring.next_head, touch_eq hx, hrec]

omit [DecidableEq A] in
/-- What follows the slot under the cursor: another one, or the head. -/
theorem Kept.next_slot (h : Kept q sites l) {i : Nat} (hi : sites[i]? = some x) :
    (sites ++ [q.head])[i + 1]? = some (q.mem.links.next x) :=
  h.holds.ring.seg.next_getElem? (n := i + 1) hi

/-- The cursor moves on to the next slot. -/
theorem keeps_getnext {i : Nat} {y : A} (h : Kept q sites l) (hcurr : q.curr = some x)
    (hi : sites[i]? = some x) (hy : sites[i + 1]? = some y) :
    listQueueGetnext q = .done (.pointer l[i + 1]?, { q with curr := some y }) := by
  have hlt : i + 1 < sites.length := (List.getElem?_eq_some_iff.1 hy).1
  have hnext := h.next_slot hi
  rw [List.getElem?_append_left hlt, hy] at hnext
  obtain hnext := Option.some.inj hnext
  have hxmem := h.used x (List.mem_cons_of_mem _ (List.mem_of_getElem? hi))
  have hymem := List.mem_of_getElem? hy
  have hhead : y ≠ q.head := by
    rintro rfl
    exact (List.nodup_cons.1 h.holds.ring.nodup).1 hymem
  have hnum : q.recordNum ≠ 0 := by
    rw [h.recordNum_eq, ← h.holds.length_eq]
    omega
  simp [listQueueGetnext, h.touch_head, hnum, hcurr, touch_eq hxmem, ← hnext, hhead,
    touch_eq (h.used y (List.mem_cons_of_mem _ hymem)), h.holds.record_getElem? hy]

/-- Behind the last slot, the iteration ends. -/
theorem keeps_getnext_last {i : Nat} (h : Kept q sites l) (hcurr : q.curr = some x)
    (hi : sites[i]? = some x) (hlast : i + 1 = sites.length) :
    listQueueGetnext q = .done (.pointer none, { q with curr := none }) := by
  have hnext := h.next_slot hi
  rw [hlast, List.getElem?_concat_length] at hnext
  obtain hnext := Option.some.inj hnext
  have hxmem := h.used x (List.mem_cons_of_mem _ (List.mem_of_getElem? hi))
  have hnum : q.recordNum ≠ 0 := by
    rw [h.recordNum_eq, ← h.holds.length_eq]
    omega
  simp [listQueueGetnext, h.touch_head, hnum, hcurr, touch_eq hxmem, ← hnext]

/-! ## Runs -/

/-- A call on a list queue. -/
def ListQueue.call (m : Malloc A) (q : ListQueue A M) :
    ListQueueCall M → Outcome (Reply M × ListQueue A M)
  | .put record => listQueuePut m q record
  | .get => listQueueGet q
  | .getfirst => listQueueGetfirst q
  | .getnext => listQueueGetnext q
  | .removecurr => listQueueRemovecurr q

/-- A queue, and whether the slot that its cursor was put on last was got since. -/
structure Watched (A M : Type) where
  queue : ListQueue A M
  taken : Bool

/-- Whether the slot under the cursor was got, after a call that returned. -/
def Watched.takenBy (w : Watched A M) : ListQueueCall M → Bool
  | .get =>
    w.taken || decide (w.queue.recordNum ≠ 0 ∧ w.queue.curr = some (w.queue.mem.links.next w.queue.head))
  | .getfirst => w.taken && decide (w.queue.recordNum = 0)
  | _ => w.taken

/-- A call, with what it returns. -/
def Watched.step (m : Malloc A) (w : Watched A M) (c : ListQueueCall M) :
    Outcome (Reply M) × Watched A M :=
  match w.queue.call m c with
  | .done (reply, q) => (.done reply, { queue := q, taken := w.takenBy c })
  | .error e => (.error e, w)
  | .fault => (.fault, w)

/-- A call meets its condition: a record put can be counted by an `int`, the slot under
    the cursor was not got when `list_queue_getnext` goes on from it, and
    `list_queue_removecurr` finds no record under the cursor. -/
def Watched.CallOk (w : Watched A M) : ListQueueCall M → Prop
  | .put _ => w.queue.recordNum + 1 < 2 ^ 31
  | .getnext => w.queue.recordNum = 0 ∨ w.queue.curr = none ∨ w.taken = false
  | .removecurr => w.queue.recordNum = 0 ∨ w.queue.curr = none
  | _ => True

/-- The records linked in the queue are those of the iteration, and `record_num` is
    their number. -/
def Linked (w : Watched A M) (t : Iteration M) : Prop :=
  ∃ sites, Kept w.queue sites t.records

/-- Where the cursor is in an iteration: nowhere, on the slot of the record last
    returned, or on a slot that was got. -/
inductive CursorAt (curr : Option A) (taken : Bool) (sites : List A) (t : Iteration M) : Prop
  | unset (hcurr : curr = none) (htaken : taken = false) (hnone : t.curr = none)
      (hactive : t.active = false)
  | on (x : A) (record : M) (hcurr : curr = some x) (htaken : taken = false)
      (hsite : sites[t.before.length]? = some x) (hrecord : t.curr = some record)
      (hactive : t.active = true)
  | lost (x : A) (hcurr : curr = some x) (htaken : taken = true)

/-- The queue goes with the iteration. -/
def Follows (w : Watched A M) (t : Iteration M) : Prop :=
  ∃ sites, Kept w.queue sites t.records ∧ CursorAt w.queue.curr w.taken sites t

variable {w : Watched A M} {t : Iteration M}

theorem step_done {c : ListQueueCall M} {reply : Reply M} (h : w.queue.call m c = .done (reply, q)) :
    w.step m c = (.done reply, { queue := q, taken := w.takenBy c }) := by
  rw [Watched.step, h]

theorem follows_put (h : Follows w t) (record : M) (hok : w.CallOk (.put record)) :
    ∃ t', Answers t (.put record) (w.step m (.put record)).1 t' ∧
      Follows (w.step m (.put record)).2 t' := by
  obtain ⟨sites, hkept, hcursor⟩ := h
  rcases keeps_put (m := m) hkept hok record with herr | ⟨y, q', hput, hkept', hcurr⟩
  · have hstep : w.step m (.put record) = (.error (-EINVAL), w) := by
      rw [Watched.step, ListQueue.call, herr]
    rw [hstep]
    exact ⟨t, .inl ⟨rfl, rfl⟩, sites, hkept, hcursor⟩
  · rw [step_done (c := .put record) hput]
    refine ⟨t.put record, .inr ⟨rfl, rfl⟩, sites ++ [y], ?_, ?_⟩
    · simpa only [Iteration.records, Iteration.put, List.append_assoc] using hkept'
    · simp only [hcurr]
      cases hcursor with
      | unset h₁ h₂ h₃ h₄ => exact .unset h₁ h₂ h₃ h₄
      | on x r h₁ h₂ h₃ h₄ h₅ =>
        refine .on x r h₁ h₂ ?_ h₄ h₅
        exact (List.getElem?_append_left (List.getElem?_eq_some_iff.1 h₃).1).trans h₃
      | lost x h₁ h₂ => exact .lost x h₁ h₂

/-- Without records there is none last returned, and none in front of it or to come. -/
theorem Iteration.eq_of_records_nil (h : t.records = []) : t = ⟨[], none, [], t.active⟩ := by
  obtain ⟨before, curr, after, active⟩ := t
  obtain ⟨hfront, rfl⟩ := List.append_eq_nil_iff.1 h
  obtain ⟨rfl, hcurr⟩ := List.append_eq_nil_iff.1 hfront
  obtain rfl : curr = none := Option.toList_eq_nil_iff.1 hcurr
  rfl

theorem Iteration.get_nil (h : t.records = []) : t.get = (none, t) := by
  rw [Iteration.eq_of_records_nil h]
  rfl

/-- An iteration over no records returns none, and does not move. -/
theorem Iteration.getnext_nil (h : t.records = []) :
    t.getnext.1 = none ∧ t.getnext.2.records = [] := by
  rw [Iteration.eq_of_records_nil h]
  cases t.active <;> exact ⟨rfl, rfl⟩

/-- The first record is the one that leaves the queue. -/
theorem Iteration.get_cons (h : t.records = record :: l) :
    t.get.1 = some record ∧ t.get.2.records = l := by
  obtain ⟨before, curr, after, active⟩ := t
  cases before with
  | cons r before =>
    obtain ⟨rfl, rfl⟩ := List.cons.inj h
    exact ⟨rfl, rfl⟩
  | nil =>
    cases curr with
    | some r =>
      obtain ⟨rfl, rfl⟩ := List.cons.inj h
      exact ⟨rfl, rfl⟩
    | none =>
      cases after with
      | nil => cases h
      | cons r after =>
        obtain ⟨rfl, rfl⟩ := List.cons.inj h
        exact ⟨rfl, rfl⟩

theorem Iteration.get_of_curr_none (h : t.curr = none) :
    t.get.2.curr = none ∧ t.get.2.active = t.active := by
  obtain ⟨before, curr, after, active⟩ := t
  obtain rfl : curr = none := h
  cases before with
  | cons r before => exact ⟨rfl, rfl⟩
  | nil => cases after <;> exact ⟨rfl, rfl⟩

omit [DecidableEq A] in
theorem Kept.site (h : Kept q sites (record :: l)) : ∃ x rest, sites = x :: rest := by
  cases sites with
  | nil => exact absurd h.holds.record (by simp)
  | cons x rest => exact ⟨x, rest, rfl⟩

/-- The cursor of a queue from which the first record is got. -/
theorem cursor_get {curr : Option A} {taken : Bool} (h : CursorAt curr taken (x :: sites) t)
    (hnd : (x :: sites).Nodup) :
    CursorAt curr (taken || decide (curr = some x)) sites t.get.2 := by
  cases h with
  | unset h₁ h₂ h₃ h₄ =>
    obtain ⟨hcurr, hactive⟩ := Iteration.get_of_curr_none h₃
    exact .unset h₁ (by simp [h₁, h₂]) hcurr (hactive.trans h₄)
  | on y r h₁ h₂ h₃ h₄ h₅ =>
    obtain ⟨before, c, after, active⟩ := t
    cases before with
    | nil =>
      -- The cursor is on the first slot, and stays on it.
      obtain rfl : x = y := by simpa using h₃
      exact .lost x h₁ (by simp [h₁])
    | cons b before =>
      have hy : sites[before.length]? = some y := by simpa using h₃
      have hne : y ≠ x := by
        rintro rfl
        exact (List.nodup_cons.1 hnd).1 (List.mem_of_getElem? hy)
      exact .on y r h₁ (by simp [h₁, h₂, hne]) hy h₄ h₅
  | lost y h₁ h₂ => exact .lost y h₁ (by simp [h₂])

theorem follows_get (h : Follows w t) :
    ∃ t', Answers t .get (w.step m .get).1 t' ∧ Follows (w.step m .get).2 t' := by
  obtain ⟨sites, hkept, hcursor⟩ := h
  refine ⟨t.get.2, ?_⟩
  cases hl : t.records with
  | nil =>
    rw [hl] at hkept
    have hnum : w.queue.recordNum = 0 := hkept.recordNum_eq
    rw [step_done (c := .get) hkept.empty.1, Answers, Iteration.get_nil hl, hl]
    refine ⟨⟨rfl, rfl⟩, sites, hl ▸ hkept, ?_⟩
    simpa [Watched.takenBy, hnum] using hcursor
  | cons record l =>
    rw [hl] at hkept
    obtain ⟨x, rest, rfl⟩ := hkept.site
    obtain ⟨q', hget, hkept', hcurr⟩ := keeps_get hkept
    obtain ⟨hfirst, hrest⟩ := Iteration.get_cons hl
    rw [step_done (c := .get) hget, Answers, hfirst, hrest]
    refine ⟨⟨rfl, rfl⟩, rest, hrest.symm ▸ hkept', ?_⟩
    have hnd := (List.nodup_cons.1 hkept.holds.ring.nodup).2
    have hget := cursor_get hcursor hnd
    simpa [Watched.takenBy, hkept.recordNum_ne, hkept.holds.ring.next_head, hcurr] using hget

theorem follows_getfirst (h : Follows w t) :
    ∃ t', Answers t .getfirst (w.step m .getfirst).1 t' ∧ Follows (w.step m .getfirst).2 t' := by
  obtain ⟨sites, hkept, hcursor⟩ := h
  refine ⟨t.getfirst.2, ?_⟩
  rw [Answers, Iteration.getfirst]
  cases hl : t.records with
  | nil =>
    rw [hl] at hkept
    have hnum : w.queue.recordNum = 0 := hkept.recordNum_eq
    have hsites : sites = [] := List.eq_nil_of_length_eq_zero hkept.holds.length_eq
    rw [step_done (c := .getfirst) hkept.empty.2.1]
    refine ⟨⟨rfl, rfl⟩, sites, hkept, ?_⟩
    have htaken : w.takenBy (.getfirst : ListQueueCall M) = w.taken := by
      simp [Watched.takenBy, hnum]
    simp only [htaken]
    cases hcursor with
    | unset h₁ h₂ _ _ => exact .unset h₁ h₂ rfl rfl
    | on x r _ _ h₃ _ _ => simp [hsites] at h₃
    | lost x h₁ h₂ => exact .lost x h₁ h₂
  | cons record l =>
    rw [hl] at hkept
    obtain ⟨x, rest, rfl⟩ := hkept.site
    have htaken : w.takenBy (.getfirst : ListQueueCall M) = false := by
      simp [Watched.takenBy, hkept.recordNum_ne]
    rw [step_done (c := .getfirst) (keeps_getfirst hkept), htaken]
    exact ⟨⟨rfl, rfl⟩, x :: rest, ⟨hkept.holds, hkept.used, hkept.recordNum_eq⟩,
      .on x record rfl rfl rfl rfl rfl⟩

omit [DecidableEq A] in
/-- The records in front of the one last returned and those behind it. -/
theorem Kept.after_eq (h : Kept q sites t.records) (hrecord : t.curr = some record) :
    t.records = t.before ++ record :: t.after ∧
      sites.length = t.before.length + 1 + t.after.length := by
  have hrecords : t.records = t.before ++ record :: t.after := by
    simp [Iteration.records, hrecord]
  refine ⟨hrecords, ?_⟩
  rw [h.holds.length_eq, hrecords, List.length_append, List.length_cons]
  omega

theorem follows_getnext (h : Follows w t) (hok : w.CallOk .getnext) :
    ∃ t', Answers t .getnext (w.step m .getnext).1 t' ∧ Follows (w.step m .getnext).2 t' := by
  obtain ⟨sites, hkept, hcursor⟩ := h
  refine ⟨t.getnext.2, ?_⟩
  rw [Answers]
  cases hcursor with
  | unset h₁ h₂ h₃ h₄ =>
    have hnext : listQueueGetnext w.queue = .done (.pointer none, w.queue) := by
      simp [listQueueGetnext, hkept.touch_head, h₁]
    rw [step_done (c := .getnext) hnext, Iteration.getnext, h₄]
    exact ⟨⟨rfl, rfl⟩, sites, hkept, .unset h₁ h₂ h₃ h₄⟩
  | on x record h₁ h₂ h₃ h₄ h₅ =>
    obtain ⟨hrecords, hlen⟩ := hkept.after_eq h₄
    rw [Iteration.getnext, if_pos h₅, h₄]
    cases hafter : t.after with
    | nil =>
      rw [hafter] at hlen hrecords
      rw [step_done (c := .getnext) (keeps_getnext_last hkept h₁ h₃ (by simpa using hlen.symm))]
      have heq : (⟨t.before ++ [record], none, [], false⟩ : Iteration M).records = t.records := by
        simp [Iteration.records, h₄, hafter]
      refine ⟨⟨rfl, rfl⟩, sites, ?_, .unset rfl h₂ rfl rfl⟩
      exact ⟨heq ▸ hkept.holds, hkept.used, heq ▸ hkept.recordNum_eq⟩
    | cons record' after =>
      rw [hafter] at hlen hrecords
      obtain ⟨y, hy⟩ : ∃ y, sites[t.before.length + 1]? = some y :=
        ⟨_, List.getElem?_eq_getElem (by rw [hlen, List.length_cons]; omega)⟩
      have hrecord : t.records[t.before.length + 1]? = some record' := by simp [hrecords]
      have heq : (⟨t.before ++ [record], some record', after, true⟩ : Iteration M).records =
          t.records := by
        simp [Iteration.records, h₄, hafter]
      rw [step_done (c := .getnext) (keeps_getnext hkept h₁ h₃ hy), hrecord]
      refine ⟨⟨rfl, rfl⟩, sites, ?_, .on y record' rfl h₂ ?_ rfl rfl⟩
      · exact ⟨heq ▸ hkept.holds, hkept.used, heq ▸ hkept.recordNum_eq⟩
      · simpa using hy
  | lost x h₁ h₂ =>
    -- The cursor is not used, because there are no records.
    have hnum : w.queue.recordNum = 0 := by
      rcases hok with hnum | hcurr | htaken
      · exact hnum
      · rw [h₁] at hcurr
        cases hcurr
      · rw [h₂] at htaken
        cases htaken
    have hrecords := hkept.eq_nil hnum
    obtain ⟨hreply, hrest⟩ := Iteration.getnext_nil hrecords
    rw [hrecords] at hkept
    rw [step_done (c := .getnext) hkept.empty.2.2.1, hreply]
    exact ⟨⟨rfl, rfl⟩, sites, hrest.symm ▸ hkept, .lost x h₁ h₂⟩

theorem follows_removecurr (h : Follows w t) (hok : w.CallOk .removecurr) :
    ∃ t', Answers t .removecurr (w.step m .removecurr).1 t' ∧
      Follows (w.step m .removecurr).2 t' := by
  obtain ⟨sites, hkept, hcursor⟩ := h
  have hremove : listQueueRemovecurr w.queue = .done (.pointer none, w.queue) := by
    rcases hok with hnum | hcurr
    · simp [listQueueRemovecurr, hkept.touch_head, hnum]
    · simp [listQueueRemovecurr, hkept.touch_head, hcurr]
  have hnone : t.curr = none := by
    cases hcursor with
    | unset _ _ h₃ _ => exact h₃
    | on x record h₁ h₂ h₃ h₄ h₅ =>
      rcases hok with hnum | hcurr
      · have hrecords := (hkept.after_eq h₄).1
        rw [hkept.eq_nil hnum] at hrecords
        simp at hrecords
      · rw [h₁] at hcurr
        cases hcurr
    | lost x h₁ h₂ =>
      rcases hok with hnum | hcurr
      · rw [Iteration.eq_of_records_nil (hkept.eq_nil hnum)]
      · rw [h₁] at hcurr
        cases hcurr
  rw [step_done (c := .removecurr) hremove]
  refine ⟨t, ?_, sites, hkept, hcursor⟩
  rw [Answers, Iteration.removecurr, hnone]
  exact ⟨rfl, rfl⟩

/-- A call that meets its condition is answered right. -/
theorem follows_step (h : Follows w t) (c : ListQueueCall M) (hok : w.CallOk c) :
    ∃ t', Answers t c (w.step m c).1 t' ∧ Follows (w.step m c).2 t' := by
  cases c with
  | put record => exact follows_put h record hok
  | get => exact follows_get h
  | getfirst => exact follows_getfirst h
  | getnext => exact follows_getnext h hok
  | removecurr => exact follows_removecurr h hok

/-- In every run on a new queue whose calls meet their conditions, the records are got in
    the order in which they were put, the iterations visit them in this order, and
    `record_num` is the number of the slots linked. -/
theorem queue_serves (m : Malloc A) (mem : Records A M) (used : List A) {q : ListQueue A M}
    (hq : initListQueue m mem used = some q) (calls : List (ListQueueCall M))
    (hok : Steps (next (Watched.step m)) Watched.CallOk ⟨q, false⟩ calls) :
    Meets (Watched.step m) Linked Answers ⟨q, false⟩ (Iteration.empty M) calls := by
  obtain ⟨hkept, hcurr⟩ := kept_init hq
  refine meets_of_steps (fun w t h => ?_) (fun w t c h hc => follows_step h c hc) ?_ hok
  · obtain ⟨sites, hkept, -⟩ := h
    exact ⟨sites, hkept⟩
  · exact ⟨[], hkept, .unset hcurr rfl rfl rfl⟩

/-- A run that puts two records, visits them and gets the first one. -/
theorem queue_serves_two :
    Meets (Watched.step .counting) Linked Answers
      ⟨⟨0, 0, none, nodeListInit (⟨⟨id, id⟩, fun _ => none⟩ : Records Nat Nat) 0, [0]⟩, false⟩
      (Iteration.empty Nat) [.put 7, .put 8, .getfirst, .getnext, .get] := by
  refine queue_serves .counting ⟨⟨id, id⟩, fun _ => none⟩ [] rfl _ ?_
  refine steps_cons.2 ⟨?_, steps_cons.2 ⟨?_, steps_cons.2 ⟨trivial, steps_cons.2 ⟨?_,
    steps_cons.2 ⟨trivial, steps_nil⟩⟩⟩⟩⟩
  · change (0 : Int) + 1 < 2 ^ 31
    decide
  · change (1 : Int) + 1 < 2 ^ 31
    decide
  · exact .inr (.inr rfl)

/-- A record that was removed is in its freed slot still, and is found there by the
    next call. -/
theorem not_serves_removecurr :
    ¬ Meets (Watched.step .counting) Linked Answers
      ⟨⟨0, 0, none, nodeListInit (⟨⟨id, id⟩, fun _ => none⟩ : Records Nat Nat) 0, [0]⟩, false⟩
      (Iteration.empty Nat) [.put 7, .getfirst, .removecurr, .get] := by
  rintro ⟨-, t₁, -, -, t₂, -, -, t₃, -, -, t₄, hget, -⟩
  have hfault : (Watched.step .counting
      (run (next (Watched.step .counting))
        ⟨⟨0, 0, none, nodeListInit (⟨⟨id, id⟩, fun _ => none⟩ : Records Nat Nat) 0, [0]⟩, false⟩
        [.put 7, .getfirst, .removecurr]) .get).1 = .fault := by
    decide
  have hne := hfault.symm.trans hget.1
  cases hne

end Cube.BaseFunc
