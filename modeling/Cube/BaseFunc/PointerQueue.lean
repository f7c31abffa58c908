import Cube.BaseFunc.Cells
import Cube.Lib.Replies
import Cube.Lib.Ring

/-!
# The pointer queue

A queue of pointers in a ring of cells (`basefunc.c`). The two ends of the queue go
round the ring on their own; that the queue is empty is told by a head of `-1`.

* `queued_step`: with all its cells, a queue answers as the list of the pointers
  waiting does.
* `isFifo_iff`: a queue of `size` pointers is a bounded queue unless the size of its
  block is cut off.
-/

namespace Cube.BaseFunc

open Lib
open Message (Heap)

variable {P : Type}

/-- A pointer queue (`POINTER_QUEUE`), with the cells of its buffer. -/
structure PointerQueue (P : Type) where
  buffer : List P
  size : Int
  head : Int
  tail : Int
  deriving DecidableEq, Repr

/-- `init_pointer_queue`. The cells are set to NULL. -/
def initPointerQueue [Zero P] (heap : Heap) (size : Int32) : Outcome (Option (PointerQueue P)) := do
  match ← cellBlock heap size with
  | none => pure none
  | some n =>
    pure (some { buffer := List.replicate n 0, size := size.toInt, head := -1, tail := 0 })

/-- The queue with its head moved and a pointer stored there. -/
def PointerQueue.putAt (q : PointerQueue P) (head : Int) (pointer : P) :
    Outcome (PointerQueue P) := do
  let buffer ← store q.buffer head pointer
  pure { q with buffer := buffer, head := head }

/-- `pointer_queue_put`. -/
def pointerQueuePut (q : PointerQueue P) (pointer : P) : Outcome (PointerQueue P) :=
  if q.head = -1 then q.putAt 0 pointer
  else if q.head = q.size - 1 then
    if q.tail = 0 then .error ENOSPC else q.putAt 0 pointer
  else
    if q.head + 1 = q.tail then .error ENOSPC else q.putAt (q.head + 1) pointer

/-- `pointer_queue_get`. -/
def pointerQueueGet (q : PointerQueue P) : Outcome (P × PointerQueue P) :=
  if q.head = -1 then .error (-EINVAL)
  else do
    let pointer ← load q.buffer q.tail
    if q.tail = q.head then pure (pointer, { q with head := -1, tail := 0 })
    else if q.tail = q.size - 1 then pure (pointer, { q with tail := 0 })
    else pure (pointer, { q with tail := q.tail + 1 })

/-! ## What a queue is for -/

/-- A call on a queue. -/
inductive QueueCall (P : Type)
  | put (pointer : P)
  | get
  deriving DecidableEq, Repr

/-- A call on a pointer queue: what it returns, and the queue after it. What fails
    leaves the queue as it is. -/
def PointerQueue.call (q : PointerQueue P) : QueueCall P → Outcome (Option P) × PointerQueue P
  | .put pointer =>
    match pointerQueuePut q pointer with
    | .done q' => (.done none, q')
    | .error e => (.error e, q)
    | .fault => (.fault, q)
  | .get =>
    match pointerQueueGet q with
    | .done (pointer, q') => (.done (some pointer), q')
    | .error e => (.error e, q)
    | .fault => (.fault, q)

/-- A queue of at most `n` pointers, as the list of the pointers waiting in it. -/
def fifo (n : Nat) (waiting : List P) : QueueCall P → Outcome (Option P) × List P
  | .put pointer =>
    if waiting.length = n then (.error ENOSPC, waiting) else (.done none, waiting ++ [pointer])
  | .get =>
    match waiting with
    | [] => (.error (-EINVAL), [])
    | pointer :: rest => (.done (some pointer), rest)

/-- A pointer queue of the size is made, if there is memory, and it answers every list
    of calls as the bounded queue does. -/
def IsFifo (P : Type) [Zero P] (heap : Heap) (size : Int32) : Prop :=
  initPointerQueue (P := P) heap size ≠ .fault ∧
    ∀ q : PointerQueue P, initPointerQueue heap size = .done (some q) →
      ∀ calls, replies PointerQueue.call q calls = replies (fifo size.toInt.toNat) [] calls

/-! ## The ring -/

/-- The pointers waiting in the queue of `n` cells, in this order. -/
structure Queued (n : Nat) (q : PointerQueue P) (waiting : List P) : Prop where
  size_eq : q.size = n
  length_eq : q.buffer.length = n
  rings : Rings q.buffer q.tail.toNat waiting
  tail_nonneg : 0 ≤ q.tail
  empty : waiting = [] → q.head = -1 ∧ q.tail = 0
  head_eq : waiting ≠ [] → q.head = (place n q.tail.toNat (waiting.length - 1) : Nat)

variable {n : Nat} {q q' : PointerQueue P} {waiting : List P} {pointer : P}

theorem Queued.tail_lt (h : Queued n q waiting) : q.tail.toNat < n := by
  have := h.rings.start_lt
  rwa [h.length_eq] at this

theorem Queued.length_le (h : Queued n q waiting) : waiting.length ≤ n := by
  have := h.rings.length_le
  rwa [h.length_eq] at this

/-- With pointers waiting, the head is in front of the tail, or as far behind it as
    there are pointers between the two. -/
theorem Queued.head_place (h : Queued n q waiting) (hne : waiting ≠ []) :
    0 < waiting.length ∧
      (q.tail + waiting.length - 1 < n ∧ q.head = q.tail + waiting.length - 1 ∨
        n ≤ q.tail + waiting.length - 1 ∧ q.head = q.tail + waiting.length - 1 - n) := by
  have hpos := List.length_pos_iff.2 hne
  have hhead := h.head_eq hne
  have htail := h.tail_nonneg
  rw [place] at hhead
  refine ⟨hpos, ?_⟩
  split at hhead <;> omega

/-- A pointer is stored in the cell behind the pointers waiting. -/
theorem queued_putAt (h : Queued n q waiting) (hlt : waiting.length < n) {i : Int}
    (hi : i = (place n q.tail.toNat waiting.length : Nat)) :
    ∃ q', q.putAt i pointer = .done q' ∧ Queued n q' (waiting ++ [pointer]) := by
  subst hi
  have hplace := place_lt h.tail_lt hlt.le
  have hrings : Rings _ _ (waiting ++ [pointer]) :=
    rings_snoc h.rings (by rw [h.length_eq]; exact hlt)
  rw [h.length_eq] at hrings
  refine ⟨{ q with
    buffer := q.buffer.set (place n q.tail.toNat waiting.length) pointer
    head := (place n q.tail.toNat waiting.length : Nat) }, ?_, ?_⟩
  · rw [PointerQueue.putAt, store_eq (by rwa [h.length_eq])]
    rfl
  · exact {
      size_eq := h.size_eq
      length_eq := by simp only [List.length_set, h.length_eq]
      rings := hrings
      tail_nonneg := h.tail_nonneg
      empty := fun hnil => absurd hnil (by simp)
      head_eq := fun _ => by simp }

/-- A pointer is refused exactly when the queue is full, and else waits last. -/
theorem queued_put (h : Queued n q waiting) (pointer : P) :
    waiting.length = n ∧ pointerQueuePut q pointer = .error ENOSPC ∨
      waiting.length ≠ n ∧
        ∃ q', pointerQueuePut q pointer = .done q' ∧ Queued n q' (waiting ++ [pointer]) := by
  have hsize := h.size_eq
  have htail := h.tail_nonneg
  have htl := h.tail_lt
  have hle := h.length_le
  rw [pointerQueuePut]
  by_cases hnil : waiting = []
  · obtain ⟨hhead, ht⟩ := h.empty hnil
    have hlen : waiting.length = 0 := by rw [hnil]; rfl
    refine .inr ⟨by omega, ?_⟩
    rw [if_pos hhead]
    refine queued_putAt h (by omega) ?_
    rw [place]
    split <;> omega
  · obtain ⟨hpos, hhead⟩ := h.head_place hnil
    rw [if_neg (by omega)]
    by_cases hfull : waiting.length = n
    · -- The cell behind the head is that of the tail.
      refine .inl ⟨hfull, ?_⟩
      split <;> rw [if_pos (by omega)]
    · refine .inr ⟨hfull, ?_⟩
      split
      all_goals
        rw [if_neg (by omega)]
        refine queued_putAt h (by omega) ?_
        rw [place]
        split <;> omega

/-- From an empty queue nothing is got. -/
theorem queued_get_nil (h : Queued n q []) : pointerQueueGet q = .error (-EINVAL) := by
  rw [pointerQueueGet, if_pos (h.empty rfl).1]

/-- The first pointer waiting is got. -/
theorem queued_get (h : Queued n q (pointer :: waiting)) :
    ∃ q', pointerQueueGet q = .done (pointer, q') ∧ Queued n q' waiting := by
  have hsize := h.size_eq
  have htail := h.tail_nonneg
  have htl := h.tail_lt
  have hle := h.length_le
  obtain ⟨-, hhead⟩ := h.head_place (List.cons_ne_nil _ _)
  have hload : load q.buffer q.tail = .done pointer := by
    have hcell := load_eq h.rings.head
    rwa [Int.toNat_of_nonneg htail] at hcell
  have hrest := rings_tail h.rings
  rw [h.length_eq] at hrest
  rw [List.length_cons] at hhead hle
  rw [pointerQueueGet, if_neg (by omega), hload, Outcome.done_bind]
  split
  next heq =>
    -- There was no other pointer: head and tail are as in a new queue.
    obtain rfl : waiting = [] := List.eq_nil_of_length_eq_zero (by omega)
    exact ⟨_, rfl, hsize, h.length_eq, rings_nil (Nat.zero_lt_of_lt h.rings.start_lt), Int.le_refl 0,
      fun _ => ⟨rfl, rfl⟩, fun hne => absurd rfl hne⟩
  next hne =>
    have hpos : waiting ≠ [] := by
      rintro rfl
      simp only [List.length_nil] at hhead
      omega
    have hwpos := List.length_pos_iff.2 hpos
    split
    next hlast =>
      have hplace : place n q.tail.toNat 1 = 0 := by
        rw [place]
        split <;> omega
      rw [hplace] at hrest
      refine ⟨_, rfl, hsize, h.length_eq, hrest, Int.le_refl 0,
        fun hnil => absurd hnil hpos, fun _ => ?_⟩
      change q.head = (place n 0 (waiting.length - 1) : Nat)
      rw [place]
      split <;> omega
    next hlast =>
      have hplace : place n q.tail.toNat 1 = (q.tail + 1).toNat := by
        rw [place]
        split <;> omega
      rw [hplace] at hrest
      refine ⟨_, rfl, hsize, h.length_eq, hrest, ?_, fun hnil => absurd hnil hpos, fun _ => ?_⟩
      · change 0 ≤ q.tail + 1
        omega
      · change q.head = (place n (q.tail + 1).toNat (waiting.length - 1) : Nat)
        rw [place]
        split <;> omega

/-- With all its cells, a queue answers a call as the list of the pointers waiting does. -/
theorem queued_step (h : Queued n q waiting) (c : QueueCall P) :
    (q.call c).1 = (fifo n waiting c).1 ∧ Queued n (q.call c).2 (fifo n waiting c).2 := by
  cases c with
  | put pointer =>
    rw [PointerQueue.call, fifo]
    rcases queued_put h pointer with ⟨hfull, hput⟩ | ⟨hfull, q', hput, hq'⟩
    · rw [hput, if_pos hfull]
      exact ⟨rfl, h⟩
    · rw [hput, if_neg hfull]
      exact ⟨rfl, hq'⟩
  | get =>
    rw [PointerQueue.call]
    cases waiting with
    | nil =>
      rw [queued_get_nil h]
      exact ⟨rfl, h⟩
    | cons pointer rest =>
      obtain ⟨q', hget, hq'⟩ := queued_get h
      rw [hget]
      exact ⟨rfl, hq'⟩

theorem queued_init [Zero P] {m : Int} (hm : m = n) (hpos : 0 < n) :
    Queued n { buffer := List.replicate n (0 : P), size := m, head := -1, tail := 0 } [] where
  size_eq := hm
  length_eq := List.length_replicate
  rings := rings_nil (by simpa using hpos)
  tail_nonneg := Int.le_refl 0
  empty _ := ⟨rfl, rfl⟩
  head_eq hne := absurd rfl hne

/-! ## A queue that lacks cells -/

/-- The bounded queue has no faults. -/
theorem fault_notMem_fifo (waiting : List P) (calls : List (QueueCall P)) :
    .fault ∉ replies (fifo n) waiting calls := by
  have hstep : ∀ (waiting : List P) c, (fifo n waiting c).1 ≠ .fault := by
    intro waiting c
    cases c with
    | put pointer =>
      rw [fifo]
      split <;> exact nofun
    | get => cases waiting <;> exact nofun
  exact fun hmem => forall_mem_replies (Q := (· ≠ .fault)) hstep waiting calls _ hmem rfl

/-- As long as nothing is got from the queue and its cells are not filled, a pointer is
    stored behind the head. -/
theorem put_filling (htail : q.tail = 0) (hlt : q.head + 1 < q.size) :
    pointerQueuePut q pointer = q.putAt (q.head + 1) pointer := by
  rw [pointerQueuePut]
  by_cases hnil : q.head = -1
  · rw [if_pos hnil, hnil]
    rfl
  · rw [if_neg hnil, if_neg (by omega), if_neg (by omega)]

/-- The cells are filled from the first one on, and what is behind the last one is
    written too. -/
theorem fault_mem_replies (m : Nat) (pointer : P) (htail : q.tail = 0) (hhead : -1 ≤ q.head)
    (hm : q.head + 1 + m = q.buffer.length) (hlt : (q.buffer.length : Int) < q.size) :
    .fault ∈ replies PointerQueue.call q (List.replicate (m + 1) (.put pointer)) := by
  induction m generalizing q with
  | zero =>
    have hout : ¬ (0 ≤ q.head + 1 ∧ q.head + 1 < q.buffer.length) := by omega
    rw [List.replicate_succ, replies_cons]
    refine List.mem_cons.2 (.inl ?_)
    rw [PointerQueue.call, put_filling htail (by omega), PointerQueue.putAt, store_fault hout]
    rfl
  | succ m ih =>
    obtain ⟨i, hi⟩ : ∃ i : Nat, q.head + 1 = i := ⟨_, (Int.toNat_of_nonneg (by omega)).symm⟩
    have hnext : next PointerQueue.call q (.put pointer) =
        { q with buffer := q.buffer.set i pointer, head := i } := by
      rw [next, PointerQueue.call, put_filling htail (by omega), PointerQueue.putAt, hi,
        store_eq (by omega)]
      rfl
    rw [List.replicate_succ, replies_cons, hnext]
    refine List.mem_cons_of_mem _ (ih htail ?_ ?_ ?_) <;> simp only [List.length_set] <;> omega

/-- A pointer queue of the size is a bounded queue exactly if there is no memory for it,
    or its structure and cells are less than `2 ^ 32` bytes. -/
theorem isFifo_iff (P : Type) [Zero P] (heap : Heap) {size : Int32} (hpos : 0 < size.toInt) :
    IsFifo P heap size ↔ heap.ok (cellBytes size + 4) = false ∨ size.toInt < 2 ^ 29 - 3 := by
  constructor
  · rintro ⟨hinit, hall⟩
    cases hok : heap.ok (cellBytes size + 4) with
    | false => exact .inl rfl
    | true =>
      refine .inr ?_
      have hle : 24 ≤ cellBytes size := by
        by_contra hlt
        exact hinit (by rw [initPointerQueue, cellBlock_fault hok (Int.not_le.1 hlt)]; rfl)
      have hblock := cellBlock_some hok hle
      obtain ⟨hcells, hiff⟩ := cells_eq_iff hblock (Int.le_of_lt hpos)
      refine hiff.1 ?_
      by_contra hne
      have hlt : (((cellBytes size - 24) / 8).toNat : Int) < size.toInt := Int.lt_iff_le_and_ne.2 ⟨hcells, hne⟩
      have hcalls := hall _ (by rw [initPointerQueue, hblock]; rfl)
        (List.replicate (((cellBytes size - 24) / 8).toNat + 1) (.put 0))
      refine fault_notMem_fifo _ _ (hcalls ▸ fault_mem_replies _ 0 rfl (Int.le_refl _) ?_ ?_)
      · simp only [List.length_replicate]
        omega
      · simpa only [List.length_replicate] using hlt
  · intro h
    have hblock : cellBlock heap size = .done none ∨
        cellBlock heap size = .done (some size.toInt.toNat) := by
      rcases h with hok | hlt
      · exact .inl (cellBlock_none hok)
      · exact cellBlock_of_lt (Int.le_of_lt hpos) hlt
    rw [IsFifo, initPointerQueue]
    rcases hblock with hblock | hblock <;> rw [hblock]
    · exact ⟨nofun, nofun⟩
    · refine ⟨nofun, fun q hq calls => ?_⟩
      obtain rfl := Option.some.inj (Outcome.done.inj hq)
      have hqueued := queued_init (P := P) (n := size.toInt.toNat) (m := size.toInt)
        (Int.toNat_of_nonneg (Int.le_of_lt hpos)).symm (by omega)
      exact replies_eq (fun s t i hR _ => queued_step hR i) hqueued
        (steps_of_forall fun _ _ => trivial)

theorem isFifo_four : IsFifo Nat Heap.ample 4 :=
  (isFifo_iff Nat Heap.ample (by decide)).2 (.inr (by decide))

/-- A queue of `2 ^ 29` pointers is made without a cell, and the first pointer is
    written behind its block. -/
theorem not_isFifo_block : ¬ IsFifo Nat Heap.ample 536870912 := by
  rintro ⟨-, hall⟩
  have hcalls := hall ⟨[], 536870912, -1, 0⟩ (by decide) [.put 1]
  revert hcalls
  decide

end Cube.BaseFunc
