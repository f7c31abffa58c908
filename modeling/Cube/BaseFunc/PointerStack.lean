import Cube.BaseFunc.Cells
import Cube.Lib.Replies

/-!
# The pointer stack

A stack of pointers in cells (`basefunc.c`). A pop moves the stack pointer down
before it looks whether it is below the first cell, and leaves it there: the next
push is written below the cells.

* `stacked_call`: a stack answers as the list of the pointers on it does, if a push
  that is not refused finds the stack pointer in the cells.
* `isLifo_iff`: a list of calls is answered in this way exactly if all pushes of it do.
-/

namespace Cube.BaseFunc

open Lib
open Message (Heap)

variable {P : Type}

/-- A pointer stack (`POINTER_STACK`): its cells, of which some were never written, and
    the stack pointer as the number of cells it is above the first one. -/
structure PointerStack (P : Type) where
  cells : List (Option P)
  curr : Int
  size : Int
  deriving DecidableEq, Repr

/-- `init_pointer_stack`. -/
def initPointerStack (P : Type) (heap : Heap) (size : Int32) :
    Outcome (Option (PointerStack P)) := do
  match ← cellBlock heap size with
  | none => pure none
  | some n => pure (some { cells := List.replicate n none, curr := 0, size := size.toInt })

/-- `pointer_stack_push`. -/
def pointerStackPush (s : PointerStack P) (pointer : P) : Outcome (PointerStack P) :=
  if s.curr + 1 ≥ s.size then .error ENOSPC
  else do
    let cells ← store s.cells s.curr (some pointer)
    pure { s with cells := cells, curr := s.curr + 1 }

/-- `pointer_stack_pop`, with the stack after it. A cell that was never written has no
    value to be returned. -/
def pointerStackPop (s : PointerStack P) : Outcome (Option P × PointerStack P) :=
  let s := { s with curr := s.curr - 1 }
  if s.curr < 0 then .done (none, s)
  else do
    match ← load s.cells s.curr with
    | none => .fault
    | some pointer => pure (some pointer, s)

/-! ## What a stack is for -/

/-- A call on a stack. -/
inductive StackCall (P : Type)
  | push (pointer : P)
  | pop
  deriving DecidableEq, Repr

/-- A call on a pointer stack: what it returns, and the stack after it. -/
def PointerStack.call (s : PointerStack P) : StackCall P → Outcome (Option P) × PointerStack P
  | .push pointer =>
    match pointerStackPush s pointer with
    | .done s' => (.done none, s')
    | .error e => (.error e, s)
    | .fault => (.fault, s)
  | .pop =>
    match pointerStackPop s with
    | .done (pointer, s') => (.done pointer, s')
    | .error e => (.error e, s)
    | .fault => (.fault, s)

/-- A stack of less than `n` pointers, as the list of the pointers on it, the last one
    pushed first. -/
def lifo (n : Int) (pushed : List P) : StackCall P → Outcome (Option P) × List P
  | .push pointer =>
    if pushed.length + 1 ≥ n then (.error ENOSPC, pushed) else (.done none, pointer :: pushed)
  | .pop => (.done pushed.head?, pushed.tail)

/-- A pointer stack of the size is made, if there is memory, and it answers the calls
    as the list of the pointers on it does. -/
def IsLifo (P : Type) (heap : Heap) (size : Int32) (calls : List (StackCall P)) : Prop :=
  initPointerStack P heap size ≠ .fault ∧
    ∀ s, initPointerStack P heap size = .done (some s) →
      replies PointerStack.call s calls = replies (lifo size.toInt) [] calls

/-- A push that is not refused finds the stack pointer in the cells. -/
def StaysIn (s : PointerStack P) : StackCall P → Prop
  | .push _ => s.curr + 1 < s.size → 0 ≤ s.curr ∧ s.curr < s.cells.length
  | .pop => True

/-! ## The cells -/

/-- The pointers on the stack, the last one pushed first. -/
structure Stacked (n : Int) (s : PointerStack P) (pushed : List P) : Prop where
  size_eq : s.size = n
  curr_eq : s.curr.toNat = pushed.length
  cells_eq : ∃ free, s.cells = pushed.reverse.map some ++ free

variable {n : Int} {s : PointerStack P} {pushed : List P} {pointer : P}

/-- A pointer is pushed if the stack pointer is in the cells. -/
theorem stacked_push (h : Stacked n s pushed) (hroom : s.curr + 1 < s.size)
    (hin : 0 ≤ s.curr ∧ s.curr < s.cells.length) (pointer : P) :
    ∃ s', pointerStackPush s pointer = .done s' ∧ Stacked n s' (pointer :: pushed) := by
  obtain ⟨hsize, hcurr, free, hcells⟩ := h
  have hi : s.curr = pushed.length := by omega
  have hlen : pushed.length < s.cells.length := by omega
  rw [pointerStackPush, if_neg (by omega), hi, store_eq hlen]
  refine ⟨_, rfl, hsize, by simp only [List.length_cons]; omega, ?_⟩
  cases free with
  | nil => simp [hcells] at hlen
  | cons c free =>
    refine ⟨free, ?_⟩
    simp [hcells]

/-- A push on the full stack is refused. -/
theorem push_full (hroom : ¬ s.curr + 1 < s.size) :
    pointerStackPush s pointer = .error ENOSPC := by
  rw [pointerStackPush, if_pos (by omega)]

/-- Nothing is popped from the empty stack. -/
theorem stacked_pop_nil (h : Stacked n s []) :
    ∃ s', pointerStackPop s = .done (none, s') ∧ Stacked n s' [] := by
  obtain ⟨hsize, hcurr, hcells⟩ := h
  have hle : s.curr ≤ 0 := by simpa using hcurr
  refine ⟨{ s with curr := s.curr - 1 }, ?_, hsize, ?_, hcells⟩
  · rw [pointerStackPop]
    simp only
    rw [if_pos (by omega)]
  · simp only [List.length_nil]
    omega

/-- The pointer pushed last is popped. -/
theorem stacked_pop (h : Stacked n s (pointer :: pushed)) :
    ∃ s', pointerStackPop s = .done (some pointer, s') ∧ Stacked n s' pushed := by
  obtain ⟨hsize, hcurr, free, hcells⟩ := h
  have hi : s.curr - 1 = pushed.length := by
    rw [List.length_cons] at hcurr
    omega
  have hcell : s.cells[pushed.length]? = some (some pointer) := by simp [hcells]
  refine ⟨{ s with curr := s.curr - 1 }, ?_, hsize, ?_, some pointer :: free, ?_⟩
  · rw [pointerStackPop]
    simp only [hi, load_eq hcell]
    rw [if_neg (by omega)]
    rfl
  · simp only [hi, Int.toNat_natCast]
  · simp [hcells]

/-- A stack answers a call as the list of the pointers on it does, if a push that is
    not refused finds the stack pointer in the cells. -/
theorem stacked_call (h : Stacked n s pushed) (c : StackCall P) (hc : StaysIn s c) :
    (s.call c).1 = (lifo n pushed c).1 ∧ Stacked n (s.call c).2 (lifo n pushed c).2 := by
  cases c with
  | push pointer =>
    rw [PointerStack.call, lifo]
    by_cases hroom : s.curr + 1 < s.size
    · have hin := hc hroom
      have hcurr := h.curr_eq
      have hsize := h.size_eq
      obtain ⟨s', hpush, hs'⟩ := stacked_push h hroom hin pointer
      rw [hpush, if_neg (by omega)]
      exact ⟨rfl, hs'⟩
    · have hcurr := h.curr_eq
      have hsize := h.size_eq
      rw [push_full hroom, if_pos (by omega)]
      exact ⟨rfl, h⟩
  | pop =>
    rw [PointerStack.call, lifo]
    cases pushed with
    | nil =>
      obtain ⟨s', hpop, hs'⟩ := stacked_pop_nil h
      rw [hpop]
      exact ⟨rfl, hs'⟩
    | cons pointer pushed =>
      obtain ⟨s', hpop, hs'⟩ := stacked_pop h
      rw [hpop]
      exact ⟨rfl, hs'⟩

/-- A push that is not refused with the stack pointer outside of the cells is a fault. -/
theorem call_ne (c : StackCall P) (hc : ¬ StaysIn s c) : (s.call c).1 ≠ (lifo n pushed c).1 := by
  cases c with
  | push pointer =>
    obtain ⟨hroom, hout⟩ := Classical.not_imp.1 hc
    have hpush : pointerStackPush s pointer = .fault := by
      rw [pointerStackPush, if_neg (by omega), store_fault hout, Outcome.fault_bind]
    rw [PointerStack.call, hpush]
    change Outcome.fault ≠ _
    rw [lifo]
    split <;> exact nofun
  | pop => exact absurd trivial hc

theorem stacked_init (k : Nat) (n : Int) :
    Stacked n { cells := List.replicate k (none : Option P), curr := 0, size := n } [] :=
  ⟨rfl, rfl, List.replicate k none, rfl⟩

/-- The calls are answered as by a stack exactly if the structure of the stack fits its
    block, and no push that is not refused finds the stack pointer outside of the
    cells, as after a pop on the empty stack. -/
theorem isLifo_iff (P : Type) (heap : Heap) (size : Int32) (calls : List (StackCall P)) :
    IsLifo P heap size calls ↔
      (heap.ok (cellBytes size + 4) = false ∨ 24 ≤ cellBytes size) ∧
        ∀ s, initPointerStack P heap size = .done (some s) →
          Steps (next PointerStack.call) StaysIn s calls := by
  rw [IsLifo]
  refine and_congr ?_ (forall_congr' fun s => imp_congr_right fun hs => ?_)
  · have hfault : initPointerStack P heap size = .fault ↔ cellBlock heap size = .fault := by
      rw [initPointerStack, Outcome.bind_eq_fault]
      refine or_iff_left ?_
      rintro ⟨a, -, ha⟩
      cases a <;> cases ha
    rw [Ne, hfault, cellBlock_eq_fault, not_and_or, Bool.not_eq_true, Int.not_lt]
  · obtain ⟨a, -, ha⟩ := Outcome.bind_eq_done.1 hs
    cases a with
    | none => cases ha
    | some k =>
      obtain rfl := Option.some.inj (Outcome.done.inj ha)
      exact replies_eq_iff (fun s t c hR hc => stacked_call hR c hc)
        (fun s t c _ hc => call_ne c hc) (stacked_init k size.toInt)

/-- After a pop on the empty stack, the next pointer is written in front of the cells. -/
theorem not_isLifo_pop : ¬ IsLifo Nat Heap.ample 4 [.pop, .push 1] := by
  rintro ⟨-, hall⟩
  have hcalls := hall ⟨[none, none, none, none], 0, 4⟩ (by decide)
  revert hcalls
  decide

end Cube.BaseFunc
