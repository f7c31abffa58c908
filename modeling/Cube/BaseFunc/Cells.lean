import Cube.Message.Box

/-!
# Blocks of cells

A pointer stack and a pointer queue (`basefunc.c`) are each one block of memory: a
structure of 24 bytes, and behind it the cells for the pointers. The size of the
block is counted in 64 bits, but `Talloc` takes an `int`: of more than `2 ^ 28`
cells, it allocates too little or nothing.

* `cellBlock_fault`, `cellBlock_eq_some`: when the structure itself does not fit the
  block, and how many cells there are.
* `cells_eq_iff`: the cells asked for are there if they are fewer than `2 ^ 29 - 3`.
-/

namespace Cube.BaseFunc

open Lib
open Message (Heap)

/-- The value of `ENOSPC`, the error of a full store. -/
def ENOSPC : Int := 28

/-- `Talloc`: a block of `size` bytes, with 4 bytes before it. -/
def talloc (heap : Heap) (size : Int) : Outcome Bool :=
  if heap.ok (size + 4) then
    if size < 0 then .fault else .done true
  else .done false

/-- The size of a block for `size` cells, as `Talloc` takes it. -/
def cellBytes (size : Int32) : Int := Int.bmod (24 + 8 * size.toInt) (2 ^ 32)

/-- How many cells there are in the block for `size` cells, if it is to be had. What
    does not fit the block is the structure in front of them. -/
def cellBlock (heap : Heap) (size : Int32) : Outcome (Option Nat) := do
  if ← talloc heap (cellBytes size) then
    if cellBytes size < 24 then .fault
    else pure (some ((cellBytes size - 24) / 8).toNat)
  else pure none

/-- To read a cell. -/
def load {C : Type} (cells : List C) (i : Int) : Outcome C :=
  if 0 ≤ i then
    match cells[i.toNat]? with
    | some c => .done c
    | none => .fault
  else .fault

/-- To write a cell. -/
def store {C : Type} (cells : List C) (i : Int) (c : C) : Outcome (List C) :=
  if 0 ≤ i ∧ i < cells.length then .done (cells.set i.toNat c) else .fault

section Access

variable {C : Type} {cells : List C} {i : Nat} {c : C}

theorem load_eq (h : cells[i]? = some c) : load cells i = .done c := by
  rw [load, if_pos (Int.natCast_nonneg i), Int.toNat_natCast, h]

theorem store_eq (h : i < cells.length) : store cells i c = .done (cells.set i c) := by
  rw [store, if_pos ⟨Int.natCast_nonneg i, Int.ofNat_lt.2 h⟩, Int.toNat_natCast]

theorem store_fault {j : Int} (h : ¬ (0 ≤ j ∧ j < cells.length)) : store cells j c = .fault :=
  if_neg h

end Access

variable {heap : Heap} {size : Int32} {n : Nat}

/-- There is no memory for the block. -/
theorem cellBlock_none (h : heap.ok (cellBytes size + 4) = false) :
    cellBlock heap size = .done none := by
  simp [cellBlock, talloc, h]

/-- The structure in front of the cells does not fit a block of less than 24 bytes. -/
theorem cellBlock_fault (h : heap.ok (cellBytes size + 4) = true) (hlt : cellBytes size < 24) :
    cellBlock heap size = .fault := by
  by_cases hneg : cellBytes size < 0
  · simp [cellBlock, talloc, h, hneg]
  · simp [cellBlock, talloc, h, hneg, hlt]

theorem cellBlock_some (h : heap.ok (cellBytes size + 4) = true) (hle : 24 ≤ cellBytes size) :
    cellBlock heap size = .done (some ((cellBytes size - 24) / 8).toNat) := by
  have hnn : ¬ cellBytes size < 0 := by omega
  have hlt : ¬ cellBytes size < 24 := Int.not_lt.2 hle
  simp [cellBlock, talloc, h, hnn, hlt]

theorem cellBlock_eq_fault :
    cellBlock heap size = .fault ↔ heap.ok (cellBytes size + 4) = true ∧ cellBytes size < 24 := by
  refine ⟨fun h => ?_, fun h => cellBlock_fault h.1 h.2⟩
  cases hok : heap.ok (cellBytes size + 4) with
  | false => rw [cellBlock_none hok] at h; cases h
  | true =>
    refine ⟨rfl, ?_⟩
    by_contra hle
    rw [cellBlock_some hok (Int.not_lt.1 hle)] at h
    cases h

theorem cellBlock_eq_some (h : cellBlock heap size = .done (some n)) :
    heap.ok (cellBytes size + 4) = true ∧ cellBytes size = 24 + 8 * n := by
  cases hok : heap.ok (cellBytes size + 4) with
  | false => rw [cellBlock_none hok] at h; cases h
  | true =>
    by_cases hlt : cellBytes size < 24
    · rw [cellBlock_fault hok hlt] at h
      cases h
    · rw [cellBlock_some hok (Int.not_lt.1 hlt)] at h
      obtain rfl := Option.some.inj (Outcome.done.inj h)
      refine ⟨rfl, ?_⟩
      rw [cellBytes, Int.bmod_def] at hlt ⊢
      omega

/-- There are never more cells than were asked for, and there are as many exactly if
    the size of the block is not cut off. -/
theorem cells_eq_iff (h : cellBlock heap size = .done (some n)) (hnn : 0 ≤ size.toInt) :
    (n : Int) ≤ size.toInt ∧ ((n : Int) = size.toInt ↔ size.toInt < 2 ^ 29 - 3) := by
  obtain ⟨-, hbytes⟩ := cellBlock_eq_some h
  have hlt := size.toInt_lt
  rw [cellBytes, Int.bmod_def] at hbytes
  omega

/-- Of a size that is not cut off, either there is no memory, or there are as many
    cells as were asked for. -/
theorem cellBlock_of_lt (hnn : 0 ≤ size.toInt) (hlt : size.toInt < 2 ^ 29 - 3) :
    cellBlock heap size = .done none ∨ cellBlock heap size = .done (some size.toInt.toNat) := by
  cases hok : heap.ok (cellBytes size + 4) with
  | false => exact .inl (cellBlock_none hok)
  | true =>
    have hnneg : ¬ cellBytes size + 4 < 0 := by
      intro hneg
      rw [heap.not_ok _ hneg] at hok
      cases hok
    rw [cellBytes, Int.bmod_def] at hnneg
    have hbytes : cellBytes size = 24 + 8 * size.toInt := by
      rw [cellBytes, Int.bmod_def]
      omega
    refine .inr ?_
    rw [cellBlock_some hok (by omega), hbytes]
    congr 2
    omega

end Cube.BaseFunc
