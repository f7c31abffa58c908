import Mathlib

/-!
# Rings of cells

Cells in which a list is kept at successive positions, the first position coming
after the last one (`Rings`).

* `rings_snoc`: an element is put in behind the list, if there is a free cell.
* `rings_tail`: the list without its first element starts one position further on.
-/

namespace Cube.Lib

/-- The position `i` places behind `start`, around a ring of `n` cells. -/
def place (n start i : Nat) : Nat := if start + i < n then start + i else start + i - n

variable {α : Type*} {n start i : Nat}

theorem place_lt (hs : start < n) (hi : i ≤ n) : place n start i < n := by
  rw [place]
  split <;> omega

@[simp] theorem place_zero (hs : start < n) : place n start 0 = start := by
  rw [place, Nat.add_zero, if_pos hs]

/-- Different places of one round are different positions. -/
theorem place_ne {j : Nat} (hi : i < n) (hj : j < n) (hij : i ≠ j) :
    place n start i ≠ place n start j := by
  rw [place, place]
  split <;> split <;> omega

theorem place_succ (hs : start < n) (hi : i < n) :
    place n (place n start 1) i = place n start (i + 1) := by
  rw [place, place, place]
  split <;> split <;> split <;> omega

/-- The list `l` is in the cells, from the position `start` on. -/
structure Rings (cells : List α) (start : Nat) (l : List α) : Prop where
  start_lt : start < cells.length
  length_le : l.length ≤ cells.length
  cell : ∀ i < l.length, cells[place cells.length start i]? = l[i]?

variable {cells l : List α} {x : α}

theorem rings_nil (hs : start < cells.length) : Rings cells start [] where
  start_lt := hs
  length_le := Nat.zero_le _
  cell _ h := absurd h (Nat.not_lt_zero _)

/-- The first element is in the cell where the list starts. -/
theorem Rings.head (h : Rings cells start (x :: l)) : cells[start]? = some x := by
  have := h.cell 0 (Nat.succ_pos _)
  rwa [place_zero h.start_lt] at this

theorem rings_tail (h : Rings cells start (x :: l)) : Rings cells (place cells.length start 1) l where
  start_lt := by
    have := h.start_lt
    exact place_lt h.start_lt (by omega)
  length_le := (Nat.le_succ _).trans h.length_le
  cell i hi := by
    have hlen : i < cells.length := (Nat.lt_succ_of_lt hi).trans_le h.length_le
    rw [place_succ h.start_lt hlen, h.cell (i + 1) (Nat.succ_lt_succ hi), List.getElem?_cons_succ]

/-- An element put into the first free cell is behind the list. -/
theorem rings_snoc (h : Rings cells start l) (hlt : l.length < cells.length) :
    Rings (cells.set (place cells.length start l.length) x) start (l ++ [x]) where
  start_lt := by
    rw [List.length_set]
    exact h.start_lt
  length_le := by
    rw [List.length_set, List.length_append]
    exact hlt
  cell i hi := by
    rw [List.length_set]
    rw [List.length_append, List.length_singleton] at hi
    rcases Nat.lt_or_eq_of_le (Nat.le_of_lt_succ hi) with hi | rfl
    · have hne : place cells.length start l.length ≠ place cells.length start i :=
        place_ne hlt (hi.trans hlt) hi.ne'
      rw [List.getElem?_set_ne hne, h.cell i hi, List.getElem?_append_left hi]
    · rw [List.getElem?_set_self (place_lt h.start_lt hlt.le), List.getElem?_concat_length]

end Cube.Lib
