import Mathlib

/-!
# Sequences that a recurrence extends

A list goes on with elements that are made from those so far. If each is made from the last
`m` only, they are all that has to be kept: in a ring of `m` slots, where every element is
put in the slot of its index modulo `m`.

* `take_extend`, `take_succ_extend`: what is there stays, and what is next is made from it.
* `HoldsLast.push`: the slot of the next element is that of the one that is not needed.
* `foldl_range'_induct`: a loop over indices, by what each round carries on.
-/

namespace Cube.Lib.Recurrence

variable {α : Type*} (next : List α → α)

/-- The list with so many elements more. -/
def extend : Nat → List α → List α
  | 0, w => w
  | n + 1, w => extend n (w ++ [next w])

variable {next} {n k m : Nat} {w : List α}

@[simp] theorem length_extend (n : Nat) (w : List α) :
    (extend next n w).length = w.length + n := by
  induction n generalizing w with
  | zero => rfl
  | succ n ih => rw [extend, ih, List.length_append, List.length_singleton, Nat.add_right_comm,
      Nat.add_assoc]

/-- The elements there were stay as they are. -/
theorem take_extend (n : Nat) (hk : k ≤ w.length) : (extend next n w).take k = w.take k := by
  induction n generalizing w with
  | zero => rfl
  | succ n ih =>
    have hk' : k ≤ (w ++ [next w]).length := by
      rw [List.length_append]
      exact Nat.le_add_right_of_le hk
    rw [extend, ih hk', List.take_append_of_le_length hk]

/-- An element that was added is made from those in front of it. -/
theorem take_succ_extend (hw : w.length ≤ k) (hk : k < w.length + n) :
    (extend next n w).take (k + 1) =
      (extend next n w).take k ++ [next ((extend next n w).take k)] := by
  induction n generalizing w with
  | zero => omega
  | succ n ih =>
    have hlen : (w ++ [next w]).length = w.length + 1 := List.length_append
    rw [extend]
    rcases Nat.eq_or_lt_of_le hw with rfl | hlt
    · -- The first one that was added.
      rw [take_extend n hlen.ge, take_extend n (by omega), List.take_left' rfl,
        List.take_of_length_le hlen.le]
    · exact ih (by omega) (by omega)

/-- The last `m` elements of the list are in the ring, each in the slot of its index. -/
def HoldsLast (ring : Vector α m) (w : List α) : Prop :=
  ∀ j < w.length, w.length ≤ j + m → ring[j % m]? = w[j]?

/-- The first elements of the ring are a list of as many. -/
theorem holdsLast_toList (ring : Vector α m) : HoldsLast ring ring.toList := by
  intro j hj _
  rw [Vector.length_toList] at hj
  rw [Nat.mod_eq_of_lt hj, Vector.getElem?_toList]

/-- The next element is put in place of the one that is `m` in front of it. -/
theorem HoldsLast.push {ring : Vector α m} (h : HoldsLast ring w) (x : α) {i : Nat} (hi : i < m)
    (hslot : w.length % m = i) : HoldsLast (ring.set i x hi) (w ++ [x]) := by
  intro j hj hle
  rw [List.length_append, List.length_singleton] at hj hle
  rcases Nat.eq_or_lt_of_le (Nat.le_of_lt_succ hj) with rfl | hlt
  · rw [List.getElem?_append_right (Nat.le_refl _), Nat.sub_self, hslot, Vector.getElem?_set_self]
    rfl
  · -- Elements less than `m` apart have different slots.
    have hne : i ≠ j % m := by
      rintro rfl
      have hdvd : m ∣ w.length - j := (Nat.modEq_iff_dvd' hlt.le).1 hslot.symm
      have := Nat.le_of_dvd (Nat.sub_pos_of_lt hlt) hdvd
      omega
    rw [Vector.getElem?_set_ne hi hne, List.getElem?_append_left hlt, h j hlt (by omega)]

section Rounds

variable {σ : Type*} {f : σ → Nat → σ} {P : Nat → σ → Prop} {start : Nat} {s : σ}

/-- What each round of a loop over indices carries on is so behind the last of them. -/
theorem foldl_range'_induct (n : Nat)
    (hround : ∀ i s, start ≤ i → i < start + n → P i s → P (i + 1) (f s i)) (h : P start s) :
    P (start + n) ((List.range' start n).foldl f s) := by
  induction n generalizing start s with
  | zero => exact h
  | succ n ih =>
    rw [List.range'_succ, List.foldl_cons, Nat.add_comm n, ← Nat.add_assoc]
    refine ih (fun i s hle hlt => hround i s (Nat.le_of_succ_le hle) (by omega)) ?_
    exact hround start s (Nat.le_refl _) (by omega) h

end Rounds

end Cube.Lib.Recurrence
