import Cube.Lib.Flag

/-!
# The lowest bit of a word

The lowest bit of a word is found by halving: a mask takes the lower half of the
window that the bits of the word are in, and the window becomes this half if there is a
bit in it, and the other one if not.

* `exists_isLowest`: every word but zero has a lowest bit.
* `Narrowed.low`, `Narrowed.high`: the two halves of a window.
-/

namespace Cube.Lib

/-- The bit of that number is the lowest one set in the word. -/
def IsLowest (word : Int64) (k : Nat) : Prop := HasBit word k ∧ ∀ j < k, ¬ HasBit word j

variable {word w mask : Int64} {k start o : Nat}

theorem IsLowest.unique {k' : Nat} (h : IsLowest word k) (h' : IsLowest word k') : k = k' :=
  Nat.le_antisymm (Nat.not_lt.1 fun hlt => h.2 _ hlt h'.1) (Nat.not_lt.1 fun hlt => h'.2 _ hlt h.1)

theorem exists_isLowest (h : word ≠ 0) : ∃ k, IsLowest word k := by
  classical
  have hbit : ∃ i, HasBit word i := by
    by_contra hnone
    exact h (hasBit_ext fun i => iff_of_false (fun hi => hnone ⟨i, hi⟩) not_hasBit_zero)
  exact ⟨Nat.find hbit, Nat.find_spec hbit, fun _ hj => Nat.find_min hbit hj⟩

/-- The bits of `w` are in a window, and the lowest one of them is that of the word. -/
structure Narrowed (word w : Int64) (start width : Nat) : Prop where
  isLowest_iff : ∀ k, IsLowest w k ↔ IsLowest word k
  window : ∀ i, HasBit w i → start ≤ i ∧ i < start + width

/-- The mask has the first `o` bits of every `2 * o`. -/
def Halves (mask : Int64) (o : Nat) : Prop := ∀ i < 64, HasBit mask i ↔ i / o % 2 = 0

instance (a : Int64) (i : Nat) : Decidable (HasBit a i) := inferInstanceAs (Decidable (_ = _))

instance (mask : Int64) (o : Nat) : Decidable (Halves mask o) := inferInstanceAs (Decidable (∀ _, _))

theorem narrowed_all (word : Int64) : Narrowed word word 0 64 where
  isLowest_iff _ := Iff.rfl
  window i hi := ⟨Nat.zero_le i, by simpa using hi.lt⟩

theorem hasBit_and {a b : Int64} {i : Nat} : HasBit (a &&& b) i ↔ HasBit a i ∧ HasBit b i := by
  simp [HasBit]

/-- In a window of `2 * o` bits, the mask has those of the lower half. -/
theorem Halves.hasBit_iff (h : Halves mask o) (ho : 0 < o) (hstart : 2 * o ∣ start) {i : Nat}
    (hi : i < 64) (hle : start ≤ i) (hlt : i < start + 2 * o) : HasBit mask i ↔ i < start + o := by
  obtain ⟨q, rfl⟩ := hstart
  obtain ⟨r, rfl⟩ := Nat.exists_eq_add_of_le hle
  have hdiv : (2 * o * q + r) / o = r / o + 2 * q := by
    rw [Nat.mul_right_comm, Nat.mul_comm, Nat.add_comm, Nat.add_mul_div_left _ _ ho]
  have hlow : r / o = 0 ↔ r < o := Nat.div_eq_zero_iff_lt ho
  have hhigh : r / o < 2 := Nat.div_lt_of_lt_mul (by omega)
  rw [h _ hi, hdiv, Nat.add_mul_mod_self_left, Nat.mod_eq_of_lt hhigh, hlow]
  exact (Nat.add_lt_add_iff_left).symm

/-- No bit is in the lower half: the window becomes the upper one. -/
theorem Narrowed.high (h : Narrowed word w start (2 * o)) (hm : Halves mask o) (ho : 0 < o)
    (hstart : 2 * o ∣ start) (hzero : mask &&& w = 0) : Narrowed word w (start + o) o where
  isLowest_iff := h.isLowest_iff
  window i hi := by
    obtain ⟨hle, hlt⟩ := h.window i hi
    have hnot : ¬ i < start + o := by
      intro hlow
      have hmask := (hm.hasBit_iff ho hstart hi.lt hle hlt).2 hlow
      have hboth := hasBit_and.2 ⟨hmask, hi⟩
      rw [hzero] at hboth
      exact not_hasBit_zero hboth
    omega

/-- Some bit is in the lower half: the window becomes this half. -/
theorem Narrowed.low (h : Narrowed word w start (2 * o)) (hm : Halves mask o) (ho : 0 < o)
    (hstart : 2 * o ∣ start) (hne : mask &&& w ≠ 0) : Narrowed word (w &&& mask) start o where
  isLowest_iff k := by
    have hiff : ∀ i, HasBit w i → (HasBit mask i ↔ i < start + o) := by
      intro i hi
      obtain ⟨hle, hlt⟩ := h.window i hi
      exact hm.hasBit_iff ho hstart hi.lt hle hlt
    rw [← h.isLowest_iff k]
    constructor
    · rintro ⟨hk, hmin⟩
      obtain ⟨hw, hmask⟩ := hasBit_and.1 hk
      refine ⟨hw, fun j hj hwj => hmin j hj (hasBit_and.2 ⟨hwj, (hiff j hwj).2 ?_⟩)⟩
      exact Nat.lt_trans hj ((hiff k hw).1 hmask)
    · rintro ⟨hk, hmin⟩
      obtain ⟨i, hi, hwi⟩ := and_ne_zero_iff.1 hne
      have hki : k ≤ i := Nat.not_lt.1 fun hlt => hmin i hlt hwi
      have hlow := Nat.lt_of_le_of_lt hki ((hiff i hwi).1 hi)
      exact ⟨hasBit_and.2 ⟨hk, (hiff k hk).2 hlow⟩, fun j hj hboth => hmin j hj (hasBit_and.1 hboth).1⟩
  window i hi := by
    obtain ⟨hw, hmask⟩ := hasBit_and.1 hi
    obtain ⟨hle, hlt⟩ := h.window i hw
    exact ⟨hle, (hm.hasBit_iff ho hstart hw.lt hle hlt).1 hmask⟩

/-- The window of one bit that the word has. -/
theorem Narrowed.isLowest (h : Narrowed word w start 1) (hne : word ≠ 0) : IsLowest word start := by
  obtain ⟨k, hk⟩ := exists_isLowest hne
  have hw := h.window k ((h.isLowest_iff k).2 hk).1
  obtain rfl : k = start := by omega
  exact hk

end Cube.Lib
