import Mathlib

/-!
# Flags in a word

A word carries a flag if they have a bit in common. `|=` sets the flag and `&= ~` clears
it. A word of 64 bits is a set of at most 64 numbers (`HasBit`), of which a flag of one bit
adds or removes one.
-/

namespace Cube.Lib

/-- The word has a bit of the flag. -/
def Carries (word flag : Int32) : Prop := word &&& flag ≠ 0

instance (word flag : Int32) : Decidable (Carries word flag) :=
  inferInstanceAs (Decidable (_ ≠ _))

/-- The words have the same bits but for those of the flag. -/
def SameBut (flag word word' : Int32) : Prop := word &&& ~~~flag = word' &&& ~~~flag

variable {word flag : Int32}

theorem set_and_self (word flag : Int32) : (word ||| flag) &&& flag = flag := by
  refine Int32.toBitVec_inj.1 (BitVec.eq_of_getLsbD_eq fun i hi => ?_)
  simp only [Int32.toBitVec_and, Int32.toBitVec_or, BitVec.getLsbD_and, BitVec.getLsbD_or]
  cases flag.toBitVec.getLsbD i <;> simp

theorem clear_and_self (word flag : Int32) : word &&& ~~~flag &&& flag = 0 := by
  refine Int32.toBitVec_inj.1 (BitVec.eq_of_getLsbD_eq fun i hi => ?_)
  simp only [Int32.toBitVec_and, Int32.toBitVec_not, BitVec.getLsbD_and, BitVec.getLsbD_not]
  cases flag.toBitVec.getLsbD i <;> simp

/-- No word carries a flag without bits. -/
theorem not_carries_zero (word : Int32) : ¬ Carries word 0 := by
  simp [Carries]

theorem carries_set (hflag : flag ≠ 0) (word : Int32) : Carries (word ||| flag) flag := by
  rwa [Carries, set_and_self]

theorem Carries.ne_zero (h : Carries word flag) : flag ≠ 0 := by
  rintro rfl
  exact not_carries_zero word h

/-- A word that carries the flag carries it after it is set. -/
theorem Carries.set (h : Carries word flag) : Carries (word ||| flag) flag :=
  carries_set h.ne_zero word

theorem not_carries_clear (word flag : Int32) : ¬ Carries (word &&& ~~~flag) flag :=
  fun h => h (clear_and_self word flag)

/-- Clearing a flag leaves the other bits. -/
theorem sameBut_clear (word flag : Int32) : SameBut flag (word &&& ~~~flag) word := by
  rw [SameBut, Int32.and_assoc, Int32.and_self]

theorem SameBut.refl (flag word : Int32) : SameBut flag word word := rfl

/-! ## Bits of a word -/

/-- The bit of that number is set in the word. -/
def HasBit (word : Int64) (i : Nat) : Prop := word.toBitVec.getLsbD i = true

variable {a b : Int64} {i : Nat}

@[simp] theorem not_hasBit_zero : ¬ HasBit 0 i := by simp [HasBit]

@[simp] theorem hasBit_or : HasBit (a ||| b) i ↔ HasBit a i ∨ HasBit b i := by
  simp [HasBit]

/-- A word has no bits beyond its width. -/
theorem HasBit.lt (h : HasBit a i) : i < 64 := BitVec.lt_of_getLsbD h

@[simp] theorem hasBit_and_not : HasBit (a &&& ~~~b) i ↔ HasBit a i ∧ ¬ HasBit b i := by
  constructor
  · intro h
    have hi := h.lt
    simpa [HasBit, hi] using h
  · rintro ⟨ha, hb⟩
    have hi := ha.lt
    simpa [HasBit, hi] using And.intro ha hb

/-- The complement of a word has the bits that the word does not have. -/
theorem hasBit_complement : HasBit (~~~a) i ↔ i < 64 ∧ ¬ HasBit a i := by
  simp [HasBit]

/-- Words with the same bits are the same. -/
theorem hasBit_ext (h : ∀ i, HasBit a i ↔ HasBit b i) : a = b :=
  Int64.toBitVec_inj.1 (BitVec.eq_of_getLsbD_eq fun i _ => Bool.eq_iff_iff.2 (h i))

/-- Words have a bit in common exactly if their meet is not zero. -/
theorem and_ne_zero_iff : a &&& b ≠ 0 ↔ ∃ i, HasBit a i ∧ HasBit b i := by
  constructor
  · intro h
    refine Classical.byContradiction fun hnone => h (hasBit_ext fun i => ?_)
    refine iff_of_false (fun hi => ?_) not_hasBit_zero
    have hboth : HasBit a i ∧ HasBit b i := by simpa [HasBit] using hi
    exact hnone ⟨i, hboth⟩
  · rintro ⟨i, ha, hb⟩ hzero
    have hi : HasBit (a &&& b) i := by simpa [HasBit] using And.intro ha hb
    rw [hzero] at hi
    exact not_hasBit_zero hi

end Cube.Lib
