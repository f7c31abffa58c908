import Cube.Lib.Block
import Cube.Lib.LowBit

/-!
# The lowest bit of an array

`Getlowestbit` (`memfunc.c`) looks for the lowest bit of a value in an array of bytes,
by words of 64 bits. The last word is filled up with zeros, which are taken for bits of
the array when a bit that is 0 is looked for.

* `getLowestBit_eq`: the lowest bit of a word is found.
* `getlowestbit_found`, `getlowestbit_none`: what is found in an array, in terms of its
  bits and the zeros behind them.
* `findsLowest_iff`: when the answer is right.
-/

namespace Cube.Text

open Lib

/-- The masks of `_get_lowest_bit`. -/
def lowestBitMasks : List Int64 :=
  [0x00000000FFFFFFFF, 0x0000FFFF0000FFFF, 0x00FF00FF00FF00FF, 0x0F0F0F0F0F0F0F0F,
    0x3333333333333333, 0x5555555555555555]

/-- A round of `_get_lowest_bit`: its `value`, `ret` and `offset`. -/
def lowestBitRound (s : Int64 × Nat × Nat) (mask : Int64) : Int64 × Nat × Nat :=
  let (value, ret, offset) := s
  if mask &&& value = 0 then (value, ret + offset, offset / 2)
  else (value &&& mask, ret, offset / 2)

/-- `_get_lowest_bit`. -/
def getLowestBit (value : Int64) : Nat :=
  if value = 0 then 0
  else (lowestBitMasks.foldl lowestBitRound (value, 0, 32)).2.1 + 1

/-- `n` bytes of the array, as the low bytes of a word that is zero otherwise. -/
def lowBytes (addr : List UInt8) (i n : Nat) : Outcome Int64 := do
  let bytes ← fetch addr i n
  pure (Int64.ofNat (leNat bytes))

/-- The word in which a bit that is set is looked for. It is zero if `test` is 0, or
    -1 when a bit that is 0 is looked for. -/
def probe (bit : Bool) (test : Int64) : Int64 := if bit then test else ~~~test

/-- An `int` of that value. -/
def asInt (n : Nat) : Outcome Nat := if n < 2 ^ 31 then .done n else .fault

/-- The loop of `Getlowestbit` over the words from the byte `i` on, of which there are
    as many as the first argument says. That `i` stays an `int` is known from `ret`,
    which is `8 * i`. -/
def lowestBitLoop (addr : List UInt8) (size : Nat) (bit : Bool) : Nat → Nat → Nat → Outcome Nat
  | 0, _, _ => .done 0
  | words + 1, i, ret => do
    let test ← lowBytes addr i (if i + 8 > size then size - i else 8)
    if probe bit test = 0 then
      let ret ← asInt (ret + 64)
      lowestBitLoop addr size bit words (i + 8) ret
    else asInt (ret + getLowestBit (probe bit test))

/-- `Getlowestbit`. -/
def getlowestbit (addr : List UInt8) (size : Int) (bit : Bool) : Outcome Nat :=
  if size ≤ 0 then .done 0
  else if size ≤ 8 then do
    let test ← lowBytes addr 0 size.toNat
    pure (getLowestBit (probe bit test))
  else lowestBitLoop addr size.toNat bit ((size.toNat + 7) / 8) 0 0

/-! ## What is looked for -/

/-- A bit of an array, counted from the lowest one of the first byte. -/
def bitAt (addr : List UInt8) (k : Nat) : Bool := ((addr.getD (k / 8) 0).toNat).testBit (k % 8)

/-- The answer is one more than the number of the first bit of that value among the bits
    of the first `size` bytes, and 0 if there is none. -/
def FindsLowest (addr : List UInt8) (size : Int) (bit : Bool) (answer : Outcome Nat) : Prop :=
  (∃ k : Nat, (k < 8 * size ∧ bitAt addr k = bit) ∧
      (∀ j < k, ¬ bitAt addr j = bit) ∧ answer = .done (k + 1)) ∨
    (∀ k : Nat, k < 8 * size → ¬ bitAt addr k = bit) ∧ answer = .done 0

/-! ## A word -/

/-- The masks halve windows of half the size each, down to one bit. -/
def Halving : List Int64 → Prop
  | [] => True
  | mask :: masks => Halves mask (2 ^ masks.length) ∧ Halving masks

theorem halving_masks : Halving lowestBitMasks := by
  refine ⟨?_, ?_, ?_, ?_, ?_, ?_, trivial⟩ <;> decide +kernel

/-- The rounds narrow a window down to the lowest bit. -/
theorem isLowest_rounds {word w : Int64} {start : Nat} {masks : List Int64} (hm : Halving masks)
    (h : Narrowed word w start (2 ^ masks.length)) (hstart : 2 ^ masks.length ∣ start)
    (hne : word ≠ 0) :
    IsLowest word (masks.foldl lowestBitRound (w, start, 2 ^ masks.length / 2)).2.1 := by
  induction masks generalizing w start with
  | nil => exact h.isLowest hne
  | cons mask masks ih =>
    have ho : 0 < 2 ^ masks.length := Nat.two_pow_pos _
    have hwidth : 2 ^ (mask :: masks).length = 2 * 2 ^ masks.length := Nat.pow_succ'
    rw [hwidth] at h hstart ⊢
    rw [List.foldl_cons, Nat.mul_div_cancel_left _ (by decide), lowestBitRound]
    have hdvd : 2 ^ masks.length ∣ start := Nat.dvd_trans (Nat.dvd_mul_left _ 2) hstart
    by_cases hzero : mask &&& w = 0
    · simp only [if_pos hzero]
      exact ih hm.2 (h.high hm.1 ho hstart hzero) (Nat.dvd_add hdvd (Nat.dvd_refl _))
    · simp only [if_neg hzero]
      exact ih hm.2 (h.low hm.1 ho hstart hzero) hdvd

/-- The lowest bit of a word is found. -/
theorem getLowestBit_eq {value : Int64} {k : Nat} (h : IsLowest value k) :
    getLowestBit value = k + 1 := by
  have hne : value ≠ 0 := by
    rintro rfl
    exact not_hasBit_zero h.1
  rw [getLowestBit, if_neg hne]
  exact congrArg (· + 1) ((isLowest_rounds halving_masks (narrowed_all value) ⟨0, rfl⟩ hne).unique h)

@[simp] theorem getLowestBit_zero : getLowestBit 0 = 0 := if_pos rfl

/-! ## The bits of an array -/

/-- The bits of a number are those of its bytes. -/
theorem testBit_leNat (l : List UInt8) (j : Nat) : (leNat l).testBit j = bitAt l j := by
  induction l generalizing j with
  | nil => simp [leNat, bitAt]
  | cons b l ih =>
    have hb : b.toNat < 2 ^ 8 := b.toNat_lt
    rw [leNat, Nat.add_comm, show 256 = 2 ^ 8 from rfl, Nat.testBit_two_pow_mul_add _ hb, bitAt]
    by_cases hj : j < 8
    · rw [if_pos hj, Nat.div_eq_of_lt hj, Nat.mod_eq_of_lt hj]
      rfl
    · obtain ⟨i, rfl⟩ := Nat.exists_eq_add_of_le (Nat.not_lt.1 hj)
      rw [if_neg hj, Nat.add_sub_cancel_left, ih, bitAt, Nat.add_mod_left, Nat.add_comm,
        Nat.add_div_right _ (by decide)]
      rfl

/-- A bit of the first `size` bytes, and 0 behind them. -/
def padded (addr : List UInt8) (size k : Nat) : Bool := decide (k < 8 * size) && bitAt addr k

variable {addr : List UInt8} {size i n k words : Nat} {bit : Bool}

theorem bitAt_slice (j : Nat) :
    bitAt (slice addr i (i + n)) j = (decide (j < 8 * n) && bitAt addr (8 * i + j)) := by
  have hdiv : (8 * i + j) / 8 = i + j / 8 := by omega
  have hmod : (8 * i + j) % 8 = j % 8 := by omega
  rw [bitAt, bitAt, hdiv, hmod, List.getD_eq_getElem?_getD, getElem?_slice, Nat.add_sub_cancel_left]
  by_cases hj : j < 8 * n
  · rw [if_pos (by omega), decide_eq_true hj, Bool.true_and, List.getD_eq_getElem?_getD]
  · rw [if_neg (by omega), decide_eq_false hj, Bool.false_and]
    simp

/-- The word at a byte of the array has the bits from there on, and zeros if there are
    not as many. -/
theorem lowBytes_probe (hsize : size ≤ addr.length) (bit : Bool)
    (hn : n = 8 ∧ i + 8 ≤ size ∨ n ≤ 8 ∧ i + n = size) :
    ∃ test, lowBytes addr i n = .done test ∧
      ∀ j, HasBit (probe bit test) j ↔ j < 64 ∧ padded addr size (8 * i + j) = bit := by
  have hfetch : fetch addr i n = .done (slice addr i (i + n)) := if_pos (by omega)
  refine ⟨Int64.ofNat (leNat (slice addr i (i + n))), by rw [lowBytes, hfetch]; rfl, fun j => ?_⟩
  have hbit : HasBit (Int64.ofNat (leNat (slice addr i (i + n)))) j ↔
      j < 64 ∧ padded addr size (8 * i + j) = true := by
    have hword : HasBit (Int64.ofNat (leNat (slice addr i (i + n)))) j ↔
        j < 64 ∧ (leNat (slice addr i (i + n))).testBit j = true := by
      simp [HasBit, Int64.toBitVec_ofNat', BitVec.getLsbD_ofNat]
    rw [hword, testBit_leNat, bitAt_slice, padded]
    refine and_congr_right fun hj => ?_
    have hin : j < 8 * n ↔ 8 * i + j < 8 * size := by omega
    simp only [hin]
  cases bit with
  | true => exact hbit
  | false =>
    rw [probe, if_neg Bool.false_ne_true, hasBit_complement, hbit, Bool.eq_false_iff]
    grind

/-- A value the word is looked through for is found at its first place. -/
theorem getLowestBit_probe {test : Int64}
    (htest : ∀ j, HasBit (probe bit test) j ↔ j < 64 ∧ padded addr size (8 * i + j) = bit)
    (hle : 8 * i ≤ k) (hlt : k < 8 * i + 64) (hk : padded addr size k = bit)
    (hmin : ∀ j, 8 * i ≤ j → j < k → ¬ padded addr size j = bit) :
    probe bit test ≠ 0 ∧ 8 * i + getLowestBit (probe bit test) = k + 1 := by
  obtain ⟨j, rfl⟩ := Nat.exists_eq_add_of_le hle
  have hj : IsLowest (probe bit test) j := by
    refine ⟨(htest j).2 ⟨by omega, hk⟩, fun l hl hbit => ?_⟩
    exact hmin (8 * i + l) (Nat.le_add_right _ _) (by omega) ((htest l).1 hbit).2
  refine ⟨fun hzero => not_hasBit_zero (hzero ▸ hj.1), ?_⟩
  rw [getLowestBit_eq hj, Nat.add_assoc]

theorem probe_eq_zero {test : Int64}
    (htest : ∀ j, HasBit (probe bit test) j ↔ j < 64 ∧ padded addr size (8 * i + j) = bit)
    (hnone : ∀ j, 8 * i ≤ j → j < 8 * i + 64 → ¬ padded addr size j = bit) :
    probe bit test = 0 := by
  refine hasBit_ext fun j => iff_of_false (fun hj => ?_) not_hasBit_zero
  obtain ⟨hlt, hbit⟩ := (htest j).1 hj
  exact hnone _ (Nat.le_add_right _ _) (by omega) hbit

/-! ## The loop -/

/-- Where the loop is: at a byte of the array, with the words left that it takes. -/
structure AtWord (size i words : Nat) : Prop where
  le_size : i ≤ size
  words_eq : words = (size - i + 7) / 8

/-- The bytes of the next word. -/
theorem AtWord.bytes (h : AtWord size i (words + 1)) :
    (if i + 8 > size then size - i else 8) = 8 ∧ i + 8 ≤ size ∨
      (if i + 8 > size then size - i else 8) ≤ 8 ∧
        i + (if i + 8 > size then size - i else 8) = size := by
  have := h.le_size
  split <;> omega

theorem asInt_fault (h : 2 ^ 31 ≤ n) : asInt n = .fault := if_neg (Nat.not_lt.2 h)

/-- The loop comes to the first place of the value, if it can be counted up to there. -/
theorem lowestBitLoop_found (hsize : size ≤ addr.length) (h : AtWord size i words)
    (hle : 8 * i ≤ k) (hlt : k < 8 * i + 64 * words) (hk : padded addr size k = bit)
    (hmin : ∀ j, 8 * i ≤ j → j < k → ¬ padded addr size j = bit) :
    lowestBitLoop addr size bit words i (8 * i) = asInt (k + 1) := by
  induction words generalizing i with
  | zero => omega
  | succ words ih =>
    obtain ⟨test, hload, htest⟩ := lowBytes_probe hsize bit h.bytes
    rw [lowestBitLoop, hload, Outcome.done_bind]
    by_cases hword : k < 8 * i + 64
    · obtain ⟨hne, hret⟩ := getLowestBit_probe htest hle hword hk hmin
      rw [if_neg hne, hret]
    · have hzero := probe_eq_zero htest fun j hj hlt => hmin j hj (by omega)
      rw [if_pos hzero]
      by_cases hret : 8 * i + 64 < 2 ^ 31
      · have hnext : AtWord size (i + 8) words := by
          have := h.words_eq
          exact ⟨by omega, by omega⟩
        rw [asInt, if_pos hret, Outcome.done_bind]
        exact ih hnext (by omega) (by omega) fun j hj hlt => hmin j (by omega) hlt
      · rw [asInt_fault (Nat.not_lt.1 hret), asInt_fault (by omega), Outcome.fault_bind]

/-- Without the value, the loop ends if all the bits can be counted. -/
theorem lowestBitLoop_none (hsize : size ≤ addr.length) (h : AtWord size i words)
    (hnone : ∀ j, 8 * i ≤ j → j < 8 * i + 64 * words → ¬ padded addr size j = bit) :
    lowestBitLoop addr size bit words i (8 * i) =
      if words = 0 ∨ 8 * i + 64 * words < 2 ^ 31 then .done 0 else .fault := by
  induction words generalizing i with
  | zero => rw [lowestBitLoop, if_pos (.inl rfl)]
  | succ words ih =>
    obtain ⟨test, hload, htest⟩ := lowBytes_probe hsize bit h.bytes
    have hzero := probe_eq_zero htest fun j hj hlt => hnone j hj (by omega)
    rw [lowestBitLoop, hload, Outcome.done_bind, if_pos hzero]
    by_cases hret : 8 * i + 64 < 2 ^ 31
    · have hnext : words = 0 ∨ AtWord size (i + 8) words := by
        have := h.words_eq
        by_cases hw : words = 0
        · exact .inl hw
        · exact .inr ⟨by omega, by omega⟩
      rw [asInt, if_pos hret, Outcome.done_bind]
      rcases hnext with rfl | hnext
      · rw [lowestBitLoop, if_pos (by omega)]
      · rw [show 8 * i + 64 = 8 * (i + 8) by omega, ih hnext fun j hj hlt => hnone j (by omega) (by omega)]
        have := h.words_eq
        congr 1
        refine propext ?_
        omega
    · rw [asInt_fault (Nat.not_lt.1 hret), Outcome.fault_bind, if_neg (by omega)]

/-! ## An array -/

/-- The first place of the value is found, if it can be counted up to there. -/
theorem getlowestbit_found (hsize : size ≤ addr.length) (hlt : k < 64 * ((size + 7) / 8))
    (hk : padded addr size k = bit) (hmin : ∀ j < k, ¬ padded addr size j = bit) :
    getlowestbit addr size bit = asInt (k + 1) := by
  rw [getlowestbit, if_neg (by omega), Int.toNat_natCast]
  by_cases h8 : size ≤ 8
  · obtain ⟨test, hload, htest⟩ := lowBytes_probe (i := 0) hsize bit (.inr ⟨h8, Nat.zero_add size⟩)
    obtain ⟨-, hret⟩ := getLowestBit_probe htest (Nat.zero_le k) (by omega) hk
      fun j _ hj => hmin j hj
    rw [if_pos (by omega), hload, Outcome.done_bind, asInt, if_pos (by omega), ← hret, Nat.mul_zero,
      Nat.zero_add]
    rfl
  · rw [if_neg (by omega)]
    exact lowestBitLoop_found (i := 0) hsize ⟨Nat.zero_le _, rfl⟩ (Nat.zero_le k) (by omega) hk
      fun j _ hj => hmin j hj

/-- Without the value, 0 is returned if all the bits can be counted. -/
theorem getlowestbit_none (hsize : size ≤ addr.length)
    (hnone : ∀ j < 64 * ((size + 7) / 8), ¬ padded addr size j = bit) :
    getlowestbit addr size bit =
      if 64 * ((size + 7) / 8) < 2 ^ 31 then .done 0 else .fault := by
  rw [getlowestbit, Int.toNat_natCast]
  by_cases hzero : size = 0
  · rw [if_pos (by omega), if_pos (by omega)]
  rw [if_neg (by omega)]
  by_cases h8 : size ≤ 8
  · obtain ⟨test, hload, htest⟩ := lowBytes_probe (i := 0) hsize bit (.inr ⟨h8, Nat.zero_add size⟩)
    have hprobe := probe_eq_zero htest fun j _ hj => hnone j (by omega)
    rw [if_pos (by omega), hload, Outcome.done_bind, hprobe, if_pos (by omega)]
    rfl
  · rw [if_neg (by omega)]
    have hloop := lowestBitLoop_none hsize (i := 0) ⟨Nat.zero_le _, rfl⟩
      fun j _ hj => hnone j (by omega)
    rw [Nat.mul_zero, Nat.zero_add, Nat.sub_zero] at hloop
    rw [hloop]
    congr 1
    refine propext ?_
    omega

theorem padded_eq (hk : k < 8 * size) : padded addr size k = bitAt addr k := by
  rw [padded, decide_eq_true hk, Bool.true_and]

theorem padded_behind (hk : 8 * size ≤ k) : padded addr size k = false := by
  rw [padded, decide_eq_false (Nat.not_lt.2 hk), Bool.false_and]

/-- With the value at a first place, this place is the right answer. -/
theorem findsLowest_found {answer : Outcome Nat} (hlt : k < 8 * size) (hk : bitAt addr k = bit)
    (hmin : ∀ j < k, ¬ bitAt addr j = bit) :
    FindsLowest addr size bit answer ↔ answer = .done (k + 1) := by
  constructor
  · rintro (⟨j, ⟨-, hj⟩, hjmin, rfl⟩ | ⟨hnone, -⟩)
    · obtain rfl : j = k :=
        Nat.le_antisymm (Nat.not_lt.1 fun h => hjmin k h hk) (Nat.not_lt.1 fun h => hmin j h hj)
      rfl
    · exact absurd hk (hnone k (by omega))
  · rintro rfl
    exact .inl ⟨k, ⟨by omega, hk⟩, hmin, rfl⟩

theorem findsLowest_none {answer : Outcome Nat} (hnone : ∀ k < 8 * size, ¬ bitAt addr k = bit) :
    FindsLowest addr size bit answer ↔ answer = .done 0 := by
  constructor
  · rintro (⟨j, ⟨hlt, hj⟩, -, -⟩ | ⟨-, h⟩)
    · exact absurd hj (hnone j (by omega))
    · exact h
  · rintro rfl
    exact .inr ⟨fun k hk => hnone k (by omega), rfl⟩

/-- The zeros behind the last byte are taken for bits of the array. -/
theorem not_findsLowest_padded (hsize : size ≤ addr.length) (hmod : size % 8 ≠ 0)
    (hnone : ∀ k < 8 * size, ¬ bitAt addr k = false) :
    ¬ FindsLowest addr size false (getlowestbit addr size false) := by
  have hfound := getlowestbit_found (k := 8 * size) hsize (by omega) (padded_behind le_rfl)
    fun j hj => by rw [padded_eq hj]; exact hnone j hj
  rw [findsLowest_none hnone, hfound, asInt]
  split
  · intro h
    have := Outcome.done.inj h
    omega
  · exact nofun

/-- The answer is right exactly if the value is among the bits that an `int` counts, or
    all the words are counted by an `int` and no word is filled up with zeros that are
    looked for. -/
theorem findsLowest_iff {addr : List UInt8} {size : Int} (hsize : size ≤ addr.length) (bit : Bool) :
    FindsLowest addr size bit (getlowestbit addr size bit) ↔
      (∃ k : Nat, k < 8 * size ∧ k + 1 < 2 ^ 31 ∧ bitAt addr k = bit) ∨
        size ≤ 2 ^ 28 - 8 ∧ (size ≤ 0 ∨ bit = true ∨ size % 8 = 0) := by
  classical
  by_cases hpos : 0 < size
  swap
  · refine iff_of_true (.inr ⟨fun k hk => absurd hk (by omega), ?_⟩) (.inr ⟨by omega, .inl (by omega)⟩)
    rw [getlowestbit, if_pos (Int.not_lt.1 hpos)]
  obtain ⟨n, rfl⟩ := Int.eq_ofNat_of_zero_le (Int.le_of_lt hpos)
  have hn : n ≤ addr.length := by omega
  by_cases hfound : ∃ k, k < 8 * n ∧ bitAt addr k = bit
  · -- The first place of the value is the first one in the words too.
    obtain ⟨hlt, hk⟩ := Nat.find_spec hfound
    have hmin : ∀ j < Nat.find hfound, ¬ bitAt addr j = bit := fun j hj hbit =>
      Nat.find_min hfound hj ⟨Nat.lt_trans hj hlt, hbit⟩
    have hpad : ∀ j < Nat.find hfound, ¬ padded addr n j = bit := fun j hj => by
      rw [padded_eq (Nat.lt_trans hj hlt)]
      exact hmin j hj
    rw [findsLowest_found hlt hk hmin,
      getlowestbit_found hn (by omega) (by rw [padded_eq hlt]; exact hk) hpad, asInt]
    by_cases hcount : Nat.find hfound + 1 < 2 ^ 31
    · rw [if_pos hcount]
      exact iff_of_true rfl (.inl ⟨_, by omega, hcount, hk⟩)
    · rw [if_neg hcount]
      refine iff_of_false nofun ?_
      rintro (⟨k, hklt, hk31, hbit⟩ | ⟨hle, -⟩)
      · have := Nat.find_min' hfound ⟨by omega, hbit⟩
        omega
      · omega
  · have hnone : ∀ k < 8 * n, ¬ bitAt addr k = bit := fun k hk hbit => hfound ⟨k, hk, hbit⟩
    have hcond : ((∃ k : Nat, k < 8 * (n : Int) ∧ k + 1 < 2 ^ 31 ∧ bitAt addr k = bit) ∨
        (n : Int) ≤ 2 ^ 28 - 8 ∧ ((n : Int) ≤ 0 ∨ bit = true ∨ (n : Int) % 8 = 0)) ↔
        64 * ((n + 7) / 8) < 2 ^ 31 ∧ (bit = true ∨ n % 8 = 0) := by
      constructor
      · rintro (⟨k, hk, -, hbit⟩ | ⟨hle, h⟩)
        · exact absurd hbit (hnone k (by omega))
        · exact ⟨by omega, h.elim (fun h => absurd h (by omega)) fun h => h.imp id (by omega)⟩
      · rintro ⟨hle, h⟩
        exact .inr ⟨by omega, .inr (h.imp id (by omega))⟩
    rw [hcond]
    by_cases hfill : bit = true ∨ n % 8 = 0
    · have hpad : ∀ j < 64 * ((n + 7) / 8), ¬ padded addr n j = bit := by
        intro j hj
        by_cases hin : j < 8 * n
        · rw [padded_eq hin]
          exact hnone j hin
        · have hbit : bit = true := hfill.elim id fun h => absurd hj (by omega)
          rw [padded_behind (Nat.not_lt.1 hin), hbit]
          exact Bool.false_ne_true
      rw [findsLowest_none hnone, getlowestbit_none hn hpad]
      split
      next h => exact iff_of_true rfl ⟨h, hfill⟩
      next h => exact iff_of_false nofun fun hc => h hc.1
    · obtain ⟨hbit, hmod⟩ := not_or.1 hfill
      obtain rfl : bit = false := Bool.eq_false_iff.2 hbit
      exact iff_of_false (not_findsLowest_padded hn hmod hnone) fun h => hfill h.2

theorem findsLowest_three :
    FindsLowest [0xff, 0xfb, 0xff] 3 false (getlowestbit [0xff, 0xfb, 0xff] 3 false) :=
  (findsLowest_iff (by decide) false).2 (.inl ⟨10, by decide, by decide, by decide⟩)

/-- Of a byte without a 0, the bit behind it is returned. -/
theorem not_findsLowest_byte : ¬ FindsLowest [0xff] 1 false (getlowestbit [0xff] 1 false) := by
  have hnine : getlowestbit [0xff] 1 false = .done 9 := by decide +kernel
  rw [hnine]
  rintro (⟨k, ⟨hlt, -⟩, -, heq⟩ | ⟨-, heq⟩)
  · have := Outcome.done.inj heq
    omega
  · cases heq

end Cube.Text
