import Cube.Lib.Outcome

/-!
# Bytes as radix-64 text

Three bytes are carried as four characters of six bits each (`radix64.c`); one or two
bytes that are left take two or three characters, whose last bits are not used. The
characters are looked up in a table, which ends with the pad character `=`.

* `octets_sextets`, `sextets_octets`: the groups of both directions are inverse;
* `radix64ToBin_map`, `radix64ToBin_invalid`: the characters that the reader takes;
* `radix64_roundTrip`: what is written is read back, and the lengths agree;
* `radix64ToBin_readsRight_iff`: the texts that are read, and those that are written.
-/

namespace Cube.Crypto

open Lib

/-! ## Writing -/

/-- `radix64_tab`. -/
def radix64Tab : List Char :=
  ['A', 'B', 'C', 'D', 'E', 'F', 'G', 'H', 'I', 'J', 'K', 'L', 'M',
   'N', 'O', 'P', 'Q', 'R', 'S', 'T', 'U', 'V', 'W', 'X', 'Y', 'Z',
   'a', 'b', 'c', 'd', 'e', 'f', 'g', 'h', 'i', 'j', 'k', 'l', 'm',
   'n', 'o', 'p', 'q', 'r', 's', 't', 'u', 'v', 'w', 'x', 'y', 'z',
   '0', '1', '2', '3', '4', '5', '6', '7', '8', '9', '+', '/', '=']

/-- The character of an index of the table. -/
def tabChar (index : UInt8) : UInt8 := (radix64Tab.getD index.toNat '\x00').toUInt8

/-- The first loop of `bin_to_radix64`: the bytes as numbers of six bits. -/
def sextets : List UInt8 → List UInt8
  | [] => []
  | [a] => [a >>> 2, (a % 4) <<< 4]
  | [a, b] => [a >>> 2, (a % 4) <<< 4 + b >>> 4, (b % 16) <<< 2]
  | a :: b :: c :: bin =>
    a >>> 2 :: ((a % 4) <<< 4 + b >>> 4) :: ((b % 16) <<< 2 + c >>> 6) :: c % 64 :: sextets bin

/-- `bin_to_radix64`: what it returns and the characters it writes. -/
def binToRadix64 (bin : List UInt8) : Int × List UInt8 :=
  ((sextets bin).length, (sextets bin).map tabChar ++ [0])

/-- `bin_to_radix64_len`. The product overflows for long binaries. -/
def binToRadix64Len (length : Int) : Outcome Int :=
  if length * 4 + 2 < 2 ^ 31 then .done ((length * 4 + 2).tdiv 3) else .fault

/-! ## Reading -/

/-- `bin_from_radix64_char`. The pad character has the number after the last one of six
    bits. -/
def binFromRadix64Char (radix64 : UInt8) : UInt8 :=
  if 'A'.toUInt8 ≤ radix64 ∧ radix64 ≤ 'Z'.toUInt8 then radix64 - 'A'.toUInt8
  else if 'a'.toUInt8 ≤ radix64 ∧ radix64 ≤ 'z'.toUInt8 then radix64 - 'a'.toUInt8 + 26
  else if '0'.toUInt8 ≤ radix64 ∧ radix64 ≤ '9'.toUInt8 then radix64 - '0'.toUInt8 + 26 * 2
  else if radix64 = '+'.toUInt8 then 62
  else if radix64 = '/'.toUInt8 then 63
  else if radix64 = '='.toUInt8 then 64
  else 0xFF

/-- The first byte of a group, from the numbers of its characters. -/
def binBuffer0 (t0 t1 : UInt8) : UInt8 := t0 <<< 2 + t1 >>> 4

/-- The second byte of a group. -/
def binBuffer1 (t1 t2 : UInt8) : UInt8 := t1 <<< 4 + t2 >>> 2

/-- The third byte of a group. -/
def binBuffer2 (t2 t3 : UInt8) : UInt8 := t2 <<< 6 + t3

/-- The loop of `radix64_to_bin` over the groups of four characters, with what has been
    written so far: the value returned and the bytes. -/
def radix64Loop (length : Nat) : List UInt8 → List UInt8 → Outcome (Int × List UInt8)
  | bin, [] => .done (length / 4 * 3, bin)
  -- The number of a second character would be used without being set.
  | _, [_] => .fault
  | bin, [c0, c1] =>
    let t0 := binFromRadix64Char c0
    let t1 := binFromRadix64Char c1
    if t0 = 0xFF ∨ t1 = 0xFF then .error (-EINVAL)
    else .done (length / 4 * 3 + 1, bin ++ [binBuffer0 t0 t1])
  | bin, [c0, c1, c2] =>
    let t0 := binFromRadix64Char c0
    let t1 := binFromRadix64Char c1
    let t2 := binFromRadix64Char c2
    if t0 = 0xFF ∨ t1 = 0xFF ∨ t2 = 0xFF then .error (-EINVAL)
    else .done (length / 4 * 3 + 2, bin ++ [binBuffer0 t0 t1, binBuffer1 t1 t2])
  | bin, c0 :: c1 :: c2 :: c3 :: radix64 =>
    let t0 := binFromRadix64Char c0
    let t1 := binFromRadix64Char c1
    let t2 := binFromRadix64Char c2
    let t3 := binFromRadix64Char c3
    if t0 = 0xFF ∨ t1 = 0xFF ∨ t2 = 0xFF ∨ t3 = 0xFF then .error (-EINVAL)
    else radix64Loop length (bin ++ [binBuffer0 t0 t1, binBuffer1 t1 t2, binBuffer2 t2 t3]) radix64

/-- `radix64_to_bin`: what it returns and the bytes it writes. -/
def radix64ToBin (radix64 : List UInt8) : Outcome (Int × List UInt8) :=
  if radix64.length % 4 = 1 then .error (-EINVAL) else radix64Loop radix64.length [] radix64

/-- `radix_to_bin_len`. -/
def radixToBinLen (length : Int) : Int :=
  if length.tmod 4 = 1 then -EINVAL
  else if length.tmod 4 = 0 then length.tdiv 4 * 3
  else length.tdiv 4 * 3 + length.tmod 4 - 1

/-! ## Groups -/

/-- The bytes of the numbers of six bits. -/
def octets : List UInt8 → List UInt8
  | [] => []
  | [_] => []
  | [t0, t1] => [binBuffer0 t0 t1]
  | [t0, t1, t2] => [binBuffer0 t0 t1, binBuffer1 t1 t2]
  | t0 :: t1 :: t2 :: t3 :: ts =>
    binBuffer0 t0 t1 :: binBuffer1 t1 t2 :: binBuffer2 t2 t3 :: octets ts

/-- The bits of the last number that are in no byte are zero. -/
def Closed : List UInt8 → Prop
  | [] => True
  | [_] => False
  | [_, t1] => t1 % 16 = 0
  | [_, _, t2] => t2 % 4 = 0
  | _ :: _ :: _ :: _ :: ts => Closed ts

/-! The three bytes of a group are its four numbers in turn: each number of six bits is
made of the end of one byte and the start of the next. -/

theorem sextet_lt (a b : UInt8) : a >>> 2 < 64 ∧ (a % 4) <<< 4 < 64 ∧ (a % 16) <<< 2 < 64 ∧
    a % 64 < 64 ∧ (a % 4) <<< 4 + b >>> 4 < 64 ∧ (a % 16) <<< 2 + b >>> 6 < 64 := by
  have ha := a.toNat_lt
  have hb := b.toNat_lt
  simp only [UInt8.lt_iff_toNat_lt, UInt8.toNat_add, UInt8.toNat_shiftRight,
    UInt8.toNat_shiftLeft, UInt8.toNat_mod, UInt8.reduceToNat, Nat.shiftRight_eq_div_pow,
    Nat.shiftLeft_eq, Nat.reduceMod, Nat.reducePow]
  omega

theorem sextets_lt (bin : List UInt8) : ∀ t ∈ sextets bin, t < 64 := by
  induction bin using sextets.induct with
  | case1 => nofun
  | case2 a =>
    simpa [sextets] using ⟨(sextet_lt a 0).1, (sextet_lt a 0).2.1⟩
  | case3 a b =>
    simpa [sextets] using ⟨(sextet_lt a 0).1, (sextet_lt a b).2.2.2.2.1, (sextet_lt b 0).2.2.1⟩
  | case4 a b c bin ih =>
    intro t ht
    simp only [sextets, List.mem_cons] at ht
    rcases ht with rfl | rfl | rfl | rfl | ht
    · exact (sextet_lt a 0).1
    · exact (sextet_lt a b).2.2.2.2.1
    · exact (sextet_lt b c).2.2.2.2.2
    · exact (sextet_lt c 0).2.2.2.1
    · exact ih t ht

theorem binBuffer0_sextet (a b : UInt8) :
    binBuffer0 (a >>> 2) ((a % 4) <<< 4 + b >>> 4) = a := by
  have ha := a.toNat_lt
  have hb := b.toNat_lt
  simp only [← UInt8.toNat_inj, binBuffer0, UInt8.toNat_add, UInt8.toNat_shiftRight,
    UInt8.toNat_shiftLeft, UInt8.toNat_mod, UInt8.reduceToNat, Nat.shiftRight_eq_div_pow,
    Nat.shiftLeft_eq, Nat.reduceMod, Nat.reducePow]
  omega

theorem binBuffer1_sextet (a b c : UInt8) :
    binBuffer1 ((a % 4) <<< 4 + b >>> 4) ((b % 16) <<< 2 + c >>> 6) = b := by
  have ha := a.toNat_lt
  have hb := b.toNat_lt
  have hc := c.toNat_lt
  simp only [← UInt8.toNat_inj, binBuffer1, UInt8.toNat_add, UInt8.toNat_shiftRight,
    UInt8.toNat_shiftLeft, UInt8.toNat_mod, UInt8.reduceToNat, Nat.shiftRight_eq_div_pow,
    Nat.shiftLeft_eq, Nat.reduceMod, Nat.reducePow]
  omega

theorem binBuffer2_sextet (b c : UInt8) :
    binBuffer2 ((b % 16) <<< 2 + c >>> 6) (c % 64) = c := by
  have hb := b.toNat_lt
  have hc := c.toNat_lt
  simp only [← UInt8.toNat_inj, binBuffer2, UInt8.toNat_add, UInt8.toNat_shiftRight,
    UInt8.toNat_shiftLeft, UInt8.toNat_mod, UInt8.reduceToNat, Nat.shiftRight_eq_div_pow,
    Nat.shiftLeft_eq, Nat.reduceMod, Nat.reducePow]
  omega

/-- The bytes of a binary's numbers are its bytes. -/
theorem octets_sextets (bin : List UInt8) : octets (sextets bin) = bin := by
  -- A byte that is missing at the end counts as zero.
  have hzero (k : UInt8) : (0 : UInt8) >>> k = 0 := by simp
  induction bin using sextets.induct with
  | case1 => rfl
  | case2 a =>
    have h := binBuffer0_sextet a 0
    rw [hzero, UInt8.add_zero] at h
    rw [sextets, octets, h]
  | case3 a b =>
    have h := binBuffer1_sextet a b 0
    rw [hzero, UInt8.add_zero] at h
    rw [sextets, octets, binBuffer0_sextet, h]
  | case4 a b c bin ih =>
    rw [sextets, octets, binBuffer0_sextet, binBuffer1_sextet, binBuffer2_sextet, ih]

theorem sextet_binBuffer {t0 t1 t2 t3 : UInt8} (h0 : t0 < 64) (h1 : t1 < 64) (h2 : t2 < 64)
    (h3 : t3 < 64) :
    binBuffer0 t0 t1 >>> 2 = t0 ∧
    (binBuffer0 t0 t1 % 4) <<< 4 + binBuffer1 t1 t2 >>> 4 = t1 ∧
    (binBuffer1 t1 t2 % 16) <<< 2 + binBuffer2 t2 t3 >>> 6 = t2 ∧
    binBuffer2 t2 t3 % 64 = t3 ∧
    (t1 % 16 = 0 → (binBuffer0 t0 t1 % 4) <<< 4 = t1) ∧
    (t2 % 4 = 0 → (binBuffer1 t1 t2 % 16) <<< 2 = t2) := by
  simp only [UInt8.lt_iff_toNat_lt, UInt8.reduceToNat] at h0 h1 h2 h3
  simp only [← UInt8.toNat_inj, binBuffer0, binBuffer1, binBuffer2, UInt8.toNat_add,
    UInt8.toNat_shiftRight, UInt8.toNat_shiftLeft, UInt8.toNat_mod, UInt8.reduceToNat,
    Nat.shiftRight_eq_div_pow, Nat.shiftLeft_eq, Nat.reduceMod, Nat.reducePow]
  omega

variable {ts radix64 : List UInt8}

/-- The numbers of the bytes of numbers of six bits are these numbers, where no bits are
    lost at the end. -/
theorem sextets_octets (hlt : ∀ t ∈ ts, t < 64) (hclosed : Closed ts) :
    sextets (octets ts) = ts := by
  induction ts using octets.induct with
  | case1 => rfl
  | case2 t => exact hclosed.elim
  | case3 t0 t1 =>
    simp only [List.forall_mem_cons] at hlt
    have h := sextet_binBuffer hlt.1 hlt.2.1 hlt.1 hlt.1
    rw [octets, sextets, h.1, h.2.2.2.2.1 hclosed]
  | case4 t0 t1 t2 =>
    simp only [List.forall_mem_cons] at hlt
    have h := sextet_binBuffer hlt.1 hlt.2.1 hlt.2.2.1 hlt.1
    rw [octets, sextets, h.1, h.2.1, h.2.2.2.2.2 hclosed]
  | case5 t0 t1 t2 t3 ts ih =>
    simp only [List.forall_mem_cons] at hlt
    obtain ⟨h0, h1, h2, h3, hlt⟩ := hlt
    have h := sextet_binBuffer h0 h1 h2 h3
    rw [octets, sextets, h.1, h.2.1, h.2.2.1, h.2.2.2.1, ih hlt hclosed]

/-! ## Lengths -/

/-- There are four numbers to three bytes, and one more than the bytes left over. -/
theorem length_sextets (bin : List UInt8) : (sextets bin).length = (bin.length * 4 + 2) / 3 := by
  induction bin using sextets.induct with
  | case1 => rfl
  | case2 a => simp [sextets]
  | case3 a b => simp [sextets]
  | case4 a b c bin ih =>
    simp only [sextets, List.length_cons, ih]
    omega

theorem length_octets (h : ts.length % 4 ≠ 1) :
    (octets ts).length = ts.length / 4 * 3 + (ts.length % 4 - 1) := by
  induction ts using octets.induct with
  | case1 => rfl
  | case2 t => exact absurd rfl h
  | case3 t0 t1 => simp [octets]
  | case4 t0 t1 t2 => simp [octets]
  | case5 t0 t1 t2 t3 ts ih =>
    simp only [List.length_cons] at h
    simp only [octets, List.length_cons, ih (by omega)]
    omega

/-! ## Characters -/

/-- The characters of the numbers of six bits. -/
def IsRadix64 (c : UInt8) : Prop :=
  ('A'.toUInt8 ≤ c ∧ c ≤ 'Z'.toUInt8) ∨ ('a'.toUInt8 ≤ c ∧ c ≤ 'z'.toUInt8) ∨
    ('0'.toUInt8 ≤ c ∧ c ≤ '9'.toUInt8) ∨ c = '+'.toUInt8 ∨ c = '/'.toUInt8

instance (c : UInt8) : Decidable (IsRadix64 c) := by
  unfold IsRadix64
  infer_instance

/-- Numbers of six bits have characters, from which they are found again. -/
theorem binFromRadix64Char_tabChar {t : UInt8} (ht : t < 64) :
    binFromRadix64Char (tabChar t) = t ∧ IsRadix64 (tabChar t) := by
  have hall : ∀ n < 64, binFromRadix64Char (tabChar (.ofNat n)) = .ofNat n ∧
      IsRadix64 (tabChar (.ofNat n)) := by decide +kernel
  have h := hall t.toNat (UInt8.lt_iff_toNat_lt.1 ht)
  rwa [UInt8.ofNat_toNat] at h

/-- A character of the alphabet has its number; the pad character has one beyond them,
    and any other character is none. -/
theorem binFromRadix64Char_cases (c : UInt8) :
    (IsRadix64 c ∧ binFromRadix64Char c < 64 ∧ tabChar (binFromRadix64Char c) = c) ∨
    (c = '='.toUInt8 ∧ binFromRadix64Char c = 64) ∨
    (¬ IsRadix64 c ∧ c ≠ '='.toUInt8 ∧ binFromRadix64Char c = 0xFF) := by
  have hall : ∀ n < 256,
      (IsRadix64 (.ofNat n) ∧ binFromRadix64Char (.ofNat n) < 64 ∧
        tabChar (binFromRadix64Char (.ofNat n)) = .ofNat n) ∨
      (UInt8.ofNat n = '='.toUInt8 ∧ binFromRadix64Char (.ofNat n) = 64) ∨
      (¬ IsRadix64 (.ofNat n) ∧ UInt8.ofNat n ≠ '='.toUInt8 ∧
        binFromRadix64Char (.ofNat n) = 0xFF) := by decide +kernel
  have h := hall c.toNat c.toNat_lt
  rwa [UInt8.ofNat_toNat] at h

theorem binFromRadix64Char_eq_invalid {c : UInt8} :
    binFromRadix64Char c = 0xFF ↔ ¬ (IsRadix64 c ∨ c = '='.toUInt8) := by
  rcases binFromRadix64Char_cases c with ⟨hc, hlt, -⟩ | ⟨hc, heq⟩ | ⟨hc, hpad, heq⟩
  · refine iff_of_false (fun h => ?_) (not_not.2 (.inl hc))
    rw [h] at hlt
    exact absurd hlt (by decide)
  · exact iff_of_false (by rw [heq]; decide) (not_not.2 (.inr hc))
  · exact iff_of_true heq (not_or.2 ⟨hc, hpad⟩)

/-! ## The reader's loop -/

/-- The characters that have a number. -/
def HasNumber (c : UInt8) : Prop := binFromRadix64Char c ≠ 0xFF

/-- Characters with numbers are read as the bytes of these; the length that is returned
    is that of the whole text. -/
theorem radix64Loop_valid {length : Nat} {bin : List UInt8}
    (hvalid : ∀ c ∈ radix64, HasNumber c) (hlen : radix64.length % 4 ≠ 1)
    (hmod : length % 4 = radix64.length % 4) :
    radix64Loop length bin radix64 =
      .done ((length / 4 * 3 + (length % 4 - 1) : Nat),
        bin ++ octets (radix64.map binFromRadix64Char)) := by
  induction bin, radix64 using radix64Loop.induct with
  | case1 bin => simp [radix64Loop, octets, hmod]
  | case2 bin c => exact absurd rfl hlen
  | case3 bin c0 c1 t0 t1 hbad =>
    simp only [List.forall_mem_cons, HasNumber] at hvalid
    exact absurd hbad (not_or.2 ⟨hvalid.1, hvalid.2.1⟩)
  | case4 bin c0 c1 t0 t1 hgood =>
    simp [radix64Loop, octets, hmod, if_neg hgood, t0, t1]
  | case5 bin c0 c1 c2 t0 t1 t2 hbad =>
    simp only [List.forall_mem_cons, HasNumber] at hvalid
    exact absurd hbad (by simp only [not_or]; exact ⟨hvalid.1, hvalid.2.1, hvalid.2.2.1⟩)
  | case6 bin c0 c1 c2 t0 t1 t2 hgood =>
    simp [radix64Loop, octets, hmod, if_neg hgood, t0, t1, t2]
  | case7 bin c0 c1 c2 c3 radix64 t0 t1 t2 t3 hbad =>
    simp only [List.forall_mem_cons, HasNumber] at hvalid
    exact absurd hbad (by
      simp only [not_or]; exact ⟨hvalid.1, hvalid.2.1, hvalid.2.2.1, hvalid.2.2.2.1⟩)
  | case8 bin c0 c1 c2 c3 radix64 t0 t1 t2 t3 hgood ih =>
    simp only [List.length_cons] at hlen hmod
    simp only [List.forall_mem_cons] at hvalid
    rw [radix64Loop, if_neg hgood, ih hvalid.2.2.2.2 (by omega) (by omega)]
    simp [octets, t0, t1, t2, t3]

/-- Any other character is an error, wherever it is. -/
theorem radix64Loop_invalid {length : Nat} {bin : List UInt8} {c : UInt8}
    (hc : c ∈ radix64) (hbad : ¬ HasNumber c) (hlen : radix64.length % 4 ≠ 1) :
    radix64Loop length bin radix64 = .error (-EINVAL) := by
  rw [HasNumber, not_not] at hbad
  induction bin, radix64 using radix64Loop.induct with
  | case1 bin => cases hc
  | case2 bin c => exact absurd rfl hlen
  | case3 bin c0 c1 t0 t1 h => rw [radix64Loop, if_pos h]
  | case4 bin c0 c1 t0 t1 h =>
    simp only [List.mem_cons, List.not_mem_nil, or_false] at hc
    rcases hc with rfl | rfl
    · exact absurd (.inl hbad) h
    · exact absurd (.inr hbad) h
  | case5 bin c0 c1 c2 t0 t1 t2 h => rw [radix64Loop, if_pos h]
  | case6 bin c0 c1 c2 t0 t1 t2 h =>
    simp only [List.mem_cons, List.not_mem_nil, or_false] at hc
    rcases hc with rfl | rfl | rfl
    · exact absurd (.inl hbad) h
    · exact absurd (.inr (.inl hbad)) h
    · exact absurd (.inr (.inr hbad)) h
  | case7 bin c0 c1 c2 c3 radix64 t0 t1 t2 t3 h => rw [radix64Loop, if_pos h]
  | case8 bin c0 c1 c2 c3 radix64 t0 t1 t2 t3 h ih =>
    rw [radix64Loop, if_neg h]
    simp only [List.length_cons] at hlen
    simp only [List.mem_cons] at hc
    rcases hc with rfl | rfl | rfl | rfl | hc
    · exact absurd (.inl hbad) h
    · exact absurd (.inr (.inl hbad)) h
    · exact absurd (.inr (.inr (.inl hbad))) h
    · exact absurd (.inr (.inr (.inr hbad))) h
    · exact ih hc (by omega)

/-- A text of characters with numbers, of a length that can be, is read. -/
theorem radix64ToBin_map (hvalid : ∀ c ∈ radix64, HasNumber c) (hlen : radix64.length % 4 ≠ 1) :
    radix64ToBin radix64 =
      .done ((octets (radix64.map binFromRadix64Char)).length,
        octets (radix64.map binFromRadix64Char)) := by
  rw [radix64ToBin, if_neg hlen, radix64Loop_valid hvalid hlen rfl, List.nil_append,
    length_octets (by rwa [List.length_map]), List.length_map]

/-- A text with any other character, or of a length that cannot be, is not read. -/
theorem radix64ToBin_invalid (h : ¬ (radix64.length % 4 ≠ 1 ∧ ∀ c ∈ radix64, HasNumber c)) :
    radix64ToBin radix64 = .error (-EINVAL) := by
  rw [radix64ToBin]
  by_cases hlen : radix64.length % 4 = 1
  · rw [if_pos hlen]
  · rw [if_neg hlen]
    have hbad : ∃ c ∈ radix64, ¬ HasNumber c := by
      by_contra hall
      exact h ⟨hlen, fun c hc => Classical.not_not.1 fun hn => hall ⟨c, hc, hn⟩⟩
    obtain ⟨c, hc, hn⟩ := hbad
    exact radix64Loop_invalid hc hn hlen

/-! ## Round trip -/

/-- The numbers of the characters of numbers are these. -/
theorem map_binFromRadix64Char (hlt : ∀ t ∈ ts, t < 64) :
    (ts.map tabChar).map binFromRadix64Char = ts := by
  rw [List.map_map]
  conv_rhs => rw [← List.map_id ts]
  exact List.map_congr_left fun t ht => (binFromRadix64Char_tabChar (hlt t ht)).1

theorem hasNumber_of_isRadix64 {c : UInt8} (hc : IsRadix64 c) : HasNumber c :=
  fun h => binFromRadix64Char_eq_invalid.1 h (.inl hc)

/-- The text of a binary: it is read back, and its length is the one that is computed,
    where that does not overflow. -/
theorem radix64ToBin_binToRadix64 (bin : List UInt8) :
    ∃ radix64 : List UInt8, binToRadix64 bin = ((radix64.length : Int), radix64 ++ [0]) ∧
      0 ∉ radix64 ∧ radix64ToBin radix64 = .done (bin.length, bin) ∧
      radix64.length = (bin.length * 4 + 2) / 3 ∧
      radix64.length % 4 ≠ 1 ∧ radixToBinLen radix64.length = bin.length := by
  have hlt := sextets_lt bin
  have hlen : ((sextets bin).map tabChar).length = (bin.length * 4 + 2) / 3 := by
    rw [List.length_map, length_sextets]
  have hmod : ((sextets bin).map tabChar).length % 4 ≠ 1 := by
    rw [hlen]
    omega
  have hchars : ∀ c ∈ (sextets bin).map tabChar, IsRadix64 c := fun c hc => by
    obtain ⟨t, ht, rfl⟩ := List.mem_map.1 hc
    exact (binFromRadix64Char_tabChar (hlt t ht)).2
  refine ⟨(sextets bin).map tabChar, by rw [binToRadix64, List.length_map], fun h0 => ?_, ?_,
    hlen, hmod, ?_⟩
  · exact absurd (hchars 0 h0) (by decide)
  · have hread := radix64ToBin_map (fun c hc => hasNumber_of_isRadix64 (hchars c hc)) hmod
    rwa [map_binFromRadix64Char hlt, octets_sextets] at hread
  · rw [radixToBinLen, Int.tmod_eq_emod_of_nonneg (by omega), Int.tdiv_eq_ediv_of_nonneg (by omega),
      hlen]
    split_ifs <;> omega

/-- The length of the text, where the product does not overflow. -/
theorem binToRadix64Len_eq {n : Nat} (h : n * 4 + 2 < 2 ^ 31) :
    binToRadix64Len n = .done (((n * 4 + 2) / 3 : Nat) : Int) := by
  rw [binToRadix64Len, if_pos (by omega), Int.tdiv_eq_ediv_of_nonneg (by omega)]
  congr 1

/-- A binary that is written as text is read back from it, in as many characters and bytes
    as the two lengths say. -/
theorem radix64_roundTrip (bin : List UInt8) (hint : 4 * bin.length < 2 ^ 31) :
    ∃ radix64 : List UInt8, binToRadix64 bin = ((radix64.length : Int), radix64 ++ [0]) ∧
      0 ∉ radix64 ∧ radix64ToBin radix64 = .done (bin.length, bin) ∧
      binToRadix64Len bin.length = .done radix64.length ∧ radix64.length % 4 ≠ 1 ∧
      radixToBinLen radix64.length = bin.length := by
  obtain ⟨radix64, hwritten, hnul, hread, hlen, hmod, hback⟩ := radix64ToBin_binToRadix64 bin
  refine ⟨radix64, hwritten, hnul, hread, ?_, hmod, hback⟩
  rw [binToRadix64Len_eq (by omega), hlen]

theorem radix64_roundTrip_five : 4 * [(1 : UInt8), 2, 3, 254, 255].length < 2 ^ 31 ∧
    ∃ radix64 : List UInt8,
      binToRadix64 [1, 2, 3, 254, 255] = ((radix64.length : Int), radix64 ++ [0]) ∧
      0 ∉ radix64 ∧ radix64ToBin radix64 = .done (5, [1, 2, 3, 254, 255]) ∧
      binToRadix64Len 5 = .done radix64.length ∧ radix64.length % 4 ≠ 1 ∧
      radixToBinLen radix64.length = 5 :=
  ⟨by decide, radix64_roundTrip [1, 2, 3, 254, 255] (by decide)⟩

/-! ## The texts of binaries -/

/-- A text as the writer makes it: characters of the alphabet in a length that can be,
    with no bits set that are in no byte. -/
structure Canonical (radix64 : List UInt8) : Prop where
  chars : ∀ c ∈ radix64, IsRadix64 c
  closed : Closed (radix64.map binFromRadix64Char)

/-- The groups are complete, so that the length is not one more than a multiple of four. -/
theorem Closed.length (h : Closed ts) : ts.length % 4 ≠ 1 := by
  induction ts using octets.induct with
  | case1 => simp
  | case2 t => exact h.elim
  | case3 t0 t1 => simp
  | case4 t0 t1 t2 => simp
  | case5 t0 t1 t2 t3 ts ih =>
    have := ih h
    simp only [List.length_cons]
    omega

/-- A text as the writer makes it is written from the bytes that it is read as. -/
theorem Canonical.written (h : Canonical radix64) :
    ∃ bin, radix64ToBin radix64 = .done (bin.length, bin) ∧
      binToRadix64 bin = ((radix64.length : Int), radix64 ++ [0]) := by
  have hlen : radix64.length % 4 ≠ 1 := by
    have := h.closed.length
    rwa [List.length_map] at this
  refine ⟨_, radix64ToBin_map (fun c hc => hasNumber_of_isRadix64 (h.chars c hc)) hlen, ?_⟩
  have hlt : ∀ t ∈ radix64.map binFromRadix64Char, t < 64 := fun t ht => by
    obtain ⟨c, hc, rfl⟩ := List.mem_map.1 ht
    rcases binFromRadix64Char_cases c with ⟨-, hlt, -⟩ | ⟨rfl, -⟩ | ⟨hno, -⟩
    · exact hlt
    · exact absurd (h.chars _ hc) (by decide)
    · exact absurd (h.chars c hc) hno
  have hback : (radix64.map binFromRadix64Char).map tabChar = radix64 := by
    rw [List.map_map]
    conv_rhs => rw [← List.map_id radix64]
    refine List.map_congr_left fun c hc => ?_
    rcases binFromRadix64Char_cases c with ⟨-, -, heq⟩ | ⟨rfl, -⟩ | ⟨hno, -⟩
    · exact heq
    · exact absurd (h.chars _ hc) (by decide)
    · exact absurd (h.chars c hc) hno
  rw [binToRadix64, sextets_octets hlt h.closed, hback, List.length_map]

/-- The texts that are read are those of characters of the alphabet and pad characters, in
    a length that can be; all others are errors. -/
theorem radix64ToBin_accepts (radix64 : List UInt8) :
    ((∃ ret bin, radix64ToBin radix64 = .done (ret, bin)) ↔
      radix64.length % 4 ≠ 1 ∧ ∀ c ∈ radix64, IsRadix64 c ∨ c = '='.toUInt8) ∧
    ((∃ ret bin, radix64ToBin radix64 = .done (ret, bin)) ∨
      radix64ToBin radix64 = .error (-EINVAL)) := by
  have hnumber : (∀ c ∈ radix64, HasNumber c) ↔
      ∀ c ∈ radix64, IsRadix64 c ∨ c = '='.toUInt8 :=
    forall₂_congr fun c _ => not_iff_comm.1 binFromRadix64Char_eq_invalid.symm
  rw [← hnumber]
  refine ⟨⟨fun ⟨ret, bin, h⟩ => ?_, fun ⟨hlen, hvalid⟩ => ⟨_, _, radix64ToBin_map hvalid hlen⟩⟩, ?_⟩
  · by_contra hno
    rw [radix64ToBin_invalid hno] at h
    cases h
  · by_cases hvalid : radix64.length % 4 ≠ 1 ∧ ∀ c ∈ radix64, HasNumber c
    · exact .inl ⟨_, _, radix64ToBin_map hvalid.2 hvalid.1⟩
    · exact .inr (radix64ToBin_invalid hvalid)

/-- What the reader is to be: it takes the texts of characters of the alphabet, in a length that
    can be, and no others; a text that it takes is written again from its bytes, where no bits are
    lost at the end, and has other bytes than any other such text without pad characters. -/
structure ReadsRight (radix64 : List UInt8) : Prop where
  accepts : (∃ ret bin, radix64ToBin radix64 = .done (ret, bin)) ↔
    radix64.length % 4 ≠ 1 ∧ ∀ c ∈ radix64, IsRadix64 c
  refuses : ¬ (radix64.length % 4 ≠ 1 ∧ ∀ c ∈ radix64, IsRadix64 c) →
    radix64ToBin radix64 = .error (-EINVAL)
  written : ∀ ret bin, radix64ToBin radix64 = .done (ret, bin) →
    Closed (radix64.map binFromRadix64Char) →
    ret = bin.length ∧ binToRadix64 bin = ((radix64.length : Int), radix64 ++ [0])
  unique : ∀ ret ret' bin other, radix64ToBin radix64 = .done (ret, bin) →
    Closed (radix64.map binFromRadix64Char) → '='.toUInt8 ∉ other →
    radix64ToBin other = .done (ret', bin) → Closed (other.map binFromRadix64Char) →
    other = radix64

/-- A text that is taken, without pad characters, and with no bits that are in no byte. -/
theorem canonical_of_done (hpad : '='.toUInt8 ∉ radix64)
    (h : ∃ ret bin, radix64ToBin radix64 = .done (ret, bin))
    (hclosed : Closed (radix64.map binFromRadix64Char)) : Canonical radix64 := by
  refine ⟨fun c hc => ?_, hclosed⟩
  rcases ((radix64ToBin_accepts radix64).1.1 h).2 c hc with hc' | rfl
  · exact hc'
  · exact absurd hc hpad

/-- The reader is right exactly for the texts without pad characters, and those that are refused
    for another reason: their length, or another character. -/
theorem radix64ToBin_readsRight_iff (radix64 : List UInt8) : ReadsRight radix64 ↔
    '='.toUInt8 ∉ radix64 ∨ radix64.length % 4 = 1 ∨
      ∃ c ∈ radix64, ¬ IsRadix64 c ∧ c ≠ '='.toUInt8 := by
  obtain ⟨haccepts, hor⟩ := radix64ToBin_accepts radix64
  constructor
  · intro h
    by_contra hno
    simp only [not_or, not_not, not_exists, not_and] at hno
    obtain ⟨hpad, hlen, hchars⟩ := hno
    -- Read in spite of the pad character.
    have hread := haccepts.2 ⟨hlen, fun c hc => or_iff_not_imp_left.2 (hchars c hc)⟩
    exact absurd ((h.accepts.1 hread).2 _ hpad) (by decide)
  · intro h
    by_cases hread : ∃ ret bin, radix64ToBin radix64 = .done (ret, bin)
    · obtain ⟨hlen, hchars⟩ := haccepts.1 hread
      have hpad : '='.toUInt8 ∉ radix64 := by
        rcases h with h | h | ⟨c, hc, hbad, hne⟩
        · exact h
        · exact absurd h hlen
        · exact absurd (hchars c hc) (not_or.2 ⟨hbad, hne⟩)
      have halphabet : ∀ c ∈ radix64, IsRadix64 c := fun c hc =>
        (hchars c hc).resolve_right fun he => hpad (he ▸ hc)
      refine ⟨iff_of_true hread ⟨hlen, halphabet⟩, fun hno => absurd ⟨hlen, halphabet⟩ hno,
        fun ret bin h hclosed => ?_, fun ret ret' bin other h hclosed hpad' h' hclosed' => ?_⟩
      · obtain ⟨bin', hbin', hwritten⟩ := (canonical_of_done hpad ⟨_, _, h⟩ hclosed).written
        rw [h, Outcome.done.injEq, Prod.mk.injEq] at hbin'
        rw [hbin'.1, hbin'.2]
        exact ⟨rfl, hwritten⟩
      · -- Both are what is written from the same bytes.
        obtain ⟨bin₁, h₁, hwritten⟩ := (canonical_of_done hpad ⟨_, _, h⟩ hclosed).written
        obtain ⟨bin₂, h₂, hwritten'⟩ := (canonical_of_done hpad' ⟨_, _, h'⟩ hclosed').written
        rw [h, Outcome.done.injEq, Prod.mk.injEq] at h₁
        rw [h', Outcome.done.injEq, Prod.mk.injEq] at h₂
        rw [← h₂.2, h₁.2, hwritten, Prod.mk.injEq] at hwritten'
        exact (List.append_cancel_right hwritten'.2).symm
    · have hrefused := hor.resolve_left hread
      refine ⟨iff_of_false hread fun ⟨hlen, hchars⟩ => hread (haccepts.2 ⟨hlen, fun c hc =>
        .inl (hchars c hc)⟩), fun _ => hrefused, fun _ _ h => ?_, fun _ _ _ _ h => ?_⟩
      · exact absurd ⟨_, _, h⟩ hread
      · exact absurd ⟨_, _, h⟩ hread

/-- The pad character is read, here as the last of a group. -/
theorem radix64ToBin_pad : ¬ ReadsRight (['T', 'W', 'E', '='].map Char.toUInt8) := by
  intro h
  have hpad := h.accepts.1 ⟨3, [77, 97, 64], by decide⟩
  exact absurd hpad.2 (by decide)

end Cube.Crypto
