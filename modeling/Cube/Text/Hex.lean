import Cube.Text.Binary

/-!
# Hexadecimal digits

`bin_2_hex` writes two digits for a byte, `hex_2_bin` reads them back, in either case; the
letters among them count from zero for it, not from ten.

* `hex2Bin_written`: the bytes that are read from the digits of a binary.
* `hexCodec_iff`: the binaries that are restored, by themselves and as the value of an element.
-/

namespace Cube.Text

open Lib

/-- `bin_2_hex` for a binary whose digits are counted in an `int`. -/
def bin2HexInt (bin : List UInt8) : Outcome (Int × List UInt8) :=
  if bin.length * 2 < 2 ^ 31 then .done (bin2Hex bin) else .fault

/-- The digit, or the same one in the other case. -/
def EitherCase (c digit : UInt8) : Prop :=
  c = digit ∨ 'a'.toUInt8 ≤ digit ∧ digit ≤ 'f'.toUInt8 ∧ c = digit - 0x20

/-- The binary is read back from its digits, with their letters in either case, over whatever
    was in its place before. -/
def HexRestored (bin : List UInt8) : Prop :=
  ∃ ret hex, bin2HexInt bin = .done (ret, hex) ∧
    ∀ text rest old, List.Forall₂ EitherCase text hex → old.length = bin.length →
      hex2Bin (text ++ rest) ret.toNat old = .done (bin.length, bin)

/-- The number of a digit as it is read: letters count from zero. -/
def misread (digit : UInt8) : UInt8 := if digit > 9 then digit - 10 else digit

/-- The byte read from the two digits of a byte. -/
def misreadByte (b : UInt8) : UInt8 := misread (b >>> 4) * 0x10 + misread (b &&& 0x0f)

/-- What holds of all numbers of eight bits holds of bytes. -/
theorem forall_byte {P : UInt8 → Prop} (h : ∀ n < 256, P (.ofNat n)) (b : UInt8) : P b := by
  have hb := h b.toNat b.toNat_lt
  rwa [UInt8.ofNat_toNat] at hb

/-- A half of a byte is a number of four bits. -/
theorem half_cases (b : UInt8) : ∃ m < 16, ∃ n < 16,
    b >>> 4 = .ofNat m ∧ b &&& 0x0f = .ofNat n := by
  have hall : ∀ b : UInt8, b >>> 4 = .ofNat (b.toNat / 16) ∧ b &&& 0x0f = .ofNat (b.toNat % 16) :=
    forall_byte (by decide +kernel)
  have hlt := b.toNat_lt
  exact ⟨_, by omega, _, by omega, hall b⟩

/-- A digit is read in either case. -/
theorem hex2BinValue_eitherCase {n : Nat} (hn : n < 16) {c : UInt8}
    (h : EitherCase c (hexChar (.ofNat n))) : hex2BinValue c = some (misread (.ofNat n)) ∧ c ≠ 0 := by
  have hlower : ∀ n < 16, hex2BinValue (hexChar (.ofNat n)) = some (misread (.ofNat n)) ∧
      hexChar (.ofNat n) ≠ 0 := by decide
  have hupper : ∀ n < 16, 'a'.toUInt8 ≤ hexChar (.ofNat n) →
      hex2BinValue (hexChar (.ofNat n) - 0x20) = some (misread (.ofNat n)) ∧
      hexChar (.ofNat n) - 0x20 ≠ 0 := by decide
  rcases h with rfl | ⟨hle, -, rfl⟩
  · exact hlower n hn
  · exact hupper n hn hle

/-- The loop over the digits of a binary, in either case. -/
theorem hex2BinLoop_digits {bin text : List UInt8}
    (h : List.Forall₂ EitherCase text (bin2Hex bin).2) :
    0 ∉ text ∧ text.length = bin.length * 2 ∧ ∀ old, old.length = bin.length →
      hex2BinLoop text old = .done (bin.map misreadByte) := by
  induction bin generalizing text with
  | nil =>
    obtain rfl := List.forall₂_nil_right_iff.1 h
    refine ⟨List.not_mem_nil, rfl, fun old hold => ?_⟩
    rw [hex2BinLoop.eq_def, List.length_eq_zero_iff.1 hold]
    rfl
  | cons b bin ih =>
    obtain ⟨m, hm, n, hn, hhigh, hlow⟩ := half_cases b
    simp only [bin2Hex, List.flatMap_cons, List.cons_append, List.nil_append, hhigh, hlow] at h
    obtain ⟨c, text', hc, hmore, rfl⟩ := List.forall₂_cons_right_iff.1 h
    obtain ⟨c', text, hc', hrest, rfl⟩ := List.forall₂_cons_right_iff.1 hmore
    obtain ⟨hvalue, hne⟩ := hex2BinValue_eitherCase hm hc
    obtain ⟨hvalue', hne'⟩ := hex2BinValue_eitherCase hn hc'
    obtain ⟨hnul, hlen, hloop⟩ := ih hrest
    refine ⟨by simp [hne.symm, hne'.symm, hnul], by simp [hlen]; omega, fun old hold => ?_⟩
    obtain ⟨o, old, rfl⟩ := List.exists_cons_of_length_eq_add_one hold
    rw [List.length_cons, List.length_cons, Nat.add_right_cancel_iff] at hold
    rw [hex2BinLoop.eq_def]
    simp only [hvalue, hvalue', hloop old hold, Outcome.map_done, List.map_cons, misreadByte, hhigh,
      hlow]

/-- What `hex_2_bin` reads from the digits of a binary. -/
theorem hex2Bin_written {bin text : List UInt8} (h : List.Forall₂ EitherCase text (bin2Hex bin).2)
    (rest : List UInt8) {old : List UInt8} (hold : old.length = bin.length) :
    hex2Bin (text ++ rest) (bin.length * 2) old = .done (bin.length, bin.map misreadByte) := by
  obtain ⟨hnul, hlen, hloop⟩ := hex2BinLoop_digits h
  rw [hex2Bin, strnlen_long hnul (Nat.le_of_eq hlen.symm), Outcome.done_bind, if_neg (by omega),
    ← hlen, List.take_left, hloop old hold, Outcome.map_done, hlen, Nat.mul_div_cancel _ Nat.two_pos]

/-- A byte is read as it was written exactly if neither of its digits is a letter. -/
theorem misreadByte_eq_iff (b : UInt8) : misreadByte b = b ↔ b >>> 4 < 10 ∧ b &&& 0x0f < 10 :=
  forall_byte (P := fun b => misreadByte b = b ↔ b >>> 4 < 10 ∧ b &&& 0x0f < 10)
    (by decide +kernel) b

/-- The codec restores the binaries whose digits are counted in an `int` and have no letters
    among them. -/
theorem hexRestored_iff (bin : List UInt8) :
    HexRestored bin ↔ bin.length * 2 < 2 ^ 31 ∧ ∀ b ∈ bin, b >>> 4 < 10 ∧ b &&& 0x0f < 10 := by
  have hsame : List.Forall₂ EitherCase (bin2Hex bin).2 (bin2Hex bin).2 :=
    List.forall₂_same.2 fun c _ => .inl rfl
  have hbytes : bin.map misreadByte = bin ↔ ∀ b ∈ bin, b >>> 4 < 10 ∧ b &&& 0x0f < 10 := by
    constructor
    · intro h b hb
      exact (misreadByte_eq_iff b).1 (List.map_inj_left.1 (h.trans (List.map_id bin).symm) b hb)
    · intro h
      exact (List.map_congr_left fun b hb => (misreadByte_eq_iff b).2 (h b hb)).trans
        (List.map_id bin)
  have hsize : ((bin.length : Int) * 2).toNat = bin.length * 2 := by omega
  rw [HexRestored, ← hbytes]
  constructor
  · rintro ⟨ret, hex, hwritten, hread⟩
    rw [bin2HexInt] at hwritten
    split_ifs at hwritten with hfit
    obtain ⟨rfl, rfl⟩ := Outcome.pair_inj hwritten
    have hdone := hread _ [] bin hsame rfl
    rw [hsize, hex2Bin_written hsame [] rfl] at hdone
    exact ⟨hfit, (Outcome.pair_inj hdone).2⟩
  · rintro ⟨hfit, hmap⟩
    refine ⟨_, _, if_pos hfit, fun text rest old htext hold => ?_⟩
    have hdone := hex2Bin_written htext rest hold
    rw [hmap] at hdone
    rwa [hsize]

/-- Which binaries are restored from their digits: by the codec those that have no letters among
    them and are not too long, and as the value of an element only the empty one. -/
theorem hexCodec_iff (bin : List UInt8) :
    (HexRestored bin ↔ bin.length * 2 < 2 ^ 31 ∧ ∀ b ∈ bin, b >>> 4 < 10 ∧ b &&& 0x0f < 10) ∧
      (TextRestored (hexdataGetTextValue bin.length) (hexdataSetTextValue bin.length) bin ↔
        bin = []) :=
  ⟨hexRestored_iff bin, hexdata_textRestored_iff bin⟩

/-- A byte with a letter is read as another one, and an element of one byte is not read. -/
theorem hexCodec_not : ¬ HexRestored [0x1a] ∧
    ¬ TextRestored (hexdataGetTextValue 1) (hexdataSetTextValue 1) [0x11] := by
  refine ⟨fun h => ?_, fun h => ?_⟩
  · exact absurd (((hexRestored_iff [0x1a]).1 h).2 0x1a List.mem_cons_self) (by decide)
  · exact List.cons_ne_nil _ _ ((hexdata_textRestored_iff [0x11]).1 h)

end Cube.Text
