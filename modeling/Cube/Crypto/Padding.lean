import Cube.Lib.Block

/-!
# Padding to blocks

Bytes are filled up to blocks of 16 (`crypto_func.c`) with bytes that say how many of them
there are: a whole block of them behind bytes that are blocks already. What takes them
away again refuses this block, as it takes a padding of 16 for wrong, and takes paddings for
right that are 0, or longer than the bytes.

* `sm4DataPrepare_eq`, `sm4DataRecover_eq`: what the two do.
* `padding_iff`: the bytes that are recovered, and the inputs that are treated right.
-/

namespace Cube.Crypto

open Lib

/-- `sm4_data_prepare`: the value it sets, and the bytes it writes. The value is a sum
    that an `int` may not hold. -/
def sm4DataPrepare (input : List UInt8) : Outcome (Int × List UInt8) :=
  let padLen := 16 - input.length % 16
  if (input.length : Int) + padLen < 2 ^ 31 then
    .done (input.length + padLen, input ++ List.replicate padLen (UInt8.ofNat padLen))
  else .fault

/-- `Memcpy` of a number of bytes that may be negative, and is taken as unsigned. -/
def copyBytes (input : List UInt8) (count : Int) : Outcome (List UInt8) :=
  if 0 ≤ count then fetch input 0 count.toNat else .fault

/-- `sm4_data_recover`: what it returns, which is the value it sets, and the bytes it
    writes. The last byte of no bytes is in front of them. -/
def sm4DataRecover (input : List UInt8) : Outcome (Int × List UInt8) :=
  match input.getLast? with
  | none => .fault
  | some padValue =>
    if padValue ≥ 16 then .error (-EINVAL)
    else do
      let outputLen := (input.length : Int) - padValue.toNat
      let output ← copyBytes input outputLen
      pure (outputLen, output)

/-- The bytes that were filled up are recovered. -/
def Recovers (input : List UInt8) : Prop :=
  ∃ padded, sm4DataPrepare input = .done ((padded.length : Int), padded) ∧
    sm4DataRecover padded = .done ((input.length : Int), input)

/-- Bytes that are accepted end with a padding of 1 to 16 bytes, which is not longer than
    they are, and what is returned is not longer than the bytes in front of it. -/
def AcceptsPadded (input : List UInt8) : Prop :=
  match sm4DataRecover input with
  | .done (n, output) =>
    ∃ padValue, input.getLast? = some padValue ∧ 1 ≤ padValue.toNat ∧ padValue.toNat ≤ 16 ∧
      padValue.toNat ≤ input.length ∧ n = input.length - padValue.toNat ∧
      output.length ≤ input.length - padValue.toNat
  | .error _ => True
  | .fault => False

/-! ## The two ways -/

variable {input : List UInt8}

/-- The bytes are filled up with as many as are missing, if an `int` holds the sum. -/
theorem sm4DataPrepare_eq {padLen : Nat} (hpad : 16 - input.length % 16 = padLen)
    (h : (input.length : Int) + padLen < 2 ^ 31) :
    sm4DataPrepare input = .done ((input.length : Int) + padLen,
      input ++ List.replicate padLen (UInt8.ofNat padLen)) := by
  unfold sm4DataPrepare
  subst hpad
  exact if_pos h

theorem sm4DataPrepare_fault {padLen : Nat} (hpad : 16 - input.length % 16 = padLen)
    (h : ¬ (input.length : Int) + padLen < 2 ^ 31) : sm4DataPrepare input = .fault := by
  unfold sm4DataPrepare
  subst hpad
  exact if_neg h

theorem sm4DataRecover_refuse {padValue : UInt8} (hlast : input.getLast? = some padValue)
    (h : 16 ≤ padValue) : sm4DataRecover input = .error (-EINVAL) := by
  rw [sm4DataRecover, hlast]
  exact if_pos h

/-- A padding below 16 is taken away, if the bytes are as many. -/
theorem sm4DataRecover_eq {padValue : UInt8} (hlast : input.getLast? = some padValue)
    (h : ¬ 16 ≤ padValue) (hle : padValue.toNat ≤ input.length) :
    sm4DataRecover input =
      .done ((input.length : Int) - padValue.toNat, input.take (input.length - padValue.toNat)) := by
  have hcount : ((input.length : Int) - padValue.toNat).toNat = input.length - padValue.toNat := by
    omega
  have hcopy : copyBytes input ((input.length : Int) - padValue.toNat) =
      .done (input.take (input.length - padValue.toNat)) := by
    rw [copyBytes, if_pos (by omega), hcount, fetch, if_pos (by omega), slice, List.drop_zero,
      Nat.zero_add, Nat.sub_zero]
  simp only [sm4DataRecover, hlast, ge_iff_le, if_neg h, hcopy, Outcome.done_bind, Outcome.pure_eq]

/-- A padding longer than the bytes is not noticed. -/
theorem sm4DataRecover_fault {padValue : UInt8} (hlast : input.getLast? = some padValue)
    (h : ¬ 16 ≤ padValue) (hlt : input.length < padValue.toNat) :
    sm4DataRecover input = .fault := by
  have hcopy : copyBytes input ((input.length : Int) - padValue.toNat) = .fault := by
    rw [copyBytes, if_neg (by omega)]
  simp only [sm4DataRecover, hlast, ge_iff_le, if_neg h, hcopy, Outcome.fault_bind]

/-- The padding of bytes, which it is the last byte of. -/
theorem getLast?_padded (input : List UInt8) {padLen : Nat} (hpos : 0 < padLen) :
    (input ++ List.replicate padLen (UInt8.ofNat padLen)).getLast? = some (UInt8.ofNat padLen) := by
  rw [List.getLast?_append, List.getLast?_replicate, if_neg (by omega)]
  rfl

/-- The last byte of what is filled up says how many bytes there are to take away: it is
    refused behind whole blocks, and else gives the bytes back. -/
theorem recovers_iff (input : List UInt8) :
    Recovers input ↔ input.length % 16 ≠ 0 ∧ input.length < 2 ^ 31 - 16 := by
  generalize hpad : 16 - input.length % 16 = padLen
  have hpos : 0 < padLen := by omega
  have hlast := getLast?_padded input hpos
  have hval : (UInt8.ofNat padLen).toNat = padLen := UInt8.toNat_ofNat_of_lt' (by
    have hsize : UInt8.size = 256 := rfl
    omega)
  have hlen : (input ++ List.replicate padLen (UInt8.ofNat padLen)).length =
      input.length + padLen := by
    rw [List.length_append, List.length_replicate]
  have h16 : (16 : UInt8).toNat = 16 := rfl
  constructor
  · rintro ⟨padded, hprepare, hrecover⟩
    rcases Decidable.em ((input.length : Int) + padLen < 2 ^ 31) with hfits | hover
    · rw [sm4DataPrepare_eq hpad hfits] at hprepare
      obtain ⟨-, rfl⟩ := Outcome.pair_inj hprepare
      have hblocks : input.length % 16 ≠ 0 := by
        intro hblocks
        -- a whole block of padding is taken for none
        have hbig : (16 : UInt8) ≤ UInt8.ofNat padLen := by
          rw [UInt8.le_iff_toNat_le, hval, h16]
          omega
        rw [sm4DataRecover_refuse hlast hbig] at hrecover
        cases hrecover
      exact ⟨hblocks, by omega⟩
    · rw [sm4DataPrepare_fault hpad hover] at hprepare
      cases hprepare
  · rintro ⟨hblocks, hfits⟩
    have hsmall : ¬ (16 : UInt8) ≤ UInt8.ofNat padLen := by
      rw [UInt8.le_iff_toNat_le, hval, h16]
      omega
    refine ⟨input ++ List.replicate padLen (UInt8.ofNat padLen), ?_, ?_⟩
    · have hsum : (input.length : Int) + padLen < 2 ^ 31 := by omega
      rw [sm4DataPrepare_eq hpad hsum, hlen, Int.natCast_add]
    · rw [sm4DataRecover_eq hlast hsmall (by omega), hval, hlen, Nat.add_sub_cancel,
        List.take_left' rfl]
      congr 2
      omega

/-- What is done with an input is decided by its last byte. -/
theorem acceptsPadded_iff (input : List UInt8) :
    AcceptsPadded input ↔ ∃ padValue, input.getLast? = some padValue ∧
      (16 ≤ padValue ∨ 1 ≤ padValue ∧ padValue.toNat ≤ input.length) := by
  cases hlast : input.getLast? with
  | none => simp [AcceptsPadded, sm4DataRecover, hlast]
  | some padValue =>
    simp only [Option.some.injEq, exists_eq_left']
    rcases Decidable.em (16 ≤ padValue) with hbig | hsmall
    · rw [AcceptsPadded, sm4DataRecover_refuse hlast hbig]
      exact iff_of_true trivial (.inl hbig)
    rcases Decidable.em (padValue.toNat ≤ input.length) with hle | hgt
    · rw [AcceptsPadded, sm4DataRecover_eq hlast hsmall hle]
      have hpos : (1 : UInt8) ≤ padValue ↔ 1 ≤ padValue.toNat := UInt8.le_iff_toNat_le
      constructor
      · rintro ⟨v, hv, hone, -⟩
        obtain rfl := Option.some.inj (hlast.symm.trans hv)
        exact .inr ⟨hpos.2 hone, hle⟩
      · rintro (hbig | ⟨hone, -⟩)
        · exact absurd hbig hsmall
        have hlt := UInt8.lt_iff_toNat_lt.1 (UInt8.not_le.1 hsmall)
        exact ⟨padValue, hlast, hpos.1 hone, Nat.le_of_lt hlt, hle, rfl,
          by rw [List.length_take]; exact Nat.min_le_left _ _⟩
    · rw [AcceptsPadded, sm4DataRecover_fault hlast hsmall (Nat.lt_of_not_le hgt)]
      exact iff_of_false id fun h => h.elim hsmall fun h => hgt h.2

/-- Bytes filled up are recovered exactly if they are not blocks already and an `int` holds
    the sum; and an input is treated right exactly if its last byte, which there must be, is
    refused, or is a padding that is not longer than the input. -/
theorem padding_iff (input : List UInt8) :
    (Recovers input ↔ input.length % 16 ≠ 0 ∧ input.length < 2 ^ 31 - 16) ∧
      (AcceptsPadded input ↔ ∃ padValue, input.getLast? = some padValue ∧
        (16 ≤ padValue ∨ 1 ≤ padValue ∧ padValue.toNat ≤ input.length)) :=
  ⟨recovers_iff input, acceptsPadded_iff input⟩

/-- No bytes are not recovered, as their padding is a block; and a byte that is zero is
    taken for a padding. -/
theorem not_recovers_nil : ¬ Recovers [] ∧ ¬ AcceptsPadded [0] := by
  refine ⟨fun h => ((recovers_iff []).1 h).1 rfl, fun h => ?_⟩
  obtain ⟨padValue, hlast, hpad⟩ := (acceptsPadded_iff [0]).1 h
  obtain rfl := Option.some.inj hlast
  revert hpad
  decide

end Cube.Crypto
