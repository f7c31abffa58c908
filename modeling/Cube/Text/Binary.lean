import Cube.Crypto.Radix64
import Cube.Text.ElemText
import Cube.Text.Uuid

/-!
# Binaries as text

Binaries of a fixed size and those that are counted are written in radix 64, and other ones
in hexadecimal digits (`bindata_get_text_value`, `define_get_text_value`,
`hexdata_get_text_value` and their setters in `struct_ops.c`).

* `bindataRestored_iff`, `defineRestored_iff`: binaries are restored from radix 64 as long as
  the length of the text is an `int`;
* `hexdataRestored_iff`: no binary but the empty one is restored from hexadecimal digits.
-/

namespace Cube.Text

open Lib Message Crypto

/-! ## Radix 64 -/

/-- `bindata_get_text_value`, for the size of the template. -/
def bindataGetTextValue (size : Nat) (elem : List UInt8) : Outcome (Int × List UInt8) :=
  if size = 0 then .done (0, [])
  else if elem.length < size then .fault
  else .done (binToRadix64 (elem.take size))

/-- `bindata_set_text_value`: what it returns and the element after it. The length of the
    text is counted in an `int`. -/
def bindataSetTextValue (size : Nat) (elem addr : List UInt8) : Outcome (Int × List UInt8) :=
  if size = 0 then .done (0, elem)
  else do
    let len ← strlen addr
    if 2 ^ 31 ≤ len then .fault
    else if len = 0 then .done (0, elem)
    else if radixToBinLen len ≠ size then .error (-EINVAL)
    else (fun r => (r.1, r.2 ++ elem.drop r.2.length)) <$> radix64ToBin (addr.take len)

/-- `bindata_convert_ops`. -/
def bindataOps (size : Nat) : TextOps (List UInt8) :=
  plainOps size (bindataGetTextValue size) (bindataSetTextValue size)

/-- `define_get_text_value`, for the count in `tempsize`. -/
def defineGetTextValue (tempsize : Int) (addr : List UInt8) : Outcome (Int × List UInt8) :=
  if tempsize ≤ 0 then .done (tempsize, [])
  else if addr.length < tempsize then .fault
  else .done (binToRadix64 (addr.take tempsize.toNat))

/-- `define_set_text_value`, for the count in `tempsize`. -/
def defineSetTextValue (tempsize : Int) (addr text : List UInt8) : Outcome (Int × List UInt8) :=
  if tempsize ≤ 0 then .done (tempsize, addr)
  else do
    let strLen ← binToRadix64Len tempsize
    if text.length < strLen then .fault
    else (fun r => (r.1, r.2 ++ addr.drop r.2.length)) <$> radix64ToBin (text.take strLen.toNat)

/-- `define_convert_ops`. The memory of the items has a byte for each of them. -/
def defineOps : TextOps (List UInt8) :=
  { indexOps 0 defineGetTextValue defineSetTextValue with
    zero := fun repeatNum => .replicate repeatNum.toNat 0 }

/-- A binary of a fixed size is restored as long as its text is not too long to be
    counted. -/
theorem bindataRestored_iff (value : List UInt8) (size defvalue : Int) :
    PlaceRestored (bindataOps value.length) .bindata size defvalue value ↔
      (value.length * 4 + 2) / 3 < 2 ^ 31 := by
  rw [bindataOps, plainRestored_iff rfl rfl rfl]
  obtain ⟨radix64, hwritten, hnul, hread, hlen, -, hback⟩ := radix64ToBin_binToRadix64 value
  rcases Nat.eq_zero_or_pos value.length with hzero | hpos
  · -- Of the empty binary neither operation does anything.
    obtain rfl := List.length_eq_zero_iff.1 hzero
    refine iff_of_true ⟨0, [], Int.le_refl 0, rfl, fun rest old hold => ?_⟩ (by decide)
    obtain rfl := List.length_eq_zero_iff.1 hold
    exact ⟨0, Int.le_refl 0, rfl⟩
  have hget : bindataGetTextValue value.length value = .done (radix64.length, radix64 ++ [0]) := by
    rw [bindataGetTextValue, if_neg hpos.ne', if_neg (Nat.lt_irrefl _), List.take_length, hwritten]
  have hset (old rest : List UInt8) (hold : old.length = value.length) :
      bindataSetTextValue value.length old (radix64 ++ [0] ++ 0 :: rest) =
        if 2 ^ 31 ≤ radix64.length then .fault else .done (value.length, value) := by
    have hne : ¬ radix64.length = 0 := by omega
    rw [bindataSetTextValue, if_neg hpos.ne', List.append_assoc, List.singleton_append,
      strlen_cstr hnul, Outcome.done_bind, if_neg hne, if_neg (not_not.2 hback), List.take_left,
      hread, Outcome.map_done, ← hold, List.drop_length, List.append_nil]
  constructor
  · rintro ⟨ret, text, -, htext, h⟩
    obtain ⟨ret', -, hdone⟩ := h [] value rfl
    rw [hget, Outcome.done.injEq, Prod.mk.injEq] at htext
    rw [← htext.2, hset value [] rfl] at hdone
    split_ifs at hdone with hlong
    omega
  · intro hfit
    refine ⟨_, _, Int.natCast_nonneg _, hget, fun rest old hold => ?_⟩
    exact ⟨value.length, Int.natCast_nonneg _, by rw [hset old rest hold, if_neg (by omega)]⟩

/-- A counted binary is restored as long as the length of its text can be computed. -/
theorem defineRestored_iff (value place : List UInt8) (size : Int) :
    BlockRestored defineOps .define size value.length place [value] ↔
      value.length * 4 + 2 < 2 ^ 31 := by
  rw [pointerRestored_iff rfl rfl rfl (Int.natCast_nonneg _)]
  obtain ⟨radix64, hwritten, hnul, hread, hlen, -, -⟩ := radix64ToBin_binToRadix64 value
  rcases Nat.eq_zero_or_pos value.length with hzero | hpos
  · obtain rfl := List.length_eq_zero_iff.1 hzero
    exact iff_of_true ⟨0, [], _, Int.le_refl 0, rfl, fun rest => ⟨0, _, Int.le_refl 0, rfl⟩⟩
      (by decide)
  have hcount : ¬ (value.length : Int) ≤ 0 := by omega
  have hget : defineGetTextValue value.length value = .done (radix64.length, radix64 ++ [0]) := by
    rw [defineGetTextValue, if_neg hcount, if_neg (Int.lt_irrefl _), Int.toNat_natCast,
      List.take_length, hwritten]
  have hset (rest : List UInt8) :
      defineSetTextValue value.length (.replicate value.length 0) (radix64 ++ [0] ++ 0 :: rest) =
        if value.length * 4 + 2 < 2 ^ 31 then .done (value.length, value) else .fault := by
    rw [defineSetTextValue, if_neg hcount]
    split_ifs with hfit
    · rw [binToRadix64Len_eq hfit, Outcome.done_bind, if_neg (by simp; omega), Int.toNat_natCast,
        ← hlen, List.append_assoc, List.take_left, hread, Outcome.map_done,
        List.drop_eq_nil_of_le (by simp), List.append_nil]
    · rw [binToRadix64Len, if_neg (by omega), Outcome.fault_bind]
  simp only [defineOps, indexOps, hget, Outcome.map_done, Outcome.done.injEq, Prod.mk.injEq,
    Int.toNat_natCast]
  constructor
  · rintro ⟨_, _, _, -, ⟨rfl, rfl, rfl⟩, h⟩
    obtain ⟨ret', index', -, hdone⟩ := h []
    rw [hset] at hdone
    split_ifs at hdone with hfit
    · exact hfit
    · cases hdone
  · intro hfit
    refine ⟨_, _, _, Int.natCast_nonneg _, ⟨rfl, rfl, rfl⟩, fun rest => ?_⟩
    exact ⟨value.length, _, Int.natCast_nonneg _, by rw [hset, if_pos hfit, Outcome.map_done]⟩

/-! ## Hexadecimal digits -/

/-- `bin_2_hex`: what it returns and the digits it writes. -/
def bin2Hex (bin : List UInt8) : Int × List UInt8 :=
  (bin.length * 2, bin.flatMap fun (b : UInt8) =>
    [hexChar (b >>> 4), hexChar (b &&& 0x0f)])

/-- The number of a digit, for `hex_2_bin`, where letters count from zero. -/
def hex2BinValue (hex : UInt8) : Option UInt8 :=
  if '0'.toUInt8 ≤ hex ∧ hex ≤ '9'.toUInt8 then some (hex - '0'.toUInt8)
  else if 'a'.toUInt8 ≤ hex ∧ hex ≤ 'f'.toUInt8 then some (hex - 'a'.toUInt8)
  else if 'A'.toUInt8 ≤ hex ∧ hex ≤ 'F'.toUInt8 then some (hex - 'A'.toUInt8)
  else none

/-- The loop of `hex_2_bin` over pairs of digits: the bytes after it. -/
def hex2BinLoop : List UInt8 → List UInt8 → Outcome (List UInt8)
  | c :: c' :: hex, bin =>
    match hex2BinValue c, hex2BinValue c' with
    | some high, some low => match bin with
      | [] => .fault
      | _ :: bin => ((high * 0x10 + low) :: ·) <$> hex2BinLoop hex bin
    | _, _ => .error (-EINVAL)
  | _, bin => .done bin

/-- `hex_2_bin`: what it returns and the bytes after it. -/
def hex2Bin (hex : List UInt8) (size : Nat) (bin : List UInt8) : Outcome (Int × List UInt8) := do
  let len ← strnlen hex size
  if len % 2 ≠ 0 then .error (-EINVAL)
  else (((len / 2 : Nat) : Int), ·) <$> hex2BinLoop (hex.take len) bin

/-- `hexdata_get_text_value`, for the size of the template. -/
def hexdataGetTextValue (size : Nat) (elem : List UInt8) : Outcome (Int × List UInt8) :=
  if size = 0 then .done (0, [])
  else if elem.length < size then .fault
  else .done (bin2Hex (elem.take size))

/-- `hexdata_set_text_value`, which gives the size of the element as the size of the text. -/
def hexdataSetTextValue (size : Nat) (elem addr : List UInt8) : Outcome (Int × List UInt8) :=
  if size = 0 then .done (0, elem) else hex2Bin addr size elem

/-- `hexdata_convert_ops`. -/
def hexdataOps (size : Nat) : TextOps (List UInt8) :=
  plainOps size (hexdataGetTextValue size) (hexdataSetTextValue size)

/-- The loop leaves what is behind the bytes of its digits. -/
theorem hex2BinLoop_drop {hex bin bin' : List UInt8} (h : hex2BinLoop hex bin = .done bin')
    {k : Nat} (hk : hex.length / 2 ≤ k) : bin'.drop k = bin.drop k := by
  induction hex using List.twoStepInduction generalizing bin bin' k with
  | nil => rw [Outcome.done.inj h]
  | singleton c => rw [Outcome.done.inj h]
  | cons_cons c c' hex ih _ =>
    rw [hex2BinLoop.eq_def] at h
    simp only at h
    split at h
    · rcases bin with _ | ⟨b, bin⟩
      · cases h
      · obtain ⟨more, hmore, rfl⟩ := Outcome.map_eq_done.1 h
        simp only [List.length_cons] at hk
        obtain ⟨k, rfl⟩ : ∃ j, k = j + 1 := ⟨k - 1, by omega⟩
        rw [List.drop_succ_cons, List.drop_succ_cons]
        exact ih hmore (by omega)
    · cases h

/-- The setter leaves the half of the element that the size has no digits for. -/
theorem hex2Bin_drop {hex bin bin' : List UInt8} {size : Nat} {ret : Int}
    (h : hex2Bin hex size bin = .done (ret, bin')) : bin'.drop (size / 2) = bin.drop (size / 2) := by
  obtain ⟨len, hlen, h⟩ := Outcome.bind_eq_done.1 h
  split_ifs at h
  obtain ⟨bytes, hloop, heq⟩ := Outcome.map_eq_done.1 h
  obtain ⟨-, rfl⟩ := Prod.mk.inj heq
  refine hex2BinLoop_drop hloop ?_
  rw [List.length_take]
  have := strnlen_le hlen
  omega

/-- Only the empty binary is restored from its hexadecimal digits by the operations, whatever
    the element was before. -/
theorem hexdata_textRestored_iff (value : List UInt8) :
    TextRestored (hexdataGetTextValue value.length) (hexdataSetTextValue value.length) value ↔
      value = [] := by
  constructor
  · rintro ⟨ret, text, -, -, hset⟩
    by_contra hne
    obtain ⟨init, last, rfl⟩ : ∃ init last, value = init ++ [last] :=
      ⟨_, _, (List.dropLast_append_getLast hne).symm⟩
    -- The last byte is left as it was, so that it may be another one.
    obtain ⟨ret', -, hdone⟩ := hset [] (init ++ [last + 1]) (by simp)
    rw [hexdataSetTextValue, if_neg (by simp)] at hdone
    have hdrop := hex2Bin_drop hdone
    rw [List.length_append, List.length_singleton, List.drop_append_of_le_length (by omega),
      List.drop_append_of_le_length (by omega), List.append_cancel_left_eq, List.cons.injEq] at hdrop
    have hlast := congrArg UInt8.toNat hdrop.1
    rw [UInt8.toNat_add, UInt8.toNat_one] at hlast
    have := last.toNat_lt
    omega
  · rintro rfl
    refine ⟨0, [], Int.le_refl 0, rfl, fun rest old hold => ?_⟩
    obtain rfl := List.length_eq_zero_iff.1 hold
    exact ⟨0, Int.le_refl 0, rfl⟩

theorem hexdataRestored_iff (value : List UInt8) (size defvalue : Int) :
    PlaceRestored (hexdataOps value.length) .hexdata size defvalue value ↔ value = [] := by
  rw [hexdataOps, plainRestored_iff rfl rfl rfl, hexdata_textRestored_iff]

end Cube.Text
