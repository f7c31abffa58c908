import Cube.BaseFunc.Cells
import Cube.Crypto.Context
import Cube.Crypto.Padding
import Cube.Crypto.Radix64
import Cube.Text.CString

/-!
# Encryption of texts

A text is padded to blocks, encrypted under a password and written as radix 64
(`crypto_func.c`). What decrypts it makes room for the blocks, but never reads them from
the text, and uses a key that it never sets: it decrypts blocks of zeros, as many as the
text is long.

* `ecbLoop_eq`: the loop over the blocks.
* `cryptText_eq`, `decryptText_refuse`, `decryptText_small`: what the two come to.
* `textCipher_never`: no text is given back under every key, and at most one of a length
  under one; and neither function leaves its buffers.
-/

namespace Cube.Crypto

open Lib
open BaseFunc (talloc)
open Message (Heap dalloc0)
open Text (strlen strlen_cstr)

/-- The loop over the blocks, in as many rounds as the third argument says. -/
def ecbLoop (sk : List UInt64) (cryptSize : Int) (input : List UInt8) :
    Nat → Int → List UInt8 → Outcome (List UInt8)
  | 0, _, _ => .fault
  | rounds + 1, i, output =>
    if i ≤ cryptSize - 16 then do
      let block ← fetch input i.toNat 16
      let output ← memcpy output i.toNat (sm4OneRound sk block)
      ecbLoop sk cryptSize input rounds (i + 16) output
    else .done output

/-- The steps of `sm4_text_crypt` once there are the two buffers. -/
def cryptText (input passwd : List UInt8) (inSize cryptSize outSize : Int) :
    Outcome (Int × Option (List UInt8)) := do
  let outputBuf := List.replicate outSize.toNat 0
  let cryptBuf := List.replicate cryptSize.toNat 0
  let data ← fetch input 0 inSize.toNat
  let (ret, prepared) ← sm4DataPrepare data
  let outputBuf ← memcpy outputBuf 0 prepared
  if ret ≠ cryptSize then .error (-EINVAL)
  else
    let cryptBuf ← ecbLoop (sm4SetkeyEnc (keypass passwd)) cryptSize outputBuf
      (cryptSize.toNat + 1) 0 cryptBuf
    let (ret, radix64) := binToRadix64 cryptBuf
    let outputBuf ← memcpy outputBuf 0 radix64
    if ret ≠ outSize - 1 then .error (-EINVAL)
    else
      let outputBuf ← memcpy outputBuf (outSize - 1).toNat [0]
      pure (outSize, some outputBuf)

/-- `sm4_text_crypt`: what it returns, and the block that it sets the output to. -/
def sm4TextCrypt (heap : Heap) (input passwd : List UInt8) :
    Outcome (Int × Option (List UInt8)) := do
  let inSize : Int := (← strlen input) + 1
  if inSize = 0 then return (0, none)
  let cryptSize := (inSize.tdiv 16 + 1) * 16
  let outSize := (← binToRadix64Len cryptSize) + 1
  if !(← dalloc0 heap outSize) then .error (-EINVAL)
  else if !(← talloc heap cryptSize) then .error (-EINVAL)
  else cryptText input passwd inSize cryptSize outSize

/-- The steps of `sm4_text_decrypt` once there is the block `crypt_buf`, which is taken as
    its two halves. The array for the key holds what was on the stack. -/
def decryptText (heap : Heap) (stack : List UInt8) (cryptSize : Int) :
    Outcome (Int × Option (List UInt8)) := do
  let cryptBuf := List.replicate cryptSize.toNat 0
  let decryptBuf := List.replicate cryptSize.toNat 0
  let decryptBuf ← ecbLoop (sm4SetkeyDec stack) cryptSize cryptBuf (cryptSize.toNat + 1) 0
    decryptBuf
  let (outSize, recovered) ← sm4DataRecover decryptBuf
  let cryptBuf ← memcpy cryptBuf 0 recovered
  if !(← dalloc0 heap outSize) then .error (-ENOMEM)
  else
    let bytes ← fetch cryptBuf 0 outSize.toNat
    let outputBuf ← memcpy (List.replicate outSize.toNat 0) 0 bytes
    pure (outSize, some outputBuf)

/-- `sm4_text_decrypt`, which does not read the password. An `int` must hold the length of
    the text and the size of the block. -/
def sm4TextDecrypt (heap : Heap) (stack input _passwd : List UInt8) :
    Outcome (Int × Option (List UInt8)) := do
  let inSize : Int := (← strlen input)
  if 2 ^ 31 ≤ inSize then .fault
  else if inSize = 0 then pure (0, none)
  else
    let cryptSize := radixToBinLen inSize
    if cryptSize.tmod 16 ≠ 0 then .error (-EINVAL)
    else if 2 ^ 31 ≤ cryptSize * 2 then .fault
    else if !(← talloc heap (cryptSize * 2)) then .error (-EINVAL)
    else decryptText heap stack cryptSize

/-- The text is given back with its end, on a stack with those bytes. -/
def GivenBack (heap : Heap) (stack text passwd : List UInt8) : Prop :=
  ∃ output, sm4TextCrypt heap (text ++ [0]) passwd = .done ((output.length : Int), some output) ∧
    sm4TextDecrypt heap stack output passwd = .done ((text.length : Int) + 1, some (text ++ [0]))

/-- A text is given back whatever was on the stack. -/
def RoundTrips (heap : Heap) (text passwd : List UInt8) : Prop :=
  ∀ stack : List UInt8, stack.length = 32 → GivenBack heap stack text passwd

/-- The size of the blocks that a text with its end is padded to. -/
def cryptSize (text : List UInt8) : Nat := ((text.length + 1) / 16 + 1) * 16

/-! ## The blocks -/

/-- The blocks behind the front are encrypted, to the bytes behind the front of the output. -/
theorem ecbLoop_eq (sk : List UInt64) (blocks : List (List UInt8))
    (hblocks : ∀ b ∈ blocks, b.length = 16) {rounds : Nat} (hrounds : blocks.length < rounds)
    (front back done : List UInt8) (hfront : front.length = done.length) {rest : List UInt8}
    (hrest : rest.length = 16 * blocks.length) :
    ecbLoop sk (done.length + 16 * blocks.length : Nat) (front ++ (blocks.flatten ++ back)) rounds
        done.length (done ++ rest) =
      .done (done ++ (blocks.map (sm4OneRound sk)).flatten) := by
  induction blocks generalizing rounds front done rest with
  | nil =>
    obtain ⟨n, rfl⟩ := Nat.exists_eq_succ_of_ne_zero (Nat.ne_zero_of_lt hrounds)
    obtain rfl := List.eq_nil_of_length_eq_zero hrest
    rw [ecbLoop, if_neg (by rw [List.length_nil]; omega)]
    rfl
  | cons b blocks ih =>
    obtain ⟨n, rfl⟩ := Nat.exists_eq_succ_of_ne_zero (Nat.ne_zero_of_lt hrounds)
    have hb : b.length = 16 := hblocks b List.mem_cons_self
    rw [List.length_cons] at hrest hrounds
    have hfetch : fetch (front ++ ((b :: blocks).flatten ++ back)) done.length 16 = .done b := by
      rw [List.flatten_cons, List.append_assoc, ← hfront, ← hb]
      exact fetch_append front b _
    have hmemcpy : memcpy (done ++ rest) done.length (sm4OneRound sk b) =
        .done (done ++ sm4OneRound sk b ++ rest.drop 16) :=
      memcpy_append done (by rw [length_sm4OneRound]; omega)
    rw [ecbLoop, if_pos (by rw [List.length_cons]; omega), Int.toNat_natCast, hfetch,
      Outcome.done_bind, hmemcpy, Outcome.done_bind]
    have hfront' : (front ++ b).length = (done ++ sm4OneRound sk b).length := by
      rw [List.length_append, List.length_append, length_sm4OneRound, hb, hfront]
    have hrest' : (rest.drop 16).length = 16 * blocks.length := by
      rw [List.length_drop, hrest]
      omega
    have hloop := ih (fun c hc => hblocks c (List.mem_cons_of_mem _ hc))
      (Nat.lt_of_succ_lt_succ hrounds) (front ++ b) (done ++ sm4OneRound sk b) hfront' hrest'
    rw [List.length_append, length_sm4OneRound] at hloop
    have hi : ((done.length : Int) + 16) = (done.length + 16 : Nat) := by omega
    have hsize : done.length + 16 * (blocks.length + 1) = done.length + 16 + 16 * blocks.length := by
      omega
    rw [List.length_cons, hi, hsize, List.map_cons, List.flatten_cons, List.flatten_cons,
      ← List.append_assoc done, ← hloop]
    simp only [List.append_assoc]

/-- Whole blocks are encrypted to a block of their size. -/
theorem ecbLoop_blocks (sk : List UInt64) (blocks : List (List UInt8))
    (hblocks : ∀ b ∈ blocks, b.length = 16) {cryptSize : Nat} (hsize : cryptSize = 16 * blocks.length)
    (back : List UInt8) :
    ecbLoop sk cryptSize (blocks.flatten ++ back) (cryptSize + 1) 0 (List.replicate cryptSize 0) =
      .done (blocks.map (sm4OneRound sk)).flatten := by
  have hrounds : blocks.length < cryptSize + 1 := by omega
  have hrest : (List.replicate cryptSize (0 : UInt8)).length = 16 * blocks.length := by
    rw [List.length_replicate, hsize]
  have hloop := ecbLoop_eq sk blocks hblocks hrounds [] back [] rfl hrest
  rw [List.length_nil, Nat.zero_add, ← hsize] at hloop
  exact hloop

/-- A text with its end, padded to blocks. -/
def padded (text : List UInt8) : List UInt8 :=
  text ++ [0] ++ List.replicate (16 - (text.length + 1) % 16) (UInt8.ofNat (16 - (text.length + 1) % 16))

theorem length_padded (text : List UInt8) : (padded text).length = cryptSize text := by
  rw [padded, cryptSize, List.length_append, List.length_append, List.length_singleton,
    List.length_replicate]
  omega

theorem sm4DataPrepare_text {text : List UInt8} (hfits : cryptSize text < 2 ^ 31) :
    sm4DataPrepare (text ++ [0]) = .done ((cryptSize text : Int), padded text) := by
  have hlen : (text ++ [0]).length = text.length + 1 := List.length_append
  have hpad : 16 - (text ++ [0]).length % 16 = 16 - (text.length + 1) % 16 := by rw [hlen]
  have hsum : ((text ++ [0]).length : Int) + (16 - (text.length + 1) % 16 : Nat) = cryptSize text := by
    rw [hlen, cryptSize]
    omega
  rw [sm4DataPrepare_eq hpad (by rw [hsum]; omega), hsum]
  rfl

/-! ## The two functions -/

theorem inSize_cryptSize (text : List UInt8) :
    (((text.length : Int) + 1).tdiv 16 + 1) * 16 = cryptSize text := by
  rw [Int.tdiv_eq_ediv_of_nonneg (by omega), cryptSize]
  omega

theorem binToRadix64Len_fault {n : Nat} (h : ¬ n * 4 + 2 < 2 ^ 31) : binToRadix64Len n = .fault := by
  rw [binToRadix64Len, if_neg (by omega)]

section Crypt

variable {heap : Heap} {text : List UInt8} (htext : 0 ∉ text) (passwd : List UInt8)

/-- The padding of a text is encrypted block by block, and written as radix 64. -/
theorem cryptText_eq (text passwd : List UInt8) (hfits : cryptSize text < 2 ^ 31) :
    ∃ radix64, 0 ∉ radix64 ∧ radix64.length = (cryptSize text * 4 + 2) / 3 ∧
      cryptText (text ++ [0]) passwd ((text.length : Int) + 1) (cryptSize text)
        (((cryptSize text * 4 + 2) / 3 : Nat) + 1) =
        .done ((radix64.length : Int) + 1, some (radix64 ++ [0])) := by
  obtain ⟨blocks, rest, hblocks, hrest, hpadded⟩ := exists_blocks (padded text)
  -- the padding leaves whole blocks
  have hlen := length_padded text
  have hmod : cryptSize text % 16 = 0 := Nat.mul_mod_left _ _
  rw [hpadded, List.length_append, length_flatten_blocks hblocks] at hlen
  obtain rfl : rest = [] := List.eq_nil_of_length_eq_zero (by omega)
  rw [List.append_nil] at hpadded
  rw [List.length_nil, Nat.add_zero] at hlen
  have hprepare := sm4DataPrepare_text hfits
  rw [hpadded] at hprepare
  generalize cryptSize text = size at *
  generalize hcipher : (blocks.map (sm4OneRound (sm4SetkeyEnc (keypass passwd)))).flatten = cipher
  have hcipherLen : cipher.length = size := by
    rw [← hcipher, length_flatten_blocks (List.forall_mem_map.2 fun _ _ => rfl), List.length_map, hlen]
  obtain ⟨radix64, hwritten, hnul, -, hradix, -⟩ := radix64ToBin_binToRadix64 cipher
  rw [hcipherLen] at hradix
  refine ⟨radix64, hnul, hradix, ?_⟩
  generalize hout : (size * 4 + 2) / 3 = out at *
  have htoNat : ((text.length : Int) + 1).toNat = (text ++ [0]).length := by
    rw [List.length_append, List.length_singleton]
    omega
  have houtNat : ((out : Int) + 1).toNat = out + 1 := by omega
  have hplain : blocks.flatten.length = size := by rw [length_flatten_blocks hblocks, hlen]
  have hfirst : memcpy (List.replicate (out + 1) 0) 0 blocks.flatten =
      .done (blocks.flatten ++ (List.replicate (out + 1) 0).drop blocks.flatten.length) :=
    memcpy_zero (by rw [List.length_replicate, hplain]; omega)
  -- the text fills the buffer with its end, over the blocks
  have hsecond : memcpy (blocks.flatten ++ (List.replicate (out + 1) 0).drop blocks.flatten.length) 0
      (radix64 ++ [0]) = .done (radix64 ++ [0]) := by
    have hlength : (radix64 ++ [0]).length =
        (blocks.flatten ++ (List.replicate (out + 1) (0 : UInt8)).drop blocks.flatten.length).length := by
      rw [List.length_append, List.length_append, List.length_drop, List.length_replicate, hplain,
        hradix, List.length_singleton]
      omega
    rw [memcpy_zero (Nat.le_of_eq hlength), hlength, List.drop_length, List.append_nil]
  have hthird : memcpy (radix64 ++ [0]) out [0] = .done (radix64 ++ [0]) := by
    rw [← hradix, memcpy_append radix64 (Nat.le_refl _), List.drop_length, List.append_nil]
  have hlast : ((out : Int) + 1 - 1).toNat = out := by omega
  rw [cryptText, htoNat, fetch_self, Outcome.done_bind, hprepare, Outcome.done_bind, houtNat]
  simp only [hfirst, Outcome.done_bind, ne_eq, not_true, if_false, Int.toNat_natCast,
    ecbLoop_blocks _ blocks hblocks hlen.symm, hcipher, hwritten, hsecond, hradix]
  rw [if_neg (by omega), hlast, hthird]
  rfl

include htext

/-- The sizes of a text must fit in an `int`. -/
theorem sm4TextCrypt_fault (hbig : ¬ cryptSize text * 4 + 2 < 2 ^ 31) :
    sm4TextCrypt heap (text ++ [0]) passwd = .fault := by
  have hne : ¬ ((text.length : Int) + 1 = 0) := by omega
  unfold sm4TextCrypt
  rw [strlen_cstr htext, Outcome.done_bind, if_neg hne]
  simp only [inSize_cryptSize]
  rw [binToRadix64Len_fault hbig]
  exact Outcome.fault_bind _

/-- A text of which the sizes fit is encrypted if there is the memory. -/
theorem sm4TextCrypt_fits (hfits : cryptSize text * 4 + 2 < 2 ^ 31) :
    sm4TextCrypt heap (text ++ [0]) passwd =
      if heap.ok (((cryptSize text * 4 + 2) / 3 : Nat) + 1 + 12) ∧ heap.ok (cryptSize text + 4) then
        cryptText (text ++ [0]) passwd ((text.length : Int) + 1) (cryptSize text)
          (((cryptSize text * 4 + 2) / 3 : Nat) + 1)
      else .error (-EINVAL) := by
  have hne : ¬ ((text.length : Int) + 1 = 0) := by omega
  unfold sm4TextCrypt
  rw [strlen_cstr htext, Outcome.done_bind, if_neg hne]
  simp only [inSize_cryptSize]
  rw [binToRadix64Len_eq hfits, Outcome.done_bind]
  generalize cryptSize text = size
  cases hout : heap.ok (((size * 4 + 2) / 3 : Nat) + 1 + 12) with
  | false =>
    rw [Message.dalloc0_none hout]
    rfl
  | true =>
    have hneg : ¬ (size : Int) < 0 := Int.not_lt.2 (Int.natCast_nonneg size)
    rw [Message.dalloc0_done hout (by omega)]
    cases hcrypt : heap.ok ((size : Int) + 4) with
    | false => simp [talloc, hcrypt]
    | true => simp [talloc, hcrypt, hneg]

theorem sm4TextCrypt_fault_iff :
    sm4TextCrypt heap (text ++ [0]) passwd = .fault ↔ 2 ^ 31 ≤ cryptSize text * 4 + 2 := by
  rcases Nat.lt_or_ge (cryptSize text * 4 + 2) (2 ^ 31) with hfits | hbig
  · refine iff_of_false ?_ (Nat.not_le_of_lt hfits)
    rw [sm4TextCrypt_fits htext passwd hfits]
    obtain ⟨radix64, -, -, heq⟩ := cryptText_eq text passwd (by omega)
    split_ifs
    · rw [heq]
      nofun
    · nofun
  · exact iff_of_true (sm4TextCrypt_fault htext passwd (Nat.not_lt_of_le hbig)) hbig

/-- What is encrypted is as long as the size of the blocks says. -/
theorem sm4TextCrypt_some {size : Int} {output : List UInt8}
    (h : sm4TextCrypt heap (text ++ [0]) passwd = .done (size, some output)) :
    ∃ radix64, output = radix64 ++ [0] ∧ 0 ∉ radix64 ∧
      radix64.length = (cryptSize text * 4 + 2) / 3 := by
  rcases Nat.lt_or_ge (cryptSize text * 4 + 2) (2 ^ 31) with hfits | hbig
  · rw [sm4TextCrypt_fits htext passwd hfits] at h
    obtain ⟨radix64, hnul, hlen, heq⟩ := cryptText_eq text passwd (by omega)
    split_ifs at h
    rw [heq] at h
    obtain ⟨-, hout⟩ := Outcome.pair_inj h
    exact ⟨radix64, (Option.some.inj hout).symm, hnul, hlen⟩
  · rw [sm4TextCrypt_fault htext passwd (Nat.not_lt_of_le hbig)] at h
    cases h

end Crypt

section Decrypt

variable {heap : Heap} {stack : List UInt8} {n : Nat}

/-- The block of zeros, decrypted under what was on the stack. -/
def zeroBlock (stack : List UInt8) : List UInt8 :=
  sm4OneRound (sm4SetkeyDec stack) (List.replicate 16 0)

theorem getLast?_flatten_replicate {b : List UInt8} {c : UInt8} (hb : b.getLast? = some c) (n : Nat) :
    (List.replicate (n + 1) b).flatten.getLast? = some c := by
  rw [List.replicate_succ', List.flatten_append, List.flatten_singleton, List.getLast?_append, hb]
  rfl

/-- Whatever the text is, blocks of zeros are decrypted, as many as it is long. -/
theorem decryptBuf_eq (stack : List UInt8) (n : Nat) :
    ecbLoop (sm4SetkeyDec stack) (16 * n : Nat) (List.replicate (16 * n) 0) (16 * n + 1) 0
      (List.replicate (16 * n) 0) = .done (List.replicate n (zeroBlock stack)).flatten := by
  have hzeros : List.replicate (16 * n) (0 : UInt8) =
      (List.replicate n (List.replicate 16 0)).flatten ++ [] := by
    rw [List.append_nil, List.flatten_replicate_replicate, Nat.mul_comm]
  have hsize : 16 * n = 16 * (List.replicate n (List.replicate 16 (0 : UInt8))).length := by
    rw [List.length_replicate]
  have hloop := ecbLoop_blocks (sm4SetkeyDec stack) (List.replicate n (List.replicate 16 0))
    (fun b hb => by rw [List.eq_of_mem_replicate hb, List.length_replicate]) hsize []
  rw [← hzeros, List.map_replicate] at hloop
  exact hloop

/-- A padding of 16 or more is refused. -/
theorem decryptText_refuse {padValue : UInt8} (hlast : (zeroBlock stack).getLast? = some padValue)
    (hbig : 16 ≤ padValue) : decryptText heap stack (16 * (n + 1) : Nat) = .error (-EINVAL) := by
  rw [decryptText, Int.toNat_natCast, decryptBuf_eq, Outcome.done_bind,
    sm4DataRecover_refuse (getLast?_flatten_replicate hlast n) hbig]
  rfl

/-- A smaller one is taken away. -/
theorem decryptText_small {padValue : UInt8} (hlast : (zeroBlock stack).getLast? = some padValue)
    (hsmall : ¬ 16 ≤ padValue) :
    decryptText heap stack (16 * (n + 1) : Nat) =
      if heap.ok ((16 * (n + 1) : Nat) - padValue.toNat + 12) then
        .done ((16 * (n + 1) : Nat) - padValue.toNat,
          some ((List.replicate (n + 1) (zeroBlock stack)).flatten.take
            (16 * (n + 1) - padValue.toNat)))
      else .error (-ENOMEM) := by
  have hlast' := getLast?_flatten_replicate hlast n
  have hbuf := decryptBuf_eq stack (n + 1)
  have hlen : (List.replicate (n + 1) (zeroBlock stack)).flatten.length = 16 * (n + 1) := by
    rw [length_flatten_blocks fun b hb => by rw [List.eq_of_mem_replicate hb]; rfl,
      List.length_replicate]
  generalize (List.replicate (n + 1) (zeroBlock stack)).flatten = plain at *
  have hlt : padValue.toNat < 16 := UInt8.lt_iff_toNat_lt.1 (UInt8.not_le.1 hsmall)
  have hrecover := sm4DataRecover_eq hlast' hsmall (by omega)
  rw [hlen] at hrecover
  generalize hsize : 16 * (n + 1) = size at *
  have hout : ((size : Int) - padValue.toNat) = (size - padValue.toNat : Nat) := by omega
  rw [hout] at hrecover ⊢
  have hle : size - padValue.toNat ≤ size := Nat.sub_le _ _
  generalize size - padValue.toNat = out at *
  have htake : (plain.take out).length = out := by rw [List.length_take, hlen, Nat.min_eq_left hle]
  have hfirst : memcpy (List.replicate size 0) 0 (plain.take out) =
      .done (plain.take out ++ (List.replicate size 0).drop out) := by
    rw [memcpy_zero (by rw [htake, List.length_replicate]; exact hle), htake]
  have hfetch : fetch (plain.take out ++ (List.replicate size 0).drop out) 0 out =
      .done (plain.take out) := by
    have h := fetch_append [] (plain.take out) ((List.replicate size 0).drop out)
    rwa [htake] at h
  have hsecond : memcpy (List.replicate out 0) 0 (plain.take out) = .done (plain.take out) := by
    rw [memcpy_zero (by rw [htake, List.length_replicate]), htake, List.drop_eq_nil_of_le
      (by rw [List.length_replicate]), List.append_nil]
  rw [decryptText, Int.toNat_natCast, hbuf, Outcome.done_bind, hrecover, Outcome.done_bind]
  simp only [hfirst, Outcome.done_bind, Int.toNat_natCast]
  cases hok : heap.ok ((out : Int) + 12) with
  | false =>
    rw [Message.dalloc0_none hok]
    rfl
  | true =>
    rw [Message.dalloc0_done hok (Int.natCast_nonneg out), Outcome.done_bind, hfetch,
      Outcome.done_bind, hsecond]
    rfl

theorem decryptText_ne_fault (heap : Heap) (stack : List UInt8) (n : Nat) :
    decryptText heap stack (16 * (n + 1) : Nat) ≠ .fault := by
  obtain ⟨padValue, hlast⟩ : ∃ padValue, (zeroBlock stack).getLast? = some padValue := ⟨_, rfl⟩
  rcases Decidable.em (16 ≤ padValue) with hbig | hsmall
  · rw [decryptText_refuse hlast hbig]
    nofun
  · rw [decryptText_small hlast hsmall]
    split <;> nofun

/-- Under a key of zeros, the last byte is no padding. -/
theorem decryptText_zero (heap : Heap) (n : Nat) :
    decryptText heap (List.replicate 32 0) (16 * (n + 1) : Nat) = .error (-EINVAL) := by
  -- the last byte of the block of zeros, decrypted under the key of zeros
  have hlast : (zeroBlock (List.replicate 32 0)).getLast? = some 110 := by decide +kernel
  exact decryptText_refuse hlast (by decide)

/-- The size of the blocks is a multiple of theirs, if it is at all. -/
theorem exists_blocks_of_mod {size : Int} (hpos : 0 < size) (hmod : size.tmod 16 = 0) :
    ∃ n : Nat, size = (16 * (n + 1) : Nat) := by
  rw [Int.tmod_eq_emod_of_nonneg (Int.le_of_lt hpos)] at hmod
  exact ⟨(size / 16 - 1).toNat, by omega⟩

theorem radixToBinLen_pos {len : Nat} (hpos : len ≠ 0) (hmod : (radixToBinLen len).tmod 16 = 0) :
    0 < radixToBinLen len := by
  have hrem : (len : Int).tmod 4 = (len % 4 : Nat) := Int.tmod_eq_emod_of_nonneg (by omega)
  have hdiv : (len : Int).tdiv 4 = (len / 4 : Nat) := Int.tdiv_eq_ediv_of_nonneg (by omega)
  rw [radixToBinLen, hrem, hdiv] at hmod ⊢
  split_ifs at hmod ⊢
  · exact absurd hmod (by decide)
  · omega
  · omega

/-- What is decrypted of a text that is not too long. -/
theorem sm4TextDecrypt_cases {input : List UInt8} {len : Nat} (hlen : strlen input = .done len)
    (heap : Heap) (stack passwd : List UInt8) :
    sm4TextDecrypt heap stack input passwd =
      if 2 ^ 31 ≤ (len : Int) then .fault
      else if len = 0 then .done (0, none)
      else if (radixToBinLen len).tmod 16 ≠ 0 then .error (-EINVAL)
      else if 2 ^ 31 ≤ radixToBinLen len * 2 then .fault
      else if heap.ok (radixToBinLen len * 2 + 4) then decryptText heap stack (radixToBinLen len)
      else .error (-EINVAL) := by
  unfold sm4TextDecrypt
  rw [hlen, Outcome.done_bind]
  simp only [Int.natCast_eq_zero]
  refine if_congr Iff.rfl rfl (if_ctx_congr Iff.rfl (fun _ => rfl) fun hne => ?_)
  refine if_ctx_congr Iff.rfl (fun _ => rfl) fun hmod => if_congr Iff.rfl rfl ?_
  have hpos := radixToBinLen_pos hne (Decidable.of_not_not hmod)
  have hneg : ¬ radixToBinLen len * 2 < 0 := by omega
  cases hok : heap.ok (radixToBinLen len * 2 + 4) <;> simp [talloc, hok, hneg]

/-- Nothing is given back under a key of zeros. -/
theorem sm4TextDecrypt_zero (heap : Heap) (input passwd : List UInt8) (size : Int)
    (output : List UInt8) :
    sm4TextDecrypt heap (List.replicate 32 0) input passwd ≠ .done (size, some output) := by
  cases hlen : strlen input with
  | fault | error =>
    unfold sm4TextDecrypt
    rw [hlen]
    nofun
  | done len =>
    rw [sm4TextDecrypt_cases hlen]
    split_ifs with hbig hzero hmod hsize hok
    · nofun
    · nofun
    · nofun
    · nofun
    · obtain ⟨n, hn⟩ := exists_blocks_of_mod (radixToBinLen_pos hzero (Decidable.of_not_not hmod))
        (Decidable.of_not_not hmod)
      rw [hn, decryptText_zero]
      nofun
    · nofun

theorem sm4TextDecrypt_fault_iff {text : List UInt8} (htext : 0 ∉ text) (heap : Heap)
    (stack passwd : List UInt8) :
    sm4TextDecrypt heap stack (text ++ [0]) passwd = .fault ↔
      2 ^ 31 ≤ text.length ∨ text ≠ [] ∧ (radixToBinLen text.length).tmod 16 = 0 ∧
        2 ^ 31 ≤ radixToBinLen text.length * 2 := by
  rw [sm4TextDecrypt_cases (strlen_cstr htext), ← List.length_pos_iff]
  split_ifs with hbig hzero hmod hsize hok
  · exact iff_of_true rfl (.inl (by omega))
  · -- the text without characters returns at once
    exact iff_of_false nofun (by omega)
  · exact iff_of_false nofun fun h => h.elim (by omega) fun h => hmod h.2.1
  · exact iff_of_true rfl (.inr ⟨by omega, Decidable.of_not_not hmod, hsize⟩)
  · obtain ⟨n, hn⟩ := exists_blocks_of_mod (radixToBinLen_pos hzero (Decidable.of_not_not hmod))
      (Decidable.of_not_not hmod)
    rw [hn]
    exact iff_of_false (decryptText_ne_fault heap stack n) (by omega)
  · exact iff_of_false nofun fun h => h.elim (by omega) fun h => hsize h.2.2

end Decrypt

/-! ## The round trip -/

variable {heap : Heap} {stack text text' passwd passwd' : List UInt8}

theorem not_roundTrips (heap : Heap) (text passwd : List UInt8) : ¬ RoundTrips heap text passwd := by
  intro h
  obtain ⟨output, -, hback⟩ := h (List.replicate 32 0) List.length_replicate
  exact sm4TextDecrypt_zero heap output passwd _ _ hback

/-- Of the texts that are padded to one size, at most one is given back. -/
theorem givenBack_unique (htext : 0 ∉ text) (htext' : 0 ∉ text')
    (hsize : cryptSize text = cryptSize text') (h : GivenBack heap stack text passwd)
    (h' : GivenBack heap stack text' passwd') : text = text' := by
  obtain ⟨output, hcrypt, hback⟩ := h
  obtain ⟨output', hcrypt', hback'⟩ := h'
  obtain ⟨radix64, rfl, hnul, hlen⟩ := sm4TextCrypt_some htext passwd hcrypt
  obtain ⟨radix64', rfl, hnul', hlen'⟩ := sm4TextCrypt_some htext' passwd' hcrypt'
  -- what is decrypted depends on the length of the text alone
  rw [sm4TextDecrypt_cases (strlen_cstr hnul)] at hback
  rw [sm4TextDecrypt_cases (strlen_cstr hnul'), hlen', ← hsize, ← hlen, hback] at hback'
  obtain ⟨-, hout⟩ := Outcome.pair_inj hback'
  exact List.append_cancel_right (Option.some.inj hout)

/-- A text is not given back under every content of the array for the key, and no other
    text of its size is under a content under which it is, whatever the passwords; the
    functions stay inside their buffers but for texts of which an `int` does not hold the
    sizes. -/
theorem textCipher_never (heap : Heap) {text : List UInt8} (htext : 0 ∉ text)
    (passwd : List UInt8) :
    ¬ RoundTrips heap text passwd ∧
      (∀ stack text' passwd' : List UInt8, 0 ∉ text' → cryptSize text = cryptSize text' →
        GivenBack heap stack text passwd → GivenBack heap stack text' passwd' → text = text') ∧
      (sm4TextCrypt heap (text ++ [0]) passwd = .fault ↔ 2 ^ 31 ≤ cryptSize text * 4 + 2) ∧
      ∀ stack : List UInt8, sm4TextDecrypt heap stack (text ++ [0]) passwd = .fault ↔
        2 ^ 31 ≤ text.length ∨ text ≠ [] ∧ (radixToBinLen text.length).tmod 16 = 0 ∧
          2 ^ 31 ≤ radixToBinLen text.length * 2 :=
  ⟨not_roundTrips heap text passwd, fun _ _ _ htext' => givenBack_unique htext htext',
    sm4TextCrypt_fault_iff htext passwd, fun stack => sm4TextDecrypt_fault_iff htext heap stack passwd⟩

theorem textCipher_never_hi :
    ¬ RoundTrips Heap.ample [0x68, 0x69] [0x70] ∧
      sm4TextCrypt Heap.ample ([0x68, 0x69] ++ [0]) [0x70] ≠ .fault :=
  have htext : (0 : UInt8) ∉ [0x68, 0x69] := by decide
  have h := textCipher_never Heap.ample htext [0x70]
  ⟨h.1, fun hfault => absurd (h.2.2.1.1 hfault) (by decide)⟩

/-- The text without characters is not given back, though there is memory. -/
theorem not_roundTrips_empty : ¬ ∀ text passwd : List UInt8, 0 ∉ text →
    RoundTrips Heap.ample text passwd :=
  fun h => not_roundTrips Heap.ample [] [0x70] (h [] [0x70] List.not_mem_nil)

end Cube.Crypto
