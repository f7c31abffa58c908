import Cube.Lib.Absorb
import Cube.Lib.Outcome
import Cube.Lib.Window
import Cube.Lib.Wire

/-!
# Digests of messages that come in pieces

The digests of `sm3_ext.c` and `sm3.c` take a message in pieces. The context counts the bytes
in two words, and has a buffer for a block of 64 bytes that is not complete. To finish, a
mark, zeros and the number of bits are taken like pieces of the message.

* `Holds.update`: after a piece the context holds the message so far, whatever the pieces.
* `Holds.finish`: the state in the end is that of the padded message.
-/

namespace Cube.Crypto

open Lib
open Absorb (absorb rest)

/-- `memcpy` to an offset of an array. -/
def copyTo {n : Nat} (mem : Vector UInt8 n) (addr : Nat) (src : List UInt8) :
    Outcome (Vector UInt8 n) :=
  if h : addr + src.length ≤ n then
    .done ⟨(patch mem.toList addr src).toArray, by
      rw [List.size_toArray, length_patch (by rwa [Vector.length_toList]), Vector.length_toList]⟩
  else .fault

/-- The state of a digest, the buffer and the count of `sm3_context_ext` and `sm3_context`:
    `total[0]` or `total_bytes_Low`, and `total[1]` or `total_bytes_High`. -/
structure BlockContext (σ : Type) where
  totalLow : UInt32
  totalHigh : UInt32
  state : σ
  buffer : Vector UInt8 64

/-- The bytes of a piece. Their number is an `int`. -/
structure Piece where
  bytes : List UInt8
  length_lt : bytes.length < 2 ^ 31

/-- `PUT_ULONG_BE` and `SPLIT_INTO_4_BYTES`. -/
def putUint32Be (n : UInt32) : List UInt8 :=
  [(n >>> 24).toUInt8, (n >>> 16).toUInt8, (n >>> 8).toUInt8, n.toUInt8]

/-- `GET_ULONG_BE` and `CONCAT_4_BYTES`. -/
def getUint32Be (b : List UInt8) (i : Nat) : UInt32 :=
  (b.getD i 0).toUInt32 <<< 24 ||| (b.getD (i + 1) 0).toUInt32 <<< 16 |||
    (b.getD (i + 2) 0).toUInt32 <<< 8 ||| (b.getD (i + 3) 0).toUInt32

/-- The words of a block. -/
def blockWords (data : List UInt8) : List UInt32 :=
  (List.range 16).map fun j => getUint32Be data (4 * j)

/-- `sm3_padding`. -/
def padding : List UInt8 := 0x80 :: List.replicate 63 0

section Digest

variable {σ : Type} (process : σ → List UInt8 → σ)

/-- The loop over the blocks of the input: the state, and the input that is left. -/
def processLoop : Nat → σ → List UInt8 → Outcome (σ × List UInt8)
  | 0, _, _ => .fault
  | rounds + 1, state, input =>
    if 64 ≤ input.length then processLoop rounds (process state (input.take 64)) (input.drop 64)
    else .done (state, input)

/-- The block in the buffer completed, if there is one and the input is enough: the state, the
    buffer, the input that is left, and where it goes in the buffer. -/
def completeBlock (ctx : BlockContext σ) (left : Nat) (input : List UInt8) :
    Outcome (σ × Vector UInt8 64 × List UInt8 × Nat) :=
  let fill := 64 - left
  if 0 < left ∧ fill ≤ input.length then do
    let buffer ← copyTo ctx.buffer left (input.take fill)
    .done (process ctx.state buffer.toList, buffer, input.drop fill, 0)
  else .done (ctx.state, ctx.buffer, input, left)

/-- What is left of the input, put in the buffer. -/
def copyRest (buffer : Vector UInt8 64) (left : Nat) (input : List UInt8) :
    Outcome (Vector UInt8 64) :=
  if 0 < input.length then copyTo buffer left input else .done buffer

/-- `sm3_update_ext`, and `SM3_update` behind the check of its arguments. -/
def blockUpdate (ctx : BlockContext σ) (input : List UInt8) : Outcome (BlockContext σ) :=
  if input.length = 0 then .done ctx
  else do
    let left := (ctx.totalLow &&& 0x3F).toNat
    let totalLow := ctx.totalLow + UInt32.ofNat input.length
    let totalHigh :=
      if totalLow < UInt32.ofNat input.length then ctx.totalHigh + 1 else ctx.totalHigh
    let (state, buffer, input, left) ← completeBlock process ctx left input
    let (state, input) ← processLoop process (input.length + 1) state input
    let buffer ← copyRest buffer left input
    .done { totalLow := totalLow, totalHigh := totalHigh, state := state, buffer := buffer }

/-- `sm3_finish_ext` and `SM3_final`, up to the output of the state. -/
def blockFinish (ctx : BlockContext σ) : Outcome (BlockContext σ) := do
  let high := ctx.totalLow >>> 29 ||| ctx.totalHigh <<< 3
  let low := ctx.totalLow <<< 3
  let msglen := putUint32Be high ++ putUint32Be low
  let last := ctx.totalLow &&& 0x3F
  let padn := if last < 56 then 56 - last else 120 - last
  let ctx ← blockUpdate process ctx (padding.take padn.toNat)
  blockUpdate process ctx msglen

end Digest

/-! ## The padded message -/

/-- The number of the bits of so many bytes, in 64 bits, the highest byte first. -/
def bitLength (n : Nat) : List UInt8 := (leBytes 8 (8 * n)).reverse

/-- A message with a mark, the zeros that complete a block, and the number of its bits. -/
def paddedBlocks (message : List UInt8) : List UInt8 :=
  message ++ 0x80 :: List.replicate ((119 - message.length % 64) % 64) 0 ++
    bitLength message.length

@[simp] theorem length_bitLength (n : Nat) : (bitLength n).length = 8 := by
  rw [bitLength, List.length_reverse, length_leBytes]

theorem leBytes_add (k l n : Nat) : leBytes (k + l) n = leBytes k n ++ leBytes l (n / 256 ^ k) := by
  induction k generalizing n with
  | zero => rw [Nat.zero_add, Nat.pow_zero, Nat.div_one, leBytes, List.nil_append]
  | succ k ih =>
    rw [Nat.add_right_comm, leBytes, leBytes, ih, List.cons_append, Nat.div_div_eq_div_mul,
      Nat.pow_succ']

theorem leBytes_mod (k n : Nat) : leBytes k (n % 256 ^ k) = leBytes k n := by
  have h := leBytes_leNat (leBytes k n)
  rwa [length_leBytes, leNat_leBytes] at h

theorem putUint32Be_eq (n : UInt32) : putUint32Be n = (leBytes 4 n.toNat).reverse := by
  have hshift (k : Nat) (hk : k < 32) : (n >>> UInt32.ofNat k).toUInt8 =
      UInt8.ofNat (n.toNat / 2 ^ k) := by
    refine UInt8.toNat_inj.1 ?_
    rw [UInt32.toNat_toUInt8, UInt32.toNat_shiftRight, UInt8.toNat_ofNat', UInt32.toNat_ofNat',
      Nat.shiftRight_eq_div_pow, Nat.mod_eq_of_lt (Nat.lt_trans hk (by decide)), Nat.mod_eq_of_lt hk]
  have h₀ : n.toUInt8 = UInt8.ofNat n.toNat := rfl
  simp only [putUint32Be, leBytes, List.reverse_cons, List.reverse_nil, List.nil_append,
    List.cons_append, Nat.div_div_eq_div_mul]
  rw [h₀]
  exact congrArg₂ _ (hshift 24 (by decide)) (congrArg₂ _ (hshift 16 (by decide))
    (congrArg₂ _ (hshift 8 (by decide)) rfl))

/-- The two words of a number of bytes, of which the lower 64 bits are counted. -/
structure Counts (totalLow totalHigh : UInt32) (n : Nat) : Prop where
  low_eq : totalLow.toNat = n % 2 ^ 32
  high_eq : totalHigh.toNat = n / 2 ^ 32 % 2 ^ 32

variable {totalLow totalHigh : UInt32} {n k : Nat}

theorem Counts.add (h : Counts totalLow totalHigh n) (hk : k < 2 ^ 32) :
    Counts (totalLow + UInt32.ofNat k)
      (if totalLow + UInt32.ofNat k < UInt32.ofNat k then totalHigh + 1 else totalHigh) (n + k) := by
  have hofNat : (UInt32.ofNat k).toNat = k := UInt32.toNat_ofNat_of_lt' hk
  have hlow : (totalLow + UInt32.ofNat k).toNat = (n + k) % 2 ^ 32 := by
    rw [UInt32.toNat_add, hofNat, h.low_eq, Nat.mod_add_mod]
  refine ⟨hlow, ?_⟩
  -- A carry is told by a sum that is less than what was added.
  have hcarry : totalLow + UInt32.ofNat k < UInt32.ofNat k ↔ (n + k) % 2 ^ 32 < k := by
    rw [UInt32.lt_iff_toNat_lt, hlow, hofNat]
  have hhigh := h.high_eq
  split_ifs with hlt
  · rw [UInt32.toNat_add, hhigh]
    have := hcarry.1 hlt
    have hone : (1 : UInt32).toNat = 1 := rfl
    omega
  · have := mt hcarry.2 hlt
    rw [hhigh]
    omega

/-- How much of a block is in the buffer. -/
theorem Counts.left_eq (h : Counts totalLow totalHigh n) : (totalLow &&& 0x3F).toNat = n % 64 := by
  have hmask : (0x3F : UInt32).toNat = 2 ^ 6 - 1 := rfl
  rw [UInt32.toNat_and, hmask, Nat.and_two_pow_sub_one_eq_mod, h.low_eq]
  omega

/-- The number of bits is written in two words. -/
theorem Counts.msglen_eq (h : Counts totalLow totalHigh n) :
    putUint32Be (totalLow >>> 29 ||| totalHigh <<< 3) ++ putUint32Be (totalLow <<< 3) =
      bitLength n := by
  have hlow : (totalLow <<< 3).toNat = 8 * n % 256 ^ 4 := by
    have hthree : (3 : UInt32).toNat % 32 = 3 := rfl
    rw [UInt32.toNat_shiftLeft, hthree, Nat.shiftLeft_eq, h.low_eq]
    omega
  have hhigh : (totalLow >>> 29 ||| totalHigh <<< 3).toNat = 8 * n / 256 ^ 4 % 256 ^ 4 := by
    have hthree : (3 : UInt32).toNat % 32 = 3 := rfl
    have htwentynine : (29 : UInt32).toNat % 32 = 29 := rfl
    have hlt := totalLow.toNat_lt
    have hsmall : totalLow.toNat / 2 ^ 29 < 2 ^ 3 := by omega
    have hsplit : totalHigh.toNat <<< 3 % 2 ^ 32 = 2 ^ 3 * (totalHigh.toNat % 2 ^ 29) := by
      rw [Nat.shiftLeft_eq]
      omega
    rw [UInt32.toNat_or, UInt32.toNat_shiftRight, UInt32.toNat_shiftLeft, hthree, htwentynine,
      Nat.shiftRight_eq_div_pow, hsplit, Nat.or_comm, ← Nat.two_pow_add_eq_or_of_lt hsmall,
      h.low_eq, h.high_eq]
    omega
  rw [putUint32Be_eq, putUint32Be_eq, hlow, hhigh, leBytes_mod, leBytes_mod, ← List.reverse_append,
    ← leBytes_add]
  rfl

/-! ## Contexts that hold a message -/

theorem copyTo_eq {m : Nat} (mem : Vector UInt8 m) (addr : Nat) (src : List UInt8)
    (h : addr + src.length ≤ m) :
    ∃ mem', copyTo mem addr src = .done mem' ∧ mem'.toList = patch mem.toList addr src := by
  refine ⟨_, dif_pos h, ?_⟩
  rw [Vector.toList_mk]

/-- The bytes that are put behind those in front of the buffer. -/
theorem exists_copyTo (buffer : Vector UInt8 64) {front more : List UInt8}
    (hfront : buffer.toList.take front.length = front) (hle : front.length + more.length ≤ 64) :
    ∃ buffer', copyTo buffer front.length more = .done buffer' ∧
      buffer'.toList.take (front.length + more.length) = front ++ more := by
  obtain ⟨buffer', hcopy, hlist⟩ := copyTo_eq buffer _ _ hle
  refine ⟨buffer', hcopy, ?_⟩
  rw [hlist, patch, hfront, ← List.length_append]
  exact List.take_left' rfl

theorem exists_copyRest (buffer : Vector UInt8 64) {front more : List UInt8}
    (hfront : buffer.toList.take front.length = front) (hle : front.length + more.length ≤ 64) :
    ∃ buffer', copyRest buffer front.length more = .done buffer' ∧
      buffer'.toList.take (front.length + more.length) = front ++ more := by
  by_cases hpos : 0 < more.length
  · obtain ⟨buffer', hcopy, hbuffer⟩ := exists_copyTo buffer hfront hle
    exact ⟨buffer', by rw [copyRest, if_pos hpos, hcopy], hbuffer⟩
  · have hnil : more = [] := List.eq_nil_of_length_eq_zero (Nat.eq_zero_of_not_pos hpos)
    subst hnil
    exact ⟨buffer, if_neg hpos, by rw [List.length_nil, Nat.add_zero, hfront, List.append_nil]⟩

section Digest

variable {σ : Type} (process : σ → List UInt8 → σ) (iv : σ)

/-- The context has taken the message: its whole blocks, and the bytes behind them. -/
structure Holds (ctx : BlockContext σ) (message : List UInt8) : Prop where
  state_eq : ctx.state = absorb process 64 iv message
  counts : Counts ctx.totalLow ctx.totalHigh message.length
  buffer_eq : ctx.buffer.toList.take (message.length % 64) = rest 64 message

/-- The context at the start, whatever is in its buffer. -/
theorem holds_start (buffer : Vector UInt8 64) :
    Holds process iv { totalLow := 0, totalHigh := 0, state := iv, buffer := buffer } [] where
  state_eq := (Absorb.absorb_short (by decide)).1.symm
  counts := ⟨rfl, rfl⟩
  buffer_eq := rfl

variable {process iv} {ctx : BlockContext σ} {message input : List UInt8} {state : σ}

theorem processLoop_eq {rounds : Nat} (h : input.length < 64 * rounds) :
    processLoop process rounds state input =
      .done (absorb process 64 state input, rest 64 input) := by
  induction rounds generalizing state input with
  | zero => omega
  | succ rounds ih =>
    rw [processLoop]
    split_ifs with hle
    · obtain ⟨habsorb, hrest⟩ := Absorb.absorb_block (f := process) (s := state)
        (Nat.zero_lt_succ 63) (List.length_take_of_le hle) (input.drop 64)
      rw [List.take_append_drop] at habsorb hrest
      rw [ih (by rw [List.length_drop]; omega), habsorb, hrest]
    · obtain ⟨habsorb, hrest⟩ :=
        Absorb.absorb_short (f := process) (s := state) (Nat.lt_of_not_le hle)
      rw [habsorb, hrest]

/-- The first step of an update. Where it stands in the blocks, the input that is left goes
    on behind `left`. -/
theorem Holds.completeBlock (h : Holds process iv ctx message) (input : List UInt8) :
    ∃ state buffer more left,
      completeBlock process ctx (message.length % 64) input =
        .done (state, buffer, more, left.length) ∧
      absorb process 64 state more = absorb process 64 iv (message ++ input) ∧
      rest 64 (message ++ input) = left ++ rest 64 more ∧
      buffer.toList.take left.length = left ∧ left.length + (rest 64 more).length ≤ 64 := by
  have hpos : 0 < 64 := by decide
  have hlen : (rest 64 message).length = message.length % 64 := Absorb.length_rest 64 message
  have hlt : message.length % 64 < 64 := Nat.mod_lt _ hpos
  have hmore (more : List UInt8) : (rest 64 more).length < 64 := Absorb.length_rest_lt hpos more
  rw [Crypto.completeBlock]
  by_cases hfill : 0 < message.length % 64 ∧ 64 - message.length % 64 ≤ input.length
  · -- The input completes the block: it is filled up, and processed.
    have htake : (input.take (64 - message.length % 64)).length = 64 - message.length % 64 :=
      List.length_take_of_le hfill.2
    obtain ⟨block, hcopy, hblock⟩ := copyTo_eq ctx.buffer (message.length % 64)
      (input.take (64 - message.length % 64)) (by omega)
    have hfull : block.toList = rest 64 message ++ input.take (64 - message.length % 64) := by
      rw [hblock, patch, h.buffer_eq, htake, Nat.add_sub_cancel' hlt.le,
        List.drop_eq_nil_of_le (Vector.length_toList ..).le, List.append_nil]
    obtain ⟨habsorb, hrest⟩ := Absorb.absorb_fill (f := process) (s := iv) hpos
      (l := message) (m := input) (by omega)
    rw [hlen] at habsorb hrest
    refine ⟨process ctx.state block.toList, block, input.drop (64 - message.length % 64), [],
      ?_, ?_, ?_, rfl, ?_⟩
    · rw [if_pos hfill, hcopy]
      rfl
    · rw [habsorb, hfull, h.state_eq]
    · rw [hrest, List.nil_append]
    · rw [List.length_nil, Nat.zero_add]
      exact (hmore _).le
  · refine ⟨ctx.state, ctx.buffer, input, rest 64 message, ?_, ?_⟩
    · rw [if_neg hfill, hlen]
    have hbuffer : ctx.buffer.toList.take (rest 64 message).length = rest 64 message := by
      rw [hlen, h.buffer_eq]
    rcases Nat.eq_zero_or_pos (message.length % 64) with hzero | hleft
    · -- Nothing was left.
      have hnil : rest 64 message = [] := List.eq_nil_of_length_eq_zero (hlen.trans hzero)
      obtain ⟨habsorb, hrest⟩ := Absorb.absorb_append (f := process) hpos iv message input
      rw [hnil, List.nil_append] at habsorb hrest
      rw [hnil, h.state_eq, List.nil_append]
      refine ⟨habsorb.symm, hrest, rfl, ?_⟩
      rw [List.length_nil, Nat.zero_add]
      exact (hmore input).le
    · -- The input is left with what was left.
      have hshort : (rest 64 message).length + input.length < 64 := by omega
      obtain ⟨habsorb, hrest⟩ := Absorb.absorb_keep (f := process) (s := iv) hpos hshort
      obtain ⟨habsorb', hrest'⟩ := Absorb.absorb_short (f := process) (b := 64) (s := ctx.state)
        (Nat.lt_of_le_of_lt (Nat.le_add_left input.length _) hshort)
      rw [habsorb, hrest, habsorb', hrest', h.state_eq]
      exact ⟨rfl, rfl, hbuffer, hshort.le⟩

/-- After an update the context holds the message with the input behind it. -/
theorem Holds.update (h : Holds process iv ctx message) (hlen : input.length < 2 ^ 32) :
    ∃ ctx', blockUpdate process ctx input = .done ctx' ∧
      Holds process iv ctx' (message ++ input) := by
  by_cases hnil : input.length = 0
  · obtain rfl := List.eq_nil_of_length_eq_zero hnil
    exact ⟨ctx, if_pos rfl, by rwa [List.append_nil]⟩
  have hcounts := h.counts.add hlen
  rw [← List.length_append] at hcounts
  obtain ⟨state, buffer, more, left, hcomplete, hstate, hrest, hbuffer, hle⟩ :=
    h.completeBlock input
  obtain ⟨buffer', hcopy, hbuffer'⟩ := exists_copyRest buffer hbuffer hle
  rw [blockUpdate, if_neg hnil]
  simp only [h.counts.left_eq]
  rw [hcomplete, Outcome.done_bind, processLoop_eq (by omega), Outcome.done_bind, hcopy]
  refine ⟨_, rfl, hstate, hcounts, ?_⟩
  rw [← Absorb.length_rest, hrest, List.length_append, hbuffer']

/-- The mark and the zeros that are taken to finish. -/
theorem take_padding (hn : n ≤ 63) : padding.take (n + 1) = 0x80 :: List.replicate n 0 := by
  rw [padding, List.take_succ_cons, List.take_replicate, Nat.min_eq_left hn]

/-- The context in the end holds the padded message, which is a number of blocks. -/
theorem Holds.finish (h : Holds process iv ctx message) :
    ∃ ctx', blockFinish process ctx = .done ctx' ∧
      ctx'.state = absorb process 64 iv (paddedBlocks message) := by
  have hlt : message.length % 64 < 64 := Nat.mod_lt _ (Nat.zero_lt_succ 63)
  have hpadn : (if ctx.totalLow &&& 0x3F < 56 then 56 - (ctx.totalLow &&& 0x3F)
      else 120 - (ctx.totalLow &&& 0x3F)).toNat = (119 - message.length % 64) % 64 + 1 := by
    have hleft := h.counts.left_eq
    have h56 : (56 : UInt32).toNat = 56 := rfl
    have h120 : (120 : UInt32).toNat = 120 := rfl
    split_ifs with hsmall
    · rw [UInt32.lt_iff_toNat_lt, hleft, h56] at hsmall
      rw [UInt32.toNat_sub_of_le _ _ (by rw [UInt32.le_iff_toNat_le, hleft, h56]; omega), hleft, h56]
      omega
    · rw [UInt32.lt_iff_toNat_lt, hleft, h56] at hsmall
      rw [UInt32.toNat_sub_of_le _ _ (by rw [UInt32.le_iff_toNat_le, hleft, h120]; omega), hleft,
        h120]
      omega
  have hzeros : (119 - message.length % 64) % 64 ≤ 63 := by omega
  rw [blockFinish]
  simp only [hpadn, h.counts.msglen_eq, take_padding hzeros]
  have hmarklen : (0x80 :: List.replicate ((119 - message.length % 64) % 64) 0 : List UInt8).length <
      2 ^ 32 := by
    rw [List.length_cons, List.length_replicate]
    omega
  have hbits : (bitLength message.length).length < 2 ^ 32 := by
    rw [length_bitLength]
    decide
  obtain ⟨ctx₁, hmark, h₁⟩ := h.update hmarklen
  obtain ⟨ctx₂, hlength, h₂⟩ := h₁.update hbits
  refine ⟨ctx₂, ?_, h₂.state_eq⟩
  rw [hmark, Outcome.done_bind, hlength]

end Digest

end Cube.Crypto
