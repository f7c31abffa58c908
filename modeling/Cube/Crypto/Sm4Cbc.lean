import Cube.Crypto.Context
import Cube.Lib.Chain

/-!
# Chains of blocks under SM4

The two modes of `sm4.c` for more than one block: each block by itself (`sm4_crypt_ecb`), and each
block mixed with the one before (`sm4_crypt_cbc`), from the block `iv` on, which holds the last
block in the end. The bytes are read from memory and written to it. They may be written over those
that are read, or before them.

* `xorLoop_eq`: a block that is mixed with another byte by byte, in memory.
* `cryptLoop_eq`: what a call writes, if its turns do what they should to a block.
* `cbc_roundTrip`: what was encrypted is decrypted, in whatever calls either is done.
-/

namespace Cube.Crypto

open Lib Chain

/-- `SM4_ENCRYPT`. -/
def SM4_ENCRYPT : Int := 1

/-- `SM4_DECRYPT`. -/
def SM4_DECRYPT : Int := 0

/-- The block `iv`, and the memory that is read and written. -/
structure CbcState where
  iv : List UInt8
  mem : List UInt8
  deriving DecidableEq, Repr

/-- The loop over the bytes of a block, `output[i] = input[i] ^ iv[i]`. -/
def xorLoop (iv : List UInt8) (input output : Nat) : Nat → Nat → List UInt8 → Outcome (List UInt8)
  | 0, _, mem => .done mem
  | n + 1, i, mem => do
    let byte ← fetch mem (input + i) 1
    let mem ← memcpy mem (output + i) (byte.map (· ^^^ iv.getD i 0))
    xorLoop iv input output n (i + 1) mem

/-- A turn of `sm4_crypt_ecb`. -/
def ecbTurn (sk : List UInt64) (input output : Nat) (s : CbcState) : Outcome CbcState := do
  let block ← fetch s.mem input 16
  let mem ← memcpy s.mem output (sm4OneRound sk block)
  .done { s with mem := mem }

/-- A turn of `sm4_crypt_cbc` for encryption. The block is encrypted in its place. -/
def cbcEncrypt (sk : List UInt64) (input output : Nat) (s : CbcState) : Outcome CbcState := do
  let mem ← xorLoop s.iv input output 16 0 s.mem
  let block ← fetch mem output 16
  let mem ← memcpy mem output (sm4OneRound sk block)
  let iv ← fetch mem output 16
  .done ⟨iv, mem⟩

/-- A turn of `sm4_crypt_cbc` for decryption. The block is kept, as it may be written over. -/
def cbcDecrypt (sk : List UInt64) (input output : Nat) (s : CbcState) : Outcome CbcState := do
  let temp ← fetch s.mem input 16
  let block ← fetch s.mem input 16
  let mem ← memcpy s.mem output (sm4OneRound sk block)
  let mem ← xorLoop s.iv output output 16 0 mem
  .done ⟨temp, mem⟩

/-- The loop of both functions over the blocks, in as many rounds as the first argument says. -/
def cryptLoop (turn : Nat → Nat → CbcState → Outcome CbcState) :
    Nat → Int → Nat → Nat → CbcState → Outcome CbcState
  | 0, _, _, _, _ => .fault
  | rounds + 1, length, input, output, s =>
    if 0 < length then do
      let s ← turn input output s
      cryptLoop turn rounds (length - 16) (input + 16) (output + 16) s
    else .done s

/-- `sm4_crypt_ecb`, whose mode does not matter. -/
def sm4CryptEcb (sk : List UInt64) (length : Int) (input output : Nat) (s : CbcState) :
    Outcome CbcState := cryptLoop (ecbTurn sk) (length.toNat + 1) length input output s

/-- `sm4_crypt_cbc`. Any mode but `SM4_ENCRYPT` is for decryption. -/
def sm4CryptCbc (sk : List UInt64) (mode length : Int) (input output : Nat) (s : CbcState) :
    Outcome CbcState :=
  if mode = SM4_ENCRYPT then cryptLoop (cbcEncrypt sk) (length.toNat + 1) length input output s
  else cryptLoop (cbcDecrypt sk) (length.toNat + 1) length input output s

/-! ## Bytes in memory -/

variable {mem xs ys : List UInt8} {a b input output n : Nat}

theorem patch_nil : patch mem a [] = mem := by
  rw [patch, List.append_nil]
  exact List.take_append_drop a mem

/-- What is written behind what was written before. -/
theorem patch_patch (xs : List UInt8) (h : a + xs.length + ys.length ≤ mem.length) :
    patch (patch mem a xs) (a + xs.length) ys = patch mem a (xs ++ ys) := by
  have hlen : a + xs.length ≤ mem.length := by omega
  refine List.ext_getElem? fun i => ?_
  rw [getElem?_patch (by rw [length_patch hlen]; omega), getElem?_patch hlen,
    getElem?_patch (by rw [List.length_append]; omega), List.length_append]
  by_cases h₁ : i < a
  · rw [if_pos (by omega), if_pos h₁, if_pos h₁]
  by_cases h₂ : i < a + xs.length
  · rw [if_pos h₂, if_neg h₁, if_pos h₂, if_neg h₁, if_pos (by omega),
      List.getElem?_append_left (by omega)]
  by_cases h₃ : i < a + xs.length + ys.length
  · rw [if_neg h₂, if_pos h₃, if_neg h₁, if_pos (by omega), List.getElem?_append_right (by omega)]
    congr 1
    omega
  · rw [if_neg h₂, if_neg h₃, if_neg h₁, if_neg h₂, if_neg h₁, if_neg (by omega)]

/-- What is written over in the same place. -/
theorem patch_over (h : a + xs.length ≤ mem.length) (hlen : ys.length = xs.length) :
    patch (patch mem a xs) a ys = patch mem a ys := by
  refine List.ext_getElem? fun i => ?_
  rw [getElem?_patch (by rw [length_patch h]; omega), getElem?_patch h, getElem?_patch (by omega)]
  split_ifs <;> first | rfl | omega

/-- A window is read as before if what is written ends before it, or starts behind it. -/
theorem slice_patch_apart (h : a + xs.length ≤ mem.length) {c : Nat}
    (hapart : c ≤ a ∨ a + xs.length ≤ b) : slice (patch mem a xs) b c = slice mem b c :=
  hapart.elim (slice_patch_before h) (slice_patch_after h)

/-- Bytes are mixed. -/
def xorBlock (xs ys : List UInt8) : List UInt8 := List.zipWith (· ^^^ ·) xs ys

@[simp] theorem length_xorBlock (h : ys.length = xs.length) : (xorBlock xs ys).length = xs.length := by
  rw [xorBlock, List.length_zipWith, h, Nat.min_self]

/-- Bytes that are mixed twice are given back. -/
theorem xorBlock_xorBlock (h : ys.length = xs.length) : xorBlock (xorBlock xs ys) ys = xs := by
  induction xs generalizing ys with
  | nil => rfl
  | cons x xs ih =>
    cases ys with
    | nil => cases h
    | cons y ys =>
      have hxy : (x ^^^ y) ^^^ y = x := by rw [UInt8.xor_assoc, UInt8.xor_self, UInt8.xor_zero]
      exact congrArg₂ List.cons hxy (ih (Nat.succ.inj h))

/-- The window that is written does not reach what is read behind it: it starts not later, or
    behind all that is read. -/
def Apart (input output n : Nat) : Prop := output ≤ input ∨ input + n ≤ output

/-- The bytes of a block are mixed one by one. -/
theorem xorLoop_eq (iv : List UInt8) {i : Nat} (hiv : iv.length = i + n)
    (hin : input + i + n ≤ mem.length) (hout : output + i + n ≤ mem.length)
    (hapart : Apart input output (i + n)) :
    xorLoop iv input output n i mem =
      .done (patch mem (output + i) (xorBlock (slice mem (input + i) (input + i + n)) (iv.drop i))) := by
  induction n generalizing i mem with
  | zero =>
    rw [xorLoop, Nat.add_zero, slice_self]
    exact congrArg Outcome.done patch_nil.symm
  | succ n ih =>
    obtain ⟨x, hx⟩ : ∃ x, slice mem (input + i) (input + i + 1) = [x] :=
      List.length_eq_one_iff.1 ((length_slice (by omega)).trans (by omega))
    have hwindow : slice mem (input + i) (input + i + (n + 1)) =
        x :: slice mem (input + i + 1) (input + i + (n + 1)) := by
      rw [← slice_append_slice (b := input + i + 1) (by omega) (by omega), hx, List.singleton_append]
    have hdrop : iv.drop i = iv.getD i 0 :: iv.drop (i + 1) := by
      have hi : i < iv.length := by omega
      rw [List.drop_eq_getElem_cons hi, List.getD_eq_getElem?_getD, List.getElem?_eq_getElem hi,
        Option.getD_some]
    have hone : output + i + [x ^^^ iv.getD i 0].length ≤ mem.length := by
      rw [List.length_singleton]
      omega
    have hlen := length_patch hone
    have hnext : slice (patch mem (output + i) [x ^^^ iv.getD i 0]) (input + (i + 1))
        (input + (i + 1) + n) = slice mem (input + i + 1) (input + i + (n + 1)) := by
      rw [slice_patch_apart hone (by rw [List.length_singleton]; rcases hapart with h | h <;> omega)]
      congr 1
      omega
    have hmixed : (xorBlock (slice mem (input + i + 1) (input + i + (n + 1)))
        (iv.drop (i + 1))).length = n := by
      rw [length_xorBlock, length_slice (by omega)]
      · omega
      · rw [length_slice (by omega), List.length_drop]
        omega
    rw [xorLoop, fetch, if_pos (by omega), hx, Outcome.done_bind, List.map_singleton, memcpy_eq hone,
      Outcome.done_bind, ih (by omega) (by omega) (by omega)
        (by rcases hapart with h | h; exacts [.inl h, .inr (by omega)]), hnext, hwindow, hdrop]
    refine congrArg Outcome.done ?_
    exact patch_patch [x ^^^ iv.getD i 0] (by rw [hmixed, List.length_singleton]; omega)

theorem xorLoop_block {iv : List UInt8} (hiv : iv.length = 16) (hin : input + 16 ≤ mem.length)
    (hout : output + 16 ≤ mem.length) (hapart : Apart input output 16) :
    xorLoop iv input output 16 0 mem =
      .done (patch mem output (xorBlock (slice mem input (input + 16)) iv)) :=
  xorLoop_eq iv (i := 0) (n := 16) hiv hin hout hapart

/-! ## Turns -/

/-- What is done with a block of `sm4_crypt_ecb`. -/
def ecbStep (sk : List UInt64) (iv block : List UInt8) : List UInt8 × List UInt8 :=
  (iv, sm4OneRound sk block)

/-- What is done with a block for encryption: it is mixed with the one that was made before. -/
def encryptStep (sk : List UInt64) (iv block : List UInt8) : List UInt8 × List UInt8 :=
  (sm4OneRound sk (xorBlock block iv), sm4OneRound sk (xorBlock block iv))

/-- What is done with a block for decryption: it is mixed with the one that was read before. -/
def decryptStep (sk : List UInt64) (iv block : List UInt8) : List UInt8 × List UInt8 :=
  (block, xorBlock (sm4OneRound sk block) iv)

/-- A turn does to the block at the input what the step says, and puts it at the output. -/
structure Does (turn : Nat → Nat → CbcState → Outcome CbcState)
    (step : List UInt8 → List UInt8 → List UInt8 × List UInt8) : Prop where
  turn_eq : ∀ input output s, s.iv.length = 16 → input + 16 ≤ s.mem.length →
    output + 16 ≤ s.mem.length → Apart input output 16 →
    turn input output s =
      .done ⟨(step s.iv (slice s.mem input (input + 16))).1,
        patch s.mem output (step s.iv (slice s.mem input (input + 16))).2⟩
  length_eq : ∀ iv block, iv.length = 16 → block.length = 16 →
    (step iv block).1.length = 16 ∧ (step iv block).2.length = 16

variable {sk : List UInt64}

theorem fetch_eq (h : a + n ≤ mem.length) : fetch mem a n = .done (slice mem a (a + n)) := if_pos h

theorem does_ecb (sk : List UInt64) : Does (ecbTurn sk) (ecbStep sk) where
  turn_eq input output s hiv hin hout hapart := by
    rw [ecbTurn, fetch_eq hin, Outcome.done_bind, memcpy_eq hout, Outcome.done_bind, ecbStep]
  length_eq iv block hiv hblock := ⟨hiv, length_putBlock _⟩

theorem does_cbcEncrypt (sk : List UInt64) : Does (cbcEncrypt sk) (encryptStep sk) where
  turn_eq input output s hiv hin hout hapart := by
    have hblock : (slice s.mem input (input + 16)).length = 16 := by
      rw [length_slice hin, Nat.add_sub_cancel_left]
    have hmixed : (xorBlock (slice s.mem input (input + 16)) s.iv).length = 16 := by
      rw [length_xorBlock (hiv.trans hblock.symm), hblock]
    have hput : output + (xorBlock (slice s.mem input (input + 16)) s.iv).length ≤ s.mem.length := by
      rwa [hmixed]
    have hput' : output + (sm4OneRound sk (xorBlock (slice s.mem input (input + 16)) s.iv)).length ≤
        s.mem.length := hout
    rw [cbcEncrypt, xorLoop_block hiv hin hout hapart, Outcome.done_bind, fetch_eq (by rw [length_patch hput]; exact hout),
      Outcome.done_bind, slice_patch_self hput (by rw [hmixed]), memcpy_eq (by rwa [length_patch hput]),
      Outcome.done_bind, patch_over hput (by rw [hmixed]; rfl),
      fetch_eq (by rw [length_patch hput']; exact hout), Outcome.done_bind,
      slice_patch_self (b := output + 16) hput' rfl, encryptStep]
  length_eq iv block hiv hblock := ⟨length_putBlock _, length_putBlock _⟩

theorem does_cbcDecrypt (sk : List UInt64) : Does (cbcDecrypt sk) (decryptStep sk) where
  turn_eq input output s hiv hin hout hapart := by
    have hput : output + (sm4OneRound sk (slice s.mem input (input + 16))).length ≤ s.mem.length := hout
    have hlen := length_patch hput
    rw [cbcDecrypt, fetch_eq hin, Outcome.done_bind, Outcome.done_bind, memcpy_eq hout,
      Outcome.done_bind, xorLoop_block hiv (by rwa [hlen]) (by rwa [hlen]) (.inl (Nat.le_refl output)),
      Outcome.done_bind, slice_patch_self (b := output + 16) hput rfl, patch_over hput (length_xorBlock hiv), decryptStep]
  length_eq iv block hiv hblock := ⟨hblock, length_xorBlock hiv⟩

/-! ## Calls -/

variable {turn : Nat → Nat → CbcState → Outcome CbcState}
  {step : List UInt8 → List UInt8 → List UInt8 × List UInt8} {blocks : List (List UInt8)} {s : CbcState}

/-- The loop does to each block what the step says, from the state on that the blocks before it
    leave. A last block that the length only begins is taken as a whole. -/
theorem cryptLoop_eq (h : Does turn step) {length : Int} {rounds : Nat}
    (hblocks : ∀ b ∈ blocks, b.length = 16) (hle : length ≤ 16 * blocks.length)
    (hlt : blocks ≠ [] → 16 * (blocks.length : Int) < length + 16) (hrounds : blocks.length < rounds)
    (hiv : s.iv.length = 16)
    (hin : slice s.mem input (input + 16 * blocks.length) = blocks.flatten)
    (hin' : input + 16 * blocks.length ≤ s.mem.length)
    (hout : output + 16 * blocks.length ≤ s.mem.length)
    (hapart : Apart input output (16 * blocks.length)) :
    cryptLoop turn rounds length input output s =
      .done ⟨(chain step s.iv blocks).1, patch s.mem output (chain step s.iv blocks).2.flatten⟩ := by
  induction blocks generalizing length rounds input output s with
  | nil =>
    obtain ⟨n, rfl⟩ := Nat.exists_eq_succ_of_ne_zero (Nat.ne_zero_of_lt hrounds)
    rw [cryptLoop, if_neg (by simpa using hle), chain_nil, List.flatten_nil, patch_nil]
  | cons block blocks ih =>
    obtain ⟨n, rfl⟩ := Nat.exists_eq_succ_of_ne_zero (Nat.ne_zero_of_lt hrounds)
    obtain ⟨hblock, hblocks⟩ := List.forall_mem_cons.1 hblocks
    have hlt' := hlt (List.cons_ne_nil _ _)
    rw [List.length_cons] at hle hlt' hin hin' hout hapart hrounds
    have hsplit : slice s.mem input (input + 16) = block ∧
        slice s.mem (input + 16) (input + 16 + 16 * blocks.length) = blocks.flatten := by
      have hwhole : slice s.mem input (input + 16) ++
          slice s.mem (input + 16) (input + 16 + 16 * blocks.length) = block ++ blocks.flatten := by
        rw [slice_append_slice (by omega) (by omega), ← List.flatten_cons, ← hin]
        congr 1
        omega
      refine List.append_inj hwhole ?_
      rw [length_slice (by omega), hblock]
      omega
    obtain ⟨hstate, hmade⟩ := h.length_eq s.iv block hiv hblock
    have hput : output + (step s.iv block).2.length ≤ s.mem.length := by omega
    have hrest : slice (patch s.mem output (step s.iv block).2) (input + 16)
        (input + 16 + 16 * blocks.length) = blocks.flatten := by
      rw [slice_patch_apart hput (by rcases hapart with h | h <;> omega), hsplit.2]
    have hchained : (chain step (step s.iv block).1 blocks).2.flatten.length = 16 * blocks.length := by
      have hall := (chain_keeps (P := fun iv : List UInt8 => iv.length = 16)
        (R := fun b : List UInt8 => b.length = 16) h.length_eq hstate hblocks).2
      rw [length_flatten_blocks hall, length_chain]
    rw [cryptLoop, if_pos (by omega), h.turn_eq input output s hiv (by omega) (by omega)
      (by rcases hapart with h | h; exacts [.inl h, .inr (by omega)]), Outcome.done_bind, hsplit.1,
      ih hblocks (by omega) (by omega) (by omega) hstate hrest
        (by rw [length_patch hput]; omega) (by rw [length_patch hput]; omega)
        (by rcases hapart with h | h; exacts [.inl (by omega), .inr (by omega)]), chain_cons,
      List.flatten_cons]
    refine congrArg (fun mem => Outcome.done (CbcState.mk _ mem)) ?_
    have hnext : output + 16 = output + (step s.iv block).2.length := by rw [hmade]
    rw [hnext]
    exact patch_patch _ (by rw [hchained, hmade]; omega)

/-- Calls one after the other, on so many blocks each, which go on behind the ones before. -/
def cryptCalls (crypt : Int → Nat → Nat → CbcState → Outcome CbcState) :
    List Nat → Nat → Nat → CbcState → Outcome CbcState
  | [], _, _, s => .done s
  | n :: calls, input, output, s => do
    let s ← crypt (16 * n : Nat) input output s
    cryptCalls crypt calls (input + 16 * n) (output + 16 * n) s

/-- In whatever calls it is done, and wherever they are in memory, the bytes are turned to others,
    and `iv` to another block. -/
def Crypts (crypt : Int → Nat → Nat → CbcState → Outcome CbcState) (iv src last dst : List UInt8) :
    Prop :=
  ∀ (calls : List Nat) (mem : List UInt8) (input output : Nat), 16 * calls.sum = src.length →
    slice mem input (input + src.length) = src → input + src.length ≤ mem.length →
    output + src.length ≤ mem.length → Apart input output src.length →
    cryptCalls crypt calls input output ⟨iv, mem⟩ = .done ⟨last, patch mem output dst⟩

/-- The blocks are chained over the calls. -/
theorem crypts_chain (h : Does turn step) {crypt : Int → Nat → Nat → CbcState → Outcome CbcState}
    (hcrypt : ∀ length, crypt length = cryptLoop turn (length.toNat + 1) length) {iv : List UInt8}
    (hiv : iv.length = 16) (hblocks : ∀ b ∈ blocks, b.length = 16) :
    Crypts crypt iv blocks.flatten (chain step iv blocks).1 (chain step iv blocks).2.flatten := by
  intro calls mem input output hcalls hin hin' hout hapart
  rw [length_flatten_blocks hblocks] at hcalls hin hin' hout hapart
  have hsum : calls.sum = blocks.length := by omega
  clear hcalls
  induction calls generalizing iv mem input output blocks with
  | nil =>
    obtain rfl : blocks = [] := List.length_eq_zero_iff.1 hsum.symm
    rw [cryptCalls, chain_nil, List.flatten_nil, patch_nil]
  | cons n calls ih =>
    rw [List.sum_cons] at hsum
    -- The blocks of the first call, and those of the others.
    obtain ⟨first, rest, rfl, hfirst⟩ : ∃ first rest, blocks = first ++ rest ∧ first.length = n :=
      ⟨blocks.take n, blocks.drop n, (List.take_append_drop n blocks).symm, by
        rw [List.length_take]
        omega⟩
    obtain ⟨hfirst', hrest'⟩ := List.forall_mem_append.1 hblocks
    rw [List.length_append] at hsum hin hin' hout hapart
    have hbytes : slice mem input (input + 16 * n) = first.flatten ∧
        slice mem (input + 16 * n) (input + 16 * n + 16 * rest.length) = rest.flatten := by
      have hwhole : slice mem input (input + 16 * n) ++
          slice mem (input + 16 * n) (input + 16 * n + 16 * rest.length) =
          first.flatten ++ rest.flatten := by
        rw [slice_append_slice (by omega) (by omega), ← List.flatten_append, ← hin]
        congr 1
        omega
      refine List.append_inj hwhole ?_
      rw [length_slice (by omega), length_flatten_blocks hfirst']
      omega
    have hmade := chain_keeps (P := fun iv : List UInt8 => iv.length = 16)
      (R := fun b : List UInt8 => b.length = 16) h.length_eq hiv hfirst'
    have hlen : (chain step iv first).2.flatten.length = 16 * n := by
      rw [length_flatten_blocks hmade.2, length_chain, hfirst]
    have hlen' : (chain step (chain step iv first).1 rest).2.flatten.length = 16 * rest.length := by
      have hall := chain_keeps (P := fun iv : List UInt8 => iv.length = 16)
        (R := fun b : List UInt8 => b.length = 16) h.length_eq hmade.1 hrest'
      rw [length_flatten_blocks hall.2, length_chain]
    have hput : output + (chain step iv first).2.flatten.length ≤ mem.length := by omega
    have hcall : crypt (16 * n : Nat) input output ⟨iv, mem⟩ =
        .done ⟨(chain step iv first).1, patch mem output (chain step iv first).2.flatten⟩ := by
      rw [hcrypt]
      refine cryptLoop_eq (s := ⟨iv, mem⟩) h hfirst' (by omega) (fun _ => by omega) (by omega) hiv ?_
        (by rw [hfirst]; change input + 16 * n ≤ mem.length; omega)
        (by rw [hfirst]; change output + 16 * n ≤ mem.length; omega)
        (by rw [hfirst]; rcases hapart with h | h; exacts [.inl h, .inr (by omega)])
      rw [hfirst]
      exact hbytes.1
    have hkept : slice (patch mem output (chain step iv first).2.flatten) (input + 16 * n)
        (input + 16 * n + 16 * rest.length) = rest.flatten := by
      rw [slice_patch_apart hput (by rcases hapart with h | h <;> omega)]
      exact hbytes.2
    rw [cryptCalls, hcall, Outcome.done_bind, ih hmade.1 hrest' _ _ _ hkept
      (by rw [length_patch hput]; omega) (by rw [length_patch hput]; omega)
      (by rcases hapart with h | h; exacts [.inl (by omega), .inr (by omega)]) (by omega),
      chain_append, List.flatten_append]
    refine congrArg (fun mem => Outcome.done (CbcState.mk _ mem)) ?_
    have hnext : output + 16 * n = output + (chain step iv first).2.flatten.length := by rw [hlen]
    rw [hnext]
    exact patch_patch _ (by rw [hlen, hlen']; omega)

/-! ## Round trips -/

/-- Decryption of a block undoes its encryption, under the same `iv`. -/
theorem decryptStep_encryptStep (key : List UInt8) {iv block : List UInt8} (hiv : iv.length = 16)
    (hblock : block.length = 16) :
    decryptStep (sm4SetkeyDec key) iv (encryptStep (sm4SetkeyEnc key) iv block).2 =
      ((encryptStep (sm4SetkeyEnc key) iv block).1, block) := by
  have hlen : iv.length = block.length := hiv.trans hblock.symm
  have hmixed : (xorBlock block iv).length = 16 := (length_xorBlock hlen).trans hblock
  rw [decryptStep, encryptStep, sm4OneRound_dec key hmixed, xorBlock_xorBlock hlen]

/-- Bytes of whole blocks. -/
theorem exists_wholeBlocks {plain : List UInt8} (h : 16 ∣ plain.length) :
    ∃ blocks : List (List UInt8), (∀ b ∈ blocks, b.length = 16) ∧ plain = blocks.flatten := by
  obtain ⟨blocks, rest, hblocks, hrest, rfl⟩ := exists_blocks plain
  rw [List.length_append, length_flatten_blocks hblocks] at h
  obtain rfl : rest = [] := List.length_eq_zero_iff.1 (by omega)
  exact ⟨blocks, hblocks, List.append_nil _⟩

/-- What is encrypted by one function is decrypted by the other, if its steps undo those of the
    first. -/
theorem crypts_undo {turn' : Nat → Nat → CbcState → Outcome CbcState}
    {step' : List UInt8 → List UInt8 → List UInt8 × List UInt8}
    {crypt crypt' : Int → Nat → Nat → CbcState → Outcome CbcState} (h : Does turn step)
    (h' : Does turn' step') (hundo : ∀ iv block : List UInt8, iv.length = 16 → block.length = 16 →
      step' iv (step iv block).2 = ((step iv block).1, block))
    (hcrypt : ∀ length, crypt length = cryptLoop turn (length.toNat + 1) length)
    (hcrypt' : ∀ length, crypt' length = cryptLoop turn' (length.toNat + 1) length)
    {iv plain : List UInt8} (hiv : iv.length = 16) (hplain : 16 ∣ plain.length) :
    ∃ cipher last, cipher.length = plain.length ∧ Crypts crypt iv plain last cipher ∧
      Crypts crypt' iv cipher last plain := by
  obtain ⟨blocks, hblocks, rfl⟩ := exists_wholeBlocks hplain
  have hcipher := (chain_keeps (P := fun iv : List UInt8 => iv.length = 16)
    (R := fun b : List UInt8 => b.length = 16) h.length_eq hiv hblocks).2
  have hback := crypts_chain h' hcrypt' hiv hcipher
  rw [chain_undo (P := fun iv : List UInt8 => iv.length = 16) (fun iv block hiv hblock =>
    ⟨(h.length_eq iv block hiv hblock).1, hundo iv block hiv hblock⟩) hiv hblocks] at hback
  refine ⟨_, _, ?_, crypts_chain h hcrypt hiv hblocks, hback⟩
  rw [length_flatten_blocks hcipher, length_chain, length_flatten_blocks hblocks]

/-- Bytes of whole blocks that are encrypted with `sm4_crypt_ecb` are decrypted with it. -/
theorem ecb_roundTrip (key : List UInt8) {iv plain : List UInt8} (hiv : iv.length = 16)
    (hplain : 16 ∣ plain.length) :
    ∃ cipher last, cipher.length = plain.length ∧
      Crypts (sm4CryptEcb (sm4SetkeyEnc key)) iv plain last cipher ∧
      Crypts (sm4CryptEcb (sm4SetkeyDec key)) iv cipher last plain :=
  crypts_undo (does_ecb _) (does_ecb _)
    (fun iv _ _ hblock => congrArg (iv, ·) (sm4OneRound_dec key hblock)) (fun _ => rfl)
    (fun _ => rfl) hiv hplain

/-- Bytes of whole blocks that are encrypted with `sm4_crypt_cbc` are decrypted with it, from the
    same `iv`, in whatever calls each of the two is done, and also in place. The blocks that `iv`
    holds in the end are the same. -/
theorem cbc_roundTrip (key : List UInt8) {mode : Int} (hmode : mode ≠ SM4_ENCRYPT)
    {iv plain : List UInt8} (hiv : iv.length = 16) (hplain : 16 ∣ plain.length) :
    ∃ cipher last, cipher.length = plain.length ∧
      Crypts (sm4CryptCbc (sm4SetkeyEnc key) SM4_ENCRYPT) iv plain last cipher ∧
      Crypts (sm4CryptCbc (sm4SetkeyDec key) mode) iv cipher last plain := by
  refine crypts_undo (does_cbcEncrypt _) (does_cbcDecrypt _)
    (fun _ _ => decryptStep_encryptStep key) (fun _ => ?_) (fun _ => ?_) hiv hplain
  · funext input output s
    rw [sm4CryptCbc, if_pos rfl]
  · funext input output s
    rw [sm4CryptCbc, if_neg hmode]

theorem cbc_roundTrip_two : ∃ cipher last, cipher.length = 32 ∧
    Crypts (sm4CryptCbc (sm4SetkeyEnc (keypass [0x70])) SM4_ENCRYPT) iv (iv ++ iv) last cipher ∧
    Crypts (sm4CryptCbc (sm4SetkeyDec (keypass [0x70])) SM4_DECRYPT) iv cipher last (iv ++ iv) := by
  have hmode : SM4_DECRYPT ≠ SM4_ENCRYPT := by decide
  have hiv : iv.length = 16 := rfl
  have hplain : 16 ∣ (iv ++ iv).length := ⟨2, rfl⟩
  exact cbc_roundTrip (keypass [0x70]) hmode hiv hplain

end Cube.Crypto
