import Cube.Crypto.Sm4
import Cube.Lib.Block
import Cube.Message.Box

/-!
# Encryption of contexts

Bytes of any length are encrypted under a password (`crypto_func.c`): as long as there
are 16 of them as a block, and those that are left by the bytes of `iv`. The output is
as long as the input.

* `contextLoops_eq`: what the loops write, and that they write every byte once.
* `context_roundTrip`: what was encrypted is decrypted.
-/

namespace Cube.Crypto

open Lib
open Message (Heap)

/-- `iv`. -/
def iv : List UInt8 :=
  [0x01, 0x23, 0x45, 0x67, 0x89, 0xab, 0xcd, 0xef, 0xfe, 0xdc, 0xba, 0x98, 0x76, 0x54, 0x32, 0x10]

/-- `keypass`: the characters of the password that `strncpy` copies, and zeros. -/
def keypass (passwd : List UInt8) : List UInt8 :=
  let chars := (passwd.takeWhile (· ≠ 0)).take 32
  chars ++ List.replicate (32 - chars.length) 0

/-- The block for the output, of which some bytes were never written, and the positions
    that were written so far. -/
structure OutBlob where
  cells : List (Option UInt8)
  written : List Nat
  deriving DecidableEq, Repr

/-- A block that `malloc` found. -/
def outBlob (size : Nat) : OutBlob := { cells := List.replicate size none, written := [] }

/-- Bytes written to the block. -/
def OutBlob.write (out : OutBlob) (i : Nat) (bytes : List UInt8) : Outcome OutBlob :=
  if i + bytes.length ≤ out.cells.length then
    .done {
      cells := patch out.cells i (bytes.map some)
      written := out.written ++ List.range' i bytes.length }
  else .fault

/-- The loop over the blocks, in as many rounds as the first argument says. -/
def blockLoop (sk : List UInt64) (input : List UInt8) (outSize : Int) :
    Nat → Int → OutBlob → Outcome (Int × OutBlob)
  | 0, _, _ => .fault
  | rounds + 1, i, out =>
    if i ≤ outSize - 16 then do
      let block ← fetch input i.toNat 16
      let out ← out.write i.toNat (sm4OneRound sk block)
      blockLoop sk input outSize rounds (i + 16) out
    else .done (i, out)

/-- The loop over the bytes that are left. -/
def restLoop (input : List UInt8) (outSize : Int) : Nat → Int → OutBlob → Outcome OutBlob
  | 0, _, _ => .fault
  | rounds + 1, i, out =>
    if i < outSize then do
      let bytes ← fetch input i.toNat 1
      let out ← out.write i.toNat (bytes.map (· ^^^ iv.getD (i.toNat % 16) 0))
      restLoop input outSize rounds (i + 1) out
    else .done out

/-- The two loops. -/
def contextLoops (sk : List UInt64) (input : List UInt8) (outSize : Int) (out : OutBlob) :
    Outcome OutBlob := do
  let (i, out) ← blockLoop sk input outSize (outSize.toNat + 1) 0 out
  restLoop input outSize (outSize.toNat + 1) i out

/-- `sm4_context_crypt` and `sm4_context_decrypt`, which set the keys in different ways. -/
def context (setkey : List UInt8 → List UInt64) (heap : Heap) (input : List UInt8) (size : Int)
    (passwd : List UInt8) : Outcome OutBlob :=
  if size ≤ 0 then .error (-EINVAL)
  else if heap.ok size then
    contextLoops (setkey (keypass passwd)) input size (outBlob size.toNat)
  else .error (-ENOMEM)

/-- `sm4_context_crypt`. -/
def sm4ContextCrypt := context sm4SetkeyEnc

/-- `sm4_context_decrypt`. -/
def sm4ContextDecrypt := context sm4SetkeyDec

/-- The block holds the bytes, and each of them was written once, one after the other. -/
structure Filled (out : OutBlob) (bytes : List UInt8) : Prop where
  cells_eq : out.cells = bytes.map some
  written_eq : out.written = List.range bytes.length

/-! ## The loops -/

/-- The block of that size is filled with the bytes so far. -/
structure FilledTo (out : OutBlob) (bytes : List UInt8) (size : Nat) : Prop where
  cells_eq : out.cells = bytes.map some ++ List.replicate (size - bytes.length) none
  written_eq : out.written = List.range bytes.length
  length_le : bytes.length ≤ size

variable {sk : List UInt64} {input rest : List UInt8} {out : OutBlob} {bytes : List UInt8}
  {size i n rounds : Nat}

theorem filledTo_outBlob (size : Nat) : FilledTo (outBlob size) [] size :=
  ⟨rfl, rfl, Nat.zero_le size⟩

theorem FilledTo.filled (h : FilledTo out bytes bytes.length) : Filled out bytes where
  cells_eq := by rw [h.cells_eq, Nat.sub_self, List.replicate_zero, List.append_nil]
  written_eq := h.written_eq

/-- More bytes are written behind those written so far. -/
theorem filledTo_write (h : FilledTo out bytes size) (more : List UInt8)
    (hle : bytes.length + more.length ≤ size) :
    ∃ out', out.write bytes.length more = .done out' ∧ FilledTo out' (bytes ++ more) size := by
  have hlen : out.cells.length = size := by
    rw [h.cells_eq, List.length_append, List.length_map, List.length_replicate]
    omega
  refine ⟨_, if_pos (hlen ▸ hle), ?_, ?_, ?_⟩
  · have hmap : (bytes.map some : List (Option UInt8)).length = bytes.length := List.length_map ..
    have hdrop : (bytes.map some ++ List.replicate (size - bytes.length) none).drop
        (bytes.length + more.length) = List.replicate (size - (bytes.length + more.length)) none := by
      rw [List.drop_append, List.drop_eq_nil_of_le (by omega), List.nil_append, List.drop_replicate,
        hmap]
      congr 1
      omega
    simp only [patch, h.cells_eq, List.map_append, List.length_map, List.length_append]
    rw [List.take_left' hmap, hdrop]
  · simp only [h.written_eq, List.length_append]
    rw [List.range_eq_range', List.range_eq_range', ← List.range'_append_1, Nat.zero_add]
  · rw [List.length_append]
    exact hle

@[simp] theorem length_sm4OneRound (sk : List UInt64) (block : List UInt8) :
    (sm4OneRound sk block).length = 16 := rfl

/-- The loop over the blocks encrypts each of them. -/
theorem blockLoop_eq (blocks : List (List UInt8)) (hblocks : ∀ b ∈ blocks, b.length = 16)
    (hrest : rest.length < 16) {front : List UInt8} (hin : input = front ++ (blocks.flatten ++ rest))
    (hfront : front.length = bytes.length) (hout : FilledTo out bytes input.length)
    (hrounds : blocks.length < rounds) :
    ∃ out', blockLoop sk input input.length rounds bytes.length out =
        .done ((bytes.length + 16 * blocks.length : Nat), out') ∧
      FilledTo out' (bytes ++ (blocks.map (sm4OneRound sk)).flatten) input.length := by
  induction blocks generalizing front bytes out rounds with
  | nil =>
    obtain ⟨n, rfl⟩ := Nat.exists_eq_succ_of_ne_zero (Nat.ne_zero_of_lt hrounds)
    have hlen : input.length = front.length + rest.length := by
      rw [hin, List.flatten_nil, List.nil_append, List.length_append]
    refine ⟨out, ?_, by simpa using hout⟩
    -- less than a block is left
    rw [blockLoop, if_neg (by omega)]
    rfl
  | cons b blocks ih =>
    obtain ⟨n, rfl⟩ := Nat.exists_eq_succ_of_ne_zero (Nat.ne_zero_of_lt hrounds)
    have hb : b.length = 16 := hblocks b List.mem_cons_self
    have hlen : input.length = front.length + (16 + (blocks.flatten ++ rest).length) := by
      rw [hin, List.flatten_cons, List.append_assoc, List.length_append, List.length_append, hb]
    have hfetch : fetch input bytes.length 16 = .done b := by
      rw [hin, List.flatten_cons, List.append_assoc, ← hfront, ← hb]
      exact fetch_append front b _
    obtain ⟨out₁, hwrite, hout₁⟩ := filledTo_write hout (sm4OneRound sk b)
      (by rw [length_sm4OneRound]; omega)
    have hin₁ : input = front ++ b ++ (blocks.flatten ++ rest) := by
      rw [hin, List.flatten_cons, List.append_assoc, List.append_assoc]
    obtain ⟨out', hloop, hout'⟩ := ih (fun c hc => hblocks c (List.mem_cons_of_mem _ hc)) hin₁
      (by rw [List.length_append, List.length_append, length_sm4OneRound, hb, hfront]) hout₁
      (Nat.lt_of_succ_lt_succ hrounds)
    refine ⟨out', ?_, ?_⟩
    · rw [blockLoop, if_pos (by omega), Int.toNat_natCast, hfetch, Outcome.done_bind, hwrite,
        Outcome.done_bind]
      rw [List.length_append, length_sm4OneRound] at hloop
      have hnext : ((bytes.length : Int) + 16) = (bytes.length + 16 : Nat) := by omega
      rw [hnext, hloop, List.length_cons]
      congr 2
      omega
    · rwa [List.map_cons, List.flatten_cons, ← List.append_assoc]

/-- The bytes from a position on, changed by those of `iv`. -/
def xorIv : Nat → List UInt8 → List UInt8
  | _, [] => []
  | i, b :: rest => (b ^^^ iv.getD (i % 16) 0) :: xorIv (i + 1) rest

@[simp] theorem length_xorIv (i : Nat) (rest : List UInt8) : (xorIv i rest).length = rest.length := by
  induction rest generalizing i with
  | nil => rfl
  | cons b rest ih => exact congrArg (· + 1) (ih (i + 1))

/-- The bytes of `iv` undo their change. -/
theorem xorIv_xorIv (i : Nat) (rest : List UInt8) : xorIv i (xorIv i rest) = rest := by
  induction rest generalizing i with
  | nil => rfl
  | cons b rest ih =>
    rw [xorIv, xorIv, ih, UInt8.xor_assoc, UInt8.xor_self, UInt8.xor_zero]

/-- The loop over the bytes that are left changes each of them. -/
theorem restLoop_eq {front : List UInt8} (hin : input = front ++ rest)
    (hfront : front.length = bytes.length) (hout : FilledTo out bytes input.length)
    (hrounds : rest.length < rounds) :
    ∃ out', restLoop input input.length rounds bytes.length out = .done out' ∧
      FilledTo out' (bytes ++ xorIv bytes.length rest) input.length := by
  induction rest generalizing front bytes out rounds with
  | nil =>
    obtain ⟨n, rfl⟩ := Nat.exists_eq_succ_of_ne_zero (Nat.ne_zero_of_lt hrounds)
    have hlen : input.length = front.length := by rw [hin, List.append_nil]
    refine ⟨out, ?_, by simpa [xorIv] using hout⟩
    rw [restLoop, if_neg (by omega)]
  | cons b rest ih =>
    obtain ⟨n, rfl⟩ := Nat.exists_eq_succ_of_ne_zero (Nat.ne_zero_of_lt hrounds)
    have hlen : input.length = front.length + (rest.length + 1) := by
      rw [hin, List.length_append, List.length_cons]
    have hfetch : fetch input bytes.length 1 = .done [b] := by
      rw [hin, ← hfront]
      exact fetch_append front [b] rest
    obtain ⟨out₁, hwrite, hout₁⟩ :=
      filledTo_write hout [b ^^^ iv.getD (bytes.length % 16) 0] (by rw [List.length_singleton]; omega)
    have hin₁ : input = front ++ [b] ++ rest := by
      rw [hin, List.append_assoc, List.singleton_append]
    obtain ⟨out', hloop, hout'⟩ := ih hin₁
      (by rw [List.length_append, List.length_append, hfront]; rfl) hout₁
      (Nat.lt_of_succ_lt_succ hrounds)
    rw [List.length_append, List.length_singleton] at hloop hout'
    refine ⟨out', ?_, ?_⟩
    · rw [restLoop, if_pos (by omega), Int.toNat_natCast, hfetch, Outcome.done_bind, List.map_singleton,
        hwrite, Outcome.done_bind]
      exact hloop
    · rwa [xorIv, ← List.singleton_append, ← List.append_assoc]

theorem length_flatten_blocks {blocks : List (List UInt8)} (h : ∀ b ∈ blocks, b.length = 16) :
    blocks.flatten.length = 16 * blocks.length := by
  induction blocks with
  | nil => rfl
  | cons b blocks ih =>
    rw [List.flatten_cons, List.length_append, h b List.mem_cons_self,
      ih fun c hc => h c (List.mem_cons_of_mem _ hc), List.length_cons, Nat.mul_succ, Nat.add_comm]

/-- What is written: the blocks encrypted, and the bytes that are left changed. -/
theorem contextLoops_eq (sk : List UInt64) (blocks : List (List UInt8))
    (hblocks : ∀ b ∈ blocks, b.length = 16) (hrest : rest.length < 16)
    (hin : input = blocks.flatten ++ rest) :
    ∃ out, contextLoops sk input input.length (outBlob input.length) = .done out ∧
      Filled out ((blocks.map (sm4OneRound sk)).flatten ++ xorIv (16 * blocks.length) rest) := by
  have hplain := length_flatten_blocks hblocks
  have hcipher : (blocks.map (sm4OneRound sk)).flatten.length = 16 * blocks.length := by
    rw [length_flatten_blocks (List.forall_mem_map.2 fun _ _ => rfl), List.length_map]
  have hsize : input.length = 16 * blocks.length + rest.length := by
    rw [hin, List.length_append, hplain]
  have hrounds : blocks.length < input.length + 1 := by omega
  obtain ⟨out₁, hloop₁, hout₁⟩ : ∃ out₁,
      blockLoop sk input input.length (input.length + 1) 0 (outBlob input.length) =
        .done ((0 + 16 * blocks.length : Nat), out₁) ∧
      FilledTo out₁ ([] ++ (blocks.map (sm4OneRound sk)).flatten) input.length :=
    blockLoop_eq blocks hblocks hrest hin rfl (filledTo_outBlob input.length) hrounds
  rw [List.nil_append] at hout₁
  rw [Nat.zero_add, ← hcipher] at hloop₁
  have hrounds' : rest.length < input.length + 1 := by omega
  obtain ⟨out, hloop, hout⟩ : ∃ out,
      restLoop input input.length (input.length + 1)
        (blocks.map (sm4OneRound sk)).flatten.length out₁ = .done out ∧
      FilledTo out ((blocks.map (sm4OneRound sk)).flatten ++
        xorIv (blocks.map (sm4OneRound sk)).flatten.length rest) input.length :=
    restLoop_eq hin (hplain.trans hcipher.symm) hout₁ hrounds'
  rw [hcipher] at hout
  refine ⟨out, ?_, FilledTo.filled ?_⟩
  · rw [contextLoops, Int.toNat_natCast, hloop₁, Outcome.done_bind]
    exact hloop
  · rw [List.length_append, length_xorIv, hcipher, ← hsize]
    exact hout

/-- Bytes of any length are blocks of 16, and less than 16 that are left. -/
theorem exists_blocks (input : List UInt8) :
    ∃ (blocks : List (List UInt8)) (rest : List UInt8), (∀ b ∈ blocks, b.length = 16) ∧
      rest.length < 16 ∧ input = blocks.flatten ++ rest := by
  induction hn : input.length / 16 generalizing input with
  | zero => exact ⟨[], input, (fun _ hb => nomatch hb), by omega, rfl⟩
  | succ n ih =>
    obtain ⟨blocks, rest, hblocks, hrest, hin⟩ := ih (input.drop 16) (by rw [List.length_drop]; omega)
    refine ⟨input.take 16 :: blocks, rest, List.forall_mem_cons.2 ⟨?_, hblocks⟩, hrest, ?_⟩
    · rw [List.length_take]
      omega
    · rw [List.flatten_cons, List.append_assoc, ← hin, List.take_append_drop]

/-! ## The round trip -/

/-- What the loops write under some keys, they undo under keys that undo their blocks. -/
theorem contextLoops_undo {sk ks : List UInt64}
    (hkeys : ∀ b : List UInt8, b.length = 16 → sm4OneRound ks (sm4OneRound sk b) = b)
    (input : List UInt8) :
    ∃ out bytes, contextLoops sk input input.length (outBlob input.length) = .done out ∧
      Filled out bytes ∧ bytes.length = input.length ∧
      ∃ out', contextLoops ks bytes bytes.length (outBlob bytes.length) = .done out' ∧
        Filled out' input := by
  obtain ⟨blocks, rest, hblocks, hrest, hin⟩ := exists_blocks input
  obtain ⟨out, hcrypt, hout⟩ := contextLoops_eq sk blocks hblocks hrest hin
  have hcipher : ∀ b ∈ blocks.map (sm4OneRound sk), b.length = 16 :=
    List.forall_mem_map.2 fun _ _ => rfl
  have hrest' : (xorIv (16 * blocks.length) rest).length < 16 := by rwa [length_xorIv]
  obtain ⟨out', hdecrypt, hout'⟩ :=
    contextLoops_eq ks (blocks.map (sm4OneRound sk)) hcipher hrest' rfl
  have hback : (blocks.map (sm4OneRound sk)).map (sm4OneRound ks) = blocks := by
    rw [List.map_map]
    exact (List.map_congr_left fun b hb => hkeys b (hblocks b hb)).trans (List.map_id blocks)
  rw [hback, List.length_map, xorIv_xorIv, ← hin] at hout'
  refine ⟨out, _, hcrypt, hout, ?_, out', hdecrypt, hout'⟩
  rw [List.length_append, length_xorIv, length_flatten_blocks hcipher, List.length_map, hin,
    List.length_append, length_flatten_blocks hblocks]

/-- Bytes that were encrypted are decrypted with the same password, if there is the memory
    each time; and every byte of both outputs is written once. -/
theorem context_roundTrip (heap heap' : Heap) {input : List UInt8} (hne : input ≠ [])
    (passwd : List UInt8) :
    heap.ok input.length = false ∧
        sm4ContextCrypt heap input input.length passwd = .error (-ENOMEM) ∨
      ∃ out bytes, sm4ContextCrypt heap input input.length passwd = .done out ∧ Filled out bytes ∧
        bytes.length = input.length ∧
        (heap'.ok bytes.length = false ∧
            sm4ContextDecrypt heap' bytes bytes.length passwd = .error (-ENOMEM) ∨
          ∃ out', sm4ContextDecrypt heap' bytes bytes.length passwd = .done out' ∧
            Filled out' input) := by
  have hpos : ¬ (input.length : Int) ≤ 0 := by
    have := List.length_pos_iff.2 hne
    omega
  cases hok : heap.ok input.length with
  | false => exact .inl ⟨rfl, by rw [sm4ContextCrypt, context, if_neg hpos, hok]; rfl⟩
  | true =>
    obtain ⟨out, bytes, hcrypt, hout, hlen, out', hdecrypt, hout'⟩ := contextLoops_undo
      (fun b hb => sm4OneRound_dec (keypass passwd) hb) input
    refine .inr ⟨out, bytes, ?_, hout, hlen, ?_⟩
    · rw [sm4ContextCrypt, context, if_neg hpos, if_pos hok]
      exact hcrypt
    rw [← hlen] at hpos
    cases hok' : heap'.ok bytes.length with
    | false => exact .inl ⟨rfl, by rw [sm4ContextDecrypt, context, if_neg hpos, hok']; rfl⟩
    | true =>
      refine .inr ⟨out', ?_, hout'⟩
      rw [sm4ContextDecrypt, context, if_neg hpos, if_pos hok']
      exact hdecrypt

theorem context_roundTrip_three : ∃ out bytes,
    sm4ContextCrypt Heap.ample [1, 2, 3] 3 [0x70] = .done out ∧ Filled out bytes ∧ bytes.length = 3 ∧
      (Heap.ample.ok bytes.length = false ∧
          sm4ContextDecrypt Heap.ample bytes bytes.length [0x70] = .error (-ENOMEM) ∨
        ∃ out', sm4ContextDecrypt Heap.ample bytes bytes.length [0x70] = .done out' ∧
          Filled out' [1, 2, 3]) :=
  (context_roundTrip Heap.ample Heap.ample (List.cons_ne_nil 1 [2, 3]) [0x70]).resolve_left
    fun h => absurd h.1 (by decide)

end Cube.Crypto
