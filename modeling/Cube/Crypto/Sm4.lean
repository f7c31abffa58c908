import Cube.Lib.Feistel

/-!
# The block cipher SM4

Blocks of 16 bytes under keys of 16 bytes (`sm4.c`), in words that are `unsigned long`:
of 64 bits, of which the lower 32 are written to the block and looked up in the table. The
upper ones carry what was shifted out.

* `sm4Lt_low`, `low_sm4F`: the lower bits of the results are made from lower bits.
* `sm4OneRound_reverse`: the rounds with the keys in reverse undo a block.
* `sm4SetkeyDec_eq`: those are the keys for decryption.
-/

namespace Cube.Crypto

open Lib

/-- `GET_ULONG_BE`. -/
def getUlongBe (b : List UInt8) (i : Nat) : UInt64 :=
  (b.getD i 0).toUInt64 <<< 24 ||| (b.getD (i + 1) 0).toUInt64 <<< 16 |||
    (b.getD (i + 2) 0).toUInt64 <<< 8 ||| (b.getD (i + 3) 0).toUInt64

/-- `PUT_ULONG_BE`. -/
def putUlongBe (n : UInt64) : List UInt8 :=
  [(n >>> 24).toUInt8, (n >>> 16).toUInt8, (n >>> 8).toUInt8, n.toUInt8]

/-- `ROTL`. What is shifted beyond 32 bits stays. -/
def rotl (x n : UInt64) : UInt64 := (x &&& 0xFFFFFFFF) <<< n ||| x >>> (32 - n)

/-- `SboxTable`, row by row. -/
def sboxTable : List UInt8 := [
  0xd6, 0x90, 0xe9, 0xfe, 0xcc, 0xe1, 0x3d, 0xb7, 0x16, 0xb6, 0x14, 0xc2, 0x28, 0xfb, 0x2c, 0x05,
  0x2b, 0x67, 0x9a, 0x76, 0x2a, 0xbe, 0x04, 0xc3, 0xaa, 0x44, 0x13, 0x26, 0x49, 0x86, 0x06, 0x99,
  0x9c, 0x42, 0x50, 0xf4, 0x91, 0xef, 0x98, 0x7a, 0x33, 0x54, 0x0b, 0x43, 0xed, 0xcf, 0xac, 0x62,
  0xe4, 0xb3, 0x1c, 0xa9, 0xc9, 0x08, 0xe8, 0x95, 0x80, 0xdf, 0x94, 0xfa, 0x75, 0x8f, 0x3f, 0xa6,
  0x47, 0x07, 0xa7, 0xfc, 0xf3, 0x73, 0x17, 0xba, 0x83, 0x59, 0x3c, 0x19, 0xe6, 0x85, 0x4f, 0xa8,
  0x68, 0x6b, 0x81, 0xb2, 0x71, 0x64, 0xda, 0x8b, 0xf8, 0xeb, 0x0f, 0x4b, 0x70, 0x56, 0x9d, 0x35,
  0x1e, 0x24, 0x0e, 0x5e, 0x63, 0x58, 0xd1, 0xa2, 0x25, 0x22, 0x7c, 0x3b, 0x01, 0x21, 0x78, 0x87,
  0xd4, 0x00, 0x46, 0x57, 0x9f, 0xd3, 0x27, 0x52, 0x4c, 0x36, 0x02, 0xe7, 0xa0, 0xc4, 0xc8, 0x9e,
  0xea, 0xbf, 0x8a, 0xd2, 0x40, 0xc7, 0x38, 0xb5, 0xa3, 0xf7, 0xf2, 0xce, 0xf9, 0x61, 0x15, 0xa1,
  0xe0, 0xae, 0x5d, 0xa4, 0x9b, 0x34, 0x1a, 0x55, 0xad, 0x93, 0x32, 0x30, 0xf5, 0x8c, 0xb1, 0xe3,
  0x1d, 0xf6, 0xe2, 0x2e, 0x82, 0x66, 0xca, 0x60, 0xc0, 0x29, 0x23, 0xab, 0x0d, 0x53, 0x4e, 0x6f,
  0xd5, 0xdb, 0x37, 0x45, 0xde, 0xfd, 0x8e, 0x2f, 0x03, 0xff, 0x6a, 0x72, 0x6d, 0x6c, 0x5b, 0x51,
  0x8d, 0x1b, 0xaf, 0x92, 0xbb, 0xdd, 0xbc, 0x7f, 0x11, 0xd9, 0x5c, 0x41, 0x1f, 0x10, 0x5a, 0xd8,
  0x0a, 0xc1, 0x31, 0x88, 0xa5, 0xcd, 0x7b, 0xbd, 0x2d, 0x74, 0xd0, 0x12, 0xb8, 0xe5, 0xb4, 0xb0,
  0x89, 0x69, 0x97, 0x4a, 0x0c, 0x96, 0x77, 0x7e, 0x65, 0xb9, 0xf1, 0x09, 0xc5, 0x6e, 0xc6, 0x84,
  0x18, 0xf0, 0x7d, 0xec, 0x3a, 0xdc, 0x4d, 0x20, 0x79, 0xee, 0x5f, 0x3e, 0xd7, 0xcb, 0x39, 0x48]

/-- `FK`. -/
def fk : Quad UInt64 := ⟨0xa3b1bac6, 0x56aa3350, 0x677d9197, 0xb27022dc⟩

/-- `CK`. -/
def ck : List UInt64 := [
  0x00070e15, 0x1c232a31, 0x383f464d, 0x545b6269, 0x70777e85, 0x8c939aa1, 0xa8afb6bd, 0xc4cbd2d9,
  0xe0e7eef5, 0xfc030a11, 0x181f262d, 0x343b4249, 0x50575e65, 0x6c737a81, 0x888f969d, 0xa4abb2b9,
  0xc0c7ced5, 0xdce3eaf1, 0xf8ff060d, 0x141b2229, 0x30373e45, 0x4c535a61, 0x686f767d, 0x848b9299,
  0xa0a7aeb5, 0xbcc3cad1, 0xd8dfe6ed, 0xf4fb0209, 0x10171e25, 0x2c333a41, 0x484f565d, 0x646b7279]

/-- `sm4Sbox`. -/
def sm4Sbox (inch : UInt8) : UInt8 := sboxTable.getD inch.toNat 0

/-- The word `bb` of `sm4Lt` and `sm4CalciRK`: the bytes of `ka` looked up in the table. -/
def sboxWord (ka : UInt64) : UInt64 := getUlongBe ((putUlongBe ka).map sm4Sbox) 0

/-- `sm4Lt`. -/
def sm4Lt (ka : UInt64) : UInt64 :=
  let bb := sboxWord ka
  bb ^^^ rotl bb 2 ^^^ rotl bb 10 ^^^ rotl bb 18 ^^^ rotl bb 24

/-- `sm4F`, of the block `x0`, `x1`, `x2`, `x3`. -/
def sm4F (rk : UInt64) (x : Quad UInt64) : UInt64 := x.a ^^^ sm4Lt (x.b ^^^ x.c ^^^ x.d ^^^ rk)

/-- `sm4CalciRK`. -/
def sm4CalciRK (ka : UInt64) : UInt64 :=
  let bb := sboxWord ka
  bb ^^^ rotl bb 13 ^^^ rotl bb 23

/-- The loop of `sm4_setkey` over the parameters `CK`, from the last four words on. -/
def setkeyLoop : List UInt64 → Quad UInt64 → List UInt64
  | [], _ => []
  | c :: cs, k =>
    let next := k.a ^^^ sm4CalciRK (k.b ^^^ k.c ^^^ k.d ^^^ c)
    next :: setkeyLoop cs ⟨k.b, k.c, k.d, next⟩

/-- `sm4_setkey`. -/
def sm4Setkey (key : List UInt8) : List UInt64 :=
  setkeyLoop ck ⟨getUlongBe key 0 ^^^ fk.a, getUlongBe key 4 ^^^ fk.b, getUlongBe key 8 ^^^ fk.c,
    getUlongBe key 12 ^^^ fk.d⟩

/-- `sm4_setkey_enc`. -/
def sm4SetkeyEnc (key : List UInt8) : List UInt64 := sm4Setkey key

/-- `SWAP`, of two of the keys. -/
def swapKeys (sk : List UInt64) (i j : Nat) : List UInt64 :=
  (sk.set i (sk.getD j 0)).set j (sk.getD i 0)

/-- `sm4_setkey_dec`. -/
def sm4SetkeyDec (key : List UInt8) : List UInt64 :=
  (List.range 16).foldl (fun sk i => swapKeys sk i (31 - i)) (sm4Setkey key)

/-- The words of a block of bytes. -/
def getBlock (input : List UInt8) : Quad UInt64 :=
  ⟨getUlongBe input 0, getUlongBe input 4, getUlongBe input 8, getUlongBe input 12⟩

/-- The bytes of a block of words. -/
def putBlock (q : Quad UInt64) : List UInt8 :=
  putUlongBe q.a ++ putUlongBe q.b ++ putUlongBe q.c ++ putUlongBe q.d

/-- `sm4_one_round`, which `sm4_crypt_ecb` does of a single block. The last words are
    written in reverse. -/
def sm4OneRound (sk : List UInt64) (input : List UInt8) : List UInt8 :=
  putBlock (Quad.rounds sm4F (getBlock input) sk).flip

/-! ## Words of 32 bits -/

/-- The bits of a word that are written to a block. -/
def low (n : UInt64) : UInt32 := n.toUInt32

theorem getUlongBe_putUlongBe (n : UInt64) : getUlongBe (putUlongBe n) 0 = (low n).toUInt64 := by
  refine UInt64.toBitVec_inj.1 (BitVec.eq_of_getLsbD_eq fun i hi => ?_)
  simp [getUlongBe, putUlongBe, low, -UInt64.toUInt64_toUInt8, -UInt64.toUInt64_toUInt32]
  grind

/-- The upper bits of a word are not written. -/
theorem putUlongBe_low (n : UInt64) : putUlongBe (low n).toUInt64 = putUlongBe n := by
  simp only [putUlongBe, low, List.cons.injEq, and_true]
  refine ⟨?_, ?_, ?_, ?_⟩
  all_goals
    refine UInt8.toBitVec_inj.1 (BitVec.eq_of_getLsbD_eq fun i hi => ?_)
  · simp [-UInt64.toUInt64_toUInt32]
    grind
  · simp [-UInt64.toUInt64_toUInt32]
    grind
  · simp [-UInt64.toUInt64_toUInt32]
    grind
  · simp [-UInt64.toUInt64_toUInt32]

theorem putUlongBe_getUlongBe (a b c d : UInt8) : putUlongBe (getUlongBe [a, b, c, d] 0) = [a, b, c, d] := by
  simp only [putUlongBe, List.cons.injEq, and_true]
  refine ⟨?_, ?_, ?_, ?_⟩
  all_goals
    refine UInt8.toBitVec_inj.1 (BitVec.eq_of_getLsbD_eq fun i hi => ?_)
  · simp [getUlongBe]
    grind
  · simp [getUlongBe]
    grind
  · simp [getUlongBe]
    grind
  · simp [getUlongBe]

theorem low_xor (a b : UInt64) : low (a ^^^ b) = low a ^^^ low b := UInt64.toUInt32_xor ..

theorem low_toUInt64 (w : UInt32) : low w.toUInt64 = w := UInt32.toUInt32_toUInt64 w

/-- Only the lower bits are looked up. -/
theorem sm4Lt_low (ka : UInt64) : sm4Lt (low ka).toUInt64 = sm4Lt ka := by
  rw [sm4Lt, sm4Lt, sboxWord, sboxWord, putUlongBe_low]

/-- `sm4F` of words of 32 bits. -/
def lowF (rk : UInt32) (x : Quad UInt32) : UInt32 :=
  x.a ^^^ low (sm4Lt (x.b ^^^ x.c ^^^ x.d ^^^ rk).toUInt64)

theorem low_sm4F (rk : UInt64) (x : Quad UInt64) : low (sm4F rk x) = lowF (low rk) (x.map low) := by
  have hka : low (x.b ^^^ x.c ^^^ x.d ^^^ rk) = low x.b ^^^ low x.c ^^^ low x.d ^^^ low rk := by
    rw [low_xor, low_xor, low_xor]
  rw [sm4F, low_xor, ← sm4Lt_low, hka, lowF]
  rfl

/-- What is mixed into a word is the same for the words in reverse. -/
theorem lowF_undoes : Quad.Undoes lowF := by
  intro rk a b c d
  have hrev : d ^^^ c ^^^ b ^^^ rk = b ^^^ c ^^^ d ^^^ rk := by
    rw [UInt32.xor_comm (d ^^^ c) b, UInt32.xor_comm d c, UInt32.xor_assoc b c d]
  simp only [lowF, hrev]
  rw [UInt32.xor_assoc, UInt32.xor_self, UInt32.xor_zero]

/-! ## Blocks -/

@[simp] theorem length_putBlock (q : Quad UInt64) : (putBlock q).length = 16 := rfl

/-- Of the words of a block, the lower bits are read back. -/
theorem getBlock_putBlock (q : Quad UInt64) :
    getBlock (putBlock q) = q.map fun n => (low n).toUInt64 := by
  refine Quad.ext ?_ ?_ ?_ ?_
  · exact getUlongBe_putUlongBe q.a
  · exact getUlongBe_putUlongBe q.b
  · exact getUlongBe_putUlongBe q.c
  · exact getUlongBe_putUlongBe q.d

theorem putBlock_low (q : Quad UInt64) : putBlock (q.map fun n => (low n).toUInt64) = putBlock q := by
  simp only [putBlock, Quad.map, putUlongBe_low]

/-- The bytes of a block are written back. -/
theorem putBlock_getBlock {input : List UInt8} (h : input.length = 16) :
    putBlock (getBlock input) = input := by
  match input, h with
  | [a₀, a₁, a₂, a₃, b₀, b₁, b₂, b₃, c₀, c₁, c₂, c₃, d₀, d₁, d₂, d₃], _ =>
    have ha := putUlongBe_getUlongBe a₀ a₁ a₂ a₃
    have hb := putUlongBe_getUlongBe b₀ b₁ b₂ b₃
    have hc := putUlongBe_getUlongBe c₀ c₁ c₂ c₃
    have hd := putUlongBe_getUlongBe d₀ d₁ d₂ d₃
    exact congrArg₂ (· ++ ·) (congrArg₂ (· ++ ·) (congrArg₂ (· ++ ·) ha hb) hc) hd

/-- The lower bits of the words, after the rounds. -/
theorem low_rounds (q : Quad UInt64) (sk : List UInt64) :
    (Quad.rounds sm4F q sk).map low = Quad.rounds lowF (q.map low) (sk.map low) :=
  Quad.rounds_map low low low_sm4F q sk

theorem low_getBlock_putBlock (q : Quad UInt64) : (getBlock (putBlock q)).map low = q.map low := by
  rw [getBlock_putBlock]
  simp only [Quad.map, low_toUInt64]

/-- The rounds with the keys in reverse undo a block. -/
theorem sm4OneRound_reverse (sk : List UInt64) {input : List UInt8} (h : input.length = 16) :
    sm4OneRound sk.reverse (sm4OneRound sk input) = input := by
  -- The lower bits of the words are given back, and only these are written.
  have hwords : (Quad.rounds sm4F (getBlock (sm4OneRound sk input)) sk.reverse).flip.map low =
      (getBlock input).map low := by
    rw [Quad.map_flip, low_rounds, sm4OneRound, low_getBlock_putBlock, Quad.map_flip, low_rounds,
      List.map_reverse, Quad.rounds_flip lowF_undoes, Quad.flip_flip]
  calc sm4OneRound sk.reverse (sm4OneRound sk input)
      = putBlock (((Quad.rounds sm4F (getBlock (sm4OneRound sk input)) sk.reverse).flip.map
          low).map UInt32.toUInt64) := (putBlock_low _).symm
    _ = putBlock (((getBlock input).map low).map UInt32.toUInt64) := by rw [hwords]
    _ = putBlock (getBlock input) := putBlock_low _
    _ = input := putBlock_getBlock h

/-! ## Keys -/

theorem length_setkeyLoop (cs : List UInt64) (k : Quad UInt64) :
    (setkeyLoop cs k).length = cs.length := by
  induction cs generalizing k with
  | nil => rfl
  | cons c cs ih => exact congrArg (· + 1) (ih _)

theorem length_sm4Setkey (key : List UInt8) : (sm4Setkey key).length = 32 := length_setkeyLoop ck _

@[simp] theorem length_swapKeys (sk : List UInt64) (i j : Nat) :
    (swapKeys sk i j).length = sk.length := by
  rw [swapKeys, List.length_set, List.length_set]

/-- Two keys are swapped. -/
theorem getElem?_swapKeys {sk : List UInt64} {i j : Nat} (hi : i < sk.length) (hj : j < sk.length)
    (hij : i ≠ j) (l : Nat) :
    (swapKeys sk i j)[l]? = if l = i then sk[j]? else if l = j then sk[i]? else sk[l]? := by
  rw [swapKeys, List.getElem?_set, List.getElem?_set, List.length_set]
  by_cases hli : l = i
  · subst hli
    rw [if_neg hij.symm, if_pos rfl, if_pos hi, if_pos rfl, List.getD_eq_getElem?_getD,
      List.getElem?_eq_getElem hj, Option.getD_some]
  · by_cases hlj : l = j
    · subst hlj
      rw [if_pos rfl, if_pos hj, if_neg hli, if_pos rfl,
        List.getD_eq_getElem?_getD, List.getElem?_eq_getElem hi, Option.getD_some]
    · rw [if_neg (Ne.symm hlj), if_neg (Ne.symm hli), if_neg hli, if_neg hlj]

/-- The keys swapped so far are at the other end. -/
theorem getElem?_swaps {sk : List UInt64} (hsk : sk.length = 32) {n : Nat} (hn : n ≤ 16) :
    ((List.range n).foldl (fun sk i => swapKeys sk i (31 - i)) sk).length = 32 ∧
      ∀ i < 32, ((List.range n).foldl (fun sk i => swapKeys sk i (31 - i)) sk)[i]? =
        if i < n ∨ 31 - i < n then sk[31 - i]? else sk[i]? := by
  induction n with
  | zero => exact ⟨hsk, fun i _ => by rw [if_neg (by omega)]; rfl⟩
  | succ n ih =>
    obtain ⟨hlen, hget⟩ := ih (by omega)
    rw [List.range_succ, List.foldl_append, List.foldl_cons, List.foldl_nil]
    refine ⟨(length_swapKeys ..).trans hlen, fun i hi => ?_⟩
    rw [getElem?_swapKeys (by omega) (by omega) (by omega), hget _ (by omega), hget _ (by omega),
      hget _ hi]
    by_cases hin : i = n
    · subst hin
      rw [if_pos rfl, if_neg (by omega), if_pos (by omega)]
    · rw [if_neg hin]
      by_cases hir : i = 31 - n
      · rw [if_pos hir, if_neg (by omega), if_pos (by omega), hir]
        congr 1
        omega
      · rw [if_neg hir]
        congr 1
        refine propext ?_
        omega

/-- The keys for decryption are those for encryption in reverse. -/
theorem sm4SetkeyDec_eq (key : List UInt8) : sm4SetkeyDec key = (sm4SetkeyEnc key).reverse := by
  have hsk := length_sm4Setkey key
  obtain ⟨hlen, hget⟩ := getElem?_swaps hsk (n := 16) (Nat.le_refl 16)
  refine List.ext_getElem? fun i => ?_
  by_cases hi : i < 32
  · rw [sm4SetkeyDec, hget i hi, if_pos (by omega), sm4SetkeyEnc, List.getElem?_reverse (by omega),
      hsk]
  · rw [sm4SetkeyDec, List.getElem?_eq_none (by omega), List.getElem?_eq_none]
    rw [List.length_reverse, sm4SetkeyEnc]
    omega

/-- Decryption of a block under a key undoes its encryption. -/
theorem sm4OneRound_dec (key : List UInt8) {input : List UInt8} (h : input.length = 16) :
    sm4OneRound (sm4SetkeyDec key) (sm4OneRound (sm4SetkeyEnc key) input) = input := by
  rw [sm4SetkeyDec_eq, sm4OneRound_reverse _ h]

/-- The test vector of the source. -/
example :
    sm4OneRound (sm4SetkeyEnc [0x01, 0x23, 0x45, 0x67, 0x89, 0xab, 0xcd, 0xef, 0xfe, 0xdc, 0xba, 0x98,
        0x76, 0x54, 0x32, 0x10])
      [0x01, 0x23, 0x45, 0x67, 0x89, 0xab, 0xcd, 0xef, 0xfe, 0xdc, 0xba, 0x98, 0x76, 0x54, 0x32, 0x10] =
      [0x68, 0x1e, 0xdf, 0x34, 0xd2, 0x06, 0x96, 0x5e, 0x86, 0xb3, 0xe9, 0x4f, 0x53, 0x6e, 0x42, 0x46] := by
  decide +kernel

end Cube.Crypto
