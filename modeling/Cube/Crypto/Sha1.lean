import Cube.Crypto.BlockBuffer
import Cube.Lib.Recurrence

/-!
# The digest SHA-1

The digest of `sha1.c`. A block changes five words in 80 rounds, between which the words do
not move: the arguments of the macros take turns. The words of the block are in an array of
16, in which each is replaced by the one that is made from it.

* `view_shaRound`: a round as one of the standard, with the words moved.
* `RoundsUpTo.rounds`: after so many rounds the array holds the last words of the schedule.
* `sha1_stream`: the pieces a message comes in do not matter, and the digest is that of the
  standard.
-/

namespace Cube.Crypto.Sha1

open Lib
open Absorb (absorb rest)
open Recurrence (extend HoldsLast)

/-- `rol`, of `sha1.c`. -/
def rol (v b : UInt32) : UInt32 := v <<< b ||| v >>> (32 - b)

/-- `F0`. -/
def f0 (x y z : UInt32) : UInt32 := (x &&& (y ^^^ z)) ^^^ z

/-- `F1`. -/
def f1 (x y z : UInt32) : UInt32 := x ^^^ y ^^^ z

/-- `F2`. -/
def f2 (x y z : UInt32) : UInt32 := ((x ||| y) &&& z) ||| (x &&& y)

/-- The index `i & 15` of the array of words. -/
def slot (i : Nat) : Fin 16 := Fin.ofNat 16 i

/-- `B0`, on a machine with the lowest byte first: the word, and the array. -/
def b0 (i : Nat) (buf : Vector UInt32 16) : UInt32 × Vector UInt32 16 :=
  let word := buf[slot i]
  let word := (word &&& 0xff000000) >>> 24 ||| (word &&& 0x00ff0000) >>> 8 |||
    (word &&& 0x0000ff00) <<< 8 ||| (word &&& 0x000000ff) <<< 24
  (word, buf.set (slot i) word)

/-- `B1`: the word, and the array. -/
def b1 (i : Nat) (buf : Vector UInt32 16) : UInt32 × Vector UInt32 16 :=
  let word := rol (buf[slot i] ^^^ buf[slot (i - 14)] ^^^ buf[slot (i - 8)] ^^^ buf[slot (i - 3)]) 1
  (word, buf.set (slot i) word)

/-- Which of the words `a` to `e` is an argument of the macro of a round. Each round has them
    one place further on. -/
def role (i argument : Nat) : Fin 5 := Fin.ofNat 5 (argument + 4 * i)

/-- What the macros `R0` to `R4` do to the words, with the function, the constant and the word
    of the block. -/
def shaRound (f : UInt32 → UInt32 → UInt32 → UInt32) (k word : UInt32) (i : Nat)
    (v : Vector UInt32 5) : Vector UInt32 5 :=
  let e := v[role i 4] +
    (f v[role i 1] v[role i 2] v[role i 3] + word + k + rol v[role i 0] 5)
  (v.set (role i 4) e).set (role i 1) (rol v[role i 1] 30)

/-- A macro `R0` to `R4`. -/
def macroRound (b : Nat → Vector UInt32 16 → UInt32 × Vector UInt32 16)
    (f : UInt32 → UInt32 → UInt32 → UInt32) (k : UInt32)
    (s : Vector UInt32 5 × Vector UInt32 16) (i : Nat) : Vector UInt32 5 × Vector UInt32 16 :=
  let (word, buf) := b i s.2
  (shaRound f k word i s.1, buf)

/-- A word of the memory, the lowest byte first. -/
def getUint32Le (b : List UInt8) (i : Nat) : UInt32 :=
  (b.getD i 0).toUInt32 ||| (b.getD (i + 1) 0).toUInt32 <<< 8 |||
    (b.getD (i + 2) 0).toUInt32 <<< 16 ||| (b.getD (i + 3) 0).toUInt32 <<< 24

/-- The copy of the block, as words. -/
def memoryWords (data : List UInt8) : Vector UInt32 16 :=
  Vector.ofFn fun j : Fin 16 => getUint32Le data (4 * j)

/-- `tpm_sha1_transform`. -/
def tpmSha1Transform (h : Vector UInt32 5) (data : List UInt8) : Vector UInt32 5 :=
  let s := (List.range 16).foldl (macroRound b0 f0 0x5A827999) (h, memoryWords data)
  let s := (List.range' 16 4).foldl (macroRound b1 f0 0x5A827999) s
  let s := (List.range' 20 20).foldl (macroRound b1 f1 0x6ED9EBA1) s
  let s := (List.range' 40 20).foldl (macroRound b1 f2 0x8F1BBCDC) s
  let s := (List.range' 60 20).foldl (macroRound b1 f1 0xCA62C1D6) s
  Vector.zipWith (· + ·) h s.1

/-- `tpm_sha1_ctx_t`. -/
structure TpmSha1Ctx where
  h : Vector UInt32 5
  countLo : UInt32
  countHi : UInt32
  buf : Vector UInt8 64

/-- The state at the start, of `tpm_sha1_init`. -/
def iv : Vector UInt32 5 := #v[0x67452301, 0xEFCDAB89, 0x98BADCFE, 0x10325476, 0xC3D2E1F0]

/-- `tpm_sha1_init`. The buffer is left as it is. -/
def tpmSha1Init (ctx : TpmSha1Ctx) : TpmSha1Ctx := { ctx with h := iv, countLo := 0, countHi := 0 }

/-- The blocks of `tpm_sha1_update`, if the data complete one: the state, the buffer, the data
    that are left, and where they go in the buffer. The data are an object, so `length + buf_off`
    does not wrap. -/
def updateBlocks (ctx : TpmSha1Ctx) (data : List UInt8) :
    Outcome (Vector UInt32 5 × Vector UInt8 64 × List UInt8 × Nat) :=
  let bufOff := (ctx.countLo >>> 3 &&& 63).toNat
  if 64 ≤ data.length + bufOff then do
    let dataOff := 64 - bufOff
    let buf ← copyTo ctx.buf bufOff (data.take dataOff)
    let h := tpmSha1Transform ctx.h buf.toList
    let (h, data) ← processLoop tpmSha1Transform (data.length + 1) h (data.drop dataOff)
    .done (h, buf, data, 0)
  else .done (ctx.h, ctx.buf, data, bufOff)

/-- `tpm_sha1_update`. -/
def tpmSha1Update (ctx : TpmSha1Ctx) (data : List UInt8) : Outcome TpmSha1Ctx := do
  let (h, buf, left, bufOff) ← updateBlocks ctx data
  let buf ← copyTo buf bufOff left
  let countLo := ctx.countLo + UInt32.ofNat (data.length <<< 3)
  let countHi := if countLo < ctx.countLo then ctx.countHi + 1 else ctx.countHi
  .done { h := h, countLo := countLo, countHi := countHi + UInt32.ofNat (data.length >>> 29),
          buf := buf }

/-- The loop of `tpm_sha1_final` that takes a zero at a time. -/
def zerosLoop : Nat → TpmSha1Ctx → Outcome TpmSha1Ctx
  | 0, _ => .fault
  | rounds + 1, ctx =>
    if ctx.countLo &&& (63 * 8) ≠ 56 * 8 then do
      let ctx ← tpmSha1Update ctx [0]
      zerosLoop rounds ctx
    else .done ctx

/-- The digest in a state, the bytes of its words. -/
def digestBytes (h : Vector UInt32 5) : List UInt8 := h.toList.flatMap putUint32Be

/-- `tpm_sha1_final`: the context, which is overwritten, and the digest. -/
def tpmSha1Final (ctx : TpmSha1Ctx) : Outcome (TpmSha1Ctx × List UInt8) := do
  let counter := putUint32Be ctx.countHi ++ putUint32Be ctx.countLo
  let ctx ← tpmSha1Update ctx [0x80]
  let ctx ← zerosLoop 64 ctx
  let ctx ← tpmSha1Update ctx counter
  .done ({ h := Vector.replicate 5 0, countLo := 0, countHi := 0, buf := Vector.replicate 64 0 },
    digestBytes ctx.h)

/-- The updates with the pieces of a message. -/
def sha1Updates (ctx : TpmSha1Ctx) : List (List UInt8) → Outcome TpmSha1Ctx
  | [] => .done ctx
  | piece :: pieces => do
    let ctx ← tpmSha1Update ctx piece
    sha1Updates ctx pieces

/-- The digest of a message that is given in pieces, with whatever was on the stack. With one
    piece it is `calculate_context_sha1`. -/
def sha1Pieces (stack : TpmSha1Ctx) (pieces : List (List UInt8)) : Outcome (List UInt8) := do
  let ctx ← sha1Updates (tpmSha1Init stack) pieces
  let (_, digest) ← tpmSha1Final ctx
  .done digest

/-! ## The digest of the standard -/

/-- The function of a round: it chooses, adds, or takes the majority. -/
def stepFunction (t : Nat) (x y z : UInt32) : UInt32 :=
  if t < 20 then (x &&& y) ^^^ (~~~x &&& z)
  else if 40 ≤ t ∧ t < 60 then (x &&& y) ^^^ (x &&& z) ^^^ (y &&& z)
  else x ^^^ y ^^^ z

/-- The constant of a round. -/
def stepConstant (t : Nat) : UInt32 :=
  if t < 20 then 0x5A827999
  else if t < 40 then 0x6ED9EBA1
  else if t < 60 then 0x8F1BBCDC
  else 0xCA62C1D6

/-- The next word of the schedule. -/
def nextWord (w : List UInt32) : UInt32 :=
  rol (w.getD (w.length - 3) 0 ^^^ w.getD (w.length - 8) 0 ^^^ w.getD (w.length - 14) 0 ^^^
    w.getD (w.length - 16) 0) 1

/-- The schedule of a block. -/
def schedule (data : List UInt8) : List UInt32 := extend nextWord 64 (blockWords data)

/-- A round: a new word in front, and the others moved. -/
def step (f : UInt32 → UInt32 → UInt32 → UInt32) (k word : UInt32) (v : Vector UInt32 5) :
    Vector UInt32 5 :=
  #v[rol v[0] 5 + f v[1] v[2] v[3] + v[4] + k + word, v[0], rol v[1] 30, v[2], v[3]]

/-- The words after so many rounds. -/
def steps (w : List UInt32) (h : Vector UInt32 5) : Nat → Vector UInt32 5
  | 0 => h
  | t + 1 => step (stepFunction t) (stepConstant t) (w.getD t 0) (steps w h t)

/-- What a block does to the state. -/
def compress (h : Vector UInt32 5) (data : List UInt8) : Vector UInt32 5 :=
  Vector.zipWith (· + ·) h (steps (schedule data) h 80)

/-- The digest of a message. -/
def sha1 (message : List UInt8) : List UInt8 :=
  digestBytes (absorb compress 64 iv (paddedBlocks message))

/-- The digest of `abc`. -/
example : sha1 [0x61, 0x62, 0x63] = [
    0xa9, 0x99, 0x3e, 0x36, 0x47, 0x06, 0x81, 0x6a, 0xba, 0x3e, 0x25, 0x71, 0x78, 0x50, 0xc2, 0x6c,
    0x9c, 0xd0, 0xd8, 0x9d] := by
  decide +kernel

/-! ## Rounds -/

theorem f0_eq (x y z : UInt32) : f0 x y z = (x &&& y) ^^^ (~~~x &&& z) := by
  refine UInt32.toBitVec_inj.1 (BitVec.eq_of_getLsbD_eq fun i hi => ?_)
  simp only [f0, UInt32.toBitVec_xor, UInt32.toBitVec_and, UInt32.toBitVec_not,
    BitVec.getLsbD_xor, BitVec.getLsbD_and, BitVec.getLsbD_not, hi, decide_true, Bool.true_and]
  cases x.toBitVec.getLsbD i <;> simp

theorem f2_eq (x y z : UInt32) : f2 x y z = (x &&& y) ^^^ (x &&& z) ^^^ (y &&& z) := by
  refine UInt32.toBitVec_inj.1 (BitVec.eq_of_getLsbD_eq fun i hi => ?_)
  simp only [f2, UInt32.toBitVec_xor, UInt32.toBitVec_and, UInt32.toBitVec_or,
    BitVec.getLsbD_xor, BitVec.getLsbD_and, BitVec.getLsbD_or]
  cases x.toBitVec.getLsbD i <;> cases y.toBitVec.getLsbD i <;> simp

theorem role_succ_zero (i : Nat) : role (i + 1) 0 = role i 4 := Fin.ext (by simp [role]; omega)

theorem role_succ_succ (i j : Nat) : role (i + 1) (j + 1) = role i j :=
  Fin.ext (by simp [role]; omega)

variable {j : Nat} {k : UInt32} {f : UInt32 → UInt32 → UInt32 → UInt32} {w : List UInt32}

theorem role_ne {k : Nat} (i : Nat) (hj : j < 5) (hk : k < 5) (hne : j ≠ k) :
    role i j ≠ role i k := by
  intro heq
  have hval : (j + 4 * i) % 5 = (k + 4 * i) % 5 := congrArg Fin.val heq
  omega

/-- The words in the order in which they are arguments of the macro of a round. -/
def view (i : Nat) (v : Vector UInt32 5) : Vector UInt32 5 :=
  #v[v[role i 0], v[role i 1], v[role i 2], v[role i 3], v[role i 4]]

theorem view_succ (i : Nat) (v : Vector UInt32 5) :
    view (i + 1) v = #v[v[role i 4], v[role i 0], v[role i 1], v[role i 2], v[role i 3]] := by
  simp only [view, role_succ_zero, role_succ_succ]

section Round

variable (f : UInt32 → UInt32 → UInt32 → UInt32) (k word : UInt32) (i : Nat) (v : Vector UInt32 5)

theorem shaRound_e : (shaRound f k word i v)[role i 4] =
    rol v[role i 0] 5 + f v[role i 1] v[role i 2] v[role i 3] + v[role i 4] + k + word := by
  have hne : (role i 1).val ≠ (role i 4).val :=
    fun heq => role_ne i (by decide) (by decide) (by decide : 1 ≠ 4) (Fin.ext heq)
  refine (Vector.getElem_set_ne (role i 1).isLt (role i 4).isLt hne).trans
    ((Vector.getElem_set_self _).trans ?_)
  ac_rfl

theorem shaRound_b : (shaRound f k word i v)[role i 1] = rol v[role i 1] 30 :=
  Vector.getElem_set_self _

theorem shaRound_other (hj : j < 4) (hne : j ≠ 1) :
    (shaRound f k word i v)[role i j] = v[role i j] := by
  have h1 : (role i 1).val ≠ (role i j).val :=
    fun heq => role_ne i (by decide) (by omega) hne.symm (Fin.ext heq)
  have h4 : (role i 4).val ≠ (role i j).val :=
    fun heq => role_ne i (by decide) (by omega) (by omega : 4 ≠ j) (Fin.ext heq)
  exact (Vector.getElem_set_ne (role i 1).isLt (role i j).isLt h1).trans
    (Vector.getElem_set_ne (role i 4).isLt (role i j).isLt h4)

/-- A round changes two words in place, and the arguments of the next one are moved. -/
theorem view_shaRound : view (i + 1) (shaRound f k word i v) = step f k word (view i v) := by
  rw [view_succ, shaRound_e, shaRound_b, shaRound_other f k word i v (by decide) (by decide),
    shaRound_other f k word i v (by decide) (by decide),
    shaRound_other f k word i v (by decide) (by decide)]
  rfl

end Round

/-- The bytes of a word of the memory, the other way round. -/
def swapped (word : UInt32) : UInt32 :=
  (word &&& 0xff000000) >>> 24 ||| (word &&& 0x00ff0000) >>> 8 |||
    (word &&& 0x0000ff00) <<< 8 ||| (word &&& 0x000000ff) <<< 24

theorem swapped_getUint32Le (data : List UInt8) (i : Nat) :
    swapped (getUint32Le data i) = getUint32Be data i := by
  refine UInt32.toBitVec_inj.1 (BitVec.eq_of_getLsbD_eq fun bit hbit => ?_)
  have hmask : ∀ j < 32, BitVec.getLsbD (4278190080 : BitVec 32) j = decide (24 ≤ j) ∧
      BitVec.getLsbD (16711680 : BitVec 32) j = decide (16 ≤ j ∧ j < 24) ∧
      BitVec.getLsbD (65280 : BitVec 32) j = decide (8 ≤ j ∧ j < 16) ∧
      BitVec.getLsbD (255 : BitVec 32) j = decide (j < 8) := by
    decide
  simp [swapped, getUint32Le, getUint32Be]
  grind

/-! ## Blocks -/

variable {data : List UInt8} {h : Vector UInt32 5} {i : Nat}
  {s : Vector UInt32 5 × Vector UInt32 16}

@[simp] theorem length_schedule (data : List UInt8) : (schedule data).length = 80 := by
  rw [schedule, Recurrence.length_extend, blockWords, List.length_map, List.length_range]

/-- The words of the schedule are first those of the block. -/
theorem take_schedule (data : List UInt8) : (schedule data).take 16 = blockWords data := by
  have hlen : (blockWords data).length = 16 := by rw [blockWords, List.length_map, List.length_range]
  rw [schedule, Recurrence.take_extend 64 hlen.ge, List.take_of_length_le hlen.le]

theorem getD_schedule (data : List UInt8) (hi : i < 16) :
    (schedule data).getD i 0 = getUint32Be data (4 * i) := by
  have htake : (schedule data).getD i 0 = ((schedule data).take 16).getD i 0 := by
    rw [List.getD_eq_getElem?_getD, List.getD_eq_getElem?_getD, List.getElem?_take_of_lt hi]
  rw [htake, take_schedule, blockWords, List.getD_eq_getElem _ _ (by simpa using hi),
    List.getElem_map, List.getElem_range]

/-- Behind them a word is made from those in front of it. -/
theorem take_succ_schedule (data : List UInt8) (hle : 16 ≤ i) (hlt : i < 80) :
    (schedule data).take (i + 1) =
      (schedule data).take i ++ [nextWord ((schedule data).take i)] := by
  have hlen : (blockWords data).length = 16 := by rw [blockWords, List.length_map, List.length_range]
  exact Recurrence.take_succ_extend (hlen.le.trans hle) (by omega)

theorem getD_schedule_next (data : List UInt8) (hle : 16 ≤ i) (hlt : i < 80) :
    (schedule data).getD i 0 = nextWord ((schedule data).take i) := by
  have hlen : ((schedule data).take i).length = i := by
    rw [List.length_take, length_schedule, Nat.min_eq_left hlt.le]
  have hget : (schedule data)[i]? = ((schedule data).take (i + 1))[i]? :=
    (List.getElem?_take_of_lt (Nat.lt_succ_self i)).symm
  rw [List.getD_eq_getElem?_getD, hget, take_succ_schedule data hle hlt,
    List.getElem?_append_right hlen.le, hlen, Nat.sub_self]
  rfl

/-- A macro is a round of the standard if it has its function, its constant and its word. -/
theorem view_macroRound {b : Nat → Vector UInt32 16 → UInt32 × Vector UInt32 16}
    (hview : view i s.1 = steps w h i) (hf : f = stepFunction i) (hk : k = stepConstant i)
    (hword : (b i s.2).1 = w.getD i 0) :
    view (i + 1) (macroRound b f k s i).1 = steps w h (i + 1) := by
  rw [macroRound, steps, view_shaRound, hview, hf, hk, hword]

/-- In the first 16 rounds the words of the block are turned round one by one. -/
structure TurnedUpTo (data : List UInt8) (h : Vector UInt32 5) (i : Nat)
    (s : Vector UInt32 5 × Vector UInt32 16) : Prop where
  view_eq : view i s.1 = steps (schedule data) h i
  turned : ∀ j : Fin 16, j < i → s.2[j] = getUint32Be data (4 * j)
  left : ∀ j : Fin 16, i ≤ j → s.2[j] = getUint32Le data (4 * j)

theorem TurnedUpTo.round (ht : TurnedUpTo data h i s) (hi : i < 16) :
    TurnedUpTo data h (i + 1) (macroRound b0 f0 0x5A827999 s i) := by
  have hslot : (slot i).val = i := Nat.mod_eq_of_lt hi
  have hword : swapped s.2[slot i] = getUint32Be data (4 * i) := by
    rw [ht.left (slot i) hslot.ge, hslot, swapped_getUint32Le]
  refine ⟨view_macroRound ht.view_eq ?_ ?_ ?_, ?_, ?_⟩
  · funext x y z
    rw [f0_eq, stepFunction, if_pos (by omega)]
  · rw [stepConstant, if_pos (by omega)]
  · exact hword.trans (getD_schedule data hi).symm
  · intro j hj
    rcases Nat.eq_or_lt_of_le (Nat.le_of_lt_succ hj) with heq | hlt
    · obtain rfl : j = slot i := Fin.ext (heq.trans hslot.symm)
      refine (Vector.getElem_set_self _).trans (hword.trans ?_)
      rw [hslot]
    · refine (Vector.getElem_set_ne (slot i).isLt j.isLt ?_).trans (ht.turned j hlt)
      omega
  · intro j hj
    refine (Vector.getElem_set_ne (slot i).isLt j.isLt ?_).trans (ht.left j (by omega))
    omega

/-- In the rounds behind them the array holds the last words of the schedule. -/
structure RoundsUpTo (data : List UInt8) (h : Vector UInt32 5) (i : Nat)
    (s : Vector UInt32 5 × Vector UInt32 16) : Prop where
  view_eq : view i s.1 = steps (schedule data) h i
  holds : HoldsLast s.2 ((schedule data).take i)

theorem TurnedUpTo.toRounds (ht : TurnedUpTo data h 16 s) : RoundsUpTo data h 16 s := by
  refine ⟨ht.view_eq, ?_⟩
  have hlist : s.2.toList = blockWords data := by
    refine List.ext_getElem (by simp [blockWords]) fun j hj hj' => ?_
    have hj16 : j < 16 := by simpa using hj
    simp only [blockWords, Vector.getElem_toList, List.getElem_map, List.getElem_range]
    exact ht.turned ⟨j, hj16⟩ hj16
  rw [take_schedule, ← hlist]
  exact Recurrence.holdsLast_toList s.2

theorem slot_eq {buf : Vector UInt32 16} (hw : HoldsLast buf w)
    (hj : j < w.length) (hle : w.length ≤ j + 16) : buf[slot j] = w.getD j 0 := by
  have hget : buf[(slot j).val]? = w[j]? := hw j hj hle
  rw [List.getD_eq_getElem?_getD, ← hget, Vector.getElem?_eq_getElem (slot j).isLt]
  rfl

/-- The word that replaces the oldest one is the next. -/
theorem b1_word {buf : Vector UInt32 16} (hw : HoldsLast buf w)
    (hle : 16 ≤ w.length) : (b1 w.length buf).1 = nextWord w := by
  have hword : (b1 w.length buf).1 = rol (buf[slot w.length] ^^^ buf[slot (w.length - 14)] ^^^
      buf[slot (w.length - 8)] ^^^ buf[slot (w.length - 3)]) 1 := rfl
  have holdest : buf[slot w.length] = w.getD (w.length - 16) 0 := by
    have hoff : slot w.length = slot (w.length - 16) := Fin.ext (by simp [slot]; omega)
    exact (congrArg (fun j : Fin 16 => buf[j]) hoff).trans (slot_eq hw (by omega) (by omega))
  rw [hword, nextWord, holdest, slot_eq hw (by omega) (by omega), slot_eq hw (by omega) (by omega),
    slot_eq hw (by omega) (by omega)]
  refine congrArg (rol · 1) ?_
  ac_rfl

theorem RoundsUpTo.round
    (hr : RoundsUpTo data h i s) (hle : 16 ≤ i) (hlt : i < 80) (hf : f = stepFunction i)
    (hk : k = stepConstant i) : RoundsUpTo data h (i + 1) (macroRound b1 f k s i) := by
  have hlen : ((schedule data).take i).length = i := by
    rw [List.length_take, length_schedule, Nat.min_eq_left hlt.le]
  have hword : (b1 i s.2).1 = nextWord ((schedule data).take i) := by
    have := b1_word hr.holds (hle.trans hlen.ge)
    rwa [hlen] at this
  refine ⟨view_macroRound hr.view_eq hf hk (hword.trans (getD_schedule_next data hle hlt).symm), ?_⟩
  rw [take_succ_schedule data hle hlt, ← hword]
  exact hr.holds.push _ (slot i).isLt (by rw [hlen]; rfl)

/-- The rounds of a macro. -/
theorem RoundsUpTo.rounds (n : Nat) (hr : RoundsUpTo data h i s) (hle : 16 ≤ i) (hlt : i + n ≤ 80)
    (hf : ∀ t, i ≤ t → t < i + n → f = stepFunction t)
    (hk : ∀ t, i ≤ t → t < i + n → k = stepConstant t) :
    RoundsUpTo data h (i + n) ((List.range' i n).foldl (macroRound b1 f k) s) :=
  Recurrence.foldl_range'_induct n
    (fun t _ ht ht' hr => hr.round (hle.trans ht) (by omega) (hf t ht ht') (hk t ht ht')) hr

theorem turnedUpTo_start (h : Vector UInt32 5) (data : List UInt8) :
    TurnedUpTo data h 0 (h, memoryWords data) := by
  refine ⟨?_, fun j hj => absurd hj (Nat.not_lt_zero _), fun j _ => ?_⟩
  · ext j hj
    interval_cases j <;> rfl
  · exact Vector.getElem_ofFn j.isLt

/-- Behind 80 rounds the words are in their places. -/
theorem view_eighty (v : Vector UInt32 5) : view 80 v = v := by
  ext j hj
  interval_cases j <;> rfl

/-- A block changes the state as in the standard. -/
theorem tpmSha1Transform_eq (h : Vector UInt32 5) (data : List UInt8) :
    tpmSha1Transform h data = compress h data := by
  have h16 := (Recurrence.foldl_range'_induct 16
    (fun i s _ hi ht => TurnedUpTo.round ht (by omega)) (turnedUpTo_start h data)).toRounds
  have h20 := h16.rounds (f := f0) (k := 0x5A827999) 4 (by decide) (by decide)
    (fun t _ ht => by
      funext x y z
      rw [f0_eq, stepFunction, if_pos (by omega)])
    (fun t _ ht => by rw [stepConstant, if_pos (by omega)])
  have h40 := h20.rounds (f := f1) (k := 0x6ED9EBA1) 20 (by decide) (by decide)
    (fun t ht ht' => by
      funext x y z
      rw [stepFunction, if_neg (by omega), if_neg (by omega), f1])
    (fun t ht ht' => by rw [stepConstant, if_neg (by omega), if_pos (by omega)])
  have h60 := h40.rounds (f := f2) (k := 0x8F1BBCDC) 20 (by decide) (by decide)
    (fun t ht ht' => by
      funext x y z
      rw [f2_eq, stepFunction, if_neg (by omega), if_pos (by omega)])
    (fun t ht ht' => by rw [stepConstant, if_neg (by omega), if_neg (by omega), if_pos (by omega)])
  have h80 := h60.rounds (f := f1) (k := 0xCA62C1D6) 20 (by decide) (by decide)
    (fun t ht ht' => by
      funext x y z
      rw [stepFunction, if_neg (by omega), if_neg (by omega), f1])
    (fun t ht ht' => by rw [stepConstant, if_neg (by omega), if_neg (by omega), if_neg (by omega)])
  have hview := h80.view_eq
  rw [view_eighty] at hview
  rw [compress, ← hview, tpmSha1Transform, List.range_eq_range']

/-! ## Messages -/

/-- The two words of the number of bits of so many bytes. -/
structure CountsBits (countLo countHi : UInt32) (n : Nat) : Prop where
  lo_eq : countLo.toNat = 8 * n % 2 ^ 32
  hi_eq : countHi.toNat = 8 * n / 2 ^ 32 % 2 ^ 32

variable {countLo countHi : UInt32} {n : Nat}

theorem CountsBits.add (hc : CountsBits countLo countHi n) (k : Nat) :
    CountsBits (countLo + UInt32.ofNat (k <<< 3))
      ((if countLo + UInt32.ofNat (k <<< 3) < countLo then countHi + 1 else countHi) +
        UInt32.ofNat (k >>> 29)) (n + k) := by
  have hshift : (UInt32.ofNat (k <<< 3)).toNat = 8 * k % 2 ^ 32 := by
    rw [UInt32.toNat_ofNat', Nat.shiftLeft_eq, Nat.mul_comm]
  have hover : (UInt32.ofNat (k >>> 29)).toNat = 8 * k / 2 ^ 32 % 2 ^ 32 := by
    rw [UInt32.toNat_ofNat', Nat.shiftRight_eq_div_pow]
    omega
  have hlo : (countLo + UInt32.ofNat (k <<< 3)).toNat = 8 * (n + k) % 2 ^ 32 := by
    rw [UInt32.toNat_add, hshift, hc.lo_eq]
    omega
  refine ⟨hlo, ?_⟩
  -- The sum of the lower words is less than one of them if there is a carry.
  have hcarry : countLo + UInt32.ofNat (k <<< 3) < countLo ↔
      8 * (n + k) % 2 ^ 32 < 8 * n % 2 ^ 32 := by
    rw [UInt32.lt_iff_toNat_lt, hlo, hc.lo_eq]
  have hhi := hc.hi_eq
  split_ifs with hlt
  · have := hcarry.1 hlt
    have hone : (1 : UInt32).toNat = 1 := rfl
    rw [UInt32.toNat_add, UInt32.toNat_add, hhi, hover, hone]
    omega
  · have := mt hcarry.2 hlt
    rw [UInt32.toNat_add, hhi, hover]
    omega

theorem CountsBits.bufOff_eq (hc : CountsBits countLo countHi n) :
    (countLo >>> 3 &&& 63).toNat = n % 64 := by
  have hthree : (3 : UInt32).toNat % 32 = 3 := rfl
  have hmask : (63 : UInt32).toNat = 2 ^ 6 - 1 := rfl
  rw [UInt32.toNat_and, UInt32.toNat_shiftRight, hthree, hmask, Nat.and_two_pow_sub_one_eq_mod,
    Nat.shiftRight_eq_div_pow, hc.lo_eq]
  omega

theorem CountsBits.counter_eq (hc : CountsBits countLo countHi n) :
    putUint32Be countHi ++ putUint32Be countLo = bitLength n := by
  have hlo : countLo.toNat = 8 * n % 256 ^ 4 := hc.lo_eq
  have hhi : countHi.toNat = 8 * n / 256 ^ 4 % 256 ^ 4 := hc.hi_eq
  rw [putUint32Be_eq, putUint32Be_eq, hlo, hhi, leBytes_mod, leBytes_mod, ← List.reverse_append,
    ← leBytes_add]
  rfl

/-- The mark is where the count goes if 56 bytes are in the buffer. -/
theorem CountsBits.mark_iff (hc : CountsBits countLo countHi n) :
    countLo &&& (63 * 8) = 56 * 8 ↔ n % 64 = 56 := by
  have hmask : (63 * 8 : UInt32).toNat = 63 <<< 3 := rfl
  have hmark : (56 * 8 : UInt32).toNat = 56 <<< 3 := rfl
  have hlow : countLo.toNat % 8 &&& 63 <<< 3 = 0 := by
    have hlt : countLo.toNat % 8 < 8 := Nat.mod_lt _ (by decide)
    interval_cases countLo.toNat % 8 <;> rfl
  have hsplit : countLo.toNat = (countLo.toNat / 8) <<< 3 ||| countLo.toNat % 8 := by
    rw [Nat.shiftLeft_eq, Nat.mul_comm, ← Nat.two_pow_add_eq_or_of_lt (Nat.mod_lt _ (by decide))]
    exact (Nat.div_add_mod _ _).symm
  have hand : countLo.toNat &&& 63 <<< 3 = (countLo.toNat / 8 % 2 ^ 6) <<< 3 :=
    calc countLo.toNat &&& 63 <<< 3
        = ((countLo.toNat / 8) <<< 3 ||| countLo.toNat % 8) &&& 63 <<< 3 :=
          congrArg (· &&& 63 <<< 3) hsplit
      _ = (countLo.toNat / 8) <<< 3 &&& 63 <<< 3 := by
          rw [Nat.and_or_distrib_right, hlow, Nat.or_zero]
      _ = (countLo.toNat / 8 % 2 ^ 6) <<< 3 := by
          rw [← Nat.shiftLeft_and_distrib]
          exact congrArg (· <<< 3) (Nat.and_two_pow_sub_one_eq_mod _ 6)
  rw [← UInt32.toNat_inj, UInt32.toNat_and, hmask, hmark, hand, hc.lo_eq, Nat.shiftLeft_eq,
    Nat.shiftLeft_eq]
  omega

/-- The context has taken the message: its whole blocks, and the bytes behind them. -/
structure Taken (ctx : TpmSha1Ctx) (message : List UInt8) : Prop where
  h_eq : ctx.h = absorb compress 64 iv message
  counts : CountsBits ctx.countLo ctx.countHi message.length
  buf_eq : ctx.buf.toList.take (message.length % 64) = rest 64 message

theorem taken_init (ctx : TpmSha1Ctx) : Taken (tpmSha1Init ctx) [] where
  h_eq := (Absorb.absorb_short (by decide)).1.symm
  counts := ⟨rfl, rfl⟩
  buf_eq := rfl

variable {ctx : TpmSha1Ctx} {message : List UInt8}

/-- The blocks of an update: what is left of the data goes on behind `front`. -/
theorem Taken.updateBlocks (ht : Taken ctx message) (data : List UInt8) :
    ∃ h buf left front, updateBlocks ctx data = .done (h, buf, left, front.length) ∧
      h = absorb compress 64 iv (message ++ data) ∧
      rest 64 (message ++ data) = front ++ left ∧
      buf.toList.take front.length = front ∧ front.length + left.length ≤ 64 := by
  have hpos : 0 < 64 := by decide
  have hlen : (rest 64 message).length = message.length % 64 := Absorb.length_rest 64 message
  have hlt : message.length % 64 < 64 := Nat.mod_lt _ hpos
  have htransform : tpmSha1Transform = compress :=
    funext fun h => funext fun data => tpmSha1Transform_eq h data
  simp only [Sha1.updateBlocks, ht.counts.bufOff_eq]
  by_cases hfull : 64 ≤ data.length + message.length % 64
  · -- The buffer is filled up, and what is behind the blocks is put at its start.
    have htake : (data.take (64 - message.length % 64)).length = 64 - message.length % 64 :=
      List.length_take_of_le (by omega)
    obtain ⟨block, hcopy, hblock⟩ := copyTo_eq ctx.buf (message.length % 64)
      (data.take (64 - message.length % 64)) (by omega)
    have hfilled : block.toList = rest 64 message ++ data.take (64 - message.length % 64) := by
      rw [hblock, patch, ht.buf_eq, htake, Nat.add_sub_cancel' hlt.le,
        List.drop_eq_nil_of_le (Vector.length_toList ..).le, List.append_nil]
    obtain ⟨habsorb, hrest⟩ := Absorb.absorb_fill (f := compress) (s := iv) hpos
      (l := message) (m := data) (by omega)
    rw [hlen] at habsorb hrest
    have hrounds : (data.drop (64 - message.length % 64)).length < 64 * (data.length + 1) := by
      rw [List.length_drop]
      omega
    refine ⟨_, block, rest 64 (data.drop (64 - message.length % 64)), [], ?_, rfl, ?_, rfl, ?_⟩
    · rw [if_pos hfull, hcopy, Outcome.done_bind, htransform, processLoop_eq hrounds, Outcome.done_bind, habsorb,
        hfilled, ht.h_eq]
      rfl
    · rw [hrest, List.nil_append]
    · rw [List.length_nil, Nat.zero_add]
      exact (Absorb.length_rest_lt hpos _).le
  · -- The data are left with what was left.
    have hshort : (rest 64 message).length + data.length < 64 := by omega
    obtain ⟨habsorb, hrest⟩ := Absorb.absorb_keep (f := compress) (s := iv) hpos hshort
    refine ⟨ctx.h, ctx.buf, data, rest 64 message, ?_, ?_, hrest, ?_, hshort.le⟩
    · rw [if_neg hfull, hlen]
    · rw [habsorb, ht.h_eq]
    · rw [hlen, ht.buf_eq]

theorem Taken.update (ht : Taken ctx message) (data : List UInt8) :
    ∃ ctx', tpmSha1Update ctx data = .done ctx' ∧ Taken ctx' (message ++ data) := by
  have hcounts := ht.counts.add data.length
  rw [← List.length_append] at hcounts
  obtain ⟨h, buf, left, front, hblocks, hh, hrest, hbuf, hle⟩ := ht.updateBlocks data
  obtain ⟨buf', hcopy, hbuf'⟩ := exists_copyTo buf hbuf hle
  rw [tpmSha1Update, hblocks, Outcome.done_bind]
  simp only [hcopy, Outcome.done_bind]
  refine ⟨_, rfl, hh, hcounts, ?_⟩
  rw [← Absorb.length_rest, hrest, List.length_append, hbuf']

/-- Zeros are taken until the mark is reached. -/
theorem Taken.zerosLoop (ht : Taken ctx message) {zeros rounds : Nat}
    (hzeros : zeros = (120 - message.length % 64) % 64) (hrounds : zeros < rounds) :
    ∃ ctx', zerosLoop rounds ctx = .done ctx' ∧ Taken ctx' (message ++ List.replicate zeros 0) := by
  induction zeros generalizing ctx message rounds with
  | zero =>
    obtain ⟨rounds, rfl⟩ := Nat.exists_eq_add_one_of_ne_zero hrounds.ne'
    have hmark : ctx.countLo &&& (63 * 8) = 56 * 8 := ht.counts.mark_iff.2 (by omega)
    refine ⟨ctx, ?_, by rwa [List.replicate_zero, List.append_nil]⟩
    rw [Sha1.zerosLoop, if_neg (not_not.2 hmark)]
  | succ zeros ih =>
    obtain ⟨rounds, rfl⟩ := Nat.exists_eq_add_one_of_ne_zero (Nat.ne_zero_of_lt hrounds)
    have hmark : ¬ ctx.countLo &&& (63 * 8) = 56 * 8 := mt ht.counts.mark_iff.1 (by omega)
    obtain ⟨ctx₁, hupdate, h₁⟩ := ht.update [0]
    have hlen : (message ++ [0]).length = message.length + 1 := List.length_append
    obtain ⟨ctx₂, hloop, h₂⟩ := ih h₁ (by omega) (Nat.lt_of_succ_lt_succ hrounds)
    refine ⟨ctx₂, ?_, ?_⟩
    · rw [Sha1.zerosLoop, if_pos hmark, hupdate, Outcome.done_bind, hloop]
    · rwa [List.append_assoc, List.singleton_append, ← List.replicate_succ] at h₂

/-- In the end the digest is that of the message. -/
theorem Taken.final (ht : Taken ctx message) :
    ∃ ctx', tpmSha1Final ctx = .done (ctx', sha1 message) := by
  obtain ⟨ctx₁, hmark, h₁⟩ := ht.update [0x80]
  have hlen : (message ++ [0x80]).length = message.length + 1 := List.length_append
  have hleft : (119 - message.length % 64) % 64 = (120 - (message ++ [0x80]).length % 64) % 64 := by
    omega
  have hturns : (119 - message.length % 64) % 64 < 64 := Nat.mod_lt _ (by decide)
  obtain ⟨ctx₂, hzeros, h₂⟩ := h₁.zerosLoop hleft hturns
  obtain ⟨ctx₃, hcounter, h₃⟩ := h₂.update (bitLength message.length)
  have hpadded : message ++ [0x80] ++ List.replicate ((119 - message.length % 64) % 64) 0 ++
      bitLength message.length = paddedBlocks message := by
    rw [paddedBlocks, List.append_assoc message, List.singleton_append]
  have hfinal : tpmSha1Final ctx = .done (⟨Vector.replicate 5 0, 0, 0, Vector.replicate 64 0⟩,
      digestBytes ctx₃.h) := by
    rw [tpmSha1Final, ht.counts.counter_eq, hmark, Outcome.done_bind, hzeros, Outcome.done_bind,
      hcounter, Outcome.done_bind]
  exact ⟨_, by rw [hfinal, h₃.h_eq, hpadded, ← sha1]⟩

theorem Taken.updates (ht : Taken ctx message) (pieces : List (List UInt8)) :
    ∃ ctx', sha1Updates ctx pieces = .done ctx' ∧ Taken ctx' (message ++ pieces.flatten) := by
  induction pieces generalizing ctx message with
  | nil => exact ⟨ctx, rfl, by rwa [List.flatten_nil, List.append_nil]⟩
  | cons piece pieces ih =>
    obtain ⟨ctx₁, hupdate, h₁⟩ := ht.update piece
    obtain ⟨ctx₂, hupdates, h₂⟩ := ih h₁
    refine ⟨ctx₂, ?_, ?_⟩
    · rw [sha1Updates, hupdate, Outcome.done_bind, hupdates]
    · rwa [List.flatten_cons, ← List.append_assoc]

/-- Whatever was on the stack and however the message was cut in pieces, the output is the
    digest of the standard, and the loops end. -/
theorem sha1_stream (stack : TpmSha1Ctx) (pieces : List (List UInt8)) :
    sha1Pieces stack pieces = .done (sha1 pieces.flatten) := by
  obtain ⟨ctx, hupdates, htaken⟩ := (taken_init stack).updates pieces
  obtain ⟨ctx', hfinal⟩ := htaken.final
  rw [sha1Pieces, hupdates, Outcome.done_bind, hfinal, Outcome.done_bind, List.nil_append]

end Cube.Crypto.Sha1
