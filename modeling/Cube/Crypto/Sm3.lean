import Cube.Crypto.BlockBuffer

/-!
# The digest SM3

The digest of `sm3_ext.c`: a block of 64 bytes is expanded to 68 words, and changes the eight
words of the state in 64 rounds. The digest of a file is that of what is read of it, piece
by piece.

* `sm3_stream`: the pieces a message comes in do not matter, and the digest is that of the
  padded message.
* `calculateSm3_eq`: neither does it matter how a file is cut into reads.
* `compProcUuid_eq`: the identity of a process is a digest.
-/

namespace Cube.Crypto.Sm3

open Lib
open Absorb (absorb rest)

/-- `ROTL`. The language leaves a shift by 32 or more undefined; the machine shifts by the
    count modulo 32. -/
def rotl (x n : UInt32) : UInt32 := (x &&& 0xFFFFFFFF) <<< n ||| x >>> (32 - n)

/-- `P0`. -/
def p0 (x : UInt32) : UInt32 := x ^^^ rotl x 9 ^^^ rotl x 17

/-- `P1`. -/
def p1 (x : UInt32) : UInt32 := x ^^^ rotl x 15 ^^^ rotl x 23

/-- `FF0` and `GG0`. -/
def ff0 (x y z : UInt32) : UInt32 := x ^^^ y ^^^ z

/-- `FF1`. -/
def ff1 (x y z : UInt32) : UInt32 := (x &&& y) ||| (x &&& z) ||| (y &&& z)

/-- `GG1`. -/
def gg1 (x y z : UInt32) : UInt32 := (x &&& y) ||| (~~~x &&& z)

/-- The words `A` to `H` of a state. -/
@[ext]
structure Words where
  a : UInt32
  b : UInt32
  c : UInt32
  d : UInt32
  e : UInt32
  f : UInt32
  g : UInt32
  h : UInt32
  deriving DecidableEq, Repr

/-- The state at the start, of `sm3_starts_ext`. -/
def iv : Words :=
  ⟨0x7380166F, 0x4914B2B9, 0x172442D7, 0xDA8A0600, 0xA96F30BC, 0x163138AA, 0xE38DEE4D, 0xB0FB0E4E⟩

/-- `T`. -/
def t : List UInt32 := List.replicate 16 0x79CC4519 ++ List.replicate 48 0x7A879D8A

/-- The loop that adds so many words to `W`. -/
def expandLoop : Nat → List UInt32 → List UInt32
  | 0, w => w
  | n + 1, w =>
    let j := w.length
    let temp1 := w.getD (j - 16) 0 ^^^ w.getD (j - 9) 0
    let temp2 := rotl (w.getD (j - 3) 0) 15
    let temp4 := p1 (temp1 ^^^ temp2)
    let temp5 := rotl (w.getD (j - 13) 0) 7 ^^^ w.getD (j - 6) 0
    expandLoop n (w ++ [temp4 ^^^ temp5])

/-- A turn of the loops over the words, with the functions and words of it. -/
def turn (ff gg : UInt32 → UInt32 → UInt32 → UInt32) (tj wj w1j : UInt32) (v : Words) : Words :=
  let ss1 := rotl (rotl v.a 12 + v.e + tj) 7
  let ss2 := ss1 ^^^ rotl v.a 12
  let tt1 := ff v.a v.b v.c + v.d + ss2 + w1j
  let tt2 := gg v.e v.f v.g + v.h + ss1 + wj
  ⟨tt1, v.a, rotl v.b 9, v.c, p0 tt2, v.e, rotl v.f 19, v.g⟩

/-- The words of two states, one by one. -/
def Words.xor (v w : Words) : Words :=
  ⟨v.a ^^^ w.a, v.b ^^^ w.b, v.c ^^^ w.c, v.d ^^^ w.d, v.e ^^^ w.e, v.f ^^^ w.f, v.g ^^^ w.g,
    v.h ^^^ w.h⟩

/-- `sm3_process`. -/
def sm3Process (state : Words) (data : List UInt8) : Words :=
  let w := expandLoop 52 (blockWords data)
  let w1 := (List.range 64).map fun j => w.getD j 0 ^^^ w.getD (j + 4) 0
  let v := (List.range 16).foldl (fun v j =>
    turn ff0 ff0 (rotl (t.getD j 0) (UInt32.ofNat j)) (w.getD j 0) (w1.getD j 0) v) state
  let v := (List.range' 16 48).foldl (fun v j =>
    turn ff1 gg1 (rotl (t.getD j 0) (UInt32.ofNat j)) (w.getD j 0) (w1.getD j 0) v) v
  state.xor v

/-- `sm3_context_ext`, with the arrays for a keyed digest. -/
structure Sm3ContextExt extends BlockContext Words where
  ipad : Vector UInt8 64
  opad : Vector UInt8 64

/-- `sm3_starts_ext`. The buffer is left as it is. -/
def sm3StartsExt (ctx : Sm3ContextExt) : Sm3ContextExt :=
  { ctx with totalLow := 0, totalHigh := 0, state := iv }

/-- `sm3_update_ext`. -/
def sm3UpdateExt (ctx : Sm3ContextExt) (input : List UInt8) : Outcome Sm3ContextExt := do
  let block ← blockUpdate sm3Process ctx.toBlockContext input
  .done { ctx with toBlockContext := block }

/-- The output of a state, the bytes of its words. -/
def outputBytes (v : Words) : List UInt8 :=
  putUint32Be v.a ++ putUint32Be v.b ++ putUint32Be v.c ++ putUint32Be v.d ++ putUint32Be v.e ++
    putUint32Be v.f ++ putUint32Be v.g ++ putUint32Be v.h

/-- `sm3_finish_ext`: the context and the output. -/
def sm3FinishExt (ctx : Sm3ContextExt) : Outcome (Sm3ContextExt × List UInt8) := do
  let block ← blockFinish sm3Process ctx.toBlockContext
  .done ({ ctx with toBlockContext := block }, outputBytes block.state)

/-- The updates with the pieces of a message. -/
def sm3Updates (ctx : Sm3ContextExt) : List Piece → Outcome Sm3ContextExt
  | [] => .done ctx
  | piece :: pieces => do
    let ctx ← sm3UpdateExt ctx piece.bytes
    sm3Updates ctx pieces

/-- The digest of a message that is given in pieces, with whatever was on the stack. -/
def sm3Pieces (stack : Sm3ContextExt) (pieces : List Piece) : Outcome (List UInt8) := do
  let ctx ← sm3Updates (sm3StartsExt stack) pieces
  let (_, output) ← sm3FinishExt ctx
  .done output

/-- `sm3_ext` and `calculate_context_sm3`, with whatever was on the stack. -/
def calculateContextSm3 (stack : Sm3ContextExt) (context : Piece) : Outcome (List UInt8) := do
  let index ← sm3UpdateExt (sm3StartsExt stack) context.bytes
  let (_, output) ← sm3FinishExt index
  .done output

/-- A read of a file by `fread`: not empty, and of 1024 bytes at most. -/
structure FileRead where
  bytes : List UInt8
  ne_nil : bytes ≠ []
  length_le : bytes.length ≤ 1024

/-- The loop of `calculate_sm3` over the reads of the file, up to one that returns `0`. -/
def fileLoop (ctx : Sm3ContextExt) : List FileRead → Outcome Sm3ContextExt
  | [] => .done ctx
  | data :: reads => do
    let ctx ← sm3UpdateExt ctx data.bytes
    fileLoop ctx reads

/-- `calculate_sm3` and `sm3_file_ext` of a file that is opened: what is returned, and the
    output. An error of the file is told after the reads. -/
def calculateSm3 (stack : Sm3ContextExt) (reads : List FileRead) (ferror : Bool) :
    Outcome (Int × List UInt8) := do
  let ctx ← fileLoop (sm3StartsExt stack) reads
  let (_, output) ← sm3FinishExt ctx
  .done (if ferror then 2 else 0, output)

/-! ## The digest of a message -/

/-- The digest of a message: the blocks of the padded message change the state in turn. -/
def sm3 (message : List UInt8) : List UInt8 :=
  outputBytes (absorb sm3Process 64 iv (paddedBlocks message))

@[simp] theorem length_outputBytes (v : Words) : (outputBytes v).length = 32 := rfl

variable {ctx : Sm3ContextExt} {message : List UInt8}

/-- The context has taken the message, with the arrays it was given. -/
structure Taken (ctx start : Sm3ContextExt) (message : List UInt8) : Prop where
  holds : Holds sm3Process iv ctx.toBlockContext message
  ipad_eq : ctx.ipad = start.ipad
  opad_eq : ctx.opad = start.opad

theorem taken_start (ctx : Sm3ContextExt) : Taken (sm3StartsExt ctx) ctx [] :=
  ⟨holds_start sm3Process iv ctx.buffer, rfl, rfl⟩

variable {start : Sm3ContextExt} {input : List UInt8}

theorem Taken.update (h : Taken ctx start message) (hlen : input.length < 2 ^ 32) :
    ∃ ctx', sm3UpdateExt ctx input = .done ctx' ∧ Taken ctx' start (message ++ input) := by
  obtain ⟨block, hupdate, hblock⟩ := h.holds.update hlen
  refine ⟨{ ctx with toBlockContext := block }, ?_, hblock, h.ipad_eq, h.opad_eq⟩
  rw [sm3UpdateExt, hupdate, Outcome.done_bind]

theorem Taken.updates (h : Taken ctx start message) (pieces : List Piece) :
    ∃ ctx', sm3Updates ctx pieces = .done ctx' ∧
      Taken ctx' start (message ++ (pieces.map Piece.bytes).flatten) := by
  induction pieces generalizing ctx message with
  | nil => exact ⟨ctx, rfl, by rwa [List.map_nil, List.flatten_nil, List.append_nil]⟩
  | cons piece pieces ih =>
    obtain ⟨ctx₁, hupdate, h₁⟩ := h.update (Nat.lt_trans piece.length_lt (by decide))
    obtain ⟨ctx₂, hupdates, h₂⟩ := ih h₁
    refine ⟨ctx₂, ?_, ?_⟩
    · rw [sm3Updates, hupdate, Outcome.done_bind, hupdates]
    · rwa [List.map_cons, List.flatten_cons, ← List.append_assoc]

/-- In the end the output is the digest, and the arrays are those that were given. -/
theorem Taken.finish (h : Taken ctx start message) :
    ∃ ctx', sm3FinishExt ctx = .done (ctx', sm3 message) ∧ ctx'.ipad = start.ipad ∧
      ctx'.opad = start.opad := by
  obtain ⟨block, hfinish, hstate⟩ := h.holds.finish
  refine ⟨{ ctx with toBlockContext := block }, ?_, h.ipad_eq, h.opad_eq⟩
  rw [sm3FinishExt, hfinish, Outcome.done_bind, hstate, sm3]

/-! ## Digests of pieces -/

/-- Whatever was on the stack and however the message was cut in pieces, the output is the
    digest of the message, and nothing is written outside the buffer. -/
theorem sm3_stream (stack : Sm3ContextExt) (pieces : List Piece) :
    sm3Pieces stack pieces = .done (sm3 (pieces.map Piece.bytes).flatten) := by
  obtain ⟨ctx, hupdates, htaken⟩ := (taken_start stack).updates pieces
  obtain ⟨ctx', hfinish, -, -⟩ := htaken.finish
  rw [sm3Pieces, hupdates, Outcome.done_bind, hfinish, Outcome.done_bind, List.nil_append]

/-- A digest in one call is that of a single piece. -/
theorem calculateContextSm3_eq (stack : Sm3ContextExt) (context : Piece) :
    calculateContextSm3 stack context = .done (sm3 context.bytes) := by
  obtain ⟨ctx, hupdate, htaken⟩ :=
    (taken_start stack).update (Nat.lt_trans context.length_lt (by decide))
  obtain ⟨ctx', hfinish, -, -⟩ := htaken.finish
  rw [calculateContextSm3, hupdate, Outcome.done_bind, hfinish, Outcome.done_bind, List.nil_append]

/-- A read as a piece of the file. -/
def FileRead.toPiece (data : FileRead) : Piece where
  bytes := data.bytes
  length_lt := Nat.lt_of_le_of_lt data.length_le (by decide)

theorem fileLoop_eq (ctx : Sm3ContextExt) (reads : List FileRead) :
    fileLoop ctx reads = sm3Updates ctx (reads.map FileRead.toPiece) := by
  induction reads generalizing ctx with
  | nil => rfl
  | cons data reads ih =>
    rw [fileLoop, List.map_cons, sm3Updates]
    exact congrArg (sm3UpdateExt ctx data.bytes >>= ·) (funext ih)

/-- However a file is cut into reads, the output is the digest of its contents. -/
theorem calculateSm3_eq (stack : Sm3ContextExt) (reads : List FileRead) (ferror : Bool) :
    calculateSm3 stack reads ferror =
      .done (if ferror then 2 else 0, sm3 (reads.map FileRead.bytes).flatten) := by
  have hbytes : (reads.map FileRead.toPiece).map Piece.bytes = reads.map FileRead.bytes := by
    rw [List.map_map]
    rfl
  obtain ⟨ctx, hupdates, htaken⟩ := (taken_start stack).updates (reads.map FileRead.toPiece)
  obtain ⟨ctx', hfinish, -, -⟩ := htaken.finish
  rw [calculateSm3, fileLoop_eq, hupdates, Outcome.done_bind, hfinish, Outcome.done_bind, hbytes,
    List.nil_append]

/-! ## The identity of a process -/

/-- The bytes that `comp_proc_uuid` takes the digest of: a uuid and a name, of which 32 bytes
    count at most. -/
def procBytes (devUuid : Vector UInt8 32) (name : Option (List UInt8)) : List UInt8 :=
  let buffer := patch (List.replicate 64 0) 0 devUuid.toList
  match name with
  | none => buffer
  | some name => patch buffer 32 (if name.length < 32 then name else name.take 32)

theorem length_procBytes (devUuid : Vector UInt8 32) (name : Option (List UInt8)) :
    (procBytes devUuid name).length = 64 := by
  have hbuffer : (patch (List.replicate 64 (0 : UInt8)) 0 devUuid.toList).length = 64 := by
    rw [length_patch (by simp), List.length_replicate]
  cases name with
  | none => exact hbuffer
  | some name =>
    have hname : (if name.length < 32 then name else name.take 32).length ≤ 32 := by
      split_ifs with hshort
      · exact Nat.le_of_lt hshort
      · exact List.length_take_le 32 name
    rw [procBytes, length_patch (by omega), hbuffer]

theorem length_procBytes_lt (devUuid : Vector UInt8 32) (name : Option (List UInt8)) :
    (procBytes devUuid name).length < 2 ^ 31 :=
  Nat.lt_of_le_of_lt (length_procBytes devUuid name).le (by decide)

/-- `comp_proc_uuid`: what is written to `conn_uuid`. -/
def compProcUuid (stack : Sm3ContextExt) (devUuid : Vector UInt8 32) (name : Option (List UInt8)) :
    Outcome (List UInt8) :=
  calculateContextSm3 stack ⟨procBytes devUuid name, length_procBytes_lt devUuid name⟩

theorem size_sm3 (message : List UInt8) : (sm3 message).toArray.size = 32 := rfl

/-- The identity of a process, by the uuid of its node and its name. -/
def procUuid (devUuid : Vector UInt8 32) (name : Option (List UInt8)) : Vector UInt8 32 :=
  ⟨(sm3 (procBytes devUuid name)).toArray, size_sm3 (procBytes devUuid name)⟩

/-- The identity does not depend on the stack. -/
theorem compProcUuid_eq (stack : Sm3ContextExt) (devUuid : Vector UInt8 32)
    (name : Option (List UInt8)) :
    compProcUuid stack devUuid name = .done (procUuid devUuid name).toList :=
  calculateContextSm3_eq stack _

/-- The first sample of the source, `abc`. -/
example : sm3 [0x61, 0x62, 0x63] = [
    0x66, 0xc7, 0xf0, 0xf4, 0x62, 0xee, 0xed, 0xd9, 0xd1, 0xf2, 0xd4, 0x6b, 0xdc, 0x10, 0xe4, 0xe2,
    0x41, 0x67, 0xc4, 0x87, 0x5c, 0xf2, 0xf7, 0xa2, 0x29, 0x7d, 0xa0, 0x2b, 0x8f, 0x4b, 0xa8, 0xe0] := by
  decide +kernel

end Cube.Crypto.Sm3
