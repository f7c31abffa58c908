import Cube.Crypto.Sm3

/-!
# The other implementation of SM3

`sm3.c` has the digest once more. Its rounds read the expanded words in place, its output is
the words of the state, and a piece without bytes is an error.

* `sm3Cf_eq`: a block changes the state as in `sm3_ext.c`.
* `sm3Chunks_agree`: the words are those of the digest, unless a piece is empty.
-/

namespace Cube.Crypto.Sm3

open Lib
open Absorb (absorb)

/-- `rol`, of `sm3.h`. -/
def rol (x n : UInt32) : UInt32 := x <<< n ||| (x &&& 0xFFFFFFFF) >>> (32 - n)

/-- The loop of `SM3_CF` that adds so many words to `W`. -/
def cfExpandLoop : Nat → List UInt32 → List UInt32
  | 0, w => w
  | n + 1, w =>
    let j := w.length
    let temp := w.getD (j - 16) 0 ^^^ w.getD (j - 9) 0 ^^^ rol (w.getD (j - 3) 0) 15
    cfExpandLoop n (w ++ [(temp ^^^ rol temp 15 ^^^ rol temp 23) ^^^ rol (w.getD (j - 13) 0) 7 ^^^
      w.getD (j - 6) 0])

/-- A turn of the loops of `SM3_CF`, with the constant `T` and the functions of it. -/
def cfTurn (t : UInt32) (ff gg : UInt32 → UInt32 → UInt32 → UInt32) (w : List UInt32) (v : Words)
    (j : Nat) : Words :=
  let ss1 := rol (rol v.a 12 + v.e + rol t (UInt32.ofNat j)) 7
  let ss2 := ss1 ^^^ rol v.a 12
  let tt1 := ff v.a v.b v.c + v.d + ss2 + (w.getD j 0 ^^^ w.getD (j + 4) 0)
  let tt2 := gg v.e v.f v.g + v.h + ss1 + w.getD j 0
  ⟨tt1, v.a, rol v.b 9, v.c, tt2 ^^^ rol tt2 9 ^^^ rol tt2 17, v.e, rol v.f 19, v.g⟩

/-- `SM3_CF`. -/
def sm3Cf (vector : Words) (block : List UInt8) : Words :=
  let w := cfExpandLoop 52 (blockWords block)
  let v := (List.range 16).foldl (cfTurn 0x79CC4519 ff0 ff0 w) vector
  let v := (List.range' 16 48).foldl (cfTurn 0x7A879D8A ff1 gg1 w) v
  vector.xor v

/-- `SM3_init`. The buffer is left as it is. -/
def sm3Init (index : BlockContext Words) : BlockContext Words :=
  { index with totalLow := 0, totalHigh := 0, state := iv }

/-- `SM3_update`. -/
def sm3Update (index : BlockContext Words) (chunk : List UInt8) :
    Outcome (Int × BlockContext Words) :=
  if chunk.length < 1 then .done (-1, index)
  else do
    let index ← blockUpdate sm3Cf index chunk
    .done (0, index)

/-- `SM3_final`: the words of the state. -/
def sm3Final (index : BlockContext Words) : Outcome Words := do
  let index ← blockFinish sm3Cf index
  .done index.state

/-- The loop over the chunks, up to one that is refused. -/
def chunksLoop (index : BlockContext Words) : List Piece → Outcome (Int × BlockContext Words)
  | [] => .done (0, index)
  | chunk :: chunks => do
    let (result, index) ← sm3Update index chunk.bytes
    if result = 0 then chunksLoop index chunks else .done (-1, index)

/-- `SM3_init`, `SM3_update` with the chunks of a message, and `SM3_final`, as
    `calculate_by_context` and `calculate_context_sm3` call them: nothing if a chunk is
    refused. -/
def sm3Chunks (index : BlockContext Words) (chunks : List Piece) : Outcome (Option Words) := do
  let (result, index) ← chunksLoop (sm3Init index) chunks
  if result = 0 then do
    let hash ← sm3Final index
    .done (some hash)
  else .done none

/-! ## Blocks -/

theorem rol_eq : rol = rotl := by
  funext x n
  have hmask : x &&& 0xFFFFFFFF = x := UInt32.and_neg_one
  rw [rol, rotl, hmask]

theorem cfExpandLoop_eq (n : Nat) (w : List UInt32) : cfExpandLoop n w = expandLoop n w := by
  induction n generalizing w with
  | zero => rfl
  | succ n ih =>
    rw [cfExpandLoop, expandLoop, ih, rol_eq]
    simp only [p1, UInt32.xor_assoc]

theorem cfTurn_eq (t : UInt32) (ff gg : UInt32 → UInt32 → UInt32 → UInt32) (w : List UInt32)
    (v : Words) (j : Nat) : cfTurn t ff gg w v j =
      turn ff gg (rotl t (UInt32.ofNat j)) (w.getD j 0) (w.getD j 0 ^^^ w.getD (j + 4) 0) v := by
  rw [cfTurn, turn, rol_eq]
  rfl

/-- The words of `W1` are made from those of `W` in place. -/
theorem getD_w1 (w : List UInt32) {j : Nat} (hj : j < 64) :
    ((List.range 64).map fun j => w.getD j 0 ^^^ w.getD (j + 4) 0).getD j 0 =
      w.getD j 0 ^^^ w.getD (j + 4) 0 := by
  rw [List.getD_eq_getElem _ _ (by simpa using hj), List.getElem_map, List.getElem_range]

theorem getD_t_low {j : Nat} (hj : j < 16) : t.getD j 0 = 0x79CC4519 := by
  rw [t, List.getD_append _ _ _ _ (by simpa using hj), List.getD_replicate _ hj]

theorem getD_t_high {j : Nat} (hj : 16 ≤ j) (hj' : j < 64) : t.getD j 0 = 0x7A879D8A := by
  rw [t, List.getD_append_right _ _ _ _ (by simpa using hj), List.length_replicate,
    List.getD_replicate _ (by omega)]

/-- A block changes the state as in the other implementation. -/
theorem sm3Cf_eq (state : Words) (data : List UInt8) : sm3Cf state data = sm3Process state data := by
  rw [sm3Cf, sm3Process, cfExpandLoop_eq]
  have hlow (w : List UInt32) (v : Words) :
      (List.range 16).foldl (cfTurn 0x79CC4519 ff0 ff0 w) v =
        (List.range 16).foldl (fun v j => turn ff0 ff0 (rotl (t.getD j 0) (UInt32.ofNat j))
          (w.getD j 0) (((List.range 64).map fun j => w.getD j 0 ^^^ w.getD (j + 4) 0).getD j 0)
          v) v := by
    refine List.foldl_ext _ _ _ fun v j hj => ?_
    have hj16 : j < 16 := List.mem_range.1 hj
    rw [cfTurn_eq, getD_t_low hj16, getD_w1 w (by omega)]
  have hhigh (w : List UInt32) (v : Words) :
      (List.range' 16 48).foldl (cfTurn 0x7A879D8A ff1 gg1 w) v =
        (List.range' 16 48).foldl (fun v j => turn ff1 gg1 (rotl (t.getD j 0) (UInt32.ofNat j))
          (w.getD j 0) (((List.range 64).map fun j => w.getD j 0 ^^^ w.getD (j + 4) 0).getD j 0)
          v) v := by
    refine List.foldl_ext _ _ _ fun v j hj => ?_
    obtain ⟨hj16, hj64⟩ := List.mem_range'_1.1 hj
    rw [cfTurn_eq, getD_t_high hj16 hj64, getD_w1 w (by omega)]
  simp only [hlow, hhigh]

/-! ## Messages -/

variable {index : BlockContext Words} {message : List UInt8}

/-- The chunks are taken up to one that is empty. -/
theorem chunksLoop_eq (h : Holds sm3Process iv index message) (chunks : List Piece) :
    ∃ index', Holds sm3Process iv index' (message ++ (chunks.map Piece.bytes).flatten) ∧
        chunksLoop index chunks = .done (0, index') ∧ (∀ chunk ∈ chunks, chunk.bytes ≠ []) ∨
      chunksLoop index chunks = .done (-1, index') ∧ ∃ chunk ∈ chunks, chunk.bytes = [] := by
  have hcf : sm3Cf = sm3Process := funext fun state => funext fun data => sm3Cf_eq state data
  induction chunks generalizing index message with
  | nil =>
    refine ⟨index, .inl ⟨?_, rfl, fun chunk hchunk => absurd hchunk List.not_mem_nil⟩⟩
    rwa [List.map_nil, List.flatten_nil, List.append_nil]
  | cons chunk chunks ih =>
    by_cases hnil : chunk.bytes = []
    · refine ⟨index, .inr ⟨?_, chunk, List.mem_cons_self, hnil⟩⟩
      rw [chunksLoop, sm3Update, hnil, if_pos (by decide), Outcome.done_bind]
      exact if_neg (by decide)
    · have hpos : ¬ chunk.bytes.length < 1 := by
        have := List.length_pos_iff.2 hnil
        omega
      obtain ⟨index₁, hupdate, h₁⟩ :=
        h.update (Nat.lt_trans chunk.length_lt (by decide : 2 ^ 31 < 2 ^ 32))
      have hstep : chunksLoop index (chunk :: chunks) = chunksLoop index₁ chunks := by
        rw [chunksLoop, sm3Update, if_neg hpos, hcf, hupdate]
        rfl
      obtain ⟨index₂, ⟨h₂, hloop, hall⟩ | ⟨hloop, bad, hbad, hbytes⟩⟩ := ih h₁
      · refine ⟨index₂, .inl ⟨?_, hstep.trans hloop, List.forall_mem_cons.2 ⟨hnil, hall⟩⟩⟩
        rwa [List.map_cons, List.flatten_cons, ← List.append_assoc]
      · exact ⟨index₂, .inr ⟨hstep.trans hloop, bad, List.mem_cons_of_mem _ hbad, hbytes⟩⟩

/-- The two implementations agree: the words of the one are the output of the other, if no
    chunk is empty, and an empty chunk is refused. -/
theorem sm3Chunks_agree (index : BlockContext Words) (stack : Sm3ContextExt)
    (chunks : List Piece) :
    (∃ hash, sm3Chunks index chunks = .done (some hash) ∧
        sm3Pieces stack chunks = .done (outputBytes hash) ∧ ∀ chunk ∈ chunks, chunk.bytes ≠ []) ∨
      sm3Chunks index chunks = .done none ∧ ∃ chunk ∈ chunks, chunk.bytes = [] := by
  have hcf : sm3Cf = sm3Process := funext fun state => funext fun data => sm3Cf_eq state data
  have hstart : Holds sm3Process iv (sm3Init index) [] := holds_start sm3Process iv index.buffer
  obtain ⟨index', ⟨h, hloop, hall⟩ | ⟨hloop, hbad⟩⟩ := chunksLoop_eq hstart chunks
  · obtain ⟨ctx, hfinish, hstate⟩ := h.finish
    refine .inl ⟨ctx.state, ?_, ?_, hall⟩
    · rw [sm3Chunks, hloop, Outcome.done_bind]
      change (sm3Final index' >>= _) = _
      rw [sm3Final, hcf, hfinish]
      rfl
    · obtain ⟨taken, hupdates, htaken⟩ := (taken_start stack).updates chunks
      obtain ⟨ended, hout, -, -⟩ := htaken.finish
      rw [sm3Pieces, hupdates, Outcome.done_bind, hout, Outcome.done_bind, hstate, sm3,
        List.nil_append]
  · refine .inr ⟨?_, hbad⟩
    rw [sm3Chunks, hloop, Outcome.done_bind]
    exact if_neg (by decide)

end Cube.Crypto.Sm3
