import Cube.Crypto.Sm3

/-!
# Keyed digests

The digest of a message under a key (`sm3_ext.c`). The key, or its digest if it is longer
than a block, is mixed into two blocks. The first of them goes in front of the message, and
the second in front of the digest of that.

* `padKeys_eq`: the blocks that keys of any length are mixed into.
* `hmac_stream`: the keyed digest of a message in pieces.
-/

namespace Cube.Crypto.Sm3

open Lib

/-- The bytes of a key as they are mixed into the blocks, and how many of them: `key` and
    `keylen` after the cases of `SM3_hmac_init`. -/
def hmacKey (stack : Sm3ContextExt) (key : Piece) : Outcome (List UInt8 × Nat) :=
  if 64 < key.bytes.length then do
    let sum ← calculateContextSm3 stack key
    .done (sum ++ List.replicate 32 0, 32)
  else if key.bytes.length < 64 then
    .done (key.bytes ++ List.replicate (64 - key.bytes.length) 0, key.bytes.length)
  else .done (key.bytes, key.bytes.length)

/-- The loop that mixes the first bytes of the key into a block of `pad`. -/
def padKeys (pad : UInt8) (key : List UInt8) (keylen : Nat) : Vector UInt8 64 :=
  Vector.ofFn fun i => if i.val < keylen then pad ^^^ key.getD i.val 0 else pad

/-- `SM3_hmac_init`. -/
def sm3HmacInit (stack ctx : Sm3ContextExt) (key : Piece) : Outcome Sm3ContextExt := do
  let (key, keylen) ← hmacKey stack key
  let ctx := { ctx with ipad := padKeys 0x36 key keylen, opad := padKeys 0x5C key keylen }
  let ctx := sm3StartsExt ctx
  sm3UpdateExt ctx ctx.ipad.toList

/-- `SM3_hmac_finish`. -/
def sm3HmacFinish (ctx : Sm3ContextExt) : Outcome (List UInt8) := do
  let (ctx, tmpbuf) ← sm3FinishExt ctx
  let ctx := sm3StartsExt ctx
  let ctx ← sm3UpdateExt ctx ctx.opad.toList
  let ctx ← sm3UpdateExt ctx tmpbuf
  let (_, output) ← sm3FinishExt ctx
  .done output

/-- The calls of `SM3_hmac_init`, `SM3_hmac_update` with the pieces of a message, and
    `SM3_hmac_finish`. With one piece this is `SM3_hmac`. -/
def sm3Hmac (stack ctx : Sm3ContextExt) (key : Piece) (pieces : List Piece) :
    Outcome (List UInt8) := do
  let ctx ← sm3HmacInit stack ctx key
  let ctx ← sm3Updates ctx pieces
  sm3HmacFinish ctx

/-! ## The keyed digest -/

/-- The block of a key: the key, or its digest if it is longer than that, and zeros. -/
def keyBlock (key : List UInt8) : List UInt8 :=
  let short := if 64 < key.length then sm3 key else key
  short ++ List.replicate (64 - short.length) 0

/-- The keyed digest of a message. -/
def hmac (key message : List UInt8) : List UInt8 :=
  sm3 ((keyBlock key).map (0x5C ^^^ ·) ++ sm3 ((keyBlock key).map (0x36 ^^^ ·) ++ message))

@[simp] theorem length_sm3 (message : List UInt8) : (sm3 message).length = 32 := by
  rw [sm3, length_outputBytes]

theorem getElem_padKeys (pad : UInt8) (key : List UInt8) (keylen : Nat) {i : Nat} (hi : i < 64) :
    (padKeys pad key keylen)[i] = if i < keylen then pad ^^^ key.getD i 0 else pad := by
  simp only [padKeys, Vector.getElem_ofFn]

/-- Behind the key a block is left as it was, which is what zeros do. -/
theorem padKeys_eq (pad : UInt8) (front : List UInt8) (h : front.length ≤ 64) :
    (padKeys pad (front ++ List.replicate (64 - front.length) 0) front.length).toList =
      (front ++ List.replicate (64 - front.length) 0).map (pad ^^^ ·) := by
  refine List.ext_getElem ?_ fun i hi _ => ?_
  · simp [h]
  · rw [Vector.getElem_toList, getElem_padKeys, List.getElem_map]
    by_cases hfront : i < front.length
    · rw [if_pos hfront, List.getD_append _ _ _ _ hfront, List.getElem_append_left hfront,
        List.getD_eq_getElem _ _ hfront]
    · rw [if_neg hfront, List.getElem_append_right (Nat.le_of_not_lt hfront),
        List.getElem_replicate, UInt8.xor_zero]

/-- The key that is mixed into the blocks makes the block of the key. -/
theorem hmacKey_eq (stack : Sm3ContextExt) (key : Piece) :
    ∃ bytes keylen, hmacKey stack key = .done (bytes, keylen) ∧
      ∀ pad, (padKeys pad bytes keylen).toList = (keyBlock key.bytes).map (pad ^^^ ·) := by
  rw [hmacKey, keyBlock]
  rcases Nat.lt_trichotomy 64 key.bytes.length with hlong | hblock | hshort
  · refine ⟨sm3 key.bytes ++ List.replicate 32 0, 32, ?_, fun pad => ?_⟩
    · rw [if_pos hlong, calculateContextSm3_eq, Outcome.done_bind]
    · simp only [if_pos hlong]
      have hpad := padKeys_eq pad (sm3 key.bytes) (by rw [length_sm3]; decide)
      rwa [length_sm3] at hpad ⊢
  · refine ⟨key.bytes, key.bytes.length, ?_, fun pad => ?_⟩
    · rw [if_neg (by omega), if_neg (by omega)]
    · have hpad := padKeys_eq pad key.bytes hblock.symm.le
      simp only [← hblock, Nat.lt_irrefl, if_false, Nat.sub_self, List.replicate_zero,
        List.append_nil] at hpad ⊢
      exact hpad
  · refine ⟨key.bytes ++ List.replicate (64 - key.bytes.length) 0, key.bytes.length, ?_,
      fun pad => ?_⟩
    · rw [if_neg (Nat.lt_asymm hshort), if_pos hshort]
    · simp only [if_neg (Nat.lt_asymm hshort)]
      exact padKeys_eq pad _ hshort.le

/-- For every key, and whatever the pieces of the message, the output is the keyed digest of
    the message under the key. -/
theorem hmac_stream (stack ctx : Sm3ContextExt) (key : Piece) (pieces : List Piece) :
    sm3Hmac stack ctx key pieces = .done (hmac key.bytes (pieces.map Piece.bytes).flatten) := by
  obtain ⟨bytes, keylen, hkey, hpad⟩ := hmacKey_eq stack key
  have hblock (v : Vector UInt8 64) : v.toList.length < 2 ^ 32 := by
    rw [Vector.length_toList]
    decide
  -- The first digest, of the message behind the first block.
  obtain ⟨ctx₁, hinit, h₁⟩ := (taken_start { ctx with
    ipad := padKeys 0x36 bytes keylen
    opad := padKeys 0x5C bytes keylen }).update (hblock (padKeys 0x36 bytes keylen))
  obtain ⟨ctx₂, hupdates, h₂⟩ := h₁.updates pieces
  obtain ⟨ctx₃, hfinish, -, hopad⟩ := h₂.finish
  rw [List.nil_append, hpad] at hfinish
  -- The second one, of the first behind the second block.
  obtain ⟨ctx₄, hupdate, h₄⟩ := (taken_start ctx₃).update (hblock ctx₃.opad)
  have hdigestlen (message : List UInt8) : (sm3 message).length < 2 ^ 32 := by
    rw [length_sm3]
    decide
  obtain ⟨ctx₅, hdigest, h₅⟩ := h₄.update
    (hdigestlen ((keyBlock key.bytes).map (0x36 ^^^ ·) ++ (pieces.map Piece.bytes).flatten))
  obtain ⟨ctx₆, houtput, -, -⟩ := h₅.finish
  rw [List.nil_append, hopad, hpad] at houtput
  have hstart : sm3HmacInit stack ctx key = .done ctx₁ := by
    rw [sm3HmacInit, hkey, Outcome.done_bind]
    exact hinit
  have hend : sm3HmacFinish ctx₂ = .done (hmac key.bytes (pieces.map Piece.bytes).flatten) := by
    rw [sm3HmacFinish, hfinish, Outcome.done_bind]
    change (sm3UpdateExt (sm3StartsExt ctx₃) ctx₃.opad.toList >>= _) = _
    rw [hupdate, Outcome.done_bind, hdigest, Outcome.done_bind, houtput, Outcome.done_bind, hmac]
  rw [sm3Hmac, hstart, Outcome.done_bind, hupdates, Outcome.done_bind, hend]

end Cube.Crypto.Sm3
