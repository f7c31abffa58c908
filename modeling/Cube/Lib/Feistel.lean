import Mathlib

/-!
# Feistel networks of four branches

A block of four words goes through rounds. Every round takes away the first word, and
puts it behind the others after it was mixed with a function of them and of the key of
the round. If the function does not change when its words are reversed, the same rounds
undo a block: the words are given back in reverse, and the keys too.

* `rounds_flip`: the rounds with the keys in reverse undo the rounds.
* `rounds_map`: the rounds of words that are images of other words.
-/

namespace Cube.Lib

/-- A block of four words. -/
@[ext]
structure Quad (W : Type*) where
  a : W
  b : W
  c : W
  d : W
  deriving DecidableEq, Repr

namespace Quad

variable {W V K L : Type*}

/-- The words in reverse. -/
def flip (q : Quad W) : Quad W := ⟨q.d, q.c, q.b, q.a⟩

@[simp] theorem flip_flip (q : Quad W) : q.flip.flip = q := rfl

/-- The images of the words. -/
def map (g : W → V) (q : Quad W) : Quad V := ⟨g q.a, g q.b, g q.c, g q.d⟩

@[simp] theorem map_flip (g : W → V) (q : Quad W) : q.flip.map g = (q.map g).flip := rfl

/-- A round: the new word made from the block and the key comes behind the others. -/
def round (f : K → Quad W → W) (q : Quad W) (k : K) : Quad W := ⟨q.b, q.c, q.d, f k q⟩

/-- The rounds of a list of keys. -/
def rounds (f : K → Quad W → W) (q : Quad W) (ks : List K) : Quad W := ks.foldl (round f) q

@[simp] theorem rounds_nil (f : K → Quad W → W) (q : Quad W) : rounds f q [] = q := rfl

@[simp] theorem rounds_cons (f : K → Quad W → W) (q : Quad W) (k : K) (ks : List K) :
    rounds f q (k :: ks) = rounds f (round f q k) ks := rfl

theorem rounds_append (f : K → Quad W → W) (q : Quad W) (ks ls : List K) :
    rounds f q (ks ++ ls) = rounds f (rounds f q ks) ls := List.foldl_append

/-- The new word is undone by the same function of the words in reverse. -/
def Undoes (f : K → Quad W → W) : Prop := ∀ k (a b c d : W), f k ⟨f k ⟨a, b, c, d⟩, d, c, b⟩ = a

variable {f : K → Quad W → W}

theorem round_flip (hf : Undoes f) (q : Quad W) (k : K) :
    round f (round f q k).flip k = q.flip := by
  rw [round, round, flip, hf]
  rfl

/-- The rounds with the keys in reverse give the block back, in reverse. -/
theorem rounds_flip (hf : Undoes f) (q : Quad W) (ks : List K) :
    rounds f (rounds f q ks).flip ks.reverse = q.flip := by
  induction ks generalizing q with
  | nil => rfl
  | cons k ks ih =>
    rw [rounds_cons, List.reverse_cons, rounds_append, ih, rounds_cons, rounds_nil, round_flip hf]

/-- If the new word is an image of that of the images, the rounds are so too. -/
theorem rounds_map {f' : L → Quad V → V} (g : W → V) (e : K → L)
    (h : ∀ k q, g (f k q) = f' (e k) (q.map g)) (q : Quad W) (ks : List K) :
    (rounds f q ks).map g = rounds f' (q.map g) (ks.map e) := by
  induction ks generalizing q with
  | nil => rfl
  | cons k ks ih =>
    rw [rounds_cons, ih, List.map_cons, rounds_cons, map, round, round, h]
    rfl

end Quad

end Cube.Lib
