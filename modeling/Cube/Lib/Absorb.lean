import Mathlib

/-!
# Texts absorbed in blocks

A text is taken in blocks of a size, each of which changes a state. What is behind the last
whole block is left. If the text comes in pieces, what is left of those that came so far is
put in front of the next one.

* `absorb_append`: a text goes on where the first part of it was left.
* `absorb_fill`, `absorb_keep`: a piece completes the block that was left, or is left with it.
-/

namespace Cube.Lib.Absorb

variable {α σ : Type*} (f : σ → List α → σ) (b : Nat)

/-- The state after so many blocks. -/
def blocks : Nat → σ → List α → σ
  | 0, s, _ => s
  | n + 1, s, l => blocks n (f s (l.take b)) (l.drop b)

/-- The state after the whole blocks of a text. -/
def absorb (s : σ) (l : List α) : σ := blocks f b (l.length / b) s l

/-- What is behind the whole blocks of a text. -/
def rest (l : List α) : List α := l.drop (b * (l.length / b))

variable {f b} {s : σ} {l m : List α}

@[simp] theorem length_rest (b : Nat) (l : List α) : (rest b l).length = l.length % b := by
  rw [rest, List.length_drop, Nat.mod_def]

theorem length_rest_lt (hb : 0 < b) (l : List α) : (rest b l).length < b := by
  rw [length_rest]
  exact Nat.mod_lt _ hb

/-- Less than a block is left as it is. -/
theorem absorb_short (h : l.length < b) : absorb f b s l = s ∧ rest b l = l := by
  rw [absorb, rest, Nat.div_eq_of_lt h, Nat.mul_zero]
  exact ⟨rfl, List.drop_zero⟩

/-- A block in front is absorbed first. -/
theorem absorb_block (hb : 0 < b) (hl : l.length = b) (m : List α) :
    absorb f b s (l ++ m) = absorb f b (f s l) m ∧ rest b (l ++ m) = rest b m := by
  have hdiv : (l ++ m).length / b = m.length / b + 1 := by
    rw [List.length_append, hl, Nat.add_comm b, Nat.add_div_right _ hb]
  constructor
  · rw [absorb, hdiv, blocks, List.take_left' hl, List.drop_left' hl, absorb]
  · rw [rest, hdiv, Nat.mul_succ, Nat.add_comm, ← List.drop_drop, List.drop_left' hl, rest]

/-- A text goes on with what is left of the first part of it. -/
theorem absorb_append (hb : 0 < b) (s : σ) (l m : List α) :
    absorb f b s (l ++ m) = absorb f b (absorb f b s l) (rest b l ++ m) ∧
      rest b (l ++ m) = rest b (rest b l ++ m) := by
  induction hn : l.length / b generalizing l s with
  | zero =>
    have hlt : l.length < b := (Nat.div_eq_zero_iff_lt hb).1 hn
    obtain ⟨habsorb, hrest⟩ := absorb_short (f := f) (s := s) hlt
    rw [habsorb, hrest]
    exact ⟨rfl, rfl⟩
  | succ n ih =>
    have hle : b ≤ l.length := by
      by_contra hlt
      rw [Nat.div_eq_of_lt (Nat.lt_of_not_le hlt)] at hn
      omega
    have hfront : (l.take b).length = b := List.length_take_of_le hle
    obtain ⟨habsorb, hrest⟩ := absorb_block (f := f) (s := s) hb hfront (l.drop b)
    obtain ⟨habsorb', hrest'⟩ := absorb_block (f := f) (s := s) hb hfront (l.drop b ++ m)
    rw [List.take_append_drop] at habsorb hrest
    rw [← List.append_assoc, List.take_append_drop] at habsorb' hrest'
    have hdrop : (l.drop b).length / b = n := by
      have hsucc := Nat.div_eq_sub_div hb hle
      rw [List.length_drop]
      omega
    obtain ⟨ih₁, ih₂⟩ := ih (f s (l.take b)) (l.drop b) hdrop
    rw [habsorb', hrest', habsorb, hrest]
    exact ⟨ih₁, ih₂⟩

/-- A piece completes the block that was left of the text. -/
theorem absorb_fill (hb : 0 < b) (h : b ≤ (rest b l).length + m.length) :
    absorb f b s (l ++ m) =
        absorb f b (f (absorb f b s l) (rest b l ++ m.take (b - (rest b l).length)))
          (m.drop (b - (rest b l).length)) ∧
      rest b (l ++ m) = rest b (m.drop (b - (rest b l).length)) := by
  have hlt := length_rest_lt hb l
  have hfull : (rest b l ++ m.take (b - (rest b l).length)).length = b := by
    rw [List.length_append, List.length_take_of_le (by omega)]
    omega
  obtain ⟨habsorb, hrest⟩ := absorb_append (f := f) hb s l m
  obtain ⟨hblock, hblock'⟩ := absorb_block (f := f) (s := absorb f b s l) hb hfull
    (m.drop (b - (rest b l).length))
  rw [List.append_assoc, List.take_append_drop] at hblock hblock'
  exact ⟨habsorb.trans hblock, hrest.trans hblock'⟩

/-- A piece that completes no block is left with what was left. -/
theorem absorb_keep (hb : 0 < b) (h : (rest b l).length + m.length < b) :
    absorb f b s (l ++ m) = absorb f b s l ∧ rest b (l ++ m) = rest b l ++ m := by
  have hshort : (rest b l ++ m).length < b := by rwa [List.length_append]
  obtain ⟨habsorb, hrest⟩ := absorb_append (f := f) hb s l m
  obtain ⟨hkeep, hkeep'⟩ := absorb_short (f := f) (s := absorb f b s l) hshort
  exact ⟨habsorb.trans hkeep, hrest.trans hkeep'⟩

end Cube.Lib.Absorb
