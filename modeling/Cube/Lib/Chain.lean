import Mathlib

/-!
# Chained blocks

A transducer turns a list of blocks to another one, block by block, with a state that it passes
on. If the step of another transducer undoes that of the first, from the state before it and with
the state after it, the whole list is given back: the two go through the same states.

* `chain_append`: a list may be cut anywhere, if the state is kept.
* `chain_undo`: what one transducer made, the other gives back.
-/

namespace Cube.Lib.Chain

variable {σ α β : Type*}

/-- The state after a list of blocks, and the blocks that are made of them. -/
def chain (step : σ → α → σ × β) : σ → List α → σ × List β
  | s, [] => (s, [])
  | s, a :: l =>
    let (s, b) := step s a
    let (s, bs) := chain step s l
    (s, b :: bs)

variable {step : σ → α → σ × β} {step' : σ → β → σ × α} {s : σ} {a : α} {l m : List α}

@[simp] theorem chain_nil : chain step s [] = (s, []) := rfl

theorem chain_cons : chain step s (a :: l) =
    ((chain step (step s a).1 l).1, (step s a).2 :: (chain step (step s a).1 l).2) := rfl

@[simp] theorem length_chain : (chain step s l).2.length = l.length := by
  induction l generalizing s with
  | nil => rfl
  | cons a l ih => rw [chain_cons, List.length_cons, List.length_cons, ih]

/-- A list may be cut anywhere. -/
theorem chain_append : chain step s (l ++ m) =
    ((chain step (chain step s l).1 m).1, (chain step s l).2 ++ (chain step (chain step s l).1 m).2) := by
  induction l generalizing s with
  | nil => rfl
  | cons a l ih => rw [List.cons_append, chain_cons, ih, chain_cons, List.cons_append]

/-- What is so of the state, and of the blocks that are made, is so all along. -/
theorem chain_keeps {P : σ → Prop} {Q : α → Prop} {R : β → Prop}
    (hstep : ∀ s a, P s → Q a → P (step s a).1 ∧ R (step s a).2) (hs : P s) (hl : ∀ a ∈ l, Q a) :
    P (chain step s l).1 ∧ ∀ b ∈ (chain step s l).2, R b := by
  induction l generalizing s with
  | nil => exact ⟨hs, nofun⟩
  | cons a l ih =>
    obtain ⟨ha, hl⟩ := List.forall_mem_cons.1 hl
    obtain ⟨hs', hb⟩ := hstep s a hs ha
    obtain ⟨hlast, hrest⟩ := ih hs' hl
    exact ⟨hlast, List.forall_mem_cons.2 ⟨hb, hrest⟩⟩

/-- What one transducer made, the other gives back. -/
theorem chain_undo {P : σ → Prop} {Q : α → Prop}
    (hstep : ∀ s a, P s → Q a → P (step s a).1 ∧ step' s (step s a).2 = ((step s a).1, a))
    (hs : P s) (hl : ∀ a ∈ l, Q a) :
    chain step' s (chain step s l).2 = ((chain step s l).1, l) := by
  induction l generalizing s with
  | nil => rfl
  | cons a l ih =>
    obtain ⟨ha, hl⟩ := List.forall_mem_cons.1 hl
    obtain ⟨hs', hundo⟩ := hstep s a hs ha
    rw [chain_cons, chain_cons, hundo, ih hs' hl]

end Cube.Lib.Chain
