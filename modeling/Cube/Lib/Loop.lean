import Cube.Lib.Outcome

/-!
# Loops that return

A loop whose turns either go on with another state, or return. It is given a number of
turns, which may not be enough.

* `Ends.unique`: how a loop ends does not depend on the number of turns;
* `ends_next_iff`, `ends_return`, `ends_fault`: how it ends, by what its first turn does;
* `Ends.invariant`: what the turns keep is so up to the turn that returns;
* `run_of_measure`: if turns lower a measure of the state, that many and one more are enough.
-/

namespace Cube.Lib.Loop

universe u

variable {σ ρ : Type u} (turn : σ → Outcome (σ ⊕ ρ))

/-- What a loop comes to in so many turns, if they are enough. -/
def run : Nat → σ → Option (Outcome ρ)
  | 0, _ => none
  | n + 1, s =>
    match turn s with
    | .done (.inl s') => run n s'
    | .done (.inr r) => some (.done r)
    | .error e => some (.error e)
    | .fault => some .fault

/-- What a loop comes to, whatever the number of turns. -/
def Ends (s : σ) (x : Outcome ρ) : Prop := ∃ n, run turn n s = some x

variable {turn} {s s' : σ} {r : ρ} {x y : Outcome ρ} {n : Nat}

theorem run_add (h : run turn n s = some x) (k : Nat) : run turn (n + k) s = some x := by
  induction n generalizing s with
  | zero => cases h
  | succ n ih =>
    rw [Nat.add_right_comm]
    rw [run] at h ⊢
    rcases hturn : turn s with (s' | r) | e | _ <;> rw [hturn] at h
    · exact ih h
    · exact h
    · exact h
    · exact h

theorem Ends.unique (hx : Ends turn s x) (hy : Ends turn s y) : x = y := by
  obtain ⟨m, hm⟩ := hx
  obtain ⟨n, hn⟩ := hy
  have hm' := run_add hm n
  have hn' := run_add hn m
  rw [Nat.add_comm] at hn'
  exact Option.some.inj (hm'.symm.trans hn')

/-- A turn that goes on does not change how the loop ends. -/
theorem ends_next_iff (h : turn s = .done (.inl s')) : Ends turn s x ↔ Ends turn s' x := by
  constructor
  · rintro ⟨_ | n, hn⟩
    · cases hn
    · rw [run, h] at hn
      exact ⟨n, hn⟩
  · rintro ⟨n, hn⟩
    exact ⟨n + 1, by rw [run, h]; exact hn⟩

theorem ends_return (h : turn s = .done (.inr r)) : Ends turn s (.done r) := ⟨1, by rw [run, h]⟩

theorem ends_fault (h : turn s = .fault) : Ends turn s .fault := ⟨1, by rw [run, h]⟩

/-- What is so at the start and is kept by every turn that goes on is so before the turn that
    returns. -/
theorem Ends.invariant {P : σ → Prop} (hkeep : ∀ s s', P s → turn s = .done (.inl s') → P s')
    (hs : P s) (h : Ends turn s (.done r)) : ∃ s', P s' ∧ turn s' = .done (.inr r) := by
  obtain ⟨n, hn⟩ := h
  induction n generalizing s with
  | zero => cases hn
  | succ n ih =>
    rw [run] at hn
    rcases hturn : turn s with (s' | r') | e | _ <;> rw [hturn] at hn
    · exact ih (hkeep s s' hs hturn) hn
    · cases hn
      exact ⟨s, hs, hturn⟩
    · cases hn
    · cases hn

/-- A loop ends if every turn that goes on lowers a measure. -/
theorem run_of_measure {measure : σ → Nat}
    (hlower : ∀ s s', turn s = .done (.inl s') → measure s' < measure s) (hn : measure s < n) :
    ∃ x, run turn n s = some x := by
  induction n generalizing s with
  | zero => cases hn
  | succ n ih =>
    rw [run]
    rcases hturn : turn s with (s' | r) | e | _
    · exact ih (Nat.lt_of_lt_of_le (hlower s s' hturn) (Nat.le_of_lt_succ hn))
    · exact ⟨_, rfl⟩
    · exact ⟨_, rfl⟩
    · exact ⟨_, rfl⟩

/-- Where the turns are enough, the loop has come to how it ends. -/
theorem Ends.run_eq (h : Ends turn s x) (henough : ∃ y, run turn n s = some y) :
    run turn n s = some x := by
  obtain ⟨y, hy⟩ := henough
  rw [hy, h.unique ⟨n, hy⟩]

end Cube.Lib.Loop
