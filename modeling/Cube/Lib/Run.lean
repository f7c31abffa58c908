import Mathlib

/-!
# Runs of a deterministic machine

A machine is a step function `σ → ι → σ`; a *run* feeds it a list of inputs,
the oldest first (`run`). Statements about a run are about every state it
reaches, that is, about every prefix of its inputs (`Throughout`).

* `run_invariant`: an invariant kept by the steps a run takes holds throughout it;
* `throughout_iff_steps`: when, moreover, a step outside the condition breaks
  the invariant, the invariant holds throughout exactly the runs whose steps
  all meet the condition.
-/

namespace Cube.Lib

variable {σ ι : Type*} (step : σ → ι → σ)

/-- The state after the inputs `is`, starting from `s`. -/
def run (s : σ) (is : List ι) : σ := is.foldl step s

@[simp] theorem run_nil (s : σ) : run step s [] = s := rfl

@[simp] theorem run_cons (s : σ) (i : ι) (is : List ι) :
    run step s (i :: is) = run step (step s i) is := rfl

theorem run_append (s : σ) (is js : List ι) :
    run step s (is ++ js) = run step (run step s is) js := List.foldl_append

/-- The property `P` holds in every state reached while running `is` from `s`. -/
def Throughout (P : σ → Prop) (s : σ) (is : List ι) : Prop :=
  ∀ pre, pre <+: is → P (run step s pre)

/-- Every step taken while running `is` from `s` meets `C`, a condition on
    the state before the step and its input. -/
def Steps (C : σ → ι → Prop) (s : σ) (is : List ι) : Prop :=
  ∀ pre i, pre ++ [i] <+: is → C (run step s pre) i

variable {step} {P : σ → Prop} {C : σ → ι → Prop}

theorem throughout_nil {s : σ} : Throughout step P s [] ↔ P s := by
  constructor
  · intro h
    exact h [] (List.prefix_refl _)
  · intro h pre hpre
    rw [List.prefix_nil.1 hpre]
    exact h

theorem throughout_cons {s : σ} {i : ι} {is : List ι} :
    Throughout step P s (i :: is) ↔ P s ∧ Throughout step P (step s i) is := by
  constructor
  · intro h
    refine ⟨h [] (List.nil_prefix), fun pre hpre => ?_⟩
    exact h (i :: pre) (List.cons_prefix_cons.2 ⟨rfl, hpre⟩)
  · rintro ⟨h₀, h⟩ pre hpre
    cases pre with
    | nil => exact h₀
    | cons j pre =>
      obtain ⟨rfl, htail⟩ := List.cons_prefix_cons.1 hpre
      exact h pre htail

theorem steps_nil {s : σ} : Steps step C s [] := by
  intro pre i h
  simp at h

theorem steps_cons {s : σ} {i : ι} {is : List ι} :
    Steps step C s (i :: is) ↔ C s i ∧ Steps step C (step s i) is := by
  constructor
  · intro h
    refine ⟨h [] i (by simp), fun pre j hpre => ?_⟩
    exact h (i :: pre) j (List.cons_prefix_cons.2 ⟨rfl, hpre⟩)
  · rintro ⟨h₀, h⟩ pre j hpre
    cases pre with
    | nil =>
      obtain ⟨rfl, _⟩ := List.cons_prefix_cons.1 hpre
      exact h₀
    | cons k pre =>
      obtain ⟨rfl, htail⟩ := List.cons_prefix_cons.1 hpre
      exact h pre j htail

/-- An invariant kept by the steps that meet `C` holds throughout every run
    whose steps all do. -/
theorem run_invariant (hstep : ∀ s i, P s → C s i → P (step s i)) {s : σ} {is : List ι}
    (hs : P s) (hok : Steps step C s is) : Throughout step P s is := by
  induction is generalizing s with
  | nil => exact throughout_nil.2 hs
  | cons i is ih =>
    obtain ⟨hi, his⟩ := steps_cons.1 hok
    exact throughout_cons.2 ⟨hs, ih (hstep s i hs hi) his⟩

theorem steps_of_forall (h : ∀ s i, C s i) {s : σ} {is : List ι} : Steps step C s is :=
  fun _ _ _ => h _ _

/-- If a step from a good state leads to a good state exactly when it meets
    `C`, a run stays in good states exactly when all its steps meet `C`.

    The property `W` is what the argument about a step needs to know of the
    state besides `P`, and `D` what it needs to know of the inputs of the run. -/
theorem throughout_iff_steps {W : σ → Prop} {D : σ → ι → Prop}
    (hW : ∀ s i, W s → P s → D s i → P (step s i) → W (step s i))
    (hstep : ∀ s i, W s → P s → D s i → (P (step s i) ↔ C s i)) {s : σ} {is : List ι}
    (hs : W s) (hP : P s) (hD : Steps step D s is) :
    Throughout step P s is ↔ Steps step C s is := by
  induction is generalizing s with
  | nil => exact iff_of_true (throughout_nil.2 hP) steps_nil
  | cons i is ih =>
    obtain ⟨hi, his⟩ := steps_cons.1 hD
    rw [throughout_cons, steps_cons]
    constructor
    · rintro ⟨_, h⟩
      have hPi : P (step s i) := h [] List.nil_prefix
      exact ⟨(hstep s i hs hP hi).1 hPi, (ih (hW s i hs hP hi hPi) hPi his).1 h⟩
    · rintro ⟨hok, h⟩
      have hPi : P (step s i) := (hstep s i hs hP hi).2 hok
      exact ⟨hP, (ih (hW s i hs hP hi hPi) hPi his).2 h⟩

end Cube.Lib
