import Cube.Lib.Run

/-!
# Machines that answer

A machine that takes a list of inputs one by one, and gives an answer to each.
What it is for is said by another machine, whose states are more abstract: the two
have to answer alike.

* `replies_eq`: machines answer alike if a relation of their states is kept by
  every input, and gives the same answers.
* `replies_eq_iff`: they answer alike exactly in the runs whose steps all meet a
  condition, if outside of it their answers differ.
* `meets_of_steps`: a run meets a specification that leaves a choice of answers, if
  every step of it does.
-/

namespace Cube.Lib

variable {σ τ ι ρ : Type*}

/-- The answers to the inputs, starting from a state. -/
def replies (step : σ → ι → ρ × σ) (s : σ) : List ι → List ρ
  | [] => []
  | i :: is => (step s i).1 :: replies step (step s i).2 is

/-- The states a machine goes through. -/
def next (step : σ → ι → ρ × σ) (s : σ) (i : ι) : σ := (step s i).2

variable {step : σ → ι → ρ × σ} {spec : τ → ι → ρ × τ}

@[simp] theorem replies_nil (s : σ) : replies step s [] = [] := rfl

@[simp] theorem replies_cons (s : σ) (i : ι) (is : List ι) :
    replies step s (i :: is) = (step s i).1 :: replies step (next step s i) is := rfl

/-- What is true of every answer a machine can give. -/
theorem forall_mem_replies {Q : ρ → Prop} (h : ∀ s i, Q (step s i).1) (s : σ) (is : List ι) :
    ∀ r ∈ replies step s is, Q r := by
  induction is generalizing s with
  | nil => exact fun _ hr => nomatch hr
  | cons i is ih => exact List.forall_mem_cons.2 ⟨h s i, ih _⟩

section Simulation

variable {R : σ → τ → Prop}

/-- Machines that answer alike, as long as the steps meet the condition `C`. -/
theorem replies_eq {C : σ → ι → Prop}
    (h : ∀ s t i, R s t → C s i →
      (step s i).1 = (spec t i).1 ∧ R (next step s i) (next spec t i))
    {s : σ} {t : τ} (hR : R s t) {is : List ι} (hC : Steps (next step) C s is) :
    replies step s is = replies spec t is := by
  induction is generalizing s t with
  | nil => rfl
  | cons i is ih =>
    obtain ⟨hi, his⟩ := steps_cons.1 hC
    obtain ⟨hreply, hnext⟩ := h s t i hR hi
    rw [replies_cons, replies_cons, hreply, ih hnext his]

/-- If outside of the condition the answers differ, the machines answer alike in
    exactly the runs whose steps all meet it. -/
theorem replies_eq_iff {C : σ → ι → Prop}
    (h : ∀ s t i, R s t → C s i →
      (step s i).1 = (spec t i).1 ∧ R (next step s i) (next spec t i))
    (hne : ∀ s t i, R s t → ¬ C s i → (step s i).1 ≠ (spec t i).1)
    {s : σ} {t : τ} (hR : R s t) {is : List ι} :
    replies step s is = replies spec t is ↔ Steps (next step) C s is := by
  refine ⟨fun heq => ?_, replies_eq h hR⟩
  induction is generalizing s t with
  | nil => exact steps_nil
  | cons i is ih =>
    obtain ⟨hreply, hrest⟩ := List.cons.inj heq
    have hi : C s i := by
      by_contra hi
      exact hne s t i hR hi hreply
    exact steps_cons.2 ⟨hi, ih (h s t i hR hi).2 hrest⟩

end Simulation

/-! ## Specifications that leave a choice -/

/-- A run meets a specification: every answer takes the specification from one of its
    states to another (`A`), and the states of the two fit all along (`I`). -/
def Meets (step : σ → ι → ρ × σ) (I : σ → τ → Prop) (A : τ → ι → ρ → τ → Prop) :
    σ → τ → List ι → Prop
  | s, t, [] => I s t
  | s, t, i :: is => I s t ∧ ∃ t', A t i (step s i).1 t' ∧ Meets step I A (step s i).2 t' is

/-- A run whose steps all meet the condition `C` meets the specification. -/
theorem meets_of_steps {I R : σ → τ → Prop} {A : τ → ι → ρ → τ → Prop} {C : σ → ι → Prop}
    (hI : ∀ s t, R s t → I s t)
    (h : ∀ s t i, R s t → C s i → ∃ t', A t i (step s i).1 t' ∧ R (next step s i) t')
    {s : σ} {t : τ} (hR : R s t) {is : List ι} (hC : Steps (next step) C s is) :
    Meets step I A s t is := by
  induction is generalizing s t with
  | nil => exact hI s t hR
  | cons i is ih =>
    obtain ⟨hi, his⟩ := steps_cons.1 hC
    obtain ⟨t', hreply, hnext⟩ := h s t i hR hi
    exact ⟨hI s t hR, t', hreply, ih hnext his⟩

end Cube.Lib
