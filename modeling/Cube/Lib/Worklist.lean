import Cube.Lib.Loop

/-!
# Worklists

A loop takes the first element of a list, and puts elements behind the others for it: a bounded
number of them, of lower ranks. So there is a bound for the work that comes of an element, and
the loop comes to an end.

* `work_append_lt`: a turn lowers the work, by the elements it adds too.
* `stops_of_work`: the loop comes to a state in which it stops, through states of which an
  invariant holds.
-/

namespace Cube.Lib.Worklist

universe u

/-- The work that comes of an element of a rank, if at most `b` elements are put in the list for
    an element that is taken. -/
def weight (b : Nat) : Nat → Nat
  | 0 => b + 1
  | rank + 1 => b * (weight b rank + 1) + 1

/-- The work that comes of the elements of a list, by their ranks. -/
def work (b : Nat) (ranks : List Nat) : Nat := (ranks.map (weight b)).sum

variable {b rank rank' : Nat} {ranks new : List Nat}

@[simp] theorem work_nil : work b [] = 0 := rfl

@[simp] theorem work_cons : work b (rank :: ranks) = weight b rank + work b ranks :=
  List.sum_cons

@[simp] theorem work_append : work b (ranks ++ new) = work b ranks + work b new := by
  rw [work, List.map_append, List.sum_append]
  rfl

theorem le_weight : b + 1 ≤ weight b rank := by
  cases rank with
  | zero => exact Nat.le_refl _
  | succ rank => exact Nat.succ_le_succ (Nat.le_mul_of_pos_right b (Nat.succ_pos _))

theorem weight_mono (h : rank ≤ rank') : weight b rank ≤ weight b rank' := by
  refine monotone_nat_of_le_succ (fun n => ?_) h
  induction n with
  | zero =>
    have hb : b ≤ b * (weight b 0 + 1) := Nat.le_mul_of_pos_right b (Nat.succ_pos _)
    change b + 1 ≤ b * (weight b 0 + 1) + 1
    omega
  | succ n ih => exact Nat.succ_le_succ (Nat.mul_le_mul_left b (Nat.succ_le_succ ih))

/-- The work of elements of ranks up to one. -/
theorem work_le (h : ∀ r ∈ ranks, r ≤ rank) : work b ranks ≤ ranks.length * weight b rank := by
  induction ranks with
  | nil => exact Nat.zero_le _
  | cons first ranks ih =>
    obtain ⟨hfirst, hrest⟩ := List.forall_mem_cons.1 h
    have hle := weight_mono (b := b) hfirst
    have hih := ih hrest
    rw [work_cons, List.length_cons, Nat.succ_mul]
    omega

/-- A turn lowers the work, by the elements it adds too. -/
theorem work_append_lt (ranks : List Nat) (hlen : new.length ≤ b) (hnew : ∀ r ∈ new, r < rank) :
    work b (ranks ++ new) + new.length < work b (rank :: ranks) := by
  rw [work_append, work_cons]
  cases rank with
  | zero =>
    obtain rfl : new = [] := List.eq_nil_iff_forall_not_mem.2 fun r hr => Nat.not_lt_zero _ (hnew r hr)
    have hpos : b + 1 ≤ weight b 0 := le_weight
    rw [work_nil, List.length_nil]
    omega
  | succ rank =>
    have hwork : work b new ≤ new.length * weight b rank :=
      work_le fun r hr => Nat.le_of_lt_succ (hnew r hr)
    have hmul : new.length * (weight b rank + 1) ≤ b * (weight b rank + 1) :=
      Nat.mul_le_mul_right _ hlen
    rw [Nat.mul_succ] at hmul
    rw [weight]
    omega

section Loop

variable {σ ρ : Type u}

/-- A loop whose turns lower the work and keep an invariant comes to where it stops. -/
theorem stops_of_work (b : Nat) (turn : σ → Outcome (σ ⊕ ρ)) (Inv : σ → List Nat → Prop)
    (Stop : σ → Prop)
    (hturn : ∀ s l, Inv s l → Stop s ∨
      ∃ s' l', turn s = .done (.inl s') ∧ Inv s' l' ∧ work b l' < work b l)
    {s : σ} {l : List Nat} (hs : Inv s l) :
    ∃ s' l', Inv s' l' ∧ Stop s' ∧ ∀ x, Loop.Ends turn s x ↔ Loop.Ends turn s' x := by
  induction hwork : work b l using Nat.strong_induction_on generalizing s l with
  | _ n ih =>
    rcases hturn s l hs with hstop | ⟨s₁, l₁, hnext, h₁, hlower⟩
    · exact ⟨s, l, hs, hstop, fun x => Iff.rfl⟩
    · obtain ⟨s₂, l₂, h₂, hstop, hends⟩ := ih _ (hwork ▸ hlower) h₁ rfl
      exact ⟨s₂, l₂, h₂, hstop, fun x => (Loop.ends_next_iff hnext).trans (hends x)⟩

end Loop

end Cube.Lib.Worklist
