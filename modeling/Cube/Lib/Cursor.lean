import Mathlib

/-!
# Searches by a cursor

A list that is gone through by a cursor, which is kept in a state: it is put on the first
record, and moved on to the next. A search looks at one record after the other until it
hits. To look at a record may change the state too.

* `Walks`: what the operations do on a list of some length.
* `search_spec`, `scan_eq`: a search finds the first record that is hit, wherever the
  cursor was.
-/

namespace Cube.Lib.Cursor

variable {σ : Type*}

/-- The search from a record on, if there is one, in so many steps: the record found, and
    the state. -/
def search (next : σ → Option Nat × σ) (look : Nat → σ → Bool × σ) :
    Nat → Option Nat → σ → Option Nat × σ
  | 0, _, s => (none, s)
  | _ + 1, none, s => (none, s)
  | n + 1, some i, s =>
    let (hit, s) := look i s
    if hit then (some i, s)
    else
      let (i, s) := next s
      search next look n i s

/-- The search from the first record on. -/
def scan (first next : σ → Option Nat × σ) (look : Nat → σ → Bool × σ) (len : Nat) (s : σ) :
    Option Nat × σ :=
  let (i, s) := first s
  search next look (len + 1) i s

/-- The operations go through a list of some length, on which the records with some
    property are hit. The relation holds of a state with the cursor on a record. -/
structure Walks (first next : σ → Option Nat × σ) (look : Nat → σ → Bool × σ) (len : Nat)
    (At : Nat → σ → Prop) (hits : Nat → Bool) (s : σ) : Prop where
  first_none : len = 0 → (first s).1 = none
  first_some : 0 < len → (first s).1 = some 0 ∧ At 0 (first s).2
  look : ∀ {i s}, At i s → i < len → (look i s).1 = hits i ∧ At i (look i s).2
  next_some : ∀ {i s}, At i s → i + 1 < len → (next s).1 = some (i + 1) ∧ At (i + 1) (next s).2
  next_none : ∀ {i s}, At i s → i + 1 = len → (next s).1 = none ∧ At i (next s).2

variable {first next : σ → Option Nat × σ} {look : Nat → σ → Bool × σ} {len : Nat}
  {At : Nat → σ → Prop} {hits : Nat → Bool} {s₀ : σ}

/-- A search finds the first record from its start on that is hit, and leaves the cursor on
    a record. -/
theorem search_spec (h : Walks first next look len At hits s₀) {i n : Nat} {s : σ} (hs : At i s)
    (hi : i < len) (hn : len - i < n) :
    (search next look n (some i) s).1 = (List.range' i (len - i)).find? hits ∧
      ∃ j, At j (search next look n (some i) s).2 := by
  induction n generalizing i s with
  | zero => exact absurd hn (Nat.not_lt_zero _)
  | succ n ih =>
    obtain ⟨hlook, hs'⟩ := h.look hs hi
    have hrange : List.range' i (len - i) = i :: List.range' (i + 1) (len - (i + 1)) := by
      rw [show len - i = len - (i + 1) + 1 by omega, List.range'_succ]
    rw [hrange, search, List.find?_cons]
    simp only [hlook]
    cases hhit : hits i with
    | true => exact ⟨rfl, i, hs'⟩
    | false =>
      rw [if_neg Bool.false_ne_true]
      rcases Nat.lt_or_ge (i + 1) len with hlt | hge
      · obtain ⟨hnext, hs''⟩ := h.next_some hs' hlt
        rw [hnext]
        exact ih hs'' hlt (by omega)
      · -- the last record was looked at
        obtain ⟨hnext, hs''⟩ := h.next_none hs' (by omega)
        rw [hnext, show len - (i + 1) = 0 by omega]
        cases n <;> exact ⟨rfl, i, hs''⟩

theorem scan_def (s : σ) :
    scan first next look len s = search next look (len + 1) (first s).1 (first s).2 := rfl

/-- A search from the first record on finds the first one that is hit. -/
theorem scan_eq (h : Walks first next look len At hits s₀) :
    (scan first next look len s₀).1 = (List.range len).find? hits := by
  rcases Nat.eq_zero_or_pos len with hzero | hpos
  · rw [scan_def, h.first_none hzero, hzero]
    rfl
  · obtain ⟨hfirst, hs⟩ := h.first_some hpos
    have hspec := (search_spec h hs hpos (n := len + 1) (by omega)).1
    rw [scan_def, hfirst, hspec, List.range_eq_range', Nat.sub_zero]

/-- A search leaves the cursor on a record, or where it was put on no record. -/
theorem scan_at (h : Walks first next look len At hits s₀) :
    (scan first next look len s₀).2 = (first s₀).2 ∧ len = 0 ∨
      ∃ j, At j (scan first next look len s₀).2 := by
  rcases Nat.eq_zero_or_pos len with hzero | hpos
  · refine .inl ⟨?_, hzero⟩
    rw [scan_def, h.first_none hzero]
    rfl
  · obtain ⟨hfirst, hs⟩ := h.first_some hpos
    rw [scan_def, hfirst]
    exact .inr (search_spec h hs hpos (by omega)).2

end Cube.Lib.Cursor
