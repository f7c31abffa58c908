import Mathlib

/-!
# Merging keyed lists

Lists of things with keys, in strictly increasing order of their keys. Two of them
are merged into one (`mergeKeyed`), in which a key they share is that of the thing
in the first one.

* `mem_mergeKeyed`: what is in the merged list: all of the first, and what of the
  second has a key of its own;
* `Increasing.merge`: the merged list is in strictly increasing order.
-/

namespace Cube.Lib

variable {α κ : Type*} [LinearOrder κ] {key : α → κ}

/-- The keys go up strictly. -/
def Increasing (key : α → κ) (l : List α) : Prop := l.Pairwise fun x y => key x < key y

/-- No two things of the list have the same key. -/
theorem Increasing.key_inj {l : List α} (h : Increasing key l) {x y : α} (hx : x ∈ l)
    (hy : y ∈ l) (heq : key x = key y) : x = y := by
  induction l with
  | nil => exact absurd hx List.not_mem_nil
  | cons z l ih =>
    obtain ⟨hz, hl⟩ := List.pairwise_cons.1 h
    rcases List.mem_cons.1 hx with rfl | hxl <;> rcases List.mem_cons.1 hy with rfl | hyl
    · rfl
    · exact absurd heq (hz y hyl).ne
    · exact absurd heq (hz x hxl).ne'
    · exact ih hl hxl hyl

/-- The two lists in one, by their keys; where these are the same, the thing of the
    first list. -/
def mergeKeyed (key : α → κ) : List α → List α → List α
  | [], ys => ys
  | x :: xs, [] => x :: xs
  | x :: xs, y :: ys =>
    if key x < key y then x :: mergeKeyed key xs (y :: ys)
    else if key y < key x then y :: mergeKeyed key (x :: xs) ys
    else x :: mergeKeyed key xs ys
termination_by xs ys => xs.length + ys.length

@[simp] theorem mergeKeyed_nil_left (ys : List α) : mergeKeyed key [] ys = ys := by
  rw [mergeKeyed]

@[simp] theorem mergeKeyed_nil_right (xs : List α) : mergeKeyed key xs [] = xs := by
  cases xs <;> rw [mergeKeyed]

theorem mergeKeyed_lt {x y : α} (h : key x < key y) (xs ys : List α) :
    mergeKeyed key (x :: xs) (y :: ys) = x :: mergeKeyed key xs (y :: ys) := by
  rw [mergeKeyed, if_pos h]

theorem mergeKeyed_gt {x y : α} (h : key y < key x) (xs ys : List α) :
    mergeKeyed key (x :: xs) (y :: ys) = y :: mergeKeyed key (x :: xs) ys := by
  rw [mergeKeyed, if_neg h.not_gt, if_pos h]

theorem mergeKeyed_eq {x y : α} (h : key x = key y) (xs ys : List α) :
    mergeKeyed key (x :: xs) (y :: ys) = x :: mergeKeyed key xs ys := by
  rw [mergeKeyed, if_neg h.not_lt, if_neg h.not_gt]

/-- What is in the merged list was in one of the two. -/
theorem mem_or_mem_of_mem_mergeKeyed {z : α} {xs ys : List α} (h : z ∈ mergeKeyed key xs ys) :
    z ∈ xs ∨ z ∈ ys := by
  induction xs, ys using mergeKeyed.induct key with
  | case1 ys => exact .inr (by simpa using h)
  | case2 x xs => exact .inl (by simpa using h)
  | case3 x xs y ys hlt ih =>
    rw [mergeKeyed_lt hlt] at h
    rcases List.mem_cons.1 h with rfl | h
    · exact .inl List.mem_cons_self
    · exact (ih h).imp_left (List.mem_cons_of_mem _)
  | case4 x xs y ys _ hgt ih =>
    rw [mergeKeyed_gt hgt] at h
    rcases List.mem_cons.1 h with rfl | h
    · exact .inr List.mem_cons_self
    · exact (ih h).imp_right (List.mem_cons_of_mem _)
  | case5 x xs y ys hlt hgt ih =>
    rw [mergeKeyed_eq (le_antisymm (not_lt.1 hgt) (not_lt.1 hlt))] at h
    rcases List.mem_cons.1 h with rfl | h
    · exact .inl List.mem_cons_self
    · exact (ih h).imp (List.mem_cons_of_mem _) (List.mem_cons_of_mem _)

/-- Merging keeps the order. -/
theorem Increasing.merge {xs ys : List α} (hx : Increasing key xs) (hy : Increasing key ys) :
    Increasing key (mergeKeyed key xs ys) := by
  induction xs, ys using mergeKeyed.induct key with
  | case1 ys => simpa using hy
  | case2 x xs => simpa using hx
  | case3 x xs y ys hlt ih =>
    obtain ⟨hxs, hx'⟩ := List.pairwise_cons.1 hx
    rw [mergeKeyed_lt hlt]
    refine List.pairwise_cons.2 ⟨fun z hz => ?_, ih hx' hy⟩
    -- What follows is of the first list, or at least `y`.
    rcases mem_or_mem_of_mem_mergeKeyed hz with hz | hz
    · exact hxs z hz
    · rcases List.mem_cons.1 hz with rfl | hz
      · exact hlt
      · exact hlt.trans ((List.pairwise_cons.1 hy).1 z hz)
  | case4 x xs y ys _ hgt ih =>
    obtain ⟨hys, hy'⟩ := List.pairwise_cons.1 hy
    rw [mergeKeyed_gt hgt]
    refine List.pairwise_cons.2 ⟨fun z hz => ?_, ih hx hy'⟩
    rcases mem_or_mem_of_mem_mergeKeyed hz with hz | hz
    · rcases List.mem_cons.1 hz with rfl | hz
      · exact hgt
      · exact hgt.trans ((List.pairwise_cons.1 hx).1 z hz)
    · exact hys z hz
  | case5 x xs y ys hlt hgt ih =>
    have heq : key x = key y := le_antisymm (not_lt.1 hgt) (not_lt.1 hlt)
    obtain ⟨hxs, hx'⟩ := List.pairwise_cons.1 hx
    obtain ⟨hys, hy'⟩ := List.pairwise_cons.1 hy
    rw [mergeKeyed_eq heq]
    refine List.pairwise_cons.2 ⟨fun z hz => ?_, ih hx' hy'⟩
    rcases mem_or_mem_of_mem_mergeKeyed hz with hz | hz
    · exact hxs z hz
    · exact heq ▸ hys z hz

/-- What is in the merged list: all of the first, and what of the second has a key
    that nothing in the first has. -/
theorem mem_mergeKeyed {xs ys : List α} (hx : Increasing key xs) (hy : Increasing key ys)
    {z : α} : z ∈ mergeKeyed key xs ys ↔ z ∈ xs ∨ z ∈ ys ∧ ∀ x ∈ xs, key x ≠ key z := by
  induction xs, ys using mergeKeyed.induct key with
  | case1 ys => simp
  | case2 x xs => simp
  | case3 x xs y ys hlt ih =>
    rw [mergeKeyed_lt hlt, List.mem_cons, ih (List.pairwise_cons.1 hx).2 hy, ← or_assoc,
      ← List.mem_cons]
    refine or_congr_right (and_congr_right fun hz => ?_)
    -- `x` comes before all that is in the second list.
    have hne : key x ≠ key z := by
      rcases List.mem_cons.1 hz with rfl | hz
      · exact hlt.ne
      · exact (hlt.trans ((List.pairwise_cons.1 hy).1 z hz)).ne
    simp [hne]
  | case4 x xs y ys _ hgt ih =>
    have hne : ∀ w ∈ x :: xs, key w ≠ key y := by
      intro w hw
      rcases List.mem_cons.1 hw with rfl | hw
      · exact hgt.ne'
      · exact (hgt.trans ((List.pairwise_cons.1 hx).1 w hw)).ne'
    rw [mergeKeyed_gt hgt, List.mem_cons, ih hx (List.pairwise_cons.1 hy).2]
    constructor
    · rintro (rfl | hz | ⟨hz, hkey⟩)
      · exact .inr ⟨List.mem_cons_self, hne⟩
      · exact .inl hz
      · exact .inr ⟨List.mem_cons_of_mem _ hz, hkey⟩
    · rintro (hz | ⟨hz, hkey⟩)
      · exact .inr (.inl hz)
      · rcases List.mem_cons.1 hz with rfl | hz
        · exact .inl rfl
        · exact .inr (.inr ⟨hz, hkey⟩)
  | case5 x xs y ys hlt hgt ih =>
    have heq : key x = key y := le_antisymm (not_lt.1 hgt) (not_lt.1 hlt)
    obtain ⟨hys, hy'⟩ := List.pairwise_cons.1 hy
    rw [mergeKeyed_eq heq, List.mem_cons, ih (List.pairwise_cons.1 hx).2 hy', ← or_assoc,
      ← List.mem_cons]
    refine or_congr_right ⟨?_, ?_⟩
    · rintro ⟨hz, hkey⟩
      refine ⟨List.mem_cons_of_mem _ hz, ?_⟩
      intro w hw
      rcases List.mem_cons.1 hw with rfl | hw
      · exact heq ▸ (hys z hz).ne
      · exact hkey w hw
    · rintro ⟨hz, hkey⟩
      rcases List.mem_cons.1 hz with rfl | hz
      · exact absurd heq (hkey x List.mem_cons_self)
      · exact ⟨hz, fun w hw => hkey w (List.mem_cons_of_mem _ hw)⟩

end Cube.Lib
