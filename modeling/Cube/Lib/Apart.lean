import Mathlib

/-!
# Sets that are pairwise disjoint

A list of sets no two of which meet, when one of them is replaced, and the one of them that has
some element.

* `pairwise_set_iff`: when a set may be replaced by another.
* `eq_of_mem_of_pairwise`: there is one set with an element at most.
-/

namespace Cube.Lib

variable {α κ : Type*}

/-- An element of a list may be replaced by one that is related to all the others. -/
theorem pairwise_set_iff {R : α → α → Prop} (hR : ∀ a b, R a b → R b a) {l : List α} (hl : l.Pairwise R)
    {i : Nat} (hi : i < l.length) {a : α} :
    (l.set i a).Pairwise R ↔ ∀ j b, j ≠ i → l[j]? = some b → R a b := by
  rw [List.pairwise_iff_getElem]
  constructor
  · intro h j b hj hb
    obtain ⟨hlt, rfl⟩ := List.getElem?_eq_some_iff.1 hb
    rcases Nat.lt_or_gt_of_ne hj with hji | hij
    · have := h j i (by simpa using hlt) (by simpa using hi) hji
      rw [List.getElem_set_self, List.getElem_set_ne (Ne.symm hj)] at this
      exact hR _ _ this
    · have := h i j (by simpa using hi) (by simpa using hlt) hij
      rwa [List.getElem_set_self, List.getElem_set_ne (Ne.symm hj)] at this
  · intro h j k hj hk hjk
    rw [List.length_set] at hj hk
    rw [List.getElem_set, List.getElem_set]
    split_ifs with hij hik hik
    · omega
    · exact h k _ (Ne.symm hik) (List.getElem?_eq_getElem hk)
    · exact hR _ _ (h j _ (Ne.symm hij) (List.getElem?_eq_getElem hj))
    · exact List.pairwise_iff_getElem.1 hl j k hj hk hjk

/-- Of sets that are pairwise disjoint, one at most has some element. -/
theorem eq_of_mem_of_pairwise {l : List (Set κ)} (hl : l.Pairwise Disjoint) {i j : Nat}
    {A B : Set κ} {k : κ} (hi : l[i]? = some A) (hj : l[j]? = some B) (hA : k ∈ A) (hB : k ∈ B) :
    i = j := by
  obtain ⟨hilt, rfl⟩ := List.getElem?_eq_some_iff.1 hi
  obtain ⟨hjlt, rfl⟩ := List.getElem?_eq_some_iff.1 hj
  rcases Nat.lt_trichotomy i j with hlt | heq | hgt
  · exact absurd hB (Set.disjoint_left.1 (List.pairwise_iff_getElem.1 hl i j hilt hjlt hlt) hA)
  · exact heq
  · exact absurd hA (Set.disjoint_left.1 (List.pairwise_iff_getElem.1 hl j i hjlt hilt hgt) hB)

end Cube.Lib
