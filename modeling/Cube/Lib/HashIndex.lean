import Mathlib

/-!
# Hash indexes

A table of buckets in which things are linked under the hash of their key. The
table *indexes* the things that are live (`Indexed`) when each of them is linked
once, in the bucket of its key, nothing else is linked, and no two of them have
the same key.

* `Indexed.find_eq_some`, `Indexed.of_find`: what is found under a key is the live
  thing that has it;
* `Indexed.link`, `Indexed.unlink`: linking something with a new key, and unlinking;
* `Indexed.rekey`: keys may change where the hashes stay and the keys stay apart.
-/

namespace Cube.Lib

variable {B K R : Type*}

/-- The table indexes the things in `live`. -/
structure Indexed [DecidableEq R] (hash : K → B) (key : R → K) (table : B → List R)
    (live : List R) : Prop where
  count_eq_one : ∀ r ∈ live, (table (hash (key r))).count r = 1
  linked : ∀ b, ∀ r ∈ table b, r ∈ live ∧ hash (key r) = b
  key_inj : ∀ r ∈ live, ∀ r' ∈ live, key r = key r' → r = r'

namespace Indexed

variable [DecidableEq R] {hash : K → B} {key key' : R → K} {table : B → List R}
  {live : List R} {r : R}

theorem mem_table (h : Indexed hash key table live) (hr : r ∈ live) :
    r ∈ table (hash (key r)) := by
  rw [← List.count_pos_iff, h.count_eq_one r hr]
  exact Nat.one_pos

/-- Nothing is live: nothing is linked. -/
theorem nil : Indexed hash key (fun _ => []) [] where
  count_eq_one _ hr := absurd hr List.not_mem_nil
  linked _ _ hr := absurd hr List.not_mem_nil
  key_inj _ hr := absurd hr List.not_mem_nil

/-- Keys may change where the hashes stay and the keys stay apart. -/
theorem rekey (h : Indexed hash key table live)
    (hhash : ∀ r ∈ live, hash (key' r) = hash (key r))
    (hinj : ∀ r ∈ live, ∀ r' ∈ live, key' r = key' r' → r = r') :
    Indexed hash key' table live where
  count_eq_one r hr := by rw [hhash r hr, h.count_eq_one r hr]
  linked b r hr := by
    obtain ⟨hlive, hb⟩ := h.linked b r hr
    exact ⟨hlive, (hhash r hlive).trans hb⟩
  key_inj := hinj

section Find

variable [DecidableEq K]

/-- What is live is found under its key. -/
theorem find_eq_some (h : Indexed hash key table live) (hr : r ∈ live) :
    (table (hash (key r))).find? (fun x => key x = key r) = some r := by
  cases hfind : (table (hash (key r))).find? (fun x => key x = key r) with
  | none =>
    have hne := List.find?_eq_none.1 hfind r (h.mem_table hr)
    simp at hne
  | some x =>
    have hkey : key x = key r := by simpa using List.find?_some hfind
    have hx := (h.linked _ x (List.mem_of_find?_eq_some hfind)).1
    rw [h.key_inj x hx r hr hkey]

/-- What is found under a key is live and has the key. -/
theorem of_find (h : Indexed hash key table live) {k : K}
    (hfind : (table (hash k)).find? (fun x => key x = k) = some r) : r ∈ live ∧ key r = k :=
  ⟨(h.linked _ r (List.mem_of_find?_eq_some hfind)).1, by simpa using List.find?_some hfind⟩

/-- Where nothing is found under a key, nothing live has it. -/
theorem key_ne_of_find (h : Indexed hash key table live) {k : K}
    (hfind : (table (hash k)).find? (fun x => key x = k) = none) : ∀ r ∈ live, key r ≠ k := by
  rintro r hr rfl
  rw [h.find_eq_some hr] at hfind
  exact absurd hfind (by simp)

end Find

section Link

variable [DecidableEq B]

/-- Something with a new key is linked at the end of the bucket of its key. -/
theorem link (h : Indexed hash key table live) (hr : r ∉ live)
    (hkey : ∀ x ∈ live, key x ≠ key r) :
    Indexed hash key (Function.update table (hash (key r)) (table (hash (key r)) ++ [r]))
      (r :: live) where
  count_eq_one x hx := by
    have hcount : (table (hash (key r))).count r = 0 :=
      List.count_eq_zero.2 fun hmem => hr (h.linked _ r hmem).1
    rcases List.mem_cons.1 hx with rfl | hx
    · simp [hcount]
    · have hne : r ≠ x := fun he => hr (he ▸ hx)
      have hone := h.count_eq_one x hx
      by_cases hb : hash (key x) = hash (key r)
      · rw [hb] at hone
        simp [hb, List.count_append, hone, hne]
      · rw [Function.update_of_ne hb, hone]
  linked b x hx := by
    by_cases hb : b = hash (key r)
    · subst hb
      rw [Function.update_self, List.mem_append, List.mem_singleton] at hx
      rcases hx with hx | rfl
      · exact ⟨List.mem_cons_of_mem _ (h.linked _ x hx).1, (h.linked _ x hx).2⟩
      · exact ⟨List.mem_cons_self, rfl⟩
    · rw [Function.update_of_ne hb] at hx
      exact ⟨List.mem_cons_of_mem _ (h.linked b x hx).1, (h.linked b x hx).2⟩
  key_inj x hx y hy hxy := by
    rcases List.mem_cons.1 hx with hxr | hx' <;> rcases List.mem_cons.1 hy with hyr | hy'
    · rw [hxr, hyr]
    · exact absurd (hxr ▸ hxy.symm) (hkey y hy')
    · exact absurd (hyr ▸ hxy) (hkey x hx')
    · exact h.key_inj x hx' y hy' hxy

/-- Something live is unlinked from the bucket of its key. -/
theorem unlink (h : Indexed hash key table live) (hnodup : live.Nodup) (hr : r ∈ live) :
    Indexed hash key (Function.update table (hash (key r)) ((table (hash (key r))).erase r))
      (live.erase r) where
  count_eq_one x hx := by
    obtain ⟨hne, hx⟩ := (List.Nodup.mem_erase_iff hnodup).1 hx
    have hone := h.count_eq_one x hx
    by_cases hb : hash (key x) = hash (key r)
    · rw [hb] at hone
      rw [hb, Function.update_self, List.count_erase_of_ne hne, hone]
    · rw [Function.update_of_ne hb, hone]
  linked b x hx := by
    have hmem : x ≠ r ∧ x ∈ table b := by
      by_cases hb : b = hash (key r)
      · subst hb
        rw [Function.update_self] at hx
        refine ⟨?_, List.mem_of_mem_erase hx⟩
        rintro rfl
        have hpos := List.count_pos_iff.2 hx
        rw [List.count_erase_self, h.count_eq_one x hr] at hpos
        exact absurd hpos (Nat.lt_irrefl 0)
      · rw [Function.update_of_ne hb] at hx
        exact ⟨fun he => hb (he ▸ (h.linked b x hx).2).symm, hx⟩
    exact ⟨(List.Nodup.mem_erase_iff hnodup).2 ⟨hmem.1, (h.linked b x hmem.2).1⟩,
      (h.linked b x hmem.2).2⟩
  key_inj x hx y hy := h.key_inj x (List.mem_of_mem_erase hx) y (List.mem_of_mem_erase hy)

end Link

end Indexed

end Cube.Lib
