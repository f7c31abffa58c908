import Mathlib

/-!
# Windows of a list

Reading a stretch of a list (`slice`) and writing over one (`patch`), as a
program does with the positions of a buffer: what is read back after a write
inside, before and after the stretch written.
-/

namespace Cube.Lib

variable {α : Type*}

/-- The elements of `l` at the positions from `a` up to, but not including, `b`. -/
def slice (l : List α) (a b : Nat) : List α := (l.drop a).take (b - a)

/-- The list `l` with `xs` written over it from the position `a` on. -/
def patch (l : List α) (a : Nat) (xs : List α) : List α :=
  l.take a ++ xs ++ l.drop (a + xs.length)

theorem getElem?_slice (l : List α) (a b i : Nat) :
    (slice l a b)[i]? = if i < b - a then l[a + i]? else none := by
  rw [slice, List.getElem?_take, List.getElem?_drop]

variable {l xs : List α} {a b : Nat}

theorem getElem?_patch (h : a + xs.length ≤ l.length) (i : Nat) : (patch l a xs)[i]? =
      if i < a then l[i]? else if i < a + xs.length then xs[i - a]? else l[i]? := by
  rw [patch, List.append_assoc]
  split_ifs with h₁ h₂
  · rw [List.getElem?_append_left (by rw [List.length_take]; omega), List.getElem?_take,
      if_pos h₁]
  · rw [List.getElem?_append_right (by rw [List.length_take]; omega), List.length_take,
      List.getElem?_append_left (by omega)]
    congr 1
    omega
  · rw [List.getElem?_append_right (by rw [List.length_take]; omega), List.length_take,
      List.getElem?_append_right (by omega), List.getElem?_drop]
    congr 1
    omega

@[simp] theorem slice_self (l : List α) (a : Nat) : slice l a a = [] := by simp [slice]

theorem length_slice (h : b ≤ l.length) :
    (slice l a b).length = b - a := by
  rw [slice, List.length_take, List.length_drop]
  omega

theorem take_slice (l : List α) (a b n : Nat) :
    (slice l a b).take n = slice l a (min (a + n) b) := by
  rw [slice, slice, List.take_take]
  congr 1
  omega

/-- A window that lies in the first part of a list is a window of that part. -/
theorem slice_take {n : Nat} (h : b ≤ n) : slice (l.take n) a b = slice l a b := by
  refine List.ext_getElem? fun i => ?_
  rw [getElem?_slice, getElem?_slice]
  split_ifs with hi
  · exact List.getElem?_take_of_lt (by omega)
  · rfl

/-- Two adjacent windows make one. -/
theorem slice_append_slice {c : Nat} (hab : a ≤ b) (hbc : b ≤ c) :
    slice l a b ++ slice l b c = slice l a c := by
  have h : l.drop b = (l.drop a).drop (b - a) := by
    rw [List.drop_drop]
    congr 1
    omega
  rw [slice, slice, slice, h, ← List.take_add]
  congr 1
  omega

theorem length_patch (h : a + xs.length ≤ l.length) :
    (patch l a xs).length = l.length := by
  rw [patch, List.length_append, List.length_append, List.length_take, List.length_drop]
  omega

/-- What was written is read back. -/
theorem slice_patch_self (h : a + xs.length ≤ l.length)
    (hb : b = a + xs.length) : slice (patch l a xs) a b = xs := by
  refine List.ext_getElem? fun i => ?_
  rw [getElem?_slice, getElem?_patch h]
  split_ifs with h₁ h₂ h₃
  · omega
  · congr 1
    omega
  · omega
  · exact (List.getElem?_eq_none (by omega)).symm

/-- A window that ends before the stretch written is unchanged. -/
theorem slice_patch_before {c : Nat}
    (h : a + xs.length ≤ l.length) (hc : c ≤ a) : slice (patch l a xs) b c = slice l b c := by
  refine List.ext_getElem? fun i => ?_
  rw [getElem?_slice, getElem?_slice, getElem?_patch h]
  split_ifs <;> first | rfl | omega

/-- A window that starts after the stretch written is unchanged. -/
theorem slice_patch_after {c : Nat} (h : a + xs.length ≤ l.length) (hb : a + xs.length ≤ b) :
    slice (patch l a xs) b c = slice l b c := by
  refine List.ext_getElem? fun i => ?_
  rw [getElem?_slice, getElem?_slice, getElem?_patch h]
  split_ifs <;> first | rfl | omega

end Cube.Lib
