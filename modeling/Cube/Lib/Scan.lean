import Mathlib

/-!
# Scanning up to where a scan stops

What is scanned of a list is what is in front of the first element that does not satisfy a
condition, or of the first terminator. There is one way to part a list in this way.
-/

namespace Cube.Lib

variable {α : Type*} {p : α → Bool} {front front' rest rest' : List α} {a a' z : α}

theorem takeWhile_stop (h : ∀ b ∈ front, p b = true) (ha : p a = false) (rest : List α) :
    (front ++ a :: rest).takeWhile p = front := by
  rw [List.takeWhile_append_of_pos h, List.takeWhile_cons_of_neg (Bool.eq_false_iff.1 ha),
    List.append_nil]

theorem dropWhile_stop (h : ∀ b ∈ front, p b = true) (ha : p a = false) (rest : List α) :
    (front ++ a :: rest).dropWhile p = a :: rest := by
  rw [List.dropWhile_append_of_pos h, List.dropWhile_cons_of_neg (Bool.eq_false_iff.1 ha)]

theorem zero_notMem_takeWhile (bytes : List UInt8) : 0 ∉ bytes.takeWhile (· ≠ 0) := by
  intro h
  simpa using List.mem_takeWhile_imp h

/-- There is one place where a scan stops. -/
theorem stop_unique (h : ∀ b ∈ front, p b = true) (h' : ∀ b ∈ front', p b = true) (ha : p a = false)
    (ha' : p a' = false) (heq : front ++ a :: rest = front' ++ a' :: rest') :
    front = front' ∧ a = a' ∧ rest = rest' := by
  have hfront : front = front' := by
    rw [← takeWhile_stop h ha rest, heq, takeWhile_stop h' ha']
  have hbehind : a :: rest = a' :: rest' := by
    rw [← dropWhile_stop h ha rest, heq, dropWhile_stop h' ha']
  exact ⟨hfront, List.cons.inj hbehind⟩

/-- What is in front of a terminator, and has none in it, is read up to there. -/
theorem takeWhile_terminator [DecidableEq α] (h : z ∉ front) (rest : List α) :
    (front ++ z :: rest).takeWhile (· ≠ z) = front := by
  refine takeWhile_stop (fun b hb => decide_eq_true ?_) (by simp) rest
  rintro rfl
  exact h hb

end Cube.Lib
