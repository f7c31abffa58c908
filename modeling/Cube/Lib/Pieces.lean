import Mathlib

/-!
# Lists changed piece by piece

A list of which every element is changed in a way that depends on its position, such as a
text that is encrypted by a stream of keys. If it comes in pieces, each of them must be
changed as it stands in the whole.

* `changeFrom_append`: the positions go on behind the first part.
* `flatten_map_change_iff`: when the pieces may each be changed as if they were the first.
-/

namespace Cube.Lib.Pieces

variable {α : Type*} (f : Nat → α → α)

/-- The elements changed, the first of which stands at a position. -/
def changeFrom (o : Nat) (l : List α) : List α := l.mapIdx fun i a => f (o + i) a

@[simp] theorem length_changeFrom (o : Nat) (l : List α) : (changeFrom f o l).length = l.length :=
  List.length_mapIdx

@[simp] theorem changeFrom_nil (o : Nat) : changeFrom f o [] = [] := List.mapIdx_nil

theorem getElem?_changeFrom (o i : Nat) (l : List α) :
    (changeFrom f o l)[i]? = l[i]?.map (f (o + i)) := List.getElem?_mapIdx

theorem changeFrom_append (o : Nat) (l m : List α) :
    changeFrom f o (l ++ m) = changeFrom f o l ++ changeFrom f (o + l.length) m := by
  have hshift : (fun i a => f (o + (i + l.length)) a) = fun i a => f (o + l.length + i) a := by
    funext i a
    rw [Nat.add_comm i, Nat.add_assoc]
  rw [changeFrom, List.mapIdx_append, hshift]
  rfl

theorem take_changeFrom (o n : Nat) (l : List α) :
    (changeFrom f o l).take n = changeFrom f o (l.take n) := by
  refine List.ext_getElem? fun i => ?_
  rw [List.getElem?_take, getElem?_changeFrom, getElem?_changeFrom, List.getElem?_take]
  split_ifs <;> rfl

/-- Two positions change a list alike exactly if they do its elements. -/
theorem changeFrom_eq_iff (o o' : Nat) (l : List α) : changeFrom f o l = changeFrom f o' l ↔
    ∀ (i : Nat) (a : α), l[i]? = some a → f (o + i) a = f (o' + i) a := by
  constructor
  · intro h i a ha
    have hi := congrArg (fun l : List α => l[i]?) h
    simp only [getElem?_changeFrom, ha, Option.map_some] at hi
    exact Option.some.inj hi
  · intro h
    refine List.ext_getElem? fun i => ?_
    rw [getElem?_changeFrom, getElem?_changeFrom]
    cases ha : l[i]? with
    | none => rfl
    | some a => rw [Option.map_some, Option.map_some, h i a ha]

/-- The ways a piece can stand among others, by whether it is the first. -/
theorem forall_piece_cons {β : Type*} {P : List β → β → Prop} {p : β} {pieces : List β} :
    (∀ front piece back, p :: pieces = front ++ piece :: back → P front piece) ↔
      P [] p ∧ ∀ front piece back, pieces = front ++ piece :: back → P (p :: front) piece := by
  constructor
  · refine fun h => ⟨h [] p pieces rfl, fun front piece back hp => h (p :: front) piece back ?_⟩
    rw [hp, List.cons_append]
  · rintro ⟨hfirst, hrest⟩ (_ | ⟨q, front⟩) piece back hp
    · obtain ⟨rfl, -⟩ := List.cons.inj hp
      exact hfirst
    · obtain ⟨rfl, htail⟩ := List.cons.inj hp
      exact hrest front piece back htail

/-- The pieces are changed alike as if they were the first, and as they stand behind some
    position, exactly if each of them is. -/
theorem flatten_map_change_iff (o : Nat) (pieces : List (List α)) :
    (pieces.map (changeFrom f 0)).flatten = changeFrom f o pieces.flatten ↔
      ∀ front piece back, pieces = front ++ piece :: back →
        changeFrom f 0 piece = changeFrom f (o + front.flatten.length) piece := by
  induction pieces generalizing o with
  | nil => simp
  | cons p pieces ih =>
    have hlen : (changeFrom f 0 p).length = (changeFrom f o p).length := by
      rw [length_changeFrom, length_changeFrom]
    rw [forall_piece_cons, List.map_cons, List.flatten_cons, List.flatten_cons, changeFrom_append,
      List.append_eq_append_iff_of_size_eq_left hlen, ih]
    refine and_congr (by rw [List.flatten_nil, List.length_nil, Nat.add_zero]) ?_
    simp only [List.flatten_cons, List.length_append, Nat.add_assoc]

end Cube.Lib.Pieces
