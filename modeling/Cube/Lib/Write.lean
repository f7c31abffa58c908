import Mathlib

/-!
# Writing at an offset

The contents of a file when a program writes at a given offset: the gap to an
end before the offset is filled. A file written in pieces, in any order and with
repetitions, is complete when the pieces cover it.

* `getElem?_writeAt`: what a write changes;
* `writeAt_length`: a write at the end appends;
* `PartOf.writeAt`, `PartOf.eq`: the pieces of a file make it up.
-/

namespace Cube.Lib

variable {α : Type*}

/-- The contents `file` after `data` is written at `offset`: nothing is changed by
    an empty write, and what lies between the old end and `offset` is `fill`. -/
def writeAt (fill : α) (file : List α) (offset : Nat) (data : List α) : List α :=
  if data = [] then file
  else file.take offset ++ List.replicate (offset - file.length) fill ++ data ++
    file.drop (offset + data.length)

@[simp] theorem writeAt_nil (fill : α) (file : List α) (offset : Nat) :
    writeAt fill file offset [] = file := if_pos rfl

theorem length_writeAt (fill : α) (file : List α) {offset : Nat} {data : List α}
    (hdata : data ≠ []) :
    (writeAt fill file offset data).length = max file.length (offset + data.length) := by
  simp only [writeAt, if_neg hdata, List.length_append, List.length_take, List.length_replicate,
    List.length_drop]
  omega

theorem length_writeAt_le {fill : α} {file : List α} {offset : Nat} {data : List α} {n : Nat}
    (hfile : file.length ≤ n) (hdata : offset + data.length ≤ n) :
    (writeAt fill file offset data).length ≤ n := by
  by_cases h : data = []
  · rwa [h, writeAt_nil]
  · rw [length_writeAt fill file h]
    exact Nat.max_le.2 ⟨hfile, hdata⟩

/-- The element at a position after a write: from the data, or where these do not
    reach the old one, or the filling of the gap. -/
theorem getElem?_writeAt (fill : α) (file : List α) {offset : Nat} {data : List α}
    (hdata : data ≠ []) (i : Nat) :
    (writeAt fill file offset data)[i]? =
      if offset ≤ i ∧ i < offset + data.length then data[i - offset]?
      else if i < file.length ∨ offset ≤ i then file[i]? else some fill := by
  have htake : (file.take offset ++ List.replicate (offset - file.length) fill).length = offset := by
    rw [List.length_append, List.length_take, List.length_replicate]
    omega
  simp only [writeAt, if_neg hdata]
  by_cases hlo : i < offset
  · rw [if_neg (by omega), List.append_assoc, List.getElem?_append_left (by rw [htake]; exact hlo)]
    by_cases hlen : i < file.length
    · rw [if_pos (.inl hlen), List.getElem?_append_left (by rw [List.length_take]; omega),
        List.getElem?_take_of_lt hlo]
    · -- In the gap between the old end and the offset.
      rw [if_neg (by omega), List.getElem?_append_right (by rw [List.length_take]; omega),
        List.getElem?_replicate, if_pos (by rw [List.length_take]; omega)]
  · rw [List.append_assoc, List.getElem?_append_right (by rw [htake]; omega), htake]
    by_cases hhi : i < offset + data.length
    · rw [if_pos ⟨by omega, hhi⟩, List.getElem?_append_left (by omega)]
    · rw [if_neg (by omega), if_pos (by omega), List.getElem?_append_right (by omega),
        List.getElem?_drop]
      congr 1
      omega

/-- A write at the end appends. -/
theorem writeAt_length (fill : α) (file data : List α) :
    writeAt fill file file.length data = file ++ data := by
  by_cases h : data = []
  · rw [h, writeAt_nil, List.append_nil]
  · rw [writeAt, if_neg h, List.take_length, Nat.sub_self, List.replicate_zero, List.append_nil,
      List.drop_eq_nil_of_le (Nat.le_add_right _ _), List.append_nil]

/-! ## Files written in pieces -/

/-- `part` has the elements of `whole` at the positions that are `known`, and does not
    reach beyond it. -/
structure PartOf (whole : List α) (known : Nat → Prop) (part : List α) : Prop where
  length_le : part.length ≤ whole.length
  getElem?_eq : ∀ i < whole.length, known i → part[i]? = whole[i]?

variable {whole part : List α} {known : Nat → Prop}

/-- Nothing is known of an empty file. -/
theorem PartOf.nil (whole : List α) : PartOf whole (fun _ => False) [] :=
  ⟨Nat.zero_le _, fun _ _ h => h.elim⟩

theorem PartOf.mono {known' : Nat → Prop} (h : PartOf whole known part)
    (hk : ∀ i < whole.length, known' i → known i) : PartOf whole known' part :=
  ⟨h.length_le, fun i hi hi' => h.getElem?_eq i hi (hk i hi hi')⟩

/-- A piece of the whole written at its place makes its positions known. -/
theorem PartOf.writeAt (h : PartOf whole known part) (fill : α) {offset n : Nat}
    (hn : offset + n ≤ whole.length) :
    PartOf whole (fun i => known i ∨ offset ≤ i ∧ i < offset + n)
      (writeAt fill part offset ((whole.drop offset).take n)) := by
  have hlen : ((whole.drop offset).take n).length = n := by
    rw [List.length_take, List.length_drop]
    omega
  refine ⟨length_writeAt_le h.length_le (by rwa [hlen]), fun i hi hknown => ?_⟩
  by_cases hdata : (whole.drop offset).take n = []
  · -- An empty piece covers no position.
    have hn0 : n = 0 := by rw [← hlen, hdata, List.length_nil]
    rw [hdata, writeAt_nil]
    exact h.getElem?_eq i hi (hknown.resolve_right (by omega))
  · rw [getElem?_writeAt fill part hdata, hlen]
    by_cases hin : offset ≤ i ∧ i < offset + n
    · rw [if_pos hin, List.getElem?_take_of_lt (by omega), List.getElem?_drop]
      congr 1
      omega
    · -- Elsewhere the position was known, and so inside of the part.
      have heq := h.getElem?_eq i hi (hknown.resolve_right hin)
      have hlt : i < part.length := by
        rw [List.getElem?_eq_getElem hi] at heq
        exact (List.getElem?_eq_some_iff.1 heq).1
      rw [if_neg hin, if_pos (.inl hlt), heq]

/-- A part of which all is known is the whole. -/
theorem PartOf.eq (h : PartOf whole known part) (hall : ∀ i < whole.length, known i) :
    part = whole := by
  refine List.ext_getElem? fun i => ?_
  by_cases hi : i < whole.length
  · exact h.getElem?_eq i hi (hall i hi)
  · have := h.length_le
    rw [List.getElem?_eq_none (by omega), List.getElem?_eq_none (by omega)]

end Cube.Lib
