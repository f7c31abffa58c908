import Cube.Struct.Address

/-!
# Which structures are laid out

A description is laid out as it should if no element has less than no bytes, no structure is
empty or ends with an array, and no element is in ten arrays. `struct_size` takes an array at the
end of a structure for one of its elements, and `_elem_get_addr` has room for ten offsets.

* `laysOut_iff`: the descriptions that are laid out, with the sizes that `struct_size` tells and
  the addresses that `_elem_get_addr` gives.
-/

namespace Cube.Struct.Address

open Lib

/-! ## What a layout should be -/

section Promise

variable (t : Template)

/-- There is a structure at the place, the outermost or one in it. -/
def IsStruct (p : Loc) : Prop := p = [] ∨ t.nested p = true

/-- The bytes of the elements of a structure are one behind the other, without any between. -/
structure Packed (p : Loc) : Prop where
  first : ∀ d, t.descOf (0 :: p) = some d → (t.elem (0 :: p)).offset = 0
  next : ∀ k d, t.descOf ((k + 1) :: p) = some d →
    (t.elem ((k + 1) :: p)).offset = (t.elem (k :: p)).offset + t.extent (k :: p)
  nonneg : ∀ k d, t.descOf (k :: p) = some d → 0 ≤ t.extent (k :: p)
  apart : ∀ j k d d', t.descOf (j :: p) = some d → t.descOf (k :: p) = some d' → j < k →
    Disjoint (t.elem (j :: p)).offset (t.extent (j :: p)) (t.elem (k :: p)).offset
      (t.extent (k :: p))

/-- `struct_size` is behind all of the elements, and at the end of the last. -/
def Ends (p : Loc) : Prop :=
  ∃ size, t.structSize p = some size ∧ size < 2 ^ 31 ∧
    (∀ k d, t.descOf (k :: p) = some d → (t.elem (k :: p)).offset + t.extent (k :: p) ≤ size) ∧
    ∀ k d, t.descOf (k :: p) = some d → t.descOf ((k + 1) :: p) = none →
      (t.elem (k :: p)).offset + t.extent (k :: p) = size

/-- The element is no structure, and the structures that it is in are within their limits. -/
structure Accessed (m : Memory) (k : Nat) (p : Loc) (idx : Indices) : Prop where
  leaf : ∃ d, t.descOf (k :: p) = some d ∧ d.type.attr.subset = false
  within : Within t m p (pathIndices p idx)

/-- The layout of a template: that of each of its structures, and the addresses in memory. -/
structure LaysOut : Prop where
  packed : ∀ p, Packed t p
  ends : ∀ p, IsStruct t p → Ends t p
  nested : ∀ p, t.nested p = true → t.structSize p = some (t.elem p).size
  room : ∀ m k p idx, Accessed t m k p idx → ∃ addr, elemGetAddr t idx m.read (k :: p) m.addr = some addr
  inside : ∀ m k p idx addr, Allocated t m → Accessed t m k p idx →
    elemGetAddr t idx m.read (k :: p) m.addr = some addr →
    blockAddr m (home t p (pathIndices p idx)) ≤ addr ∧ addr + t.extent (k :: p) ≤
      blockAddr m (home t p (pathIndices p idx)) + blockSize t m (home t p (pathIndices p idx))
  apart : ∀ m k p idx addr k' p' idx' addr', Allocated t m → Accessed t m k p idx →
    Accessed t m k' p' idx' → (k :: p, pathIndices p idx) ≠ (k' :: p', pathIndices p' idx') →
    elemGetAddr t idx m.read (k :: p) m.addr = some addr →
    elemGetAddr t idx' m.read (k' :: p') m.addr = some addr' →
    Disjoint addr (t.extent (k :: p)) addr' (t.extent (k' :: p'))

/-! ## When a description is laid out -/

/-- No element has less than no bytes, the bytes of a structure are an `int`, the last element of
    each is there and, if it is an array, of structures as large as a pointer, and no element is
    in ten arrays or more, unless one of the structures it is in has no place. -/
structure Sound : Prop where
  bytes : ∀ loc d, t.descOf loc = some d → 0 ≤ bytes d
  small : ∀ p, IsStruct t p → bytesOf (t.children p) < 2 ^ 31
  last : ∀ p, IsStruct t p → ∃ d, (t.children p).getLast? = some d ∧
    (d.type.attr.subset = true → d.type.attr.array = true → bytesOf d.sub = pointerSize)
  room : ∀ k p d, t.descOf (k :: p) = some d → d.type.attr.subset = false →
    (∀ q e, q <:+ p → t.descOf q = some e → e.type.attr.array = false → 0 < e.number) →
      arrays t p < MAX_OFFSETS

end Promise

section Laid

variable {t t' : Template} {m : Memory} {k k' : Nat} {p p' : Loc} {idx idx' : Indices} {addr addr' : Int}
  {d : ElemDesc}

theorem arrays_congr (h : t'.desc = t.desc) (p : Loc) : arrays t' p = arrays t p := by
  induction p with
  | nil => rfl
  | cons k p ih =>
    rw [arrays, arrays, ih, Template.isArray, Template.isArray, Template.descOf_congr h]

theorem isStruct_congr (h : t'.desc = t.desc) : IsStruct t' p ↔ IsStruct t p := by
  rw [IsStruct, IsStruct, Template.nested_congr h]

/-- The condition is one on the description. -/
theorem Sound.congr (h : t'.desc = t.desc) (hsound : Sound t) : Sound t' where
  bytes loc d hd := hsound.bytes loc d ((Template.descOf_congr h loc).symm.trans hd)
  small p hp := by
    rw [Template.children_congr h]
    exact hsound.small p ((isStruct_congr h).1 hp)
  last p hp := by
    rw [Template.children_congr h]
    exact hsound.last p ((isStruct_congr h).1 hp)
  room k p d hd hleaf hplaces := by
    rw [arrays_congr h]
    refine hsound.room k p d ((Template.descOf_congr h _).symm.trans hd) hleaf fun q e hq he => ?_
    exact hplaces q e hq ((Template.descOf_congr h q).trans he)

/-- `struct_size` takes the last element to have its bytes, unless it is an array of structures
    that are not as large as a pointer. -/
theorem lastBytes_eq_iff : lastBytes d = bytes d ↔
    (d.type.attr.subset = true → d.type.attr.array = true → bytesOf d.sub = pointerSize) := by
  rw [lastBytes]
  by_cases h : d.type.attr.subset = true ∧ d.type.attr.array = true
  · rw [if_pos h, bytes_array h.1 h.2]
    exact ⟨fun heq _ _ => heq, fun heq => heq h.1 h.2⟩
  · rw [if_neg h]
    exact iff_of_true rfl fun hsub harray => absurd ⟨hsub, harray⟩ h

/-- The last element is one with none behind it. -/
theorem descOf_of_getLast (hd : (t.children p).getLast? = some d) :
    ∃ k, t.descOf (k :: p) = some d ∧ t.descOf ((k + 1) :: p) = none := by
  refine ⟨(t.children p).length - 1, ?_, ?_⟩
  · rw [Template.descOf, ← List.getLast?_eq_getElem?, hd]
  · exact List.getElem?_eq_none (by omega)

/-- An element ends behind those before it and its own bytes. -/
theorem end_eq (h : t.Laid) (hd : t.descOf (k :: p) = some d) :
    (t.elem (k :: p)).offset + t.extent (k :: p) = bytesOf ((t.children p).take (k + 1)) := by
  rw [(h k p d hd).1, h.extent_eq hd, bytesOf_take_succ hd]

/-- The structures that an element is in are structures. -/
theorem nested_of_suffix (hd : t.descOf (k :: p) = some d) {q : Loc} (hq : q <:+ p) (hne : q ≠ []) :
    t.nested q = true := by
  induction p generalizing k d with
  | nil => exact absurd (List.suffix_nil.1 hq) hne
  | cons j p ih =>
    have hnested : t.nested (j :: p) = true := nested_tail hd (List.cons_ne_nil j p)
    rcases List.suffix_cons_iff.1 hq with rfl | hq'
    · exact hnested
    · obtain ⟨e, he, -⟩ := t.exists_desc hnested
      exact ih he hq'

/-- An accessed element is in a structure that is there. -/
theorem Accessed.there (h : Accessed t m k p idx) : There t m p (pathIndices p idx) := by
  obtain ⟨d, hd, -⟩ := h.leaf
  exact ⟨fun q hq hne => nested_of_suffix hd hq hne, h.within⟩

/-- There is room for the offsets of an element that is in less than ten arrays. -/
theorem elemGetAddr_isSome_iff (hd : t.descOf (k :: p) = some d) (hleaf : d.type.attr.subset = false)
    (read : Int → Int) (addr : Int) :
    (elemGetAddr t idx read (k :: p) addr).isSome ↔ arrays t p < MAX_OFFSETS := by
  have hinner : ([] : List Int).length < MAX_OFFSETS := by decide
  rw [elemGetAddr, Option.isSome_map]
  simp only [elemOffsets, hd, hleaf, Bool.false_eq_true, if_false]
  rw [elemOffsets_isSome_iff (fun q hq hne => nested_of_suffix hd hq hne) hinner, List.length_nil,
    Nat.zero_add]

/-- The number of places of a structure that an accessed element is in is not 0. -/
theorem number_pos (h : Within t m p (pathIndices p idx)) {q : Loc} (hq : q <:+ p) (hd : t.descOf q = some d)
    (harray : d.type.attr.array = false) : 0 < d.number := by
  induction p with
  | nil =>
    rw [List.suffix_nil.1 hq] at hd
    cases hd
  | cons k p ih =>
    obtain ⟨hwithin, hi, hlt⟩ := h
    rcases List.suffix_cons_iff.1 hq with rfl | hq'
    · rw [countAt_eq hd, harray] at hlt
      exact Int.lt_of_le_of_lt hi hlt
    · exact ih hwithin hq'

theorem down_concat (p : Loc) (is : List Int) (way : List (Nat × Int)) (k : Nat) (i : Int) :
    down p is (way ++ [(k, i)]) = (k :: (down p is way).1, i :: (down p is way).2) := by
  induction way generalizing p is with
  | nil => rfl
  | cons step way ih => exact ih (step.1 :: p) (step.2 :: is)

/-- There is a way from the outermost structure to every other one. -/
theorem exists_way {is : List Int} (hlen : is.length = p.length) : ∃ way, down [] [] way = (p, is) := by
  induction p generalizing is with
  | nil => exact ⟨[], by rw [List.eq_nil_of_length_eq_zero hlen]; rfl⟩
  | cons k p ih =>
    rcases is with _ | ⟨i, is⟩
    · cases hlen
    · obtain ⟨way, hway⟩ := ih (Nat.succ.inj hlen)
      exact ⟨way ++ [(k, i)], by rw [down_concat, hway]⟩

/-! ### A sound description -/

section OfSound

variable (hlaid : t.Laid) (hsound : Sound t)
include hlaid hsound

theorem regular_of_sound : Regular t := ⟨hlaid, hsound.bytes⟩

theorem structSize_of_sound (hp : IsStruct t p) : t.structSize p = some (bytesOf (t.children p)) := by
  obtain ⟨d, hd, hlast⟩ := hsound.last p hp
  rw [hlaid.structSize_eq hd, lastBytes_eq_iff.2 hlast, bytesOf_dropLast hd]

theorem packed_of_sound (p : Loc) : Packed t p := by
  have hreg := regular_of_sound hlaid hsound
  refine ⟨fun d hd => ?_, fun k d hd => ?_, fun k d hd => ?_, fun j k d d' hd hd' hlt => ?_⟩
  · rw [(hlaid 0 p d hd).1, List.take_zero, bytesOf]
  · -- The element before it is there.
    have hlt : k < (t.children p).length :=
      Nat.lt_of_succ_lt (List.getElem?_eq_some_iff.1 hd).1
    have hbefore : t.descOf (k :: p) = some (t.children p)[k] := List.getElem?_eq_getElem hlt
    rw [end_eq hlaid hbefore, (hlaid (k + 1) p d hd).1]
  · rw [hlaid.extent_eq hd]
    exact hsound.bytes _ d hd
  · rw [hlaid.extent_eq hd]
    exact .inl (elem_apart hreg hd hd' hlt)

theorem ends_of_sound (hp : IsStruct t p) : Ends t p := by
  refine ⟨_, structSize_of_sound hlaid hsound hp, hsound.small p hp, fun k d hd => ?_,
    fun k d hd hnone => ?_⟩
  · rw [hlaid.extent_eq hd]
    exact (elem_inside (regular_of_sound hlaid hsound) hd).2
  · rw [end_eq hlaid hd, List.take_of_length_le (List.getElem?_eq_none_iff.1 hnone)]

/-- An element is in its block. -/
theorem inside_of_sound (halloc : Allocated t m) (h : Accessed t m k p idx)
    (haddr : elemGetAddr t idx m.read (k :: p) m.addr = some addr) :
    blockAddr m (home t p (pathIndices p idx)) ≤ addr ∧ addr + t.extent (k :: p) ≤
      blockAddr m (home t p (pathIndices p idx)) + blockSize t m (home t p (pathIndices p idx)) := by
  have hreg := regular_of_sound hlaid hsound
  obtain ⟨d, hd, hleaf⟩ := h.leaf
  have hsize : bytesOf t.desc = m.size :=
    Option.some.inj ((structSize_of_sound hlaid hsound (.inl rfl)).symm.trans halloc.size)
  obtain ⟨hlow, hhigh⟩ := inside_home hreg h.there (Int.le_of_eq hsize)
  obtain ⟨hstart, hend⟩ := elem_inside hreg hd
  rw [halloc.getAddr_eq hd hleaf h.there.nested h.within haddr, hlaid.extent_eq hd, base]
  omega

/-- Elements are apart from each other, also those of different blocks. -/
theorem apart_of_sound (halloc : Allocated t m) (h : Accessed t m k p idx)
    (h' : Accessed t m k' p' idx') (hne : (k :: p, pathIndices p idx) ≠ (k' :: p', pathIndices p' idx'))
    (haddr : elemGetAddr t idx m.read (k :: p) m.addr = some addr)
    (haddr' : elemGetAddr t idx' m.read (k' :: p') m.addr = some addr') :
    Disjoint addr (t.extent (k :: p)) addr' (t.extent (k' :: p')) := by
  by_cases hhome : home t p (pathIndices p idx) = home t p' (pathIndices p' idx')
  · obtain ⟨d, hd, hleaf⟩ := h.leaf
    obtain ⟨d', hd', hleaf'⟩ := h'.leaf
    obtain ⟨way, hway⟩ := exists_way (length_pathIndices p idx)
    obtain ⟨way', hway'⟩ := exists_way (length_pathIndices p' idx')
    have hne' : (way, k) ≠ (way', k') := by
      rintro heq
      obtain ⟨rfl, rfl⟩ := Prod.mk.inj heq
      obtain ⟨rfl, his⟩ := Prod.mk.inj (hway.symm.trans hway')
      exact hne (by rw [his])
    have hapart := apart_of_ne (regular_of_sound hlaid hsound) hway hway' h.there h'.there hd hleaf hd'
      hleaf' hne' hhome
    rw [halloc.getAddr_eq hd hleaf h.there.nested h.within haddr,
      halloc.getAddr_eq hd' hleaf' h'.there.nested h'.within haddr', hlaid.extent_eq hd,
      hlaid.extent_eq hd', base, base, hhome]
    rcases hapart with hapart | hapart
    · exact .inl (by omega)
    · exact .inr (by omega)
  · -- Blocks are apart, and each element is in its own.
    obtain ⟨hlow, hhigh⟩ := inside_of_sound hlaid hsound halloc h haddr
    obtain ⟨hlow', hhigh'⟩ := inside_of_sound hlaid hsound halloc h' haddr'
    exact (halloc.disjoint _ _ (isBlock_home h.there.nested h.within)
      (isBlock_home h'.there.nested h'.within) hhome).mono hlow hhigh hlow' hhigh'

/-- What a sound description is laid out to. -/
theorem laysOut_of_sound : LaysOut t where
  packed := packed_of_sound hlaid hsound
  ends p hp := ends_of_sound hlaid hsound hp
  nested p hp := by
    rw [structSize_of_sound hlaid hsound (.inr hp)]
    obtain ⟨d, hd, hsub⟩ := t.exists_desc hp
    rcases p with _ | ⟨k, p⟩
    · cases hd
    · rw [size_eq (regular_of_sound hlaid hsound) hd hsub]
  room m k p idx h := by
    obtain ⟨d, hd, hleaf⟩ := h.leaf
    refine Option.isSome_iff_exists.1 ((elemGetAddr_isSome_iff hd hleaf m.read m.addr).2 ?_)
    exact hsound.room k p d hd hleaf fun q e hq he harray => number_pos h.within hq he harray
  inside m k p idx addr := inside_of_sound hlaid hsound
  apart m k p idx addr k' p' idx' addr' := apart_of_sound hlaid hsound

end OfSound

/-- The structures around an element have a place each if none has less than one. -/
theorem within_zero (hd : t.descOf (k :: p) = some d)
    (hplaces : ∀ q e, q <:+ p → t.descOf q = some e → e.type.attr.array = false → 0 < e.number) :
    Within t ⟨0, 0, fun _ => 0, fun _ => 0, fun _ => 1⟩ p (pathIndices p fun _ => 0) := by
  induction p generalizing k d with
  | nil => trivial
  | cons j p ih =>
    obtain ⟨e, he, -⟩ := t.exists_desc (nested_of_suffix hd List.suffix_rfl (List.cons_ne_nil j p))
    refine ⟨ih he fun q e hq => hplaces q e (hq.trans (List.suffix_cons j p)), Int.le_refl 0, ?_⟩
    rw [countAt_eq he]
    cases harray : e.type.attr.array with
    | true => exact Int.one_pos
    | false => exact hplaces (j :: p) e List.suffix_rfl he harray

/-- A description that is laid out is sound. -/
theorem sound_of_laysOut (hlaid : t.Laid) (h : LaysOut t) : Sound t where
  bytes loc d hd := by
    rcases loc with _ | ⟨k, p⟩
    · cases hd
    · rw [← hlaid.extent_eq hd]
      exact (h.packed p).nonneg k d hd
  small p hp := by
    obtain ⟨size, hsize, hlt, -, hlast⟩ := h.ends p hp
    rcases hd : (t.children p).getLast? with _ | d
    · rw [Template.structSize, hd] at hsize
      cases hsize
    · obtain ⟨k, hk, hnone⟩ := descOf_of_getLast hd
      have hend := hlast k d hk hnone
      rw [end_eq hlaid hk, List.take_of_length_le (List.getElem?_eq_none_iff.1 hnone)] at hend
      rwa [hend]
  last p hp := by
    obtain ⟨size, hsize, -, -, hlast⟩ := h.ends p hp
    rcases hd : (t.children p).getLast? with _ | d
    · rw [Template.structSize, hd] at hsize
      cases hsize
    · obtain ⟨k, hk, hnone⟩ := descOf_of_getLast hd
      have hend := hlast k d hk hnone
      rw [end_eq hlaid hk, List.take_of_length_le (List.getElem?_eq_none_iff.1 hnone),
        bytesOf_dropLast hd] at hend
      rw [hlaid.structSize_eq hd, ← hend] at hsize
      exact ⟨d, rfl, lastBytes_eq_iff.1 (Int.add_left_cancel (Option.some.inj hsize))⟩
  room k p d hd hleaf hplaces := by
    have haccessed : Accessed t ⟨0, 0, fun _ => 0, fun _ => 0, fun _ => 1⟩ k p fun _ => 0 :=
      ⟨⟨d, hd, hleaf⟩, within_zero hd hplaces⟩
    exact (elemGetAddr_isSome_iff hd hleaf _ _).1 (Option.isSome_iff_exists.2 (h.room _ k p _ haccessed))

end Laid

/-- Which descriptions are laid out as they should. -/
theorem laysOut_iff {desc : List ElemDesc} {t : Template} (h : Created desc t) :
    LaysOut t ↔ Sound (Template.blank desc) := by
  have hdesc : t.desc = (Template.blank desc).desc := h.desc
  exact ⟨fun hlays => (sound_of_laysOut h.laid hlays).congr hdesc.symm,
    fun hsound => laysOut_of_sound h.laid (hsound.congr hdesc)⟩

/-- A description without structures in it is sound if it has elements, none of them with less
    than no bytes, and their bytes are an `int`. -/
theorem sound_of_flat {desc : List ElemDesc} (hflat : ∀ d ∈ desc, d.type.attr.subset = false)
    (hne : desc ≠ []) (hbytes : ∀ d ∈ desc, 0 ≤ bytes d) (hsmall : bytesOf desc < 2 ^ 31) :
    Sound (Template.blank desc) := by
  have hroot : ∀ p, IsStruct (Template.blank desc) p → p = [] := by
    rintro p (rfl | hp)
    · rfl
    · obtain ⟨d, hd, hsub⟩ := Template.exists_desc hp
      obtain ⟨k, -, hk⟩ := (Template.blank desc).descOf_flat hflat hd
      rw [hflat d (List.mem_of_getElem? hk)] at hsub
      cases hsub
  refine ⟨fun loc d hd => ?_, fun p hp => ?_, fun p hp => ?_, fun k p d hd _ _ => ?_⟩
  · obtain ⟨k, -, hk⟩ := (Template.blank desc).descOf_flat hflat hd
    exact hbytes d (List.mem_of_getElem? hk)
  · rw [hroot p hp]
    exact hsmall
  · rw [hroot p hp]
    refine ⟨desc.getLast hne, List.getLast?_eq_some_getLast hne, fun hsub => ?_⟩
    rw [hflat _ (List.getLast_mem hne)] at hsub
    cases hsub
  · obtain ⟨j, hj, -⟩ := (Template.blank desc).descOf_flat hflat hd
    obtain ⟨-, rfl⟩ := List.cons.inj hj
    exact Nat.succ_pos 9

/-- Two integers are laid out. -/
theorem laysOut_two : ∃ t, Created [intElem 'a', intElem 'b'] t ∧ LaysOut t := by
  obtain ⟨t, hcreated⟩ : ∃ t, Created [intElem 'a', intElem 'b'] t :=
    ⟨_, 0, _, Int.le_refl 0, ⟨12, rfl⟩, rfl⟩
  exact ⟨t, hcreated, (laysOut_iff hcreated).2
    (sound_of_flat (by decide) (List.cons_ne_nil _ _) (by decide) (by decide))⟩

/-- A structure with an array of integers, of which `struct_size` is half the size of the pointer. -/
theorem not_laysOut_array : ∃ t, Created [⟨['a'], .array, 2, [intElem 'b'], none, none⟩] t ∧
    t.extent [0] = 8 ∧ t.structSize [] = some 4 ∧ ¬ LaysOut t := by
  obtain ⟨t, hcreated, hoffset, hextent, hsize⟩ :
      ∃ t, Created [⟨['a'], .array, 2, [intElem 'b'], none, none⟩] t ∧ (t.elem [0]).offset = 0 ∧
        t.extent [0] = 8 ∧ t.structSize [] = some 4 :=
    ⟨_, ⟨0, _, Int.le_refl 0, ⟨12, rfl⟩, rfl⟩, by decide, by decide, by decide⟩
  have hdesc : t.desc = _ := hcreated.desc
  refine ⟨t, hcreated, hextent, hsize, fun h => ?_⟩
  obtain ⟨size, hsize', -, hbehind, -⟩ := h.ends [] (.inl rfl)
  have hend := hbehind 0 _ (by rw [Template.descOf, Template.children, hdesc]; rfl)
  rw [hoffset, hextent, ← Option.some.inj (hsize.symm.trans hsize')] at hend
  exact absurd hend (by decide)

end Cube.Struct.Address
