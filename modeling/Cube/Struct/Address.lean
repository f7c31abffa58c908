import Cube.Struct.Layout
import Cube.Struct.Conversions

/-!
# The addresses of elements

`_elem_get_addr`: where an element of a structure is in memory, by the offsets of the structures
it is in and their indices. The structures of an array are in a block of their own, to which the
array has a pointer.

* `Allocated.getAddr_eq`: an element is where its block begins, and as far behind as its
  structures in the block are.
* `apart_of_ne`: two elements of one block are apart.
* `inside_home`: an element is inside its block.
-/

namespace Cube.Struct.Address

open Lib

/-! ## `_elem_get_addr` -/

/-- The number of offsets that `_elem_get_addr` has room for. -/
def MAX_OFFSETS : Nat := 10

/-- The loop of `_elem_get_addr`, from an element up: the offsets in the blocks, the outermost
    first; none if there is no room for them. -/
def elemOffsets (t : Template) (index : Indices) : Loc → List Int → Option (List Int)
  | [], offsets => some offsets
  | _ :: _, [] => none
  | k :: p, offset :: inner =>
    match t.descOf (k :: p) with
    | none => none
    | some d =>
      let e := t.elem (k :: p)
      if d.type.attr.subset then
        if d.type.attr.array then
          if MAX_OFFSETS ≤ inner.length + 1 then none
          else elemOffsets t index p (e.offset :: (offset + e.size * index (k :: p)) :: inner)
        else elemOffsets t index p ((offset + (e.offset + e.size * index (k :: p))) :: inner)
      else elemOffsets t index p ((offset + e.offset) :: inner)

/-- The addresses that offsets lead to, with the pointers that are read there; `0` if one of
    them is `NULL`. -/
def followOffsets (read : Int → Int) : Int → List Int → Int
  | addr, [] => addr
  | addr, [offset] => addr + offset
  | addr, offset :: next :: inner =>
    if read (addr + offset) = 0 then 0
    else followOffsets read (read (addr + offset)) (next :: inner)

/-- `_elem_get_addr`, for the indices of the structures. -/
def elemGetAddr (t : Template) (index : Indices) (read : Int → Int) (loc : Loc)
    (addr : Int) : Option Int :=
  (elemOffsets t index loc [0]).map (followOffsets read addr)

/-! ## Blocks -/

/-- The memory of a structure: the block it is in, of a size, and what pointers are read; and
    of each array, in the structures with the indices, the block and the number of elements. -/
structure Memory where
  addr : Int
  size : Int
  read : Int → Int
  block : LeafCall → Int
  count : LeafCall → Int

section Blocks

variable (t : Template) (m : Memory)

/-- How many structures there are in the place of one. -/
def countAt (loc : Loc) (is : List Int) : Int :=
  match t.descOf loc with
  | none => 0
  | some d => if d.type.attr.array then m.count (loc, is) else d.number

/-- The indices of a structure and of those it is in are within their limits. -/
def Within : Loc → List Int → Prop
  | [], [] => True
  | k :: p, i :: is => Within p is ∧ 0 ≤ i ∧ i < countAt t m (k :: p) is
  | _, _ => False

/-- The array whose block a structure is in; none if it is in the outermost. -/
def home : Loc → List Int → Option LeafCall
  | k :: p, _ :: is => if t.isArray (k :: p) then some (k :: p, is) else home p is
  | _, _ => none

/-- How far behind the beginning of its block a structure is. -/
def relative : Loc → List Int → Int
  | k :: p, i :: is =>
    (if t.isArray (k :: p) then 0 else relative p is + (t.elem (k :: p)).offset) +
      (t.elem (k :: p)).size * i
  | _, _ => 0

/-- The address of a block. -/
def blockAddr : Option LeafCall → Int
  | none => m.addr
  | some array => m.block array

/-- The size of a block. -/
def blockSize : Option LeafCall → Int
  | none => m.size
  | some array => (t.elem array.1).size * m.count array

/-- The address of a structure. -/
def base (p : Loc) (is : List Int) : Int := blockAddr m (home t p is) + relative t p is

/-- There is a block: the outermost, or that of an array with elements. -/
def IsBlock : Option LeafCall → Prop
  | none => True
  | some (loc, is) =>
    t.nested loc = true ∧ t.isArray loc = true ∧ Within t m loc.tail is ∧ 0 < m.count (loc, is)

/-- Two ranges of bytes have none in common. -/
def Disjoint (a n b l : Int) : Prop := a + n ≤ b ∨ b + l ≤ a

theorem Disjoint.symm {a n b l : Int} (h : Disjoint a n b l) : Disjoint b l a n := Or.symm h

/-- Parts of ranges that have no byte in common have none. -/
theorem Disjoint.mono {a n b l a' n' b' l' : Int} (h : Disjoint a n b l) (ha : a ≤ a')
    (hn : a' + n' ≤ a + n) (hb : b ≤ b') (hl : b' + l' ≤ b + l) : Disjoint a' n' b' l' := by
  rcases h with h | h
  · exact .inl (by omega)
  · exact .inr (by omega)

/-- The blocks have been allocated: the outermost by `struct_size`, and those of arrays by the
    sizes of their elements, which the pointers of the arrays lead to. A size is an `int`. -/
structure Allocated : Prop where
  size : t.structSize [] = some m.size
  pointer : ∀ loc is, IsBlock t m (some (loc, is)) →
    m.read (base t m loc.tail is + (t.elem loc).offset) = m.block (loc, is)
  nonzero : ∀ loc is, IsBlock t m (some (loc, is)) → m.block (loc, is) ≠ 0
  disjoint : ∀ b b', IsBlock t m b → IsBlock t m b' → b ≠ b' →
    Disjoint (blockAddr m b) (blockSize t m b) (blockAddr m b') (blockSize t m b')
  small : ∀ b, IsBlock t m b → blockSize t m b < 2 ^ 31

end Blocks

/-! ## The way to an element -/

section Address

variable {t : Template} {m : Memory} {p q loc : Loc} {is js : List Int} {k : Nat} {i : Int}
  {d : ElemDesc}

theorem home_array (h : t.isArray (k :: p) = true) : home t (k :: p) (i :: is) = some (k :: p, is) := by
  rw [home, if_pos h]

theorem home_struct (h : t.isArray (k :: p) = false) : home t (k :: p) (i :: is) = home t p is := by
  rw [home, h]
  rfl

theorem isArray_eq (hd : t.descOf loc = some d) : t.isArray loc = d.type.attr.array := by
  rw [Template.isArray, hd]
  rfl

theorem countAt_eq (hd : t.descOf loc = some d) :
    countAt t m loc is = if d.type.attr.array then m.count (loc, is) else d.number := by
  rw [countAt, hd]

theorem followOffsets_add (read : Int → Int) (addr c offset : Int) (inner : List Int) :
    followOffsets read (addr + c) (offset :: inner) = followOffsets read addr ((offset + c) :: inner) := by
  have hadd : addr + c + offset = addr + (offset + c) := by omega
  cases inner with
  | nil => simp only [followOffsets, hadd]
  | cons o inner => simp only [followOffsets, hadd]

/-- What is in a structure is in one that is there. -/
theorem Within.tail (h : Within t m (k :: p) (i :: is)) : Within t m p is := h.1

/-- A structure that is there is in a block that is. -/
theorem isBlock_home (hnested : ∀ q, q <:+ p → q ≠ [] → t.nested q = true) (h : Within t m p is) :
    IsBlock t m (home t p is) := by
  induction p generalizing is with
  | nil => trivial
  | cons k p ih =>
    rcases is with _ | ⟨i, is⟩
    · cases h
    obtain ⟨hwithin, hi, hlt⟩ := h
    cases harray : t.isArray (k :: p) with
    | false =>
      rw [home_struct harray]
      exact ih (fun q hq => hnested q (hq.trans (List.suffix_cons k p))) hwithin
    | true =>
      have hk := hnested (k :: p) List.suffix_rfl (List.cons_ne_nil k p)
      obtain ⟨d, hd, -⟩ := t.exists_desc hk
      rw [countAt_eq hd, ← isArray_eq hd, harray, if_pos rfl] at hlt
      rw [home_array harray]
      exact ⟨hk, harray, hwithin, Int.lt_of_le_of_lt hi hlt⟩

/-- The offsets that lead to a structure lead to its address. -/
theorem Allocated.followOffsets_eq (h : Allocated t m) {idx : Indices} {offset : Int}
    {inner offsets : List Int} (hnested : ∀ q, q <:+ p → q ≠ [] → t.nested q = true)
    (hwithin : Within t m p (pathIndices p idx))
    (hoffsets : elemOffsets t idx p (offset :: inner) = some offsets) :
    followOffsets m.read m.addr offsets =
      followOffsets m.read (base t m p (pathIndices p idx)) (offset :: inner) := by
  induction p generalizing offset inner with
  | nil =>
    cases hoffsets
    rw [base]
    exact congrArg (followOffsets m.read · _) (Int.add_zero _).symm
  | cons k p ih =>
    have hk := hnested (k :: p) List.suffix_rfl (List.cons_ne_nil k p)
    have hnested' : ∀ q, q <:+ p → q ≠ [] → t.nested q = true :=
      fun q hq => hnested q (hq.trans (List.suffix_cons k p))
    obtain ⟨d, hd, hsub⟩ := t.exists_desc hk
    have harray' := isArray_eq hd
    rw [pathIndices] at hwithin ⊢
    simp only [elemOffsets, hd, hsub, if_true] at hoffsets
    cases harray : d.type.attr.array with
    | false =>
      rw [harray] at hoffsets harray'
      have hstep := ih hnested' hwithin.tail hoffsets
      rw [hstep, ← followOffsets_add, base, base, home_struct harray', relative, harray']
      congr 1
      simp only [Bool.false_eq_true, if_false]
      omega
    | true =>
      rw [harray] at hoffsets harray'
      simp only [if_true] at hoffsets
      split_ifs at hoffsets with hroom
      have hstep := ih hnested' hwithin.tail hoffsets
      have hblock : IsBlock t m (some (k :: p, pathIndices p idx)) := by
        have := isBlock_home hnested hwithin
        rwa [home_array harray'] at this
      have hpointer : m.read (base t m p (pathIndices p idx) + (t.elem (k :: p)).offset) =
          m.block (k :: p, pathIndices p idx) := h.pointer _ _ hblock
      rw [hstep, followOffsets, hpointer, if_neg (h.nonzero _ _ hblock), ← followOffsets_add,
        base, home_array harray', relative, harray', if_pos rfl, Int.zero_add]
      rfl

/-- An element that is no structure is behind the beginning of its structure. -/
theorem Allocated.getAddr_eq (h : Allocated t m) {idx : Indices} {addr : Int}
    (hd : t.descOf (k :: p) = some d) (hleaf : d.type.attr.subset = false)
    (hnested : ∀ q, q <:+ p → q ≠ [] → t.nested q = true)
    (hwithin : Within t m p (pathIndices p idx))
    (haddr : elemGetAddr t idx m.read (k :: p) m.addr = some addr) :
    addr = base t m p (pathIndices p idx) + (t.elem (k :: p)).offset := by
  obtain ⟨offsets, hoffsets, rfl⟩ := Option.map_eq_some_iff.1 haddr
  simp only [elemOffsets, hd, hleaf, Bool.false_eq_true, if_false] at hoffsets
  rw [h.followOffsets_eq hnested hwithin hoffsets, followOffsets, Int.zero_add]

/-! ## Room for the offsets -/

variable (t) in
/-- How many arrays a structure is in, or is. -/
def arrays : Loc → Nat
  | [] => 0
  | k :: p => arrays p + if t.isArray (k :: p) then 1 else 0

/-- There is room for the offsets of an element in less than ten arrays. -/
theorem elemOffsets_isSome_iff {idx : Indices} {offset : Int} {inner : List Int}
    (hnested : ∀ q, q <:+ p → q ≠ [] → t.nested q = true) (hinner : inner.length < MAX_OFFSETS) :
    (elemOffsets t idx p (offset :: inner)).isSome ↔ inner.length + arrays t p < MAX_OFFSETS := by
  induction p generalizing offset inner with
  | nil => exact iff_of_true rfl hinner
  | cons k p ih =>
    have hnested' : ∀ q, q <:+ p → q ≠ [] → t.nested q = true :=
      fun q hq => hnested q (hq.trans (List.suffix_cons k p))
    obtain ⟨d, hd, hsub⟩ := t.exists_desc (hnested (k :: p) List.suffix_rfl (List.cons_ne_nil k p))
    simp only [elemOffsets, hd, hsub, if_true, arrays, isArray_eq hd]
    cases harray : d.type.attr.array with
    | false => simpa using ih hnested' hinner
    | true =>
      simp only [if_true]
      by_cases hroom : MAX_OFFSETS ≤ inner.length + 1
      · rw [if_pos hroom]
        exact iff_of_false (by simp) (by omega)
      · rw [if_neg hroom, ih hnested' (by simpa using Nat.not_le.1 hroom), List.length_cons]
        omega

end Address

/-! ## Elements apart -/

section Apart

variable {t : Template} {m : Memory}

/-- The descriptions say how many bytes there are, and no element has less than none. -/
structure Regular (t : Template) : Prop where
  laid : t.Laid
  bytes : ∀ loc d, t.descOf loc = some d → 0 ≤ bytes d

/-- The structure at the end of a way, by the elements and their indices, from another one. -/
def down : Loc → List Int → List (Nat × Int) → Loc × List Int
  | p, is, [] => (p, is)
  | p, is, (k, i) :: way => down (k :: p) (i :: is) way

/-- The block of an array in a structure. -/
def Under (p : Loc) (is : List Int) (b : Option LeafCall) : Prop :=
  ∃ u v, b = some (u ++ p, v ++ is) ∧ u.length = v.length + 1

variable {p : Loc} {is : List Int} {k k' : Nat} {i i' : Int} {b : Option LeafCall}

theorem Under.up (h : Under (k :: p) (i :: is) b) : Under p is b := by
  obtain ⟨u, v, rfl, hlen⟩ := h
  exact ⟨u ++ [k], v ++ [i], by simp, by simp [hlen]⟩

/-- An array in one structure is not one in another. -/
theorem Under.inj (h : Under (k :: p) (i :: is) b) (h' : Under (k' :: p) (i' :: is) b) :
    k = k' ∧ i = i' := by
  obtain ⟨u, v, rfl, hlen⟩ := h
  obtain ⟨u', v', heq, hlen'⟩ := h'
  obtain ⟨hloc, his⟩ := Prod.mk.inj (Option.some.inj heq)
  exact ⟨(List.cons.inj (List.append_inj_right' hloc (by simp))).1,
    (List.cons.inj (List.append_inj_right' his (by simp))).1⟩

/-- An array in a structure is none that a structure as deep is in, or is. -/
theorem Under.ne_home (h : Under p is b) {q : Loc} (hq : q.length ≤ p.length) (js : List Int) :
    b ≠ home t q js := by
  have hhome : ∀ q js loc js', home t q js = some (loc, js') → loc.length ≤ q.length := by
    intro q
    induction q with
    | nil => exact fun js loc js' h => nomatch h
    | cons k q ih =>
      intro js loc js' h
      rcases js with _ | ⟨i, js⟩
      · cases h
      rw [home] at h
      split_ifs at h
      · cases h
        exact Nat.le_refl _
      · exact Nat.le_succ_of_le (ih _ _ _ h)
  obtain ⟨u, v, rfl, hlen⟩ := h
  intro heq
  have hle := hhome _ _ _ _ heq.symm
  rw [List.length_append] at hle
  omega

/-- An array is in its structure. -/
theorem under_array (k : Nat) (p : Loc) (is : List Int) : Under p is (some (k :: p, is)) :=
  ⟨[k], [], rfl, rfl⟩

variable (t m) in
/-- The structure is one there is, with its index and those of the structures it is in within
    their limits. -/
structure There (p : Loc) (is : List Int) : Prop where
  nested : ∀ q, q <:+ p → q ≠ [] → t.nested q = true
  within : Within t m p is

theorem There.tail (h : There t m (k :: p) (i :: is)) : There t m p is :=
  ⟨fun q hq => h.nested q (hq.trans (List.suffix_cons k p)), h.within.1⟩

variable {way way' : List (Nat × Int)} {q q' : Loc} {js js' : List Int} {d d' : ElemDesc}

/-- What a structure is in is there. -/
theorem There.of_down (h : There t m q js) (hway : down p is way = (q, js)) : There t m p is := by
  induction way generalizing p is with
  | nil =>
    cases hway
    exact h
  | cons step way ih => exact (ih hway).tail

theorem There.desc (h : There t m (k :: p) is) :
    ∃ d, t.descOf (k :: p) = some d ∧ d.type.attr.subset = true :=
  t.exists_desc (h.nested (k :: p) List.suffix_rfl (List.cons_ne_nil k p))

variable (hr : Regular t)
include hr

/-- An element is in its structure. -/
theorem elem_inside (hd : t.descOf (k :: p) = some d) :
    0 ≤ (t.elem (k :: p)).offset ∧
      (t.elem (k :: p)).offset + bytes d ≤ bytesOf (t.children p) := by
  have hbytes : ∀ e ∈ t.children p, 0 ≤ bytes e := fun e he => by
    obtain ⟨n, hn⟩ := List.mem_iff_getElem?.1 he
    exact hr.bytes (n :: p) e hn
  rw [(hr.laid k p d hd).1]
  refine ⟨?_, bytesOf_take_add_le hbytes hd⟩
  have hle := bytesOf_take_le hbytes (Nat.zero_le k)
  rwa [List.take_zero] at hle

/-- Elements of one structure are one behind the other. -/
theorem elem_apart (hd : t.descOf (k :: p) = some d) (hd' : t.descOf (k' :: p) = some d')
    (hlt : k < k') : (t.elem (k :: p)).offset + bytes d ≤ (t.elem (k' :: p)).offset := by
  have hbytes : ∀ e ∈ t.children p, 0 ≤ bytes e := fun e he => by
    obtain ⟨n, hn⟩ := List.mem_iff_getElem?.1 he
    exact hr.bytes (n :: p) e hn
  rw [(hr.laid k p d hd).1, (hr.laid k' p d' hd').1, ← bytesOf_take_succ hd]
  exact bytesOf_take_le hbytes hlt

/-- The size of a structure is that of its elements. -/
theorem size_eq (hd : t.descOf (k :: p) = some d) (hsub : d.type.attr.subset = true) :
    (t.elem (k :: p)).size = bytesOf (t.children (k :: p)) := by
  rw [(hr.laid k p d hd).2, elemSize, if_pos hsub, Template.children_of_desc hd hsub]

/-- No structure has less than no bytes. -/
theorem bytesOf_nonneg (p : Loc) : 0 ≤ bytesOf (t.children p) := by
  have hbytes : ∀ e ∈ t.children p, 0 ≤ bytes e := fun e he => by
    obtain ⟨n, hn⟩ := List.mem_iff_getElem?.1 he
    exact hr.bytes (n :: p) e hn
  have hle := bytesOf_take_le hbytes (Nat.zero_le (t.children p).length)
  rwa [List.take_zero, List.take_length] at hle

/-- A structure in the place of one is in the bytes of the element. -/
theorem struct_inside (h : There t m (k :: p) (i :: is)) (hd : t.descOf (k :: p) = some d)
    (harray : t.isArray (k :: p) = false) :
    relative t p is + (t.elem (k :: p)).offset ≤ relative t (k :: p) (i :: is) ∧
      relative t (k :: p) (i :: is) + bytesOf (t.children (k :: p)) ≤
        relative t p is + (t.elem (k :: p)).offset + bytes d := by
  obtain ⟨e, he, hsub⟩ := h.desc
  obtain rfl := Option.some.inj (he.symm.trans hd)
  obtain ⟨-, hi, hlt⟩ := h.within
  have harray' := (isArray_eq hd).symm.trans harray
  rw [countAt_eq hd, harray'] at hlt
  have hsize := size_eq hr hd hsub
  have hnonneg := bytesOf_nonneg hr (k :: p)
  have hlow := Int.mul_nonneg hnonneg hi
  have hhigh := Int.mul_le_mul_of_nonneg_left (Int.add_one_le_of_lt hlt) hnonneg
  rw [Int.mul_add, Int.mul_one] at hhigh
  have hbytes : bytes e = bytesOf (t.children (k :: p)) * e.number := by
    rw [bytes_struct hsub harray', Template.children_of_desc hd hsub]
  rw [relative, harray, hsize, hbytes]
  simp only [Bool.false_eq_true, if_false] at hhigh ⊢
  omega

/-- What is in a structure is in its bytes, or in the block of an array in it. -/
theorem inside_of_down (h : There t m q js) (hway : down p is way = (q, js)) :
    Under p is (home t q js) ∨ home t q js = home t p is ∧ relative t p is ≤ relative t q js ∧
      relative t q js + bytesOf (t.children q) ≤ relative t p is + bytesOf (t.children p) := by
  induction way generalizing p is with
  | nil =>
    cases hway
    exact .inr ⟨rfl, Int.le_refl _, Int.le_refl _⟩
  | cons step way ih =>
    obtain ⟨k, i⟩ := step
    have hthere : There t m (k :: p) (i :: is) := h.of_down hway
    rcases ih hway with hunder | ⟨hhome, hlow, hhigh⟩
    · exact .inl hunder.up
    · cases harray : t.isArray (k :: p) with
      | true =>
        rw [home_array harray] at hhome
        exact .inl (hhome ▸ under_array k p is)
      | false =>
        rw [home_struct harray] at hhome
        obtain ⟨d, hd, -⟩ := hthere.desc
        obtain ⟨hlow', hhigh'⟩ := struct_inside hr hthere hd harray
        obtain ⟨hstart, hend⟩ := elem_inside hr hd
        exact .inr ⟨hhome, by omega, by omega⟩

/-- A structure and what is in it are in their block. -/
theorem inside_home (h : There t m p is) (hsize : bytesOf t.desc ≤ m.size) :
    0 ≤ relative t p is ∧
      relative t p is + bytesOf (t.children p) ≤ blockSize t m (home t p is) := by
  induction p generalizing is with
  | nil =>
    refine ⟨Int.le_refl 0, ?_⟩
    rw [relative, Int.zero_add]
    exact hsize
    all_goals nofun
  | cons k p ih =>
    obtain ⟨d, hd, hsub⟩ := h.desc
    rcases is with _ | ⟨i, is⟩
    · exact absurd h.within id
    cases harray : t.isArray (k :: p) with
    | false =>
      obtain ⟨hlow, hhigh⟩ := ih h.tail
      obtain ⟨hlow', hhigh'⟩ := struct_inside hr h hd harray
      obtain ⟨hstart, hend⟩ := elem_inside hr hd
      rw [home_struct harray]
      exact ⟨by omega, by omega⟩
    | true =>
      obtain ⟨-, hi, hlt⟩ := h.within
      rw [countAt_eq hd, ← isArray_eq hd, harray, if_pos rfl] at hlt
      have hnonneg := bytesOf_nonneg hr (k :: p)
      have hlow := Int.mul_nonneg hnonneg hi
      have hhigh := Int.mul_le_mul_of_nonneg_left (Int.add_one_le_of_lt hlt) hnonneg
      rw [Int.mul_add, Int.mul_one] at hhigh
      rw [home_array harray, relative, harray, if_pos rfl, Int.zero_add, blockSize,
        size_eq hr hd hsub]
      exact ⟨hlow, hhigh⟩

/-- Two structures in the place of one are apart. -/
theorem apart_of_index (h : There t m (k :: p) (i :: is)) (hlt : i < i') :
    relative t (k :: p) (i :: is) + bytesOf (t.children (k :: p)) ≤
      relative t (k :: p) (i' :: is) := by
  obtain ⟨d, hd, hsub⟩ := h.desc
  have hle := Int.mul_le_mul_of_nonneg_left (Int.add_one_le_of_lt hlt)
    (bytesOf_nonneg hr (k :: p))
  rw [Int.mul_add, Int.mul_one] at hle
  rw [relative, relative, size_eq hr hd hsub]
  omega

/-- Two structures of one block, in the places of two elements, are apart. -/
theorem apart_of_elem (h : There t m (k :: p) (i :: is)) (h' : There t m (k' :: p) (i' :: is))
    (hlt : k < k') (hhome : home t (k :: p) (i :: is) = home t (k' :: p) (i' :: is)) :
    relative t (k :: p) (i :: is) + bytesOf (t.children (k :: p)) ≤
      relative t (k' :: p) (i' :: is) := by
  obtain ⟨d, hd, -⟩ := h.desc
  obtain ⟨d', hd', -⟩ := h'.desc
  cases harray : t.isArray (k :: p) with
  | true =>
    exfalso
    rw [home_array harray] at hhome
    cases harray' : t.isArray (k' :: p) with
    | true =>
      rw [home_array harray'] at hhome
      exact Nat.ne_of_lt hlt (List.cons.inj (Prod.mk.inj (Option.some.inj hhome)).1).1
    | false =>
      rw [home_struct harray'] at hhome
      exact (under_array k p is).ne_home (Nat.le_refl _) is hhome
  | false =>
    cases harray' : t.isArray (k' :: p) with
    | true =>
      exfalso
      rw [home_struct harray, home_array harray'] at hhome
      exact (under_array k' p is).ne_home (Nat.le_refl _) is hhome.symm
    | false =>
      have hbefore := (struct_inside hr h hd harray).2
      have hbehind := (struct_inside hr h' hd' harray').1
      have helem := elem_apart hr hd hd' hlt
      omega

/-- Two structures of one block, of which none is in the other, are apart. -/
theorem apart_of_children (h : There t m (k :: p) (i :: is)) (h' : There t m (k' :: p) (i' :: is))
    (hne : (k, i) ≠ (k', i')) (hhome : home t (k :: p) (i :: is) = home t (k' :: p) (i' :: is)) :
    Disjoint (relative t (k :: p) (i :: is)) (bytesOf (t.children (k :: p)))
      (relative t (k' :: p) (i' :: is)) (bytesOf (t.children (k' :: p))) := by
  rcases Nat.lt_trichotomy k k' with hlt | rfl | hlt
  · exact .inl (apart_of_elem hr h h' hlt hhome)
  · rcases Int.lt_trichotomy i i' with hlt | rfl | hlt
    · exact .inl (apart_of_index hr h hlt)
    · exact absurd rfl hne
    · exact .inr (apart_of_index hr h' hlt)
  · exact .inr (apart_of_elem hr h' h hlt hhome.symm)

/-- An element that is no structure, in one block with a structure in another element, is apart
    from it. -/
theorem apart_of_leaf (hd : t.descOf (k :: p) = some d) (hleaf : d.type.attr.subset = false)
    (h : There t m (k' :: p) (i' :: is)) (hhome : home t p is = home t (k' :: p) (i' :: is)) :
    Disjoint (relative t p is + (t.elem (k :: p)).offset) (bytes d)
      (relative t (k' :: p) (i' :: is)) (bytesOf (t.children (k' :: p))) := by
  obtain ⟨d', hd', hsub'⟩ := h.desc
  cases harray : t.isArray (k' :: p) with
  | true =>
    rw [home_array harray] at hhome
    exact absurd hhome.symm ((under_array k' p is).ne_home (Nat.le_refl _) is)
  | false =>
    obtain ⟨hlow, hhigh⟩ := struct_inside hr h hd' harray
    rcases Nat.lt_trichotomy k k' with hlt | rfl | hlt
    · have helem := elem_apart hr hd hd' hlt
      exact .inl (by omega)
    · rw [Option.some.inj (hd.symm.trans hd'), hsub'] at hleaf
      cases hleaf
    · have helem := elem_apart hr hd' hd hlt
      exact .inr (by omega)

/-- Two elements of one block that are no structures are apart. -/
theorem apart_of_ne (hway : down p is way = (q, js)) (hway' : down p is way' = (q', js'))
    (h : There t m q js) (h' : There t m q' js') (hd : t.descOf (k :: q) = some d)
    (hleaf : d.type.attr.subset = false) (hd' : t.descOf (k' :: q') = some d')
    (hleaf' : d'.type.attr.subset = false) (hne : (way, k) ≠ (way', k'))
    (hhome : home t q js = home t q' js') :
    Disjoint (relative t q js + (t.elem (k :: q)).offset) (bytes d)
      (relative t q' js' + (t.elem (k' :: q')).offset) (bytes d') := by
  obtain ⟨hstart, hend⟩ := elem_inside hr hd
  obtain ⟨hstart', hend'⟩ := elem_inside hr hd'
  induction way generalizing p is way' with
  | nil =>
    cases hway
    rcases way' with _ | ⟨⟨k₂, i₂⟩, way'⟩
    · cases hway'
      rcases Nat.lt_trichotomy k k' with hlt | rfl | hlt
      · have helem := elem_apart hr hd hd' hlt
        exact .inl (by omega)
      · exact absurd rfl hne
      · have helem := elem_apart hr hd' hd hlt
        exact .inr (by omega)
    · change down (k₂ :: q) (i₂ :: js) way' = (q', js') at hway'
      rcases inside_of_down hr h' hway' with hunder | ⟨hhome₂, hlow, hhigh⟩
      · exact absurd hhome.symm (hunder.ne_home (Nat.le_succ _) js)
      · have hapart := apart_of_leaf hr hd hleaf (h'.of_down hway') (hhome.trans hhome₂)
        exact hapart.mono (by omega) (by omega) (by omega) (by omega)
  | cons step way ih =>
    obtain ⟨k₁, i₁⟩ := step
    rcases way' with _ | ⟨⟨k₂, i₂⟩, way'⟩
    · cases hway'
      change down (k₁ :: q') (i₁ :: js') way = (q, js) at hway
      rcases inside_of_down hr h hway with hunder | ⟨hhome₁, hlow, hhigh⟩
      · exact absurd hhome (hunder.ne_home (Nat.le_succ _) js')
      · have hapart := apart_of_leaf hr hd' hleaf' (h.of_down hway) (hhome.symm.trans hhome₁)
        exact hapart.symm.mono (by omega) (by omega) (by omega) (by omega)
    · by_cases hstep : (k₁, i₁) = (k₂, i₂)
      · -- Both are in the same structure.
        obtain ⟨rfl, rfl⟩ := Prod.mk.inj hstep
        exact ih hway hway' fun heq => hne (by
          obtain ⟨rfl, rfl⟩ := Prod.mk.inj heq
          rfl)
      · change down (k₁ :: p) (i₁ :: is) way = (q, js) at hway
        change down (k₂ :: p) (i₂ :: is) way' = (q', js') at hway'
        have hin := inside_of_down hr h hway
        have hin' := inside_of_down hr h' hway'
        rcases hin with hunder | ⟨hhome₁, hlow, hhigh⟩
        · exfalso
          rcases hin' with hunder' | ⟨hhome₂, -, -⟩
          · obtain ⟨rfl, rfl⟩ := hunder.inj (hhome ▸ hunder')
            exact hstep rfl
          · exact hunder.ne_home (q := k₂ :: p) (Nat.le_refl _) (i₂ :: is) (hhome.trans hhome₂)
        · rcases hin' with hunder' | ⟨hhome₂, hlow', hhigh'⟩
          · exact absurd (hhome.symm.trans hhome₁)
              (hunder'.ne_home (q := k₁ :: p) (Nat.le_refl _) (i₁ :: is))
          · have hapart := apart_of_children hr (h.of_down hway) (h'.of_down hway') hstep
              (hhome₁.symm.trans (hhome.trans hhome₂))
            exact hapart.mono (by omega) (by omega) (by omega) (by omega)

end Apart

end Cube.Struct.Address
