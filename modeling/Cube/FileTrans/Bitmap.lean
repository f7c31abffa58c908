import Cube.Lib.Outcome

/-!
# Bitmaps

The bitmaps of `memfunc.c`: byte arrays of which a bit is set by its site, and
which are compared as a whole with the bitmap that has the first bits set.

* `bitmapSet_spec`: a site inside of the bitmap is set, and nothing else changes;
* `bitmapIsAllset_eq`: in a bitmap with nothing set from its size on, all is set
  when every site is.
-/

namespace Cube.FileTrans

open Lib

/-- `bitmap_set`. A site below zero is an undefined shift, and one beyond the bitmap
    is out of its memory. -/
def bitmapSet (bitmap : List UInt8) (site : Int) : Outcome (List UInt8) :=
  if 0 ≤ site ∧ site / 8 < bitmap.length then
    .done (bitmap.modify (site / 8).toNat fun b => b ||| UInt8.ofNat (1 <<< (site % 8).toNat))
  else .fault

/-- The loop of `bitmap_is_allset` over `n` bytes: the bytes after them, or none when
    one of them is not full. -/
def fullBytes : Nat → List UInt8 → Outcome (Option (List UInt8))
  | 0, bitmap => .done (some bitmap)
  | _ + 1, [] => .fault
  | n + 1, b :: bitmap => if b ≠ 0xff then .done none else fullBytes n bitmap

/-- The end of `bitmap_is_allset`, at the byte after the full ones: if there is to be
    one, it has exactly the bits below the size. -/
def lastByte (size : Int) (bitmap : List UInt8) : Outcome Bool :=
  if size.tmod 8 = 0 then .done true
  else match bitmap with
    | [] => .fault
    | b :: _ => .done (b = UInt8.ofNat (0x7f >>> (7 - size.tmod 8).toNat))

/-- `bitmap_is_allset`. -/
def bitmapIsAllset (bitmap : List UInt8) (size : Int) : Outcome Bool :=
  fullBytes (size.tdiv 8).toNat bitmap >>= fun rest => rest.elim (.done false) (lastByte size)

/-- The bit of a site. -/
def marked (bitmap : List UInt8) (i : Nat) : Bool :=
  (bitmap.getD (i / 8) 0).toNat.testBit (i % 8)

/-! ## Setting a bit -/

theorem testBit_or_one_shiftLeft (b : UInt8) {k j : Nat} (hk : k < 8) :
    (b ||| UInt8.ofNat (1 <<< k)).toNat.testBit j = (decide (k = j) || b.toNat.testBit j) := by
  have hlt : 1 <<< k < 2 ^ 8 := by
    rw [Nat.one_shiftLeft]
    exact Nat.pow_lt_pow_right (by decide) hk
  rw [UInt8.toNat_or, UInt8.toNat_ofNat_of_lt' hlt, Nat.testBit_or, Nat.one_shiftLeft,
    Nat.testBit_two_pow, Bool.or_comm]

/-- A site inside of the bitmap is set, and nothing else changes. -/
theorem bitmapSet_spec {bitmap : List UInt8} {site : Nat} (h : site / 8 < bitmap.length) :
    ∃ bitmap', bitmapSet bitmap site = .done bitmap' ∧ bitmap'.length = bitmap.length ∧
      ∀ i, marked bitmap' i = (decide (site = i) || marked bitmap i) := by
  refine ⟨_, if_pos ⟨Int.natCast_nonneg _, by exact_mod_cast h⟩, List.length_modify .., fun i => ?_⟩
  have hdiv : ((site : Int) / 8).toNat = site / 8 := by omega
  have hmod : ((site : Int) % 8).toNat = site % 8 := by omega
  rw [hdiv, hmod, marked, marked, List.getD_eq_getElem?_getD, List.getD_eq_getElem?_getD,
    List.getElem?_modify]
  by_cases hbyte : site / 8 = i / 8
  · -- The byte of the site: it has the bit, and its others are kept.
    have hsite : site % 8 = i % 8 ↔ site = i := by omega
    simp only [hbyte, if_true]
    rw [← hbyte, List.getElem?_eq_getElem h, Option.map_eq_map, Option.map_some, Option.getD_some,
      testBit_or_one_shiftLeft _ (Nat.mod_lt _ (by decide)), Option.getD_some]
    simp only [hsite]
  · have hsite : site ≠ i := fun h => hbyte (by rw [h])
    simp only [hbyte, if_false]
    rw [Option.map_eq_map, Option.map_id', decide_eq_false hsite, Bool.false_or]

/-! ## Whether all bits are set -/

/-- A byte with no bit from `n` on has the first `n` bits if each of them is set. -/
theorem eq_ofNat_two_pow_sub_one {b : UInt8} {n : Nat} (hn : n ≤ 8)
    (hclear : ∀ k, n ≤ k → k < 8 → b.toNat.testBit k = false) :
    b = UInt8.ofNat (2 ^ n - 1) ↔ ∀ k < n, b.toNat.testBit k := by
  have hpow : 2 ^ n ≤ 2 ^ 8 := Nat.pow_le_pow_right (by decide) hn
  have hlt : 2 ^ n - 1 < 2 ^ 8 := by
    have := Nat.two_pow_pos n
    omega
  rw [← UInt8.toNat_inj, UInt8.toNat_ofNat_of_lt' hlt]
  constructor
  · intro h k hk
    rw [h, Nat.testBit_two_pow_sub_one, decide_eq_true hk]
  · intro h
    refine Nat.eq_of_testBit_eq fun k => ?_
    rw [Nat.testBit_two_pow_sub_one]
    by_cases hk : k < n
    · rw [h k hk, decide_eq_true hk]
    · rw [decide_eq_false hk]
      by_cases hk8 : k < 8
      · exact hclear k (by omega) hk8
      · exact Nat.testBit_lt_two_pow
          (lt_of_lt_of_le b.toNat_lt (Nat.pow_le_pow_right (by decide) (by omega)))

theorem shiftRight_eq_two_pow_sub_one {n : Nat} (hn : 0 < n) (hn8 : n < 8) :
    0x7f >>> (7 - n) = 2 ^ n - 1 := by
  interval_cases n <;> rfl

theorem toNat_tdiv_eight (n : Nat) : ((n : Int).tdiv 8).toNat = n / 8 := rfl

theorem natCast_tmod_eight (n : Nat) : (n : Int).tmod 8 = (n % 8 : Nat) := rfl

theorem bitmapIsAllset_cons (b : UInt8) (bitmap : List UInt8) (n : Nat) :
    bitmapIsAllset (b :: bitmap) (n + 8 : Nat) =
      if b ≠ 0xff then .done false else bitmapIsAllset bitmap n := by
  have hlast : lastByte (n + 8 : Nat) = lastByte n := by
    funext bytes
    simp only [lastByte, natCast_tmod_eight, Nat.add_mod_right]
  rw [bitmapIsAllset, toNat_tdiv_eight, Nat.add_div_right n (by decide), fullBytes, hlast]
  split_ifs with hb
  · rfl
  · rw [bitmapIsAllset, toNat_tdiv_eight]

theorem marked_cons_lt (b : UInt8) (bitmap : List UInt8) {i : Nat} (hi : i < 8) :
    marked (b :: bitmap) i = b.toNat.testBit i := by
  rw [marked, Nat.div_eq_of_lt hi, Nat.mod_eq_of_lt hi, List.getD_cons_zero]

theorem marked_cons_add (b : UInt8) (bitmap : List UInt8) (i : Nat) :
    marked (b :: bitmap) (i + 8) = marked bitmap i := by
  rw [marked, Nat.add_div_right i (by decide), Nat.add_mod_right, List.getD_cons_succ, marked]

/-- The sites below `n + 8` are those of the first byte and those after it. -/
theorem forall_marked_cons (b : UInt8) (bitmap : List UInt8) (n : Nat) :
    (∀ i < n + 8, marked (b :: bitmap) i) ↔
      (∀ k < 8, b.toNat.testBit k) ∧ ∀ i < n, marked bitmap i := by
  constructor
  · intro h
    refine ⟨fun k hk => ?_, fun i hi => ?_⟩
    · rw [← marked_cons_lt b bitmap hk]
      exact h k (by omega)
    · rw [← marked_cons_add b]
      exact h (i + 8) (by omega)
  · rintro ⟨hbyte, hrest⟩ i hi
    by_cases hi8 : i < 8
    · rw [marked_cons_lt b bitmap hi8]
      exact hbyte i hi8
    · obtain ⟨j, rfl⟩ := Nat.exists_eq_add_of_le' (Nat.le_of_not_lt hi8)
      rw [marked_cons_add]
      exact hrest j (by omega)

/-- A bitmap with nothing set from its size on is all set when every site is. -/
theorem bitmapIsAllset_eq {bitmap : List UInt8} {n : Nat} (hlen : bitmap.length = (n + 7) / 8)
    (hclear : ∀ i, n ≤ i → marked bitmap i = false) :
    bitmapIsAllset bitmap n = .done (decide (∀ i < n, marked bitmap i)) := by
  induction bitmap generalizing n with
  | nil =>
    obtain rfl : n = 0 := by
      rw [List.length_nil] at hlen
      omega
    rfl
  | cons b bitmap ih =>
    rw [List.length_cons] at hlen
    by_cases hn : 8 ≤ n
    · -- A full byte, and the rest of the bitmap.
      obtain ⟨m, rfl⟩ := Nat.exists_eq_add_of_le' hn
      have hfull : b = 0xff ↔ ∀ k < 8, b.toNat.testBit k :=
        eq_ofNat_two_pow_sub_one (n := 8) le_rfl (fun k h8 hk => absurd hk (by omega))
      have hrest := ih (n := m) (by omega) fun i hi => by
        rw [← marked_cons_add b]
        exact hclear (i + 8) (by omega)
      rw [bitmapIsAllset_cons, hrest]
      simp only [forall_marked_cons, ← hfull]
      by_cases hb : b = 0xff
      · rw [if_neg (not_not.2 hb)]
        simp only [hb, true_and]
      · rw [if_pos hb]
        simp only [hb, false_and, decide_false]
    · -- The last byte, of which only the bits below the size are used.
      have hpos : 0 < n := by omega
      have hbyte : b = UInt8.ofNat (2 ^ n - 1) ↔ ∀ k < n, b.toNat.testBit k := by
        refine eq_ofNat_two_pow_sub_one (by omega) fun k hk hk8 => ?_
        rw [← marked_cons_lt b bitmap hk8]
        exact hclear k hk
      have hbits : (∀ i < n, marked (b :: bitmap) i) ↔ ∀ k < n, b.toNat.testBit k :=
        forall₂_congr fun i hi => by rw [marked_cons_lt b bitmap (by omega)]
      have hmod : (n : Int).tmod 8 = n := by rw [natCast_tmod_eight, Nat.mod_eq_of_lt (by omega)]
      have hshift : (7 - (n : Int)).toNat = 7 - n := by omega
      rw [bitmapIsAllset, toNat_tdiv_eight, Nat.div_eq_of_lt (by omega), fullBytes,
        Outcome.done_bind, Option.elim_some, lastByte, hmod, if_neg (by omega), hshift,
        shiftRight_eq_two_pow_sub_one hpos (by omega)]
      simp only [hbits, hbyte]

end Cube.FileTrans
