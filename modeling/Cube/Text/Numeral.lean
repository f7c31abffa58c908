import Cube.Text.Scan

/-!
# Three readers of numerals

When `Atoi`, `int_set_text_value` and `get_string_value` agree on a text: each blank takes
the character behind it with it, `get_string_value` looks for a zero behind other
characters, and letters have other values in the latter two.

* `read_zero`: what is read of a numeral with a leading zero;
* `agreesOn_iff`: when the readers agree on a text that is a numeral;
* `parsersAgree_iff`: when they agree on a text.
-/

namespace Cube.Text

open Lib Message

/-! ## Numerals -/

/-- The base and the digits of a text without blanks before it. -/
def splitBase : List UInt8 → Nat × List UInt8
  | [] => (10, [])
  | c :: s => if c = '0'.toUInt8 then prefixBase s else (10, c :: s)

/-- The blanks before a text, and what is behind them. -/
def blanks (text : List UInt8) : Nat := (text.takeWhile (· = ' '.toUInt8)).length
def body (text : List UInt8) : List UInt8 := text.dropWhile (· = ' '.toUInt8)

/-- The number that a text is a numeral of, if it is one. -/
def numeral (text : List UInt8) : Option Nat :=
  numberFrom digitValue (splitBase (body text)).1 0 (splitBase (body text)).2

/-! ## What the readers should do -/

/-- What `Atoi` and `get_string_value` return for a number or an error. -/
def expected : Option Nat → Outcome Int
  | some v => .done v
  | none => .done (-EINVAL)

/-- The readers compute the number of a text, or find that it has none, in any memory that
    it is in: `Atoi` with its limit, `int_set_text_value` of an `int`, and
    `get_string_value` in a field of the size. -/
structure ParsersAgree (text : List UInt8) (maxlen size : Nat) : Prop where
  atoi : ∀ rest, atoi (text ++ 0 :: rest) maxlen = expected (numeral text)
  set : ∀ rest, match numeral text with
    | some v => ∃ ret elem, 0 ≤ ret ∧ leNat elem = v ∧
        Struct.intSetTextValue 4 (text ++ 0 :: rest) = .done (ret, elem)
    | none => Struct.intSetTextValue 4 (text ++ 0 :: rest) = .error (-EINVAL)
  count : ∀ rest, Struct.getStringValue (text ++ 0 :: rest) 0 size = expected (numeral text)

/-! ## Characters -/

variable {c : UInt8} {t : List UInt8} {base : Nat}

theorem Decimal.digitValue_eq (hc : Decimal c) :
    digitValue c = some (c.toNat - '0'.toNat) := if_pos hc

/-- Another digit is worth ten or more. -/
theorem ten_le_digitValue (hc : ¬ Decimal c) {d : Nat} (hd : digitValue c = some d) :
    10 ≤ d := by
  rw [digitValue, if_neg hc] at hd
  split_ifs at hd
  · exact Option.some.inj hd ▸ Nat.le_add_left 10 _
  · exact Option.some.inj hd ▸ Nat.le_add_left 10 _

theorem digitValue_lt_ten {d : Nat} (hd : digitValue c = some d) :
    d < 10 ↔ Decimal c := by
  constructor
  · intro hlt
    by_contra hc
    exact absurd (ten_le_digitValue hc hd) (Nat.not_le.2 hlt)
  · intro hc
    obtain ⟨h0, h9, -, -, -, -, hc0, -⟩ := range_ends
    have hle := UInt8.le_iff_toNat_le.1 hc.2
    have heq := Option.some.inj (hc.digitValue_eq.symm.trans hd)
    omega

/-- Only the digit zero is worth nothing. -/
theorem digitValue_zero (hc : digitValue c = some 0) : c = '0'.toUInt8 := by
  have hdec := (digitValue_lt_ten hc).1 (by decide)
  have hle := UInt8.le_iff_toNat_le.1 hdec.1
  have heq := Option.some.inj (hdec.digitValue_eq.symm.trans hc)
  obtain ⟨h0, -, -, -, -, -, hc0, -⟩ := range_ends
  exact UInt8.toNat_inj.1 (by omega)

/-- A shifted digit is worth no more than the digit. -/
theorem shiftedValue_le (c : UInt8) : ∀ d ∈ shiftedValue c, ∀ d' ∈ digitValue c, d ≤ d' := by
  intro d hd d' hd'
  rw [Option.mem_def] at hd hd'
  rw [shiftedValue_eq] at hd
  split_ifs at hd with hdec hsmall
  · exact (Option.some.inj (hd.symm.trans hd')).le
  · rw [digitValue, if_neg hdec, if_pos hsmall] at hd'
    obtain rfl := Option.some.inj hd
    obtain rfl := Option.some.inj hd'
    exact Nat.le_succ _

/-- It is worth as much for decimal digits only. -/
theorem shiftedValue_eq_iff (hc : digitValue c ≠ none) :
    shiftedValue c = digitValue c ↔ Decimal c := by
  rw [shiftedValue_eq]
  by_cases hdec : Decimal c
  · exact iff_of_true (if_pos hdec) hdec
  · refine iff_of_false (fun h => ?_) hdec
    rw [if_neg hdec] at h
    split_ifs at h with hsmall
    · rw [digitValue, if_neg hdec, if_pos hsmall, Option.some.injEq] at h
      omega
    · exact hc h.symm

/-- The characters that mark a base, and blanks, are no decimal digits for any reader. -/
theorem mark_not_decimal (hc : c ∈ ['b', 'B', 'x', 'X', ' '].map Char.toUInt8) :
    (∀ d ∈ digitValue c, 10 ≤ d) ∧ ∀ d ∈ shiftedValue c, 10 ≤ d := by
  simp only [List.map_cons, List.map_nil, List.mem_cons, List.not_mem_nil, or_false] at hc
  rcases hc with rfl | rfl | rfl | rfl | rfl <;> decide

/-! ## Texts that are numerals -/

theorem scan_zero (stop : Bool) (t : List UInt8) : scan stop t 0 = (10, []) := by
  rw [scan.eq_def]

/-- Where there is no blank, the first loop ends or goes on to the next character. -/
theorem scan_cons (stop : Bool) (hc : c ≠ ' '.toUInt8) (t : List UInt8) (n : Nat) :
    scan stop (c :: t) (n + 1) =
      if c = '0'.toUInt8 then
        ((prefixBase t).1, (prefixBase t).2.take (n - (t.length - (prefixBase t).2.length)))
      else if stop then (10, c :: t.take n) else scan stop t n := by
  rw [scan.eq_def]
  simp only [if_neg hc]

theorem scan_nil (stop : Bool) (n : Nat) : scan stop [] n = (10, []) := by
  rcases n with _ | n <;> rw [scan]

/-- Blanks are passed over in pairs: of an odd number, the last takes the first character
    with it that is none. -/
theorem scan_blanks (stop : Bool) (b : Nat) (s : List UInt8) (limit : Nat) :
    scan stop (.replicate b ' '.toUInt8 ++ s) limit =
      if b % 2 = 0 then scan stop s (limit - b) else scan stop s.tail (limit - (b + 1)) := by
  induction b using Nat.twoStepInduction generalizing limit with
  | zero => simp
  | one =>
    rw [if_neg (by decide)]
    rcases limit with _ | _ | n
    · rw [scan_zero, Nat.zero_sub, scan_zero]
    · rw [Nat.sub_eq_zero_of_le (by omega), scan_zero]
      rcases s with _ | ⟨c, s⟩ <;> simp [scan]
    · rcases s with _ | ⟨c, s⟩
      · simp [scan, scan_nil]
      · simp [scan]
  | more b ih =>
    rcases limit with _ | _ | n
    · simp only [Nat.zero_sub, scan_zero, ite_self]
    · rw [Nat.sub_eq_zero_of_le (by omega), Nat.sub_eq_zero_of_le (by omega), scan_zero, scan_zero,
        ite_self]
      simp [List.replicate_succ, scan]
    · have hlimit : n + 2 - (b + 2) = n - b ∧ n + 2 - (b + 2 + 1) = n - (b + 1) := by omega
      have hstep : scan stop (.replicate (b + 2) ' '.toUInt8 ++ s) (n + 2) =
          scan stop (.replicate b ' '.toUInt8 ++ s) n := by
        simp [List.replicate_succ, scan]
      rw [hstep, ih, Nat.add_mod_right, hlimit.1, hlimit.2]

/-- A text is its blanks and the rest, which begins with no blank. -/
theorem text_eq (text : List UInt8) :
    text = .replicate (blanks text) ' '.toUInt8 ++ body text ∧
      (body text).head? ≠ some ' '.toUInt8 := by
  constructor
  · have hblanks : text.takeWhile (· = ' '.toUInt8) = .replicate (blanks text) ' '.toUInt8 := by
      refine List.eq_replicate_of_mem fun c hc => ?_
      simpa using List.mem_takeWhile_imp hc
    rw [← hblanks, body, List.takeWhile_append_dropWhile]
  · intro h
    have hnot := List.head?_dropWhile_not (· = ' '.toUInt8) text
    rw [body] at h
    rw [h] at hnot
    simp at hnot

/-- The first loop and the second, behind the blanks. -/
theorem read_blanks (digit : UInt8 → Option Nat) (stop : Bool) (limit : Nat) (text : List UInt8) :
    read digit stop limit text =
      if blanks text % 2 = 0 then read digit stop (limit - blanks text) (body text)
      else read digit stop (limit - (blanks text + 1)) (body text).tail := by
  have hscan := scan_blanks stop (blanks text) (body text) limit
  rw [← (text_eq text).1] at hscan
  rw [read, hscan]
  split_ifs <;> rfl

/-- Nothing is read as zero. -/
theorem read_nil (digit : UInt8 → Option Nat) (stop : Bool) (limit : Nat) :
    read digit stop limit [] = .done (0 : Nat) := by rw [read, scan_nil, readAll]

theorem two_le_prefixBase (t : List UInt8) : 2 ≤ (prefixBase t).1 := by
  rcases t with _ | ⟨c, t⟩
  · decide
  · rw [prefixBase]
    split_ifs
    · exact Nat.le_refl 2
    · exact (by decide : 2 ≤ 16)
    · exact (by decide : 2 ≤ 8)

theorem length_prefixBase (t : List UInt8) : (prefixBase t).2.length ≤ t.length := by
  rcases t with _ | ⟨c, t⟩
  · exact Nat.le_refl _
  · rw [prefixBase]
    split_ifs
    · exact Nat.le_succ _
    · exact Nat.le_succ _
    · exact Nat.le_refl _

/-- A numeral with a leading zero is read as its number, exactly if that is an `int`, none of
    the digits is beyond the limit unless all are zeros, and the reader gives the digits
    their values. -/
theorem read_zero {digit : UInt8 → Option Nat} (stop : Bool)
    (hle : ∀ c, ∀ d ∈ digit c, ∀ d' ∈ digitValue c, d ≤ d')
    (hzero : digit '0'.toUInt8 = digitValue '0'.toUInt8) {v : Nat}
    (hv : numberFrom digitValue (prefixBase t).1 0 (prefixBase t).2 = some v) (limit : Nat) :
    read digit stop limit ('0'.toUInt8 :: t) = .done v ↔
      v < 2 ^ 31 ∧ (v ≠ 0 → t.length + 1 ≤ limit) ∧
        ∀ c ∈ (prefixBase t).2, digit c = digitValue c := by
  have hbase := two_le_prefixBase t
  have hlen := length_prefixBase t
  have hzeros (h0 : v = 0) : ∀ c ∈ (prefixBase t).2, digit c = digitValue c := by
    subst h0
    intro c hc
    rwa [digitValue_zero (numberFrom_zero (by omega) hv hc)]
  rcases limit with _ | n
  · -- Nothing is read.
    rw [read, scan_zero, readAll_eq_done (by decide) (by decide), numberFrom, Option.some.injEq]
    constructor
    · rintro ⟨rfl, hfit⟩
      exact ⟨hfit, fun h => absurd rfl h, hzeros rfl⟩
    · rintro ⟨hfit, hlimit, -⟩
      refine ⟨?_, hfit⟩
      by_contra h0
      exact Nat.not_succ_le_zero _ (hlimit (Ne.symm h0))
  · rw [read, scan_cons stop (by decide), if_pos rfl, readAll_eq_done (by omega) (by decide)]
    generalize (prefixBase t).1 = base at *
    generalize (prefixBase t).2 = ds at *
    generalize hk : n - (t.length - ds.length) = k
    -- The number of the digits that are read, and of those behind them.
    have hsplit := hv
    rw [← List.take_append_drop k ds, numberFrom_append] at hsplit
    obtain ⟨w, hw, hrest⟩ := Option.bind_eq_some_iff.1 hsplit
    have hwv := (numberFrom_bounds hrest).1
    constructor
    · rintro ⟨hread, hfit⟩
      obtain ⟨hle', heq⟩ := numberFrom_le (by omega) hle hread hw (Nat.le_refl 0)
      have hpow := Nat.le_mul_of_pos_right w
        (Nat.pow_pos (n := (ds.drop k).length) (by omega : 0 < base))
      obtain rfl : w = v := by omega
      refine ⟨hfit, fun h0 => ?_, ?_⟩
      · by_contra hshort
        have hdrop : (ds.drop k).length ≠ 0 := by
          have hds : ds ≠ [] := by
            rintro rfl
            exact h0 (Option.some.inj hv).symm
          have := List.length_pos_iff.2 hds
          rw [List.length_drop]
          omega
        have htwo : 2 ≤ base ^ (ds.drop k).length :=
          hbase.trans (Nat.le_self_pow hdrop base)
        have := Nat.mul_le_mul_left w htwo
        omega
      · by_cases h0 : w = 0
        · exact hzeros h0
        · have hall : k ≥ ds.length := by
            by_contra hshort
            have htwo : 2 ≤ base ^ (ds.drop k).length :=
              hbase.trans (Nat.le_self_pow (by rw [List.length_drop]; omega) base)
            have := Nat.mul_le_mul_left w htwo
            omega
          have hsame := (heq rfl).2
          rwa [List.take_of_length_le hall] at hsame
    · rintro ⟨hfit, hlimit, hsame⟩
      refine ⟨?_, hfit⟩
      rw [numberFrom_congr fun c hc => hsame c (List.mem_of_mem_take hc), hw, Option.some.injEq]
      by_cases h0 : v = 0
      · have hpow := Nat.le_mul_of_pos_right w
          (Nat.pow_pos (n := (ds.drop k).length) (by omega : 0 < base))
        omega
      · have hlimit := hlimit h0
        rw [List.take_of_length_le (by omega)] at hw
        exact Option.some.inj (hw.symm.trans hv)

theorem Decimal.not_mark (hc : Decimal c) :
    c ∉ ['b', 'B', 'x', 'X', ' '].map Char.toUInt8 := by
  intro h
  simp only [List.map_cons, List.map_nil, List.mem_cons, List.not_mem_nil, or_false] at h
  rcases h with rfl | rfl | rfl | rfl | rfl <;> exact absurd hc (by decide)

/-- Behind a zero, a decimal digit is one of the base eight. -/
theorem prefixBase_decimal (h : ∀ c ∈ t, Decimal c) : prefixBase t = (8, t) := by
  rcases t with _ | ⟨c, t⟩
  · rfl
  · have hc := (h c List.mem_cons_self).not_mark
    simp only [List.map_cons, List.map_nil, List.mem_cons, not_or] at hc
    rw [prefixBase, if_neg (by simp [hc]), if_neg (by simp [hc])]

/-- `get_string_value` passes over decimal digits up to the first zero. -/
theorem scan_decimals (h : ∀ c ∈ t, Decimal c) (n : Nat) :
    (scan false t n).2 = [] ∨
      ((scan false t n).1 = 8 ∧ (scan false t n).2.length ≤ t.length) := by
  induction t generalizing n with
  | nil => rw [scan_nil]; exact .inl rfl
  | cons c t ih =>
    obtain ⟨hc, ht⟩ := List.forall_mem_cons.1 h
    rcases n with _ | n
    · rw [scan_zero]
      exact .inl rfl
    · have hblank : c ≠ ' '.toUInt8 := fun heq => hc.not_mark (by simp [heq])
      rw [scan_cons false hblank, prefixBase_decimal ht]
      by_cases hzero : c = '0'.toUInt8
      · rw [if_pos hzero]
        exact .inr ⟨rfl, (List.length_take_le' _ _).trans (Nat.le_succ _)⟩
      · rw [if_neg hzero, if_neg (by decide)]
        exact (ih ht n).imp_right fun h => ⟨h.1, h.2.trans (Nat.le_succ _)⟩

/-- What it reads behind the first digit of a number that is not zero is less. -/
theorem read_passed (h : ∀ c ∈ t, Decimal c) {d v : Nat} (hbase : 8 ≤ base)
    (hd : 0 < d) (hv : numberFrom digitValue base d t = some v) (limit : Nat) :
    read shiftedValue false limit t ≠ .done v := by
  have hge := (numberFrom_bounds hv).1
  have hone : 1 ≤ base ^ t.length := Nat.pow_pos (by omega)
  have hle := Nat.le_mul_of_pos_left (base ^ t.length) hd
  intro hread
  rw [read] at hread
  -- Either nothing is left to read, or what is left is read in base 8, with no more digits.
  rcases scan_decimals h limit with hnil | ⟨height, hlen⟩
  · rw [hnil, readAll, Outcome.done.injEq, Int.ofNat_inj] at hread
    omega
  · rw [height, readAll_eq_done (by decide) (by decide)] at hread
    have hless := (numberFrom_bounds hread.1).2
    have hpow : 8 ^ (scan false t limit).2.length ≤ base ^ t.length :=
      (Nat.pow_le_pow_right (by decide) hlen).trans (Nat.pow_le_pow_left hbase _)
    omega

/-- A mark of a base that is read without its zero is no digit. -/
theorem read_mark {digit : UInt8 → Option Nat}
    (hc : c ∈ ['b', 'B', 'x', 'X'].map Char.toUInt8) (hdigit : ∀ d ∈ digit c, 10 ≤ d)
    (t : List UInt8) (limit v : Nat) :
    read digit true limit (c :: t) = .done v ↔ limit = 0 ∧ v = 0 := by
  have hne : c ≠ ' '.toUInt8 ∧ c ≠ '0'.toUInt8 := by
    simp only [List.map_cons, List.map_nil, List.mem_cons, List.not_mem_nil, or_false] at hc
    rcases hc with rfl | rfl | rfl | rfl <;> decide
  rcases limit with _ | n
  · rw [read, scan_zero, readAll, Outcome.done.injEq, Int.ofNat_inj, eq_comm]
    exact (and_iff_right rfl).symm
  -- Without its zero, the mark is read as a digit of base 10, and is none.
  · have herror : readAll digit 10 0 (c :: t.take n) = .done (-EINVAL) := by
      rw [readAll]
      rcases hd : digit c with _ | d
      · rfl
      · simp only [if_pos (hdigit d hd)]
    rw [read, scan_cons true hne.1, if_neg hne.2, if_pos rfl, herror]
    refine iff_of_false (fun h => ?_) fun h => Nat.succ_ne_zero n h.1
    have := Outcome.done.inj h
    have : EINVAL = 22 := rfl
    omega

/-- Zeros are the number zero. -/
theorem numberFrom_zeros (hbase : 0 < base) {ds : List UInt8}
    (h : ∀ c ∈ ds, c = '0'.toUInt8) : numberFrom digitValue base 0 ds = some 0 := by
  have hzero : digitValue '0'.toUInt8 = some 0 := by decide
  induction ds with
  | nil => rfl
  | cons c ds ih =>
    obtain ⟨rfl, hds⟩ := List.forall_mem_cons.1 h
    rw [numberFrom, hzero]
    simp only [if_pos hbase, Nat.zero_mul, Nat.add_zero]
    exact ih hds

theorem shiftedValue_zero : shiftedValue '0'.toUInt8 = digitValue '0'.toUInt8 := by decide

/-- Zeros are read as zero by every reader. -/
theorem read_zeros (stop : Bool) {ds : List UInt8} (h : ∀ c ∈ ds, c = '0'.toUInt8) (limit : Nat) :
    read shiftedValue stop limit ds = .done (0 : Nat) := by
  rcases ds with _ | ⟨c, ds⟩
  · exact read_nil _ _ _
  · obtain ⟨rfl, hds⟩ := List.forall_mem_cons.1 h
    -- The first zero marks base 8, in which the ones behind it are read.
    have hmarked : prefixBase ds = (8, ds) := prefixBase_decimal fun c hc => by
      rw [hds c hc]
      decide
    refine (read_zero stop shiftedValue_le shiftedValue_zero ?_ limit).2
      ⟨by decide, fun h => absurd rfl h, fun c hc => ?_⟩
    · rw [hmarked]
      exact numberFrom_zeros (Nat.succ_pos 7) hds
    · rw [hmarked] at hc
      rw [hds c hc]
      exact shiftedValue_zero

/-! ## Where the readers agree -/

/-- The numerals on which the readers agree. There is nothing but blanks; or there is a zero
    first, the number is an `int`, the text is within the limits unless the number is zero,
    and no letter is among its digits. Of an odd number of blanks the last one takes that
    zero with it: then it must be alone or there is another one, or else the number is zero
    and the limits end before the mark of the base. -/
def AgreesOn (text : List UInt8) (maxlen size v : Nat) : Prop :=
  body text = [] ∨ ∃ t, body text = '0'.toUInt8 :: t ∧ v < 2 ^ 31 ∧
    (v ≠ 0 → text.length ≤ atoiLimit maxlen ∧ text.length ≤ DIGEST_SIZE ∧ text.length ≤ size) ∧
    if blanks text % 2 = 0 then ∀ c ∈ (prefixBase t).2, Decimal c
    else t = [] ∨ t.head? = some '0'.toUInt8 ∨
      (v = 0 ∧ atoiLimit maxlen ≤ blanks text + 1 ∧ DIGEST_SIZE ≤ blanks text + 1)

/-- All readers come to the number. -/
def AllRead (text : List UInt8) (maxlen size v : Nat) : Prop :=
  read digitValue true (atoiLimit maxlen) text = .done v ∧
    read shiftedValue true DIGEST_SIZE text = .done v ∧ read shiftedValue false size text = .done v

section Agree

variable {text t : List UInt8} {maxlen size v : Nat}

theorem length_text (text : List UInt8) : text.length = blanks text + (body text).length := by
  conv_lhs => rw [(text_eq text).1]
  rw [List.length_append, List.length_replicate]

/-- An even number of blanks is passed over. -/
theorem allRead_even (heven : blanks text % 2 = 0) (hbody : body text = '0'.toUInt8 :: t)
    (hv : numberFrom digitValue (prefixBase t).1 0 (prefixBase t).2 = some v) :
    AllRead text maxlen size v ↔ v < 2 ^ 31 ∧
      (v ≠ 0 → text.length ≤ atoiLimit maxlen ∧ text.length ≤ DIGEST_SIZE ∧ text.length ≤ size) ∧
      ∀ c ∈ (prefixBase t).2, Decimal c := by
  have hlen := length_text text
  rw [hbody, List.length_cons] at hlen
  have hlimit (limit : Nat) : t.length + 1 ≤ limit - blanks text ↔ text.length ≤ limit := by omega
  have hsame : (∀ c ∈ (prefixBase t).2, shiftedValue c = digitValue c) ↔
      ∀ c ∈ (prefixBase t).2, Decimal c := by
    refine forall₂_congr fun c hc => shiftedValue_eq_iff fun hnone => ?_
    obtain ⟨d, -, hd⟩ := numberFrom_digits hv hc
    rw [hnone] at hd
    cases hd
  simp only [AllRead, read_blanks _ _ _ text, if_pos heven, hbody,
    read_zero true (fun c d hd d' hd' => (Option.some.inj (hd.symm.trans hd')).le) rfl hv,
    read_zero _ shiftedValue_le shiftedValue_zero hv, hlimit, hsame]
  tauto

/-- All digits of a number in a base of at most ten are decimal. -/
theorem decimal_of_number {ret : Nat} {ds : List UInt8} (hbase : base ≤ 10)
    (hv : numberFrom digitValue base ret ds = some v) (hc : c ∈ ds) : Decimal c := by
  obtain ⟨d, hlt, hd⟩ := numberFrom_digits hv hc
  exact (digitValue_lt_ten hd).1 (hlt.trans_le hbase)

/-- The last blank of an odd number takes a zero with it, before another one. -/
theorem allRead_odd_zero (hodd : ¬ blanks text % 2 = 0)
    (hbody : body text = '0'.toUInt8 :: '0'.toUInt8 :: t)
    (hv : numberFrom digitValue 8 0 ('0'.toUInt8 :: t) = some v) :
    AllRead text maxlen size v ↔ v < 2 ^ 31 ∧
      (v ≠ 0 → text.length ≤ atoiLimit maxlen ∧ text.length ≤ DIGEST_SIZE ∧
        text.length ≤ size) := by
  have hlen := length_text text
  rw [hbody, List.length_cons, List.length_cons] at hlen
  have hlimit (limit : Nat) :
      t.length + 1 ≤ limit - (blanks text + 1) ↔ text.length ≤ limit := by omega
  obtain ⟨d, hd, -, hmore⟩ := numberFrom_cons hv
  obtain rfl : 0 = d := Option.some.inj hd
  have hdecimal : ∀ c ∈ t, Decimal c := fun c hc => decimal_of_number (by decide) hmore hc
  have hsame : ∀ c ∈ t, shiftedValue c = digitValue c := fun c hc => by
    obtain ⟨d, -, hd⟩ := numberFrom_digits hmore hc
    exact (shiftedValue_eq_iff (by rw [hd]; nofun)).2 (hdecimal c hc)
  -- The zero that is left marks the base as the one that is missed does.
  have hv' : numberFrom digitValue (prefixBase t).1 0 (prefixBase t).2 = some v := by
    rw [prefixBase_decimal hdecimal]
    exact hmore
  have hall : (∀ c ∈ (prefixBase t).2, shiftedValue c = digitValue c) ↔ True := by
    rw [prefixBase_decimal hdecimal]
    exact iff_true_intro hsame
  simp only [AllRead, read_blanks _ _ _ text, if_neg hodd, hbody, List.tail_cons,
    read_zero true (fun c d hd d' hd' => (Option.some.inj (hd.symm.trans hd')).le) rfl hv',
    read_zero _ shiftedValue_le shiftedValue_zero hv', hlimit, hall]
  tauto

/-- A number that begins with another digit than zero is not read by `get_string_value`, which
    passes over that digit. -/
theorem not_read_number (hc : c ≠ '0'.toUInt8) (hbase : 8 ≤ base)
    (hten : base ≤ 10) (hv : numberFrom digitValue base 0 (c :: t) = some v) :
    0 < v ∧ ∀ limit, read shiftedValue false limit (c :: t) ≠ .done v ∧
      read shiftedValue false limit t ≠ .done v := by
  obtain ⟨d, hd, -, hmore⟩ := numberFrom_cons hv
  have hpos : 0 < d := by
    refine Nat.pos_of_ne_zero fun h0 => hc (digitValue_zero ?_)
    rw [hd, h0]
  rw [Nat.zero_mul, Nat.zero_add] at hmore
  have hdecimal : ∀ b ∈ t, Decimal b := fun b hb => decimal_of_number hten hmore hb
  have hcdec : Decimal c := decimal_of_number hten hv List.mem_cons_self
  have hpow : 0 < base ^ t.length := Nat.pow_pos (by omega)
  have hv0 : 0 < v := (Nat.mul_pos hpos hpow).trans_le (numberFrom_bounds hmore).1
  have hpassed := read_passed hdecimal hbase hpos hmore
  refine ⟨hv0, fun limit => ⟨?_, hpassed limit⟩⟩
  rcases limit with _ | n
  · rw [read, scan_zero, readAll, Ne, Outcome.done.injEq, Int.ofNat_inj]
    omega
  · rw [read, scan_cons false (fun heq => hcdec.not_mark (by simp [heq])), if_neg hc,
      if_neg (by decide)]
    exact hpassed n

/-- Before anything else that zero is missed, which is right only for the number zero where
    the limits end before the mark of the base. -/
theorem allRead_odd_other (hodd : ¬ blanks text % 2 = 0)
    (hbody : body text = '0'.toUInt8 :: c :: t) (hc : c ≠ '0'.toUInt8)
    (hv : numberFrom digitValue (prefixBase (c :: t)).1 0 (prefixBase (c :: t)).2 = some v) :
    AllRead text maxlen size v ↔
      v = 0 ∧ atoiLimit maxlen ≤ blanks text + 1 ∧ DIGEST_SIZE ≤ blanks text + 1 := by
  have htail : (body text).tail = c :: t := by rw [hbody, List.tail_cons]
  simp only [AllRead, read_blanks _ _ _ text, if_neg hodd, htail]
  by_cases hmark : c ∈ ['b', 'B', 'x', 'X'].map Char.toUInt8
  · have hten := mark_not_decimal (c := c) (by
      simp only [List.map_cons, List.map_nil, List.mem_cons, List.not_mem_nil] at hmark ⊢
      tauto)
    rw [read_mark hmark hten.1, read_mark hmark hten.2]
    constructor
    · rintro ⟨⟨hatoi, hzero⟩, ⟨hset, -⟩, -⟩
      exact ⟨hzero, Nat.le_of_sub_eq_zero hatoi, Nat.le_of_sub_eq_zero hset⟩
    · rintro ⟨rfl, hatoi, hset⟩
      refine ⟨⟨Nat.sub_eq_zero_of_le hatoi, rfl⟩, ⟨Nat.sub_eq_zero_of_le hset, rfl⟩, ?_⟩
      -- `get_string_value` passes over the mark to the zeros behind it.
      have hmarked : (prefixBase (c :: t)).2 = t := by
        simp only [List.map_cons, List.map_nil, List.mem_cons, List.not_mem_nil, or_false] at hmark
        rw [prefixBase]
        rcases hmark with rfl | rfl | rfl | rfl <;> rfl
      have hbase := two_le_prefixBase (c :: t)
      rw [hmarked] at hv
      have hzeros : ∀ c ∈ t, c = '0'.toUInt8 := fun c hc =>
        digitValue_zero (numberFrom_zero (Nat.zero_lt_of_lt hbase) hv hc)
      have hblank : c ≠ ' '.toUInt8 := by
        rintro rfl
        exact absurd hmark (by decide)
      generalize size - (blanks text + 1) = limit
      rcases limit with _ | n
      · rw [read, scan_zero, readAll]
      · rw [read, scan_cons false hblank, if_neg hc, if_neg (by decide)]
        exact read_zeros false hzeros n
  · -- The digit behind the zero is not zero, and is passed over.
    simp only [List.map_cons, List.map_nil, List.mem_cons, List.not_mem_nil, or_false,
      not_or] at hmark
    rw [prefixBase, if_neg (by tauto), if_neg (by tauto)] at hv
    change numberFrom digitValue 8 0 (c :: t) = some v at hv
    obtain ⟨hpos, hnot⟩ := not_read_number hc (Nat.le_refl 8) (by decide) hv
    exact iff_of_false (fun h => (hnot _).1 h.2.2) fun h => by omega

/-- A decimal number is not read by `get_string_value`. -/
theorem not_allRead_decimal (hbody : body text = c :: t) (hc : c ≠ '0'.toUInt8)
    (hv : numberFrom digitValue 10 0 (c :: t) = some v) : ¬ AllRead text maxlen size v := by
  have hnot := (not_read_number hc (by decide) (Nat.le_refl 10) hv).2
  rintro ⟨-, -, hread⟩
  rw [read_blanks, hbody] at hread
  split_ifs at hread
  · exact (hnot _).1 hread
  · exact (hnot _).2 hread

/-- The readers agree on a numeral exactly where it is one of those told. -/
theorem agreesOn_iff (hv : numeral text = some v) :
    AllRead text maxlen size v ↔ AgreesOn text maxlen size v := by
  rw [numeral] at hv
  rcases hbody : body text with _ | ⟨c, s⟩
  · rw [hbody] at hv
    obtain rfl : 0 = v := Option.some.inj hv
    refine iff_of_true ?_ (.inl hbody)
    simp only [AllRead, read_blanks _ _ _ text, hbody, List.tail_nil, ite_self, read_nil,
      and_self]
  · rw [hbody, splitBase] at hv
    by_cases hc : c = '0'.toUInt8
    · subst hc
      rw [if_pos rfl] at hv
      have hagrees : AgreesOn text maxlen size v ↔ v < 2 ^ 31 ∧
          (v ≠ 0 → text.length ≤ atoiLimit maxlen ∧ text.length ≤ DIGEST_SIZE ∧
            text.length ≤ size) ∧
          if blanks text % 2 = 0 then ∀ c ∈ (prefixBase s).2, Decimal c
          else s = [] ∨ s.head? = some '0'.toUInt8 ∨
            (v = 0 ∧ atoiLimit maxlen ≤ blanks text + 1 ∧ DIGEST_SIZE ≤ blanks text + 1) := by
        rw [AgreesOn, hbody]
        constructor
        · rintro (h | ⟨t, h, hwhen⟩)
          · cases h
          · obtain rfl := (List.cons.inj h).2
            exact hwhen
        · exact fun h => .inr ⟨s, rfl, h⟩
      rw [hagrees]
      by_cases heven : blanks text % 2 = 0
      · simp only [allRead_even heven hbody hv, if_pos heven]
      · simp only [if_neg heven]
        rcases s with _ | ⟨b, t⟩
        · obtain rfl : 0 = v := Option.some.inj hv
          refine iff_of_true ?_ ⟨by decide, fun h => absurd rfl h, .inl rfl⟩
          simp only [AllRead, read_blanks _ _ _ text, if_neg heven, hbody, List.tail_cons,
            read_nil, and_self]
        · by_cases hb : b = '0'.toUInt8
          · subst hb
            simp [allRead_odd_zero heven hbody hv]
          · rw [allRead_odd_other heven hbody hb hv]
            simp only [List.head?_cons, Option.some.injEq, hb, List.cons_ne_nil, false_or]
            constructor
            · rintro ⟨rfl, hwhen⟩
              exact ⟨by decide, fun h => absurd rfl h, rfl, hwhen⟩
            · exact fun h => h.2.2
    · rw [if_neg hc] at hv
      refine iff_of_false (not_allRead_decimal hbody hc hv) ?_
      rintro (h | ⟨t, h, -⟩)
      · exact absurd (hbody.symm.trans h) (List.cons_ne_nil _ _)
      · exact hc (List.cons.inj (hbody.symm.trans h)).1

/-- The texts on which the readers agree: the numerals told, and texts that are no numerals,
    where each of the readers comes upon a character that it refuses. -/
def AgreeWhen (text : List UInt8) (maxlen size : Nat) : Prop :=
  match numeral text with
  | some v => AgreesOn text maxlen size v
  | none =>
    Refused digitValue (scan true text (atoiLimit maxlen)).1 0
        (scan true text (atoiLimit maxlen)).2 ∧
      Refused shiftedValue (scan true text DIGEST_SIZE).1 0 (scan true text DIGEST_SIZE).2 ∧
      Refused shiftedValue (scan false text size).1 0 (scan false text size).2

end Agree

theorem two_le_scan (stop : Bool) (t : List UInt8) (n : Nat) : 2 ≤ (scan stop t n).1 := by
  fun_induction scan stop t n with
  | case1 => exact (by decide : 2 ≤ 10)
  | case2 => exact (by decide : 2 ≤ 10)
  | case3 b t n ih => exact ih
  | case4 => exact (by decide : 2 ≤ 10)
  | case5 t n _ => exact two_le_prefixBase t
  | case6 c t n => exact (by decide : 2 ≤ 10)
  | case7 c t n _ _ _ ih => exact ih

/-- The three readers agree on a text exactly if it is one of those told. -/
theorem parsersAgree_iff (text : List UInt8) (hnul : 0 ∉ text) (maxlen size : Nat) :
    ParsersAgree text maxlen size ↔ AgreeWhen text maxlen size := by
  have hset (rest : List UInt8) := intSetTextValue_read hnul rest
  rw [AgreeWhen]
  rcases hv : numeral text with _ | v
  · have herror (digit : UInt8 → Option Nat) (stop : Bool) (limit : Nat) :
        read digit stop limit text = .done (-EINVAL) ↔
          Refused digit (scan stop text limit).1 0 (scan stop text limit).2 :=
      readAll_eq_error (Nat.zero_lt_of_lt (two_le_scan stop text limit)) (by decide)
    simp only [← herror]
    constructor
    · rintro ⟨hatoi, hint, hcount⟩
      have hatoi := hatoi []
      have hint := hint []
      have hcount := hcount []
      rw [hv] at hatoi hint hcount
      rw [atoi_read hnul] at hatoi
      rw [getStringValue_read hnul] at hcount
      obtain ⟨n, hn⟩ := hset []
      rw [hn] at hint
      refine ⟨hatoi, ?_, hcount⟩
      rcases hread : read shiftedValue true DIGEST_SIZE text with ret | e | _
      · rw [hread, Outcome.done_bind] at hint
        by_cases hneg : ret < 0
        · rw [if_pos hneg] at hint
          exact congrArg Outcome.done (Outcome.error.inj hint)
        · rw [if_neg hneg] at hint
          cases hint
      · exact absurd hread (readAll_ne_error e)
      · rw [hread] at hint
        cases hint
    · rintro ⟨hatoi, hint, hcount⟩
      refine ⟨fun rest => ?_, fun rest => ?_, fun rest => ?_⟩
      · rw [atoi_read hnul, hatoi, hv, expected]
      · obtain ⟨n, hn⟩ := hset rest
        rw [hv]
        simp only [hn, hint, Outcome.done_bind]
        rfl
      · rw [getStringValue_read hnul, hcount, hv, expected]
  · have hall : AllRead text maxlen size v ↔ AgreesOn text maxlen size v := agreesOn_iff hv
    change _ ↔ AgreesOn text maxlen size v
    rw [← hall]
    constructor
    · rintro ⟨hatoi, hint, hcount⟩
      have hatoi := hatoi []
      have hint := hint []
      have hcount := hcount []
      rw [hv] at hatoi hint hcount
      rw [atoi_read hnul] at hatoi
      rw [getStringValue_read hnul] at hcount
      obtain ⟨n, hn⟩ := hset []
      obtain ⟨ret, elem, -, hvalue, hdone⟩ := hint
      rw [hn] at hdone
      obtain ⟨w, hread, hdone⟩ := Outcome.bind_eq_done.1 hdone
      refine ⟨hatoi, ?_, hcount⟩
      split_ifs at hdone with hneg
      obtain ⟨k, rfl⟩ := Int.eq_ofNat_of_zero_le (Int.not_lt.1 hneg)
      rw [Outcome.done.injEq, Prod.mk.injEq, Int.toNat_natCast] at hdone
      have hk := (readAll_eq_done (Nat.zero_lt_of_lt (two_le_scan true text DIGEST_SIZE))
        (by decide)).1 hread
      rw [← hdone.2, leNat_leBytes, Nat.mod_eq_of_lt (hk.2.trans (by decide))] at hvalue
      rw [hread, hvalue]
    · rintro ⟨hatoi, hint, hcount⟩
      have hfit := ((readAll_eq_done (Nat.zero_lt_of_lt (two_le_scan true text DIGEST_SIZE))
        (by decide)).1 hint).2
      refine ⟨fun rest => ?_, fun rest => ?_, fun rest => ?_⟩
      · rw [atoi_read hnul, hatoi, hv, expected]
      · obtain ⟨n, hn⟩ := hset rest
        rw [hv]
        refine ⟨(n : Int) + 1, leBytes 4 v, by omega, ?_, ?_⟩
        · rw [leNat_leBytes, Nat.mod_eq_of_lt (hfit.trans (by decide))]
        · rw [hn, hint, Outcome.done_bind, if_neg (by omega), Int.toNat_natCast]
      · rw [getStringValue_read hnul, hcount, hv, expected]

/-- The octal number `017` is read by all. -/
theorem parsersAgree_octal : ParsersAgree [48, 49, 55] 0 4 := by
  refine (parsersAgree_iff [48, 49, 55] (by decide) 0 4).2 ?_
  have hv : numeral [48, 49, 55] = some 15 := by decide
  rw [AgreeWhen, hv]
  refine .inr ⟨[49, 55], rfl, by decide, fun _ => by decide, ?_⟩
  rw [if_pos (by decide)]
  exact List.forall_mem_cons.2 ⟨by decide, List.forall_mem_cons.2 ⟨by decide, nofun⟩⟩

/-- The number `12` is passed over by `get_string_value`, which returns zero. -/
theorem not_parsersAgree_decimal : ¬ ParsersAgree [49, 50] 0 4 := by
  intro h
  have hcount := h.count []
  have hread : Struct.getStringValue ([49, 50] ++ 0 :: []) 0 (4 : Nat) = .done 0 := by decide
  have hv : numeral [49, 50] = some 12 := by decide
  rw [hread, hv] at hcount
  cases hcount

end Cube.Text
