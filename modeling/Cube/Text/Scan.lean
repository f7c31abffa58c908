import Cube.Text.Atoi

/-!
# The loops of the readers of numerals

`Atoi`, `int_set_text_value` and `get_string_value` are copies of one scanner: a loop over
the head of a text finds the base, and another reads the digits. They differ in the
characters at which the first ends, in the values of letters and in how much they read.

* `headLoop_scan`, `digitsLoop_readAll`: what the loops come to, as functions of the text;
* `atoi_read`, `intSetTextValue_read`, `getStringValue_read`: the readers as these loops;
* `readAll_eq_done`, `readAll_eq_error`: when digits are read as a number or refused.
-/

namespace Cube.Text

open Lib Message

/-! ## Digits -/

/-- A decimal digit. -/
def Decimal (c : UInt8) : Prop := '0'.toUInt8 ≤ c ∧ c ≤ '9'.toUInt8

instance (c : UInt8) : Decidable (Decimal c) := inferInstanceAs (Decidable (_ ∧ _))

/-- The value of a digit: the letters, small or capital, are worth 10 to 15. -/
def digitValue (c : UInt8) : Option Nat :=
  if Decimal c then some (c.toNat - '0'.toNat)
  else if 'a'.toUInt8 ≤ c ∧ c ≤ 'f'.toUInt8 then some (c.toNat - 'a'.toNat + 10)
  else if 'A'.toUInt8 ≤ c ∧ c ≤ 'F'.toUInt8 then some (c.toNat - 'A'.toNat + 10)
  else none

/-- The number of digits behind the number `ret`, if all are of the base. -/
def numberFrom (digit : UInt8 → Option Nat) (base : Nat) : Nat → List UInt8 → Option Nat
  | ret, [] => some ret
  | ret, c :: ds => match digit c with
    | none => none
    | some d => if d < base then numberFrom digit base (ret * base + d) ds else none

/-- The base and the digits of a text behind a leading zero. -/
def prefixBase : List UInt8 → Nat × List UInt8
  | [] => (8, [])
  | c :: ds =>
    if c = 'b'.toUInt8 ∨ c = 'B'.toUInt8 then (2, ds)
    else if c = 'x'.toUInt8 ∨ c = 'X'.toUInt8 then (16, ds)
    else (8, c :: ds)

/-! ## The loops -/

/-- The value that a reader gives a character, if it takes it for a digit. -/
def natValue (value : UInt8 → Int) (c : UInt8) : Option Nat :=
  if value c < 0 then none else some (value c).toNat

/-- The digits read one after the other, behind the number `ret`. -/
def readAll (digit : UInt8 → Option Nat) (base : Nat) : Nat → List UInt8 → Outcome Int
  | ret, [] => .done ret
  | ret, c :: ds => match digit c with
    | none => .done (-EINVAL)
    | some d =>
      if base ≤ d then .done (-EINVAL)
      else if 2 ^ 31 ≤ ret * base + d then .fault
      else readAll digit base (ret * base + d) ds

/-- The base that the first loop finds and the characters that it leaves to the second, in
    a text of which `n` characters may be read. With `stop` it ends at any character that is
    no blank. -/
def scan (stop : Bool) : List UInt8 → Nat → Nat × List UInt8
  | _, 0 => (10, [])
  | [], _ + 1 => (10, [])
  | c :: t, n + 1 =>
    -- The character behind a blank is skipped with it.
    if c = ' '.toUInt8 then match t, n with
      | _ :: t, n + 1 => scan stop t n
      | _, _ => (10, [])
    else if c = '0'.toUInt8 then
      ((prefixBase t).1, (prefixBase t).2.take (n - (t.length - (prefixBase t).2.length)))
    else if stop then (10, c :: t.take n) else scan stop t n

/-- The first loop of a reader, with `n` characters left. -/
def headLoop (stop : Bool) (mem : List UInt8) : Nat → Nat → Outcome Struct.TextHead
  | i, 0 => .done (.digits i 10)
  | i, n + 1 => match mem[i]? with
    | none => .fault
    | some c =>
      if c = 0 then .done (.digits i 10)
      else if c = ' '.toUInt8 then match n with
        | 0 => .done (.digits (i + 2) 10)
        | n + 1 => headLoop stop mem (i + 2) n
      else if c = '0'.toUInt8 then Struct.zeroHead mem 0 i
      else if stop then .done (.digits i 10)
      else headLoop stop mem (i + 1) n

theorem intHead_eq (mem : List UInt8) (i n : Nat) :
    Struct.intHead mem i n = headLoop true mem i n := by
  fun_induction Struct.intHead mem i n <;> rw [headLoop.eq_def] <;> simp_all

theorem textHead_eq (mem : List UInt8) (i n : Nat) :
    Struct.textHead mem 0 i n = headLoop false mem i n := by
  fun_induction Struct.textHead mem 0 i n <;> rw [headLoop.eq_def] <;> simp_all

/-- A string is as long as it is, or as the limit. -/
theorem strnlen_min {text : List UInt8} (hnul : 0 ∉ text) (rest : List UInt8) (limit : Nat) :
    strnlen (text ++ 0 :: rest) limit = .done (min text.length limit) := by
  rcases Nat.le_total text.length limit with hle | hle
  · rw [strnlen_cstr hnul hle, Nat.min_eq_left hle]
  · rw [strnlen_long hnul hle, Nat.min_eq_right hle]

/-- The second loop reads the characters that are left to it. -/
theorem digitsLoop_readAll (value : UInt8 → Int) (base : Nat) {ds : List UInt8} (hnul : 0 ∉ ds)
    (pre post : List UInt8) (ret : Nat) :
    digitsLoop value (pre ++ (ds ++ post)) base pre.length ds.length ret =
      readAll (natValue value) base ret ds := by
  induction ds generalizing pre ret with
  | nil => rfl
  | cons c ds ih =>
    rw [List.mem_cons, not_or] at hnul
    have hat : (pre ++ (c :: ds ++ post))[pre.length]? = some c := by simp
    rw [List.length_cons, digitsLoop, hat, readAll, natValue]
    simp only [if_neg (Ne.symm hnul.1)]
    by_cases hneg : value c < 0
    · rw [if_pos (.inl hneg), if_pos hneg]
    · obtain ⟨d, hd⟩ := Int.eq_ofNat_of_zero_le (Int.not_lt.1 hneg)
      rw [if_neg hneg, hd, Int.toNat_natCast]
      by_cases hbase : base ≤ d
      · rw [if_pos (.inr (Int.ofNat_le.2 hbase))]
        simp only [if_pos hbase]
      · have hmore := ih hnul.2 (pre ++ [c]) (ret * base + d)
        rw [List.append_assoc, List.singleton_append, List.length_append, List.length_singleton]
          at hmore
        rw [if_neg (by omega)]
        simp only [if_neg hbase]
        by_cases hfit : 2 ^ 31 ≤ ret * base + d
        · rw [if_pos (by exact_mod_cast hfit), if_pos hfit]
        · rw [if_neg (by exact_mod_cast hfit), if_neg hfit, ← hmore]
          push_cast
          rfl

/-- What the first loop leaves to the second in the memory, where the string ends at
    `strLen`: nothing if it is behind the end, else the characters up to the end. -/
def Leaves (mem : List UInt8) (strLen : Nat) (out : Nat × List UInt8) : Struct.TextHead → Prop
  | .zero => out = (8, [])
  | .digits j base => base = out.1 ∧ out.2.length = strLen - j ∧
      (out.2 = [] ∨ ∃ post, mem.drop j = out.2 ++ post)

/-- One turn of the first loop. -/
theorem headLoop_cons (stop : Bool) (pre more : List UInt8) {c : UInt8} (hc : c ≠ 0) (n : Nat) :
    headLoop stop (pre ++ c :: more) pre.length (n + 1) =
      if c = ' '.toUInt8 then match n with
        | 0 => .done (.digits (pre.length + 2) 10)
        | n + 1 => headLoop stop (pre ++ c :: more) (pre.length + 2) n
      else if c = '0'.toUInt8 then Struct.zeroHead (pre ++ c :: more) 0 pre.length
      else if stop then .done (.digits pre.length 10)
      else headLoop stop (pre ++ c :: more) (pre.length + 1) n := by
  have hat : (pre ++ c :: more)[pre.length]? = some c := by simp
  rw [headLoop.eq_def]
  simp only [hat, if_neg hc]

/-- The base behind a zero, and the digits that are left. -/
theorem zeroHead_prefix {t : List UInt8} (hnul : 0 ∉ t) (pre rest : List UInt8) (z : UInt8)
    (n : Nat) :
    ∃ head, Struct.zeroHead (pre ++ z :: (t ++ 0 :: rest)) 0 pre.length = .done head ∧
      Leaves (pre ++ z :: (t ++ 0 :: rest)) (pre.length + (min t.length n + 1))
        ((prefixBase t).1, (prefixBase t).2.take (n - (t.length - (prefixBase t).2.length)))
        head := by
  have hnext : (pre ++ z :: (t ++ 0 :: rest))[0 + (pre.length + 1)]? = (t ++ 0 :: rest)[0]? := by
    rw [Nat.zero_add, List.getElem?_append_right (Nat.le_add_right _ _), Nat.add_sub_cancel_left]
    rfl
  have hdrop (j : Nat) : (pre ++ z :: (t ++ 0 :: rest)).drop (pre.length + (j + 1)) =
      (t ++ 0 :: rest).drop j := by
    rw [← List.drop_drop, List.drop_left, List.drop_succ_cons]
  rw [Struct.zeroHead, hnext]
  rcases t with _ | ⟨c, t⟩
  · exact ⟨.zero, rfl, by simp [Leaves, prefixBase]⟩
  · rw [List.mem_cons, not_or] at hnul
    have hlen : (c :: t).length - t.length = 1 := by rw [List.length_cons]; omega
    -- A letter is passed over, so that the digits are one fewer.
    have hleft (b : Int) (k : Nat) (hb : b = k) :
        Leaves (pre ++ z :: (c :: t ++ 0 :: rest)) (pre.length + (min (c :: t).length n + 1))
          (k, t.take (n - 1)) (.digits (pre.length + 2) b) := by
      refine ⟨hb, ?_, .inr ⟨t.drop (n - 1) ++ 0 :: rest, ?_⟩⟩
      · rw [List.length_take, List.length_cons]
        omega
      · rw [hdrop 1, ← List.append_assoc, List.take_append_drop]
        rfl
    simp only [List.cons_append, List.getElem?_cons_zero, if_neg (Ne.symm hnul.1), prefixBase]
    split_ifs with htwo hsixteen
    · exact ⟨_, rfl, hlen ▸ hleft 2 2 rfl⟩
    · exact ⟨_, rfl, hlen ▸ hleft 16 16 rfl⟩
    · refine ⟨_, rfl, rfl, ?_, .inr ⟨(c :: t).drop n ++ 0 :: rest, ?_⟩⟩
      · change ((c :: t).take (n - ((c :: t).length - (c :: t).length))).length = _
        rw [List.length_take, Nat.sub_self, Nat.sub_zero]
        omega
      · rw [← List.cons_append, hdrop 0, Nat.sub_self, Nat.sub_zero, ← List.append_assoc,
          List.take_append_drop]
        rfl

/-- The first loop, in a memory with the text behind what has been passed. -/
theorem headLoop_scan (stop : Bool) {t : List UInt8} (hnul : 0 ∉ t) (limit : Nat)
    (pre rest : List UInt8) :
    ∃ head, headLoop stop (pre ++ (t ++ 0 :: rest)) pre.length (min t.length limit) = .done head ∧
      Leaves (pre ++ (t ++ 0 :: rest)) (pre.length + min t.length limit) (scan stop t limit)
        head := by
  fun_induction scan stop t limit generalizing pre with
  | case1 t => exact ⟨.digits pre.length 10, by rw [Nat.min_zero, headLoop], by simp [Leaves]⟩
  | case2 n => exact ⟨.digits pre.length 10, by simp [headLoop], by simp [Leaves]⟩
  | case3 b t n ih =>
    -- A blank and the character behind it.
    rw [List.mem_cons, List.mem_cons, not_or, not_or] at hnul
    have hmore := ih hnul.2.2 (pre ++ [' '.toUInt8, b])
    have hmin : min (' '.toUInt8 :: b :: t).length n.succ.succ = min t.length n + 1 + 1 := by
      simp only [List.length_cons]
      omega
    have hlen : (pre ++ [' '.toUInt8, b]).length = pre.length + 2 := List.length_append
    have hend : pre.length + (min t.length n + 1 + 1) = pre.length + 2 + min t.length n := by
      omega
    rw [List.append_assoc, hlen] at hmore
    rw [List.cons_append, hmin, headLoop_cons stop pre _ (by decide), if_pos rfl, hend]
    exact hmore
  | case4 t n hend =>
    have hmin : min (' '.toUInt8 :: t).length n.succ = 1 := by
      rcases t with _ | ⟨c, t⟩
      · simp
      · rcases n with _ | n
        · simp
        · exact (hend c t n rfl rfl).elim
    refine ⟨.digits (pre.length + 2) 10, ?_, rfl, ?_, .inl rfl⟩
    · rw [List.cons_append, hmin, headLoop_cons stop pre _ (by decide), if_pos rfl]
    · rw [hmin, List.length_nil]
      omega
  | case5 t n hblank =>
    rw [List.mem_cons, not_or] at hnul
    rw [List.cons_append, List.length_cons, Nat.add_min_add_right,
      headLoop_cons stop pre _ (Ne.symm hnul.1), if_neg hblank, if_pos rfl]
    exact zeroHead_prefix hnul.2 pre rest _ n
  | case6 c t n hblank hzero hstop =>
    rw [List.mem_cons, not_or] at hnul
    refine ⟨.digits pre.length 10, ?_, rfl, ?_, .inr ⟨t.drop n ++ 0 :: rest, ?_⟩⟩
    · rw [List.cons_append, List.length_cons, Nat.add_min_add_right,
        headLoop_cons stop pre _ (Ne.symm hnul.1), if_neg hblank, if_neg hzero, if_pos hstop]
    · simp only [List.length_cons, List.length_take]
      omega
    · rw [List.drop_left, List.cons_append, List.cons_append, ← List.append_assoc,
        List.take_append_drop]
  | case7 c t n hblank hzero hstop ih =>
    rw [List.mem_cons, not_or] at hnul
    have hmore := ih hnul.2 (pre ++ [c])
    rw [List.append_assoc, List.singleton_append, List.length_append, List.length_singleton]
      at hmore
    rw [List.cons_append, List.length_cons, Nat.add_min_add_right,
      headLoop_cons stop pre _ (Ne.symm hnul.1), if_neg hblank, if_neg hzero, if_neg hstop]
    rwa [Nat.add_assoc, Nat.add_comm 1] at hmore

/-! ## The readers -/

theorem prefixBase_subset (t : List UInt8) : (prefixBase t).2 ⊆ t := by
  rcases t with _ | ⟨c, t⟩
  · exact List.Subset.refl _
  · rw [prefixBase]
    split_ifs
    · exact List.subset_cons_self c t
    · exact List.subset_cons_self c t
    · exact List.Subset.refl _

theorem scan_subset (stop : Bool) (t : List UInt8) (n : Nat) : (scan stop t n).2 ⊆ t := by
  fun_induction scan stop t n with
  | case1 => exact List.nil_subset _
  | case2 => exact List.nil_subset _
  | case3 b t n ih => exact fun c hc => List.mem_cons_of_mem _ (List.mem_cons_of_mem _ (ih hc))
  | case4 => exact List.nil_subset _
  | case5 t n _ =>
    exact fun c hc => List.mem_cons_of_mem _ (prefixBase_subset t (List.mem_of_mem_take hc))
  | case6 c t n => exact fun d hd => List.mem_of_mem_take (i := n + 1) hd
  | case7 c t n _ _ _ ih => exact fun d hd => List.mem_cons_of_mem _ (ih hd)

/-- What the second loop makes of what is left to it. -/
theorem digitsLoop_leaves (value : UInt8 → Int) {mem : List UInt8} {strLen : Nat}
    {out : Nat × List UInt8} {j : Nat} {base : Int}
    (h : Leaves mem strLen out (.digits j base)) (hnul : 0 ∉ out.2) :
    digitsLoop value mem base j (strLen - j) 0 = readAll (natValue value) out.1 0 out.2 := by
  obtain ⟨base', ds⟩ := out
  obtain ⟨rfl, hlen, hds⟩ := h
  rw [← hlen]
  rcases ds with _ | ⟨c, ds⟩
  · rfl
  · obtain ⟨post, hpost⟩ := hds.resolve_left (List.cons_ne_nil _ _)
    have hj : j < mem.length := by
      by_contra hge
      rw [List.drop_eq_nil_of_le (Nat.le_of_not_lt hge)] at hpost
      cases hpost
    have hread := digitsLoop_readAll value base' hnul (mem.take j) post 0
    rw [← hpost, List.take_append_drop, List.length_take, Nat.min_eq_left hj.le] at hread
    exact hread

/-- What a reader comes to, with its values of digits, its first loop and its limit. -/
def read (digit : UInt8 → Option Nat) (stop : Bool) (limit : Nat) (text : List UInt8) :
    Outcome Int := readAll digit (scan stop text limit).1 0 (scan stop text limit).2

/-- The values that `int_set_text_value` and `get_string_value` give to characters. -/
def shiftedValue : UInt8 → Option Nat := natValue Struct.getCharValue

/-- The ends of the ranges of digits. -/
theorem range_ends : '0'.toUInt8.toNat = 48 ∧ '9'.toUInt8.toNat = 57 ∧ 'a'.toUInt8.toNat = 97 ∧
    'f'.toUInt8.toNat = 102 ∧ 'A'.toUInt8.toNat = 65 ∧ 'F'.toUInt8.toNat = 70 ∧ '0'.toNat = 48 ∧
    'a'.toNat = 97 ∧ 'A'.toNat = 65 := by decide

theorem natValue_getCharValue : natValue getCharValue = digitValue := by
  ext1 c
  obtain ⟨h0, h9, ha, hf, hA, hF, hc0, hca, hcA⟩ := range_ends
  simp only [natValue, getCharValue, digitValue, Decimal, UInt8.le_iff_toNat_le, h0, h9, ha, hf,
    hA, hF, hc0, hca, hcA, EINVAL]
  split_ifs <;> first | rfl | omega | (congr 1; omega)

/-- The shifted values: small letters are worth one less, capitals nothing. -/
theorem shiftedValue_eq (c : UInt8) : shiftedValue c =
    if Decimal c then digitValue c
    else if 'a'.toUInt8 ≤ c ∧ c ≤ 'f'.toUInt8 then some (c.toNat - 'a'.toNat + 9)
    else none := by
  obtain ⟨h0, h9, ha, hf, hA, hF, hc0, hca, hcA⟩ := range_ends
  simp only [shiftedValue, natValue, Struct.getCharValue, digitValue, Decimal,
    UInt8.le_iff_toNat_le, h0, h9, ha, hf, hA, hF, hc0, hca, EINVAL]
  split_ifs <;> first | rfl | omega | (congr 1; omega)

/-- The limit of `Atoi`. -/
def atoiLimit (maxlen : Nat) : Nat := if maxlen = 0 then DIGEST_SIZE else maxlen

section Readers

variable {text : List UInt8} (hnul : 0 ∉ text) (rest : List UInt8)

include hnul

theorem atoi_read (maxlen : Nat) :
    atoi (text ++ 0 :: rest) maxlen = read digitValue true (atoiLimit maxlen) text := by
  have hlen := strnlen_min hnul rest (atoiLimit maxlen)
  obtain ⟨head, hhead, hleaves⟩ := headLoop_scan true hnul (atoiLimit maxlen) [] rest
  rw [List.nil_append, List.length_nil, Nat.zero_add] at *
  rw [atoi, ← atoiLimit, hlen, Outcome.done_bind, intHead_eq, hhead, Outcome.done_bind, read,
    ← natValue_getCharValue]
  rcases head with _ | ⟨j, base⟩
  · rw [show scan true text (atoiLimit maxlen) = (8, []) from hleaves]
    rfl
  · exact digitsLoop_leaves _ hleaves fun h => hnul (scan_subset _ _ _ h)

theorem getStringValue_read (size : Nat) :
    Struct.getStringValue (text ++ 0 :: rest) 0 size = read shiftedValue false size text := by
  have hlen := strnlen_min hnul rest size
  obtain ⟨head, hhead, hleaves⟩ := headLoop_scan false hnul size [] rest
  rw [List.nil_append, List.length_nil, Nat.zero_add] at *
  rw [Struct.getStringValue, List.drop_zero, Int.toNat_natCast, hlen, Outcome.done_bind,
    Struct.textValue, textHead_eq, hhead, Outcome.done_bind, read]
  rcases head with _ | ⟨j, base⟩
  · rw [show scan false text size = (8, []) from hleaves]
    rfl
  · change Struct.textDigits _ _ _ _ _ _ = _
    rw [textDigits_eq]
    exact digitsLoop_leaves _ hleaves fun h => hnul (scan_subset _ _ _ h)

theorem intSetTextValue_read :
    ∃ n : Nat, Struct.intSetTextValue 4 (text ++ 0 :: rest) =
      read shiftedValue true DIGEST_SIZE text >>= fun ret =>
        if ret < 0 then .error ret else .done ((n : Int) + 1, leBytes 4 ret.toNat) := by
  have hlen := strnlen_min hnul rest DIGEST_SIZE
  obtain ⟨head, hhead, hleaves⟩ := headLoop_scan true hnul DIGEST_SIZE [] rest
  rw [List.nil_append, List.length_nil, Nat.zero_add] at *
  have hbytes (ret : Int) : Struct.intBytes ret 4 = .done (leBytes 4 ret.toNat) := by
    rw [Struct.intBytes, if_neg (by decide), List.take_of_length_le (by simp)]
  refine ⟨min text.length DIGEST_SIZE, ?_⟩
  rw [Struct.intSetTextValue, hlen, Outcome.done_bind, intHead_eq, hhead, Outcome.done_bind, read]
  rcases head with _ | ⟨j, base⟩
  · rw [show scan true text DIGEST_SIZE = (8, []) from hleaves, hbytes, Outcome.map_done]
    rfl
  · change Struct.textDigits _ _ _ _ _ _ >>= _ = _
    rw [textDigits_eq, digitsLoop_leaves _ hleaves fun h => hnul (scan_subset _ _ _ h)]
    simp only [hbytes, Outcome.map_done]
    rfl

end Readers

/-! ## Numbers -/

section Numbers

variable {digit : UInt8 → Option Nat} {base ret v : Nat} {ds : List UInt8}

theorem numberFrom_cons {c : UInt8} (h : numberFrom digit base ret (c :: ds) = some v) :
    ∃ d, digit c = some d ∧ d < base ∧ numberFrom digit base (ret * base + d) ds = some v := by
  rw [numberFrom] at h
  rcases hd : digit c with _ | d
  · rw [hd] at h
    cases h
  · rw [hd] at h
    simp only at h
    split_ifs at h with hlt
    exact ⟨d, rfl, hlt, h⟩

/-- A number lies among those that start with the digits before it. -/
theorem numberFrom_bounds (h : numberFrom digit base ret ds = some v) :
    ret * base ^ ds.length ≤ v ∧ v < (ret + 1) * base ^ ds.length := by
  induction ds generalizing ret with
  | nil =>
    obtain rfl := Option.some.inj h
    simp
  | cons c ds ih =>
    obtain ⟨d, -, hlt, hmore⟩ := numberFrom_cons h
    obtain ⟨hge, hless⟩ := ih hmore
    have hpow : base ^ (ds.length + 1) = base * base ^ ds.length := Nat.pow_succ'
    rw [List.length_cons, hpow, ← Nat.mul_assoc, ← Nat.mul_assoc]
    refine ⟨(Nat.mul_le_mul_right _ (Nat.le_add_right _ d)).trans hge,
      hless.trans_le (Nat.mul_le_mul_right _ ?_)⟩
    rw [Nat.succ_mul]
    omega

theorem numberFrom_append (a b : List UInt8) :
    numberFrom digit base ret (a ++ b) =
      (numberFrom digit base ret a).bind fun w => numberFrom digit base w b := by
  induction a generalizing ret with
  | nil => rfl
  | cons c a ih =>
    rw [List.cons_append, numberFrom, numberFrom]
    rcases digit c with _ | d
    · rfl
    · simp only
      split_ifs
      · exact ih
      · rfl

theorem numberFrom_congr {digit' : UInt8 → Option Nat} (h : ∀ c ∈ ds, digit c = digit' c) :
    numberFrom digit base ret ds = numberFrom digit' base ret ds := by
  induction ds generalizing ret with
  | nil => rfl
  | cons c ds ih =>
    rw [List.forall_mem_cons] at h
    simp only [numberFrom, h.1, ih h.2]

/-- All digits of a number are digits of the base. -/
theorem numberFrom_digits (h : numberFrom digit base ret ds = some v) {c : UInt8} (hc : c ∈ ds) :
    ∃ d < base, digit c = some d := by
  induction ds generalizing ret with
  | nil => cases hc
  | cons b ds ih =>
    obtain ⟨d, hd, hlt, hmore⟩ := numberFrom_cons h
    rcases List.mem_cons.1 hc with rfl | hc
    · exact ⟨d, hlt, hd⟩
    · exact ih hmore hc

/-- The digits of zero are zeros. -/
theorem numberFrom_zero (hbase : 0 < base) (h : numberFrom digit base 0 ds = some 0) {c : UInt8}
    (hc : c ∈ ds) : digit c = some 0 := by
  induction ds with
  | nil => cases hc
  | cons b ds ih =>
    obtain ⟨d, hd, -, hmore⟩ := numberFrom_cons h
    rw [Nat.zero_mul, Nat.zero_add] at hmore
    have hd0 : d = 0 := by
      have hle := (numberFrom_bounds hmore).1
      exact (Nat.mul_eq_zero.1 (Nat.le_zero.1 hle)).resolve_right (Nat.pow_pos hbase).ne'
    subst hd0
    rcases List.mem_cons.1 hc with rfl | hc
    · exact hd
    · exact ih hmore hc

/-- Where the values of digits are smaller, the number is, unless they are the same. -/
theorem numberFrom_le {digit' : UInt8 → Option Nat} {ret' w : Nat} (hbase : 0 < base)
    (hle : ∀ c d, digit c = some d → ∀ d', digit' c = some d' → d ≤ d')
    (h : numberFrom digit base ret ds = some w) (h' : numberFrom digit' base ret' ds = some v)
    (hret : ret ≤ ret') : w ≤ v ∧ (w = v → ret = ret' ∧ ∀ c ∈ ds, digit c = digit' c) := by
  induction ds generalizing ret ret' with
  | nil =>
    obtain rfl := Option.some.inj h
    obtain rfl := Option.some.inj h'
    exact ⟨hret, fun heq => ⟨heq, nofun⟩⟩
  | cons c ds ih =>
    obtain ⟨d, hd, -, hmore⟩ := numberFrom_cons h
    obtain ⟨d', hd', -, hmore'⟩ := numberFrom_cons h'
    have hdd := hle c d hd d' hd'
    have hmul := Nat.mul_le_mul_right base hret
    obtain ⟨hwv, heq⟩ := ih hmore hmore' (Nat.add_le_add hmul hdd)
    refine ⟨hwv, fun h => ?_⟩
    obtain ⟨hsum, hsame⟩ := heq h
    refine ⟨Nat.eq_of_mul_eq_mul_right hbase (by omega), ?_⟩
    rw [List.forall_mem_cons, hd, hd']
    exact ⟨congrArg some (by omega), hsame⟩

/-- The digits are read as their number, where that is an `int`. -/
theorem readAll_eq_done (hbase : 0 < base) (hret : ret < 2 ^ 31) :
    readAll digit base ret ds = .done (v : Int) ↔
      numberFrom digit base ret ds = some v ∧ v < 2 ^ 31 := by
  induction ds generalizing ret with
  | nil =>
    rw [readAll, numberFrom, Outcome.done.injEq, Option.some.injEq, Int.ofNat_inj]
    exact ⟨fun h => ⟨h, h ▸ hret⟩, And.left⟩
  | cons c ds ih =>
    have herror : (Outcome.done (-EINVAL) : Outcome Int) ≠ .done (v : Int) := by
      rw [Ne, Outcome.done.injEq]
      have : EINVAL = 22 := rfl
      omega
    rw [readAll, numberFrom]
    rcases digit c with _ | d
    · exact ⟨fun h => absurd h herror, fun h => nomatch h.1⟩
    · simp only
      by_cases hd : base ≤ d
      · rw [if_pos hd, if_neg (Nat.not_lt.2 hd)]
        exact ⟨fun h => absurd h herror, fun h => nomatch h.1⟩
      · rw [if_neg hd, if_pos (Nat.lt_of_not_le hd)]
        by_cases hfit : 2 ^ 31 ≤ ret * base + d
        · rw [if_pos hfit]
          refine ⟨nofun, fun ⟨h, hv⟩ => ?_⟩
          have hge := (numberFrom_bounds h).1
          have hone := Nat.le_mul_of_pos_right (ret * base + d) (Nat.pow_pos (n := ds.length) hbase)
          omega
        · rw [if_neg hfit]
          exact ih (Nat.lt_of_not_le hfit)

theorem readAll_ne_error (e : Int) : readAll digit base ret ds ≠ .error e := by
  induction ds generalizing ret with
  | nil => exact nofun
  | cons c ds ih =>
    rw [readAll]
    rcases digit c with _ | d
    · exact nofun
    · simp only
      split_ifs
      · exact nofun
      · exact nofun
      · exact ih

/-- A character is refused: it is no digit of the base, and the digits before it are an
    `int`. -/
def Refused (digit : UInt8 → Option Nat) (base ret : Nat) (ds : List UInt8) : Prop :=
  ∃ pre c post v, ds = pre ++ c :: post ∧ numberFrom digit base ret pre = some v ∧ v < 2 ^ 31 ∧
    ∀ d, digit c = some d → base ≤ d

/-- There is an error where a character is refused. -/
theorem readAll_eq_error (hbase : 0 < base) (hret : ret < 2 ^ 31) :
    readAll digit base ret ds = .done (-EINVAL) ↔ Refused digit base ret ds := by
  induction ds generalizing ret with
  | nil =>
    refine ⟨fun h => ?_, fun ⟨pre, c, post, _, h, _⟩ => ?_⟩
    · have := Outcome.done.inj h
      have : EINVAL = 22 := rfl
      omega
    · simp at h
  | cons c ds ih =>
    have hfirst (hc : ∀ d, digit c = some d → base ≤ d) : Refused digit base ret (c :: ds) :=
      ⟨[], c, ds, ret, rfl, rfl, hret, hc⟩
    -- A character behind the first one is refused behind the number of that.
    have hlater {d : Nat} (hd : digit c = some d) (hlt : d < base) :
        Refused digit base ret (c :: ds) ↔
          ret * base + d < 2 ^ 31 ∧ Refused digit base (ret * base + d) ds := by
      constructor
      · rintro ⟨_ | ⟨b, pre⟩, c', post, v, h, hv, hfit, hc⟩
        · obtain ⟨rfl, -⟩ := List.cons.inj h
          exact absurd (hc d hd) (Nat.not_le.2 hlt)
        · obtain ⟨rfl, htail⟩ := List.cons.inj h
          obtain ⟨d', hd', -, hmore⟩ := numberFrom_cons hv
          obtain rfl := Option.some.inj (hd.symm.trans hd')
          have hge := (numberFrom_bounds hmore).1
          have hone := Nat.le_mul_of_pos_right (ret * base + d)
            (Nat.pow_pos (n := pre.length) hbase)
          exact ⟨by omega, pre, c', post, v, htail, hmore, hfit, hc⟩
      · rintro ⟨-, pre, c', post, v, rfl, hv, hfit, hc⟩
        refine ⟨c :: pre, c', post, v, rfl, ?_, hfit, hc⟩
        rw [numberFrom, hd]
        simp only [if_pos hlt]
        exact hv
    rw [readAll]
    rcases hd : digit c with _ | d
    · exact iff_of_true rfl (hfirst fun d h => nomatch hd.symm.trans h)
    · simp only
      by_cases hle : base ≤ d
      · rw [if_pos hle]
        exact iff_of_true rfl (hfirst fun d' h => Option.some.inj (hd.symm.trans h) ▸ hle)
      · rw [if_neg hle, hlater hd (Nat.lt_of_not_le hle)]
        by_cases hfit : 2 ^ 31 ≤ ret * base + d
        · rw [if_pos hfit]
          exact iff_of_false nofun fun h => absurd h.1 (Nat.not_lt.2 hfit)
        · rw [if_neg hfit, ih (Nat.lt_of_not_le hfit), and_iff_right (Nat.lt_of_not_le hfit)]

end Numbers

end Cube.Text
