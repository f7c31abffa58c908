import Cube.Struct.IntText

/-!
# Numerals

`Atoi` of `memfunc.c` reads a number with the two loops of `int_set_text_value`, where its
letters have other values, and `Itoa` writes one.

* `atoi_print`: what `Itoa` writes of a positive number is read as that number;
* `textDigits_eq`: the second loop of the other is the same, with its own values.
-/

namespace Cube.Text

open Lib Message

/-- `_get_char_value` of `memfunc.c`. -/
def getCharValue (c : UInt8) : Int :=
  if '0'.toUInt8 ≤ c ∧ c ≤ '9'.toUInt8 then c.toNat - '0'.toNat
  else if 'a'.toUInt8 ≤ c ∧ c ≤ 'f'.toUInt8 then c.toNat - 'a'.toNat + 10
  else if 'A'.toUInt8 ≤ c ∧ c ≤ 'F'.toUInt8 then c.toNat - 'A'.toNat + 10
  else -EINVAL

/-- The loop that reads the digits, each by its value, with `n` characters left. -/
def digitsLoop (value : UInt8 → Int) (string : List UInt8) (base : Int) :
    Nat → Nat → Int → Outcome Int
  | _, 0, ret => .done ret
  | i, n + 1, ret => match string[i]? with
    | none => .fault
    | some c =>
      if c = 0 then .done ret
      else if value c < 0 ∨ value c ≥ base then .done (-EINVAL)
      else if ret * base + value c ≥ 2 ^ 31 then .fault
      else digitsLoop value string base (i + 1) n (ret * base + value c)

/-- The second loop of `Atoi`. -/
def atoiDigits : List UInt8 → Int → Nat → Nat → Int → Outcome Int := digitsLoop getCharValue

/-- `Atoi`, of the memory from the string on. Its first loop is that of
    `int_set_text_value`. -/
def atoi (string : List UInt8) (maxlen : Nat) : Outcome Int := do
  let strLen ← strnlen string (if maxlen = 0 then DIGEST_SIZE else maxlen)
  match ← Struct.intHead string 0 strLen with
  | .zero => .done 0
  | .digits i base => atoiDigits string base i (strLen - i) 0

/-! ## Digits -/

/-- The second loop of `int_set_text_value` and `get_string_value`. -/
theorem textDigits_eq (mem : List UInt8) (base : Int) (i n : Nat) (ret : Int) :
    Struct.textDigits mem 0 base i n ret = digitsLoop Struct.getCharValue mem base i n ret := by
  induction n generalizing i ret with
  | zero => rfl
  | succ n ih =>
    rw [Struct.textDigits, digitsLoop, Nat.zero_add]
    rcases hc : mem[i]? with _ | c
    · rfl
    · simp only [ih]

/-- Characters are read alike that have the same value. -/
theorem digitsLoop_congr {value value' : UInt8 → Int} {string : List UInt8} {base : Int}
    (i n : Nat) (ret : Int)
    (h : ∀ j, i ≤ j → j < i + n → ∀ c, string[j]? = some c → value c = value' c) :
    digitsLoop value string base i n ret = digitsLoop value' string base i n ret := by
  induction n generalizing i ret with
  | zero => rfl
  | succ n ih =>
    rw [digitsLoop, digitsLoop]
    rcases hc : string[i]? with _ | c
    · rfl
    · have hvalue := h i (Nat.le_refl _) (by omega) c hc
      simp only [hvalue]
      rw [ih (i + 1) _ fun j hij hj => h j (by omega) (by omega)]

theorem getCharValue_digit {d : Nat} (hd : d < 10) :
    getCharValue (Struct.digitChar d) = Struct.getCharValue (Struct.digitChar d) := by
  have hall : ∀ d < 10,
      getCharValue (Struct.digitChar d) = Struct.getCharValue (Struct.digitChar d) := by decide
  exact hall d hd

/-- All characters of a text of digits are digits. -/
theorem mem_printDigits {k value : Nat} (hlt : value < 10 ^ (k + 1)) {c : UInt8}
    (hc : c ∈ Struct.printDigits k value) : ∃ d < 10, c = Struct.digitChar d := by
  induction k generalizing value with
  | zero =>
    rw [Struct.printDigits, Nat.div_one, List.mem_singleton] at hc
    exact ⟨value, by simpa using hlt, hc⟩
  | succ k ih =>
    have hpow : 0 < 10 ^ (k + 1) := Nat.pow_pos (by decide)
    rw [Struct.printDigits, List.mem_cons] at hc
    rcases hc with rfl | hc
    · refine ⟨value / 10 ^ (k + 1), ?_, rfl⟩
      rw [Nat.div_lt_iff_lt_mul hpow, Nat.mul_comm, ← Nat.pow_succ]
      exact hlt
    · exact ih (Nat.mod_lt value hpow) hc

/-- A positive number is read from its text. -/
theorem atoi_print {k value n : Nat} (hpos : 10 ^ k ≤ value) (hlt : value < 10 ^ (k + 1))
    (hvalue : value < 2 ^ 31) (hn : k + 1 ≤ n) (rest : List UInt8) :
    atoi (Struct.printDigits k value ++ 0 :: rest) n = .done value := by
  have hlen := Struct.length_printDigits k value
  obtain ⟨d, ds, hds, hd0, hd⟩ := Struct.printDigits_head hpos hlt
  obtain ⟨-, hne0, hnblank, hnzero⟩ := Struct.getCharValue_digit hd
  have hstrlen : strnlen (Struct.printDigits k value ++ 0 :: rest) n = .done (k + 1) := by
    rw [← hlen, strnlen_cstr (Struct.zero_notMem_printDigits hlt) (hlen ▸ hn)]
  have hhead : Struct.intHead (Struct.printDigits k value ++ 0 :: rest) 0 (k + 1) =
      .done (.digits 0 10) := by
    rw [hds, List.cons_append, Struct.intHead.eq_def]
    simp only [List.getElem?_cons_zero, if_neg hne0, if_neg hnblank, if_neg (hnzero hd0.ne')]
  have hdigits := Struct.textDigits_print 0 hlt [] (0 :: rest)
  rw [List.nil_append, Nat.zero_mul, Nat.zero_add, List.length_nil, if_pos hvalue] at hdigits
  rw [atoi, if_neg (by omega), hstrlen, Outcome.done_bind, hhead, Outcome.done_bind]
  simp only [Nat.sub_zero]
  rw [atoiDigits, digitsLoop_congr 0 (k + 1) 0 fun j _ hj c hc => ?_, ← textDigits_eq]
  · exact hdigits
  · rw [Nat.zero_add] at hj
    rw [List.getElem?_append_left (hlen ▸ hj)] at hc
    obtain ⟨d, hd, rfl⟩ := mem_printDigits hlt (List.mem_of_getElem? hc)
    exact getCharValue_digit hd

/-! ## `Itoa` -/

/-- The last digit may be split off a number and its text. -/
theorem printDigits_succ (k value : Nat) :
    Struct.printDigits (k + 1) value =
      Struct.printDigits k (value / 10) ++ [Struct.digitChar (value % 10)] := by
  induction k generalizing value with
  | zero => simp [Struct.printDigits]
  | succ k ih =>
    have hdiv : value / 10 / 10 ^ (k + 1) = value / 10 ^ (k + 1 + 1) := by
      rw [Nat.div_div_eq_div_mul, ← Nat.pow_succ']
    have hmod : value / 10 % 10 ^ (k + 1) = value % 10 ^ (k + 1 + 1) / 10 := by
      have hpow : 10 ^ (k + 1 + 1) = 10 * 10 ^ (k + 1) := Nat.pow_succ'
      rw [hpow, Nat.mod_mul_right_div_self]
    have hlast : value % 10 ^ (k + 1 + 1) % 10 = value % 10 :=
      Nat.mod_mod_of_dvd _ ⟨10 ^ (k + 1), Nat.pow_succ'⟩
    rw [Struct.printDigits, ih, Struct.printDigits, hdiv, hmod, hlast, List.cons_append]

/-- `Itoa` writes a positive number as its digits. -/
theorem itoaLoop_print {value : Nat} (hpos : 0 < value) :
    ∃ k, 10 ^ k ≤ value ∧ value < 10 ^ (k + 1) ∧
      (Json.itoaLoop value).reverse.map Char.toUInt8 = Struct.printDigits k value := by
  have hdigit : ∀ d < 10, (Char.ofNat (d + 48)).toUInt8 = Struct.digitChar d := by decide
  induction value using Nat.strong_induction_on with
  | _ value ih =>
    have hlast := hdigit (value % 10) (Nat.mod_lt _ (by decide))
    rw [Json.itoaLoop]
    by_cases hmore : value / 10 > 0
    · obtain ⟨k, hge, hlt, heq⟩ := ih (value / 10) (Nat.div_lt_self hpos (by decide)) hmore
      refine ⟨k + 1, ?_, ?_, ?_⟩
      · rw [Nat.pow_succ]
        exact (Nat.le_div_iff_mul_le (by decide)).1 hge
      · rw [Nat.pow_succ]
        exact (Nat.div_lt_iff_lt_mul (by decide)).1 hlt
      · rw [if_pos hmore, List.reverse_cons, List.map_append, heq, List.map_singleton, hlast,
          printDigits_succ]
    · have hsmall : value < 10 := by omega
      refine ⟨0, hpos, by simpa using hsmall, ?_⟩
      rw [if_neg hmore, List.reverse_singleton, List.map_singleton, hlast,
        Nat.mod_eq_of_lt hsmall, Struct.printDigits, Nat.div_one]

end Cube.Text
