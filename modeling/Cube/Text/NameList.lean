import Cube.Text.Atoi
import Cube.Text.Enum

/-!
# Lists of names as text

The elements of a list of names and values are written one after the other, each with its
value only where that is not one more than the value before (`namelist_get_text_value`,
`namelist_set_text_value` in `struct_ops.c`). Both keep the last value in the template.

* `namelistSetTextValue_written`: what is read of a name, with a value or without;
* `readNames_written`, `printNames_eq`: what becomes of a whole list;
* `nameListText`: lists with increasing values are restored, others are rejected.
-/

namespace Cube.Text

open Lib Message Memdb

/-! ## The operations -/

/-- `maxnamelen`, the room for a field where no other is given. -/
def maxnamelen : Nat := DIGEST_SIZE * 8 + 1

/-- The loop of `Getfiledfromstr`, from the character `i` of the string on and with room for
    `n` more in the name. -/
def fieldLoop (ifs : UInt8) : Nat → Nat → List UInt8 → List UInt8 → Outcome (List UInt8 × Nat)
  | 0, i, _, name => .done (0 :: name.tail, i)
  | _ + 1, _, [], _ => .fault
  | n + 1, i, c :: str, name =>
    if c = ifs ∨ c = 0 then .done (name ++ [0], i) else fieldLoop ifs n (i + 1) str (name ++ [c])

/-- `Getfiledfromstr` in memory: the bytes that it writes at `name`, and what it returns.
    Nothing is written for the empty string. -/
def getfiledfromstr (str : List UInt8) (ifs : UInt8) (maxsize : Nat) :
    Outcome (List UInt8 × Nat) :=
  let limit := if maxsize = 0 then maxnamelen else maxsize
  let blanks := (str.takeWhile (· = ' '.toUInt8)).length
  match str.drop blanks with
  | [] => .fault
  | c :: rest => if c = 0 then .done ([], 0) else fieldLoop ifs limit blanks (c :: rest) []

/-- `curr_elem->index++`, which must not go beyond the greatest `int`. -/
def stepIndex (index : Int32) : Outcome Int32 :=
  if index = Int32.maxValue then .fault else .done (index + 1)

/-- `namelist_get_text_value`, with the index of the template: the text it writes, the end
    included, whose length it returns, and the index after it. -/
def namelistGetTextValue (index : Int32) (namelist : NameValue) : Outcome (List UInt8 × Int32) :=
  if namelist.name.chars.length > DIGEST_SIZE then .error (-EINVAL)
  else do
    let value := namelist.value.toUInt32
    let index ← stepIndex index
    if value < index.toUInt32 then .error (-EINVAL)
    else if value > index.toUInt32 then
      let digits ← Json.itoa value.toInt32.toInt
      .done (namelist.name.chars ++ '='.toUInt8 :: digits.map Char.toUInt8 ++ [','.toUInt8, 0],
        value.toInt32)
    else .done (namelist.name.chars ++ [','.toUInt8, 0], index)

/-- What `namelist_set_text_value` reads: the offset that it returns, the name and the value
    of the element, and the index after it. -/
structure ReadName where
  offset : Nat
  name : List UInt8
  value : Int32
  index : Int32
  deriving DecidableEq

/-- `namelist_set_text_value`, with the index of the template, of the memory from the text
    on. What `Atoi` returns is not looked at before it is a `UINT32`. -/
def namelistSetTextValue (index : Int32) (text : List UInt8) : Outcome ReadName := do
  let (buf, textlen) ← getfiledfromstr text ','.toUInt8 128
  if textlen > DIGEST_SIZE * 2 then .error (-EINVAL)
  else do
    let (_, namelen) ← getfiledfromstr buf '='.toUInt8 textlen
    let index ← stepIndex index
    if namelen = textlen then .done ⟨textlen + 1, text.take namelen, index, index⟩
    else do
      let ret ← atoi (buf.drop (namelen + 1)) (textlen - namelen)
      let value := (Int32.ofInt ret).toUInt32
      if value < index.toUInt32 then .error (-EINVAL)
      else .done ⟨textlen + 1, text.take namelen, value.toInt32, value.toInt32⟩

/-- The elements are written in order. -/
def printNames : Int32 → List NameValue → Outcome (List (List UInt8))
  | _, [] => .done []
  | index, e :: list => do
    let (text, index) ← namelistGetTextValue index e
    let texts ← printNames index list
    .done (text :: texts)

/-- The elements are read in order, each from the memory that is given for it. -/
def readNames : Int32 → List (List UInt8) → Outcome (List ReadName)
  | _, [] => .done []
  | index, text :: texts => do
    let e ← namelistSetTextValue index text
    let list ← readNames e.index texts
    .done (e :: list)

/-! ## What they should do -/

/-- The text of an element behind the value `prev`, without an end. -/
def nameText (prev : Int) (e : NameValue) : List UInt8 :=
  if e.value.toInt = prev + 1 then e.name.chars ++ [','.toUInt8]
  else e.name.chars ++ '='.toUInt8 :: (Json.numText e.value.toInt).map Char.toUInt8 ++
    [','.toUInt8]

/-- The texts of the elements in order. -/
def nameTexts : Int → List NameValue → List (List UInt8)
  | _, [] => []
  | prev, e :: list => nameText prev e :: nameTexts e.value.toInt list

/-- A text of an element behind the value `prev`: its value may be left out where it is one
    more, and may be there in any case. -/
def WrittenAs (prev : Int) (e : NameValue) (text : List UInt8) : Prop :=
  (text = e.name.chars ++ [','.toUInt8] ∧ e.value.toInt = prev + 1) ∨
    text = e.name.chars ++ '='.toUInt8 :: (Json.numText e.value.toInt).map Char.toUInt8 ++
      [','.toUInt8]

/-- A text is written of each element of a list. -/
def AllWritten : Int → List NameValue → List (List UInt8) → Prop
  | _, [], texts => texts = []
  | prev, e :: list, texts => ∃ text more, texts = text :: more ∧ WrittenAs prev e text ∧
      AllWritten e.value.toInt list more

/-- What is read of an element in the memory: its name and its value. -/
def ReadAs (e : NameValue) (r : ReadName) : Prop := r.name = e.name.chars ∧ r.value = e.value

/-- The values increase, from above `prev` on. -/
def Increasing (prev : Int) (list : List NameValue) : Prop :=
  (prev :: list.map fun e => e.value.toInt).Pairwise (· < ·)

instance (prev : Int) (list : List NameValue) : Decidable (Increasing prev list) :=
  inferInstanceAs (Decidable (List.Pairwise _ _))

/-- A value that is more than zero, and a name without the signs that separate names. -/
structure Plain (e : NameValue) : Prop where
  pos : 0 < e.value.toInt
  comma : ','.toUInt8 ∉ e.name.chars
  equals : '='.toUInt8 ∉ e.name.chars

/-- The names that fit and begin with what is not skipped. -/
structure Separable (e : NameValue) : Prop extends Plain e where
  length_le : e.name.chars.length ≤ DIGEST_SIZE
  blank : e.name.chars.head? ≠ some ' '.toUInt8

/-- The values behind the index are rejected, or the index is stepped from the greatest
    `int`, which then is not the last of them. -/
def Rejected {α : Type} (index : Int32) (list : List NameValue) (x : Outcome α) : Prop :=
  x = .error (-EINVAL) ∨
    x = .fault ∧ Int32.maxValue ∈ (index :: list.map NameValue.value).dropLast

/-- A list is restored, with its values left out where they follow the index, and read as it
    is written, the comma being the last character that is taken. What is behind the comma
    does not matter. -/
structure NamesRestored (list : List NameValue) : Prop where
  printed : printNames 0 list = .done ((nameTexts 0 list).map (· ++ [0]))
  read : ∀ mems, List.Forall₂ (· <+: ·) (nameTexts 0 list) mems →
    ∃ out, readNames 0 mems = .done out ∧ List.Forall₂ ReadAs list out ∧
      out.map ReadName.offset = (nameTexts 0 list).map List.length

/-- A list is rejected when it is written, and when any texts of its elements are read. -/
structure NamesRejected (list : List NameValue) : Prop where
  printed : Rejected 0 list (printNames 0 list)
  read : ∀ texts mems, AllWritten 0 list texts → List.Forall₂ (· <+: ·) texts mems →
    Rejected 0 list (readNames 0 mems)

/-! ## Fields -/

section Fields

variable {ifs c : UInt8} {field rest : List UInt8} {n : Nat}

theorem fieldLoop_stop (rest : List UInt8) (hifs : ifs ∉ field) (hnul : 0 ∉ field) (hc : c = ifs ∨ c = 0)
    (hn : field.length < n) (i : Nat) (name : List UInt8) :
    fieldLoop ifs n i (field ++ c :: rest) name =
      .done (name ++ field ++ [0], i + field.length) := by
  induction field generalizing n i name with
  | nil =>
    obtain ⟨n, rfl⟩ := Nat.exists_eq_succ_of_ne_zero (Nat.ne_of_gt hn)
    simp [fieldLoop, hc]
  | cons b field ih =>
    rw [List.mem_cons, not_or] at hifs hnul
    obtain ⟨n, rfl⟩ := Nat.exists_eq_succ_of_ne_zero (Nat.ne_of_gt (Nat.zero_lt_of_lt hn))
    have hb : ¬ (b = ifs ∨ b = 0) := not_or.2 ⟨Ne.symm hifs.1, Ne.symm hnul.1⟩
    rw [List.cons_append, fieldLoop, if_neg hb, ih hifs.2 hnul.2 (Nat.lt_of_succ_lt_succ hn),
      List.append_assoc name, List.singleton_append, List.length_cons, Nat.add_right_comm,
      Nat.add_assoc]

/-- A field that fills the room is taken, but not kept. -/
theorem fieldLoop_full (rest : List UInt8) (hifs : ifs ∉ field) (hnul : 0 ∉ field) (i : Nat)
    (name : List UInt8) :
    fieldLoop ifs field.length i (field ++ rest) name =
      .done (0 :: (name ++ field).tail, i + field.length) := by
  induction field generalizing i name with
  | nil => simp [fieldLoop]
  | cons b field ih =>
    rw [List.mem_cons, not_or] at hifs hnul
    have hb : ¬ (b = ifs ∨ b = 0) := not_or.2 ⟨Ne.symm hifs.1, Ne.symm hnul.1⟩
    rw [List.cons_append, List.length_cons, fieldLoop, if_neg hb, ih hifs.2 hnul.2,
      List.append_assoc name, List.singleton_append, Nat.add_right_comm, Nat.add_assoc]

/-- Nothing is skipped of a string that does not begin with a blank. -/
theorem getfiledfromstr_eq {str : List UInt8} {b : UInt8} (hb : b ≠ ' '.toUInt8) (hnul : b ≠ 0) :
    getfiledfromstr (b :: str) ifs n =
      fieldLoop ifs (if n = 0 then maxnamelen else n) 0 (b :: str) [] := by
  have hblanks : ((b :: str).takeWhile (· = ' '.toUInt8)).length = 0 := by
    rw [List.takeWhile_cons_of_neg (by simpa using hb), List.length_nil]
  simp only [getfiledfromstr, hblanks, List.drop_zero, if_neg hnul]

/-- A field in front of a separator, which is in the room for it. -/
theorem getfiledfromstr_field (rest : List UInt8) (hifs : ifs ∉ field) (hnul : 0 ∉ field)
    (hblank : field.head? ≠ some ' '.toUInt8) (hsep : ifs ≠ ' '.toUInt8) (hsep0 : ifs ≠ 0)
    (hn : field.length < n) :
    getfiledfromstr (field ++ ifs :: rest) ifs n = .done (field ++ [0], field.length) := by
  have hloop := fieldLoop_stop rest hifs hnul (.inl rfl) hn 0 []
  rw [List.nil_append, Nat.zero_add] at hloop
  have hn0 : ¬ n = 0 := by omega
  rcases field with _ | ⟨b, field⟩
  · rw [List.nil_append, getfiledfromstr_eq hsep hsep0, if_neg hn0]
    exact hloop
  · rw [List.cons_append, getfiledfromstr_eq (by simpa using hblank) (fun h => hnul (by simp [h])),
      if_neg hn0]
    exact hloop

/-- A field that is all of a string has its length as the room for it. -/
theorem getfiledfromstr_all (hifs : ifs ∉ field) (hnul : 0 ∉ field)
    (hblank : field.head? ≠ some ' '.toUInt8) :
    ∃ name, getfiledfromstr (field ++ [0]) ifs field.length = .done (name, field.length) := by
  rcases field with _ | ⟨b, field⟩
  · exact ⟨[], by rfl⟩
  · have hloop := fieldLoop_full [0] hifs hnul 0 []
    rw [Nat.zero_add] at hloop
    refine ⟨0 :: field, ?_⟩
    rw [List.cons_append, getfiledfromstr_eq (by simpa using hblank) (fun h => hnul (by simp [h])),
      if_neg (by simp)]
    exact hloop

end Fields

/-! ## Values -/

/-- Numbers that are not negative compare alike without their sign. -/
theorem toNat_toUInt32 {v : Int32} (hv : 0 ≤ v.toInt) : (v.toUInt32.toNat : Int) = v.toInt := by
  have hcond := BitVec.toInt_eq_toNat_cond v.toBitVec
  have hlt := v.toBitVec.isLt
  change (v.toBitVec.toNat : Int) = v.toBitVec.toInt
  change 0 ≤ v.toBitVec.toInt at hv
  split_ifs at hcond with h
  · exact hcond.symm
  · omega

theorem toUInt32_lt {v w : Int32} (hv : 0 ≤ v.toInt) (hw : 0 ≤ w.toInt) :
    v.toUInt32 < w.toUInt32 ↔ v.toInt < w.toInt := by
  rw [UInt32.lt_iff_toNat_lt, ← toNat_toUInt32 hv, ← toNat_toUInt32 hw]
  exact Int.ofNat_lt.symm

theorem toInt_lt (v : Int32) : v.toInt < 2 ^ 31 := v.toInt_lt

variable {index : Int32} {e : NameValue} {list : List NameValue}

/-- The index is stepped where it is not the greatest. -/
theorem stepIndex_eq (hindex : 0 ≤ index.toInt) :
    (index = Int32.maxValue ∧ stepIndex index = .fault) ∨
      (index.toInt < 2 ^ 31 - 1 ∧ stepIndex index = .done (index + 1) ∧
        (index + 1).toInt = index.toInt + 1) := by
  by_cases hmax : index = Int32.maxValue
  · exact .inl ⟨hmax, if_pos hmax⟩
  · have hne : index.toInt ≠ 2 ^ 31 - 1 := fun h => hmax (Int32.toInt.inj h)
    have hlt := toInt_lt index
    have hsum : (index + 1).toInt = index.toInt + 1 := by
      rw [Int32.toInt_add]
      exact Int.bmod_eq_of_le (by change _ ≤ index.toInt + 1; omega)
        (by change index.toInt + 1 < _; omega)
    exact .inr ⟨by omega, if_neg hmax, hsum⟩

/-- The text of a positive value, which `Atoi` reads. -/
theorem numText_value {v : Int32} (hv : 0 < v.toInt) :
    ∃ digits : List UInt8, (Json.numText v.toInt).map Char.toUInt8 = digits ∧
      digits.length ≤ 10 ∧ 0 ∉ digits ∧ ','.toUInt8 ∉ digits ∧ '='.toUInt8 ∉ digits ∧
      ∀ rest, atoi (digits ++ 0 :: rest) (digits.length + 1) = .done v.toInt := by
  have hlt := toInt_lt v
  have hpos : 0 < v.toInt.natAbs := by omega
  obtain ⟨k, hge, hless, hprint⟩ := itoaLoop_print hpos
  have hk : k < 10 :=
    (Nat.pow_lt_pow_iff_right (a := 10) (by decide)).1 (hge.trans_lt (by omega))
  have hlen := Struct.length_printDigits k v.toInt.natAbs
  have hnot : ∀ c : UInt8, (∀ d < 10, Struct.digitChar d ≠ c) →
      c ∉ Struct.printDigits k v.toInt.natAbs := by
    intro c hc hmem
    obtain ⟨d, hd, rfl⟩ := mem_printDigits hless hmem
    exact hc d hd rfl
  refine ⟨Struct.printDigits k v.toInt.natAbs, ?_, by omega, hnot _ (by decide),
    hnot _ (by decide), hnot _ (by decide), fun rest => ?_⟩
  · rw [Json.numText, if_neg (by omega), List.nil_append, hprint]
  · rw [atoi_print hge hless (by omega) (by omega), Int.natAbs_of_nonneg (by omega)]

/-! ## Reading -/

section Reading

variable {e : NameValue} {index : Int32}

/-- A name without a value has that behind the index. -/
theorem namelistSetTextValue_implicit (he : Separable e) (hindex : 0 ≤ index.toInt)
    (hnext : e.value.toInt = index.toInt + 1) (rest : List UInt8) :
    namelistSetTextValue index (e.name.chars ++ ','.toUInt8 :: rest) =
      .done ⟨e.name.chars.length + 1, e.name.chars, e.value, e.value⟩ := by
  have hlen := he.length_le
  have hfield := getfiledfromstr_field rest (n := 128) he.comma e.name.nul_free he.blank
    (by decide) (by decide) (hlen.trans_lt (by decide))
  obtain ⟨name, hall⟩ := getfiledfromstr_all he.equals e.name.nul_free he.blank
  have hshort : ¬ e.name.chars.length > DIGEST_SIZE * 2 := by
    have : DIGEST_SIZE = 32 := rfl
    omega
  have hvalue := toInt_lt e.value
  rw [namelistSetTextValue, hfield, Outcome.done_bind]
  simp only [if_neg hshort, hall, Outcome.done_bind, if_true, List.take_left']
  rcases stepIndex_eq hindex with ⟨rfl, -⟩ | ⟨-, hstep, hsum⟩
  · exact absurd (hnext ▸ hvalue) (by decide)
  · have heq : index + 1 = e.value := Int32.toInt.inj (hsum.trans hnext.symm)
    rw [hstep, Outcome.done_bind, heq]

/-- A name with a value is read where that is above the index. -/
theorem namelistSetTextValue_explicit (he : Separable e) (hindex : 0 ≤ index.toInt)
    {digits : List UInt8} (hdigits : (Json.numText e.value.toInt).map Char.toUInt8 = digits)
    (rest : List UInt8) :
    namelistSetTextValue index (e.name.chars ++ '='.toUInt8 :: digits ++ ','.toUInt8 :: rest) =
      stepIndex index >>= fun next =>
        if e.value.toInt < next.toInt then .error (-EINVAL)
        else .done
          ⟨e.name.chars.length + 1 + digits.length + 1, e.name.chars, e.value, e.value⟩ := by
  obtain ⟨-, rfl, hten, hnul, hcomma, -, hatoi⟩ := numText_value he.pos
  rw [hdigits] at hten hnul hcomma hatoi
  have hlen := he.length_le
  have hdigest : DIGEST_SIZE = 32 := rfl
  have hbody : (e.name.chars ++ '='.toUInt8 :: digits).length =
      e.name.chars.length + 1 + digits.length := by
    rw [List.length_append, List.length_cons, Nat.add_comm digits.length, Nat.add_assoc]
  have hbcomma : ','.toUInt8 ∉ e.name.chars ++ '='.toUInt8 :: digits := by
    rw [List.mem_append, List.mem_cons, not_or, not_or]
    exact ⟨he.comma, by decide, hcomma⟩
  have hbnul : 0 ∉ e.name.chars ++ '='.toUInt8 :: digits := by
    rw [List.mem_append, List.mem_cons, not_or, not_or]
    exact ⟨e.name.nul_free, by decide, hnul⟩
  have hbblank : (e.name.chars ++ '='.toUInt8 :: digits).head? ≠ some ' '.toUInt8 := by
    have := he.blank
    rcases hname : e.name.chars with _ | ⟨c, cs⟩
    · rw [List.nil_append, List.head?_cons]
      decide
    · simpa [hname] using this
  have hfield := getfiledfromstr_field rest (n := 128) hbcomma hbnul hbblank
    (by decide) (by decide) (by omega)
  have hequals := getfiledfromstr_field (digits ++ [0])
    (n := (e.name.chars ++ '='.toUInt8 :: digits).length) he.equals e.name.nul_free he.blank
    (by decide) (by decide) (by omega)
  have hdrop : (e.name.chars ++ '='.toUInt8 :: digits ++ [0]).drop (e.name.chars.length + 1) =
      digits ++ 0 :: [] := by
    rw [List.append_assoc, List.cons_append, ← List.drop_drop, List.drop_left]
    rfl
  have htake : (e.name.chars ++ '='.toUInt8 :: digits ++ ','.toUInt8 :: rest).take
      e.name.chars.length = e.name.chars := by
    rw [List.append_assoc, List.take_left]
  rw [hbody] at hfield hequals
  rw [← List.cons_append, ← List.append_assoc] at hequals
  have hshort : ¬ e.name.chars.length + 1 + digits.length > DIGEST_SIZE * 2 := by omega
  have hnamed : ¬ e.name.chars.length = e.name.chars.length + 1 + digits.length := by omega
  have hlimit : e.name.chars.length + 1 + digits.length - e.name.chars.length =
      digits.length + 1 := by omega
  rw [namelistSetTextValue, hfield, Outcome.done_bind]
  simp only [if_neg hshort, hequals, Outcome.done_bind, if_neg hnamed, hlimit, hdrop, htake,
    hatoi, Int32.ofInt_toInt]
  rcases stepIndex_eq hindex with ⟨-, hstep⟩ | ⟨-, hstep, hsum⟩
  · rw [hstep, Outcome.fault_bind, Outcome.fault_bind]
  · have hlt : e.value.toUInt32 < (index + 1).toUInt32 ↔ e.value.toInt < (index + 1).toInt :=
      toUInt32_lt he.pos.le (by omega)
    simp only [hstep, Outcome.done_bind, hlt, Int32.toInt32_toUInt32]

/-- What is read of a text of an element: it is told by the index and the value whether the
    element is taken. -/
theorem namelistSetTextValue_written (he : Separable e) (hindex : 0 ≤ index.toInt)
    {text mem : List UInt8} (hw : WrittenAs index.toInt e text) (hmem : text <+: mem) :
    (index.toInt < e.value.toInt ∧ ∃ r, namelistSetTextValue index mem = .done r ∧
      ReadAs e r ∧ r.offset = text.length ∧ r.index = e.value) ∨
    (e.value.toInt ≤ index.toInt ∧ (namelistSetTextValue index mem = .error (-EINVAL) ∨
      index = Int32.maxValue ∧ namelistSetTextValue index mem = .fault)) := by
  obtain ⟨rest, rfl⟩ := hmem
  rcases hw with ⟨rfl, hnext⟩ | htext
  · refine .inl ⟨by omega, ⟨e.name.chars.length + 1, e.name.chars, e.value, e.value⟩, ?_,
      ⟨rfl, rfl⟩, ?_, rfl⟩
    · rw [List.append_assoc]
      exact namelistSetTextValue_implicit he hindex hnext rest
    · rw [List.length_append, List.length_singleton]
  · have hread := namelistSetTextValue_explicit he hindex rfl rest
    rw [htext, List.append_assoc, List.singleton_append, hread]
    rcases stepIndex_eq hindex with ⟨hmax, hstep⟩ | ⟨-, hstep, hsum⟩
    · have hlt := toInt_lt e.value
      have hge : e.value.toInt ≤ index.toInt := by
        rw [hmax]
        exact Int.lt_add_one_iff.1 hlt
      rw [hstep]
      exact .inr ⟨hge, .inr ⟨hmax, rfl⟩⟩
    · rw [hstep, Outcome.done_bind, hsum]
      by_cases hlt : e.value.toInt < index.toInt + 1
      · rw [if_pos hlt]
        exact .inr ⟨by omega, .inl rfl⟩
      · rw [if_neg hlt]
        refine .inl ⟨by omega, _, rfl, ⟨rfl, rfl⟩, ?_, rfl⟩
        simp only [List.length_append, List.length_cons, List.length_nil, List.length_map]
        omega

end Reading

/-! ## Writing -/

/-- What is written of an element. -/
theorem namelistGetTextValue_eq (he : Separable e) (hindex : 0 ≤ index.toInt) :
    (index.toInt < e.value.toInt ∧
      namelistGetTextValue index e = .done (nameText index.toInt e ++ [0], e.value)) ∨
    (e.value.toInt ≤ index.toInt ∧ (namelistGetTextValue index e = .error (-EINVAL) ∨
      index = Int32.maxValue ∧ namelistGetTextValue index e = .fault)) := by
  have hlt := toInt_lt e.value
  have hitoa : Json.itoa e.value.toInt = .done (Json.numText e.value.toInt) :=
    if_neg (by have := he.pos; omega)
  rw [namelistGetTextValue, if_neg (Nat.not_lt.2 he.length_le)]
  rcases stepIndex_eq hindex with ⟨hmax, hstep⟩ | ⟨-, hstep, hsum⟩
  · rw [hstep]
    exact .inr ⟨by rw [hmax]; exact Int.lt_add_one_iff.1 hlt, .inr ⟨hmax, rfl⟩⟩
  · have hbelow : e.value.toUInt32 < (index + 1).toUInt32 ↔ e.value.toInt < index.toInt + 1 := by
      rw [toUInt32_lt he.pos.le (by omega), hsum]
    have habove : (index + 1).toUInt32 < e.value.toUInt32 ↔ index.toInt + 1 < e.value.toInt := by
      rw [toUInt32_lt (by omega) he.pos.le, hsum]
    simp only [hstep, Outcome.done_bind, hbelow, habove, gt_iff_lt, Int32.toInt32_toUInt32, hitoa]
    rcases Int.lt_trichotomy e.value.toInt (index.toInt + 1) with h | h | h
    · rw [if_pos h]
      exact .inr ⟨by omega, .inl rfl⟩
    · have heq : index + 1 = e.value := Int32.toInt.inj (hsum.trans h.symm)
      rw [if_neg (by omega), if_neg (by omega), nameText, if_pos h, heq, List.append_assoc]
      exact .inl ⟨by omega, rfl⟩
    · rw [if_neg (by omega), if_pos h, nameText, if_neg (by omega)]
      refine .inl ⟨by omega, ?_⟩
      rw [List.append_assoc _ [','.toUInt8] [0]]
      rfl

/-! ## Lists -/

theorem increasing_cons {prev : Int} :
    Increasing prev (e :: list) ↔ prev < e.value.toInt ∧ Increasing e.value.toInt list := by
  simp only [Increasing, List.map_cons, List.pairwise_cons, List.mem_cons]
  constructor
  · rintro ⟨h, hmore⟩
    exact ⟨h _ (.inl rfl), hmore⟩
  · rintro ⟨h, hlater, hmore⟩
    refine ⟨?_, hlater, hmore⟩
    rintro v (rfl | hv)
    · exact h
    · exact h.trans (hlater v hv)

/-- The texts that are written are texts of the elements. -/
theorem allWritten_nameTexts (prev : Int) (list : List NameValue) :
    AllWritten prev list (nameTexts prev list) := by
  induction list generalizing prev with
  | nil => rfl
  | cons e list ih =>
    refine ⟨_, _, rfl, ?_, ih _⟩
    by_cases hnext : e.value.toInt = prev + 1
    · rw [nameText, if_pos hnext]
      exact .inl ⟨rfl, hnext⟩
    · rw [nameText, if_neg hnext]
      exact .inr rfl

/-- A list is rejected where its first element is, or where the others are. -/
theorem Rejected.first {α : Type}
    {x : Outcome α} (h : x = .error (-EINVAL) ∨ index = Int32.maxValue ∧ x = .fault) :
    Rejected index (e :: list) x := by
  rcases h with h | ⟨rfl, h⟩
  · exact .inl h
  · exact .inr ⟨h, List.mem_cons_self⟩

theorem Rejected.later {α β : Type}
    {x : Outcome α} (h : Rejected e.value list x) (f : α → Outcome β) :
    Rejected index (e :: list) (x >>= f) := by
  rcases h with rfl | ⟨rfl, hmem⟩
  · exact .inl rfl
  · exact .inr ⟨rfl, List.mem_cons_of_mem _ hmem⟩

/-- Texts of a list are read as the list if its values increase, and are rejected if not.
    The induction is on the list; the index is the value before it. -/
theorem readNames_written (hlist : ∀ e ∈ list, Separable e)
    (hindex : 0 ≤ index.toInt) {texts mems : List (List UInt8)}
    (hw : AllWritten index.toInt list texts) (hmems : List.Forall₂ (· <+: ·) texts mems) :
    (Increasing index.toInt list → ∃ out, readNames index mems = .done out ∧
      List.Forall₂ ReadAs list out ∧ out.map ReadName.offset = texts.map List.length) ∧
    (¬ Increasing index.toInt list → Rejected index list (readNames index mems)) := by
  induction list generalizing index texts mems with
  | nil =>
    obtain rfl : texts = [] := hw
    obtain rfl := List.forall₂_nil_left_iff.1 hmems
    exact ⟨fun _ => ⟨[], rfl, .nil, rfl⟩, fun h => absurd (List.pairwise_singleton _ _) h⟩
  | cons e list ih =>
    obtain ⟨text, more, rfl, hfirst, hmore⟩ := hw
    obtain ⟨mem, mems, hmem, htail, rfl⟩ := List.forall₂_cons_left_iff.1 hmems
    obtain ⟨he, hlist⟩ := List.forall_mem_cons.1 hlist
    rw [increasing_cons, readNames]
    rcases namelistSetTextValue_written he hindex hfirst hmem with
      ⟨hlt, r, hread, has, hoffset, hnext⟩ | ⟨hge, hreject⟩
    · obtain ⟨htaken, hrejected⟩ := ih hlist he.pos.le hmore htail
      rw [hread, Outcome.done_bind, hnext]
      refine ⟨?_, fun h => (hrejected fun hinc => h ⟨hlt, hinc⟩).later _⟩
      rintro ⟨-, hinc⟩
      obtain ⟨out, hout, hall, hoffsets⟩ := htaken hinc
      rw [hout]
      refine ⟨r :: out, rfl, .cons has hall, ?_⟩
      rw [List.map_cons, List.map_cons, hoffset, hoffsets]
    · refine ⟨fun h => absurd h.1 (Int.not_lt.2 hge), fun _ => .first ?_⟩
      rcases hreject with h | ⟨hmax, h⟩
      · exact .inl (by rw [h]; rfl)
      · exact .inr ⟨hmax, by rw [h]; rfl⟩

/-- A list is written if its values increase, and is rejected if not. -/
theorem printNames_eq (hlist : ∀ e ∈ list, Separable e) (hindex : 0 ≤ index.toInt) :
    (Increasing index.toInt list →
      printNames index list = .done ((nameTexts index.toInt list).map (· ++ [0]))) ∧
    (¬ Increasing index.toInt list → Rejected index list (printNames index list)) := by
  induction list generalizing index with
  | nil => exact ⟨fun _ => rfl, fun h => absurd (List.pairwise_singleton _ _) h⟩
  | cons e list ih =>
    obtain ⟨he, hlist⟩ := List.forall_mem_cons.1 hlist
    rw [increasing_cons, printNames]
    rcases namelistGetTextValue_eq he hindex with ⟨hlt, hget⟩ | ⟨hge, hreject⟩
    · obtain ⟨htaken, hrejected⟩ := ih hlist he.pos.le
      rw [hget, Outcome.done_bind]
      refine ⟨?_, fun h => (hrejected fun hinc => h ⟨hlt, hinc⟩).later _⟩
      rintro ⟨-, hinc⟩
      simp only [htaken hinc, Outcome.done_bind, nameTexts, List.map_cons]
    · refine ⟨fun h => absurd h.1 (Int.not_lt.2 hge), fun _ => .first ?_⟩
      rcases hreject with h | ⟨hmax, h⟩
      · exact .inl (by rw [h]; rfl)
      · exact .inr ⟨hmax, by rw [h]; rfl⟩

/-! ## Round trip -/

/-- A list of names and values is restored from its text if the values increase, and is
    rejected on both ways if they do not. -/
theorem nameListText {list : List NameValue} (hlist : ∀ e ∈ list, Separable e) :
    (Increasing 0 list → NamesRestored list) ∧ (¬ Increasing 0 list → NamesRejected list) := by
  have hzero : 0 ≤ (0 : Int32).toInt := Int.le_rfl
  have hprint := printNames_eq hlist hzero
  have hread {texts mems : List (List UInt8)} (hw : AllWritten 0 list texts)
      (hmems : List.Forall₂ (· <+: ·) texts mems) := readNames_written hlist hzero hw hmems
  exact ⟨fun hinc => ⟨hprint.1 hinc, fun mems hmems =>
      (hread (allWritten_nameTexts 0 list) hmems).1 hinc⟩,
    fun hinc => ⟨hprint.2 hinc, fun texts mems hw hmems => (hread hw hmems).2 hinc⟩⟩

/-- The names `a` of 1, `b` of 2 and `c` of 7 are restored. -/
theorem nameListText_gap :
    NamesRestored [⟨⟨[97], by decide⟩, 1⟩, ⟨⟨[98], by decide⟩, 2⟩, ⟨⟨[99], by decide⟩, 7⟩] := by
  refine (nameListText fun e he => ?_).1 (by decide)
  simp only [List.mem_cons, List.not_mem_nil, or_false] at he
  rcases he with rfl | rfl | rfl <;>
    exact { pos := by decide, comma := by decide, equals := by decide, length_le := by decide,
            blank := by decide }

/-- A name of 33 characters is rejected, and is not restored. -/
theorem not_namesRestored_long :
    (∀ e ∈ [(⟨⟨.replicate 33 97, by decide⟩, 1⟩ : NameValue)], Plain e) ∧
      Increasing 0 [⟨⟨.replicate 33 97, by decide⟩, 1⟩] ∧
      ¬ NamesRestored [⟨⟨.replicate 33 97, by decide⟩, 1⟩] := by
  refine ⟨fun e he => ?_, by decide, fun h => ?_⟩
  · obtain rfl := List.mem_singleton.1 he
    exact { pos := by decide, comma := by decide, equals := by decide }
  · have hprinted := h.printed
    rw [printNames, namelistGetTextValue, if_pos (by decide)] at hprinted
    cases hprinted

end Cube.Text
