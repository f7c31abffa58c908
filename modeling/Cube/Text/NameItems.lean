import Cube.Text.ElemText
import Cube.Text.ElemTypeName

/-!
# Lists of names as elements

An element that is a list of names and values goes through the loops of
`_elem_get_text_value` and `_elem_set_text_value`. The text of each of its items has an end
of its own, so that what is read stops behind the first of them.

* `namelistSet_prefix`: the name that is read is in front of its field;
* `not_setItems_end`: behind the first item nothing is read;
* `defnamelistRestored_iff`: what is restored.
-/

namespace Cube.Text

open Lib Memdb Message

/-! ## The operations of an item -/

/-- `namelist_get_text_value` of an item whose name may be a null pointer. A name that is too
    long is not written, while that of a value that is too small is. -/
def namelistGet (index : Int) (namelist : Entry) : Outcome (Int × List UInt8 × Int) :=
  match namelist.name with
  | none => .fault
  | some name =>
    match namelistGetTextValue (Int32.ofInt index) ⟨name, namelist.value⟩ with
    | .done (text, index') => .done (text.length, text, index'.toInt)
    | .error ret =>
      if name.chars.length > DIGEST_SIZE then .done (ret, [], index)
      else .done (ret, name.chars, (Int32.ofInt index + 1).toInt)
    | .fault => .fault

/-- `namelist_set_text_value` of an item, which an error leaves as it is. The index is
    stepped before a value is rejected, but not before a text that is too long. -/
def namelistSet (index : Int) (namelist : Entry) (text : List UInt8) : Outcome (Int × Entry × Int) :=
  match namelistSetTextValue (Int32.ofInt index) text with
  | .done r => .done (r.offset, ⟨some (nameAt (r.name ++ [0])), r.value⟩, r.index.toInt)
  | .error ret => do
    let (_, textlen) ← getfiledfromstr text comma 128
    if textlen > DIGEST_SIZE * 2 then .done (ret, namelist, index)
    else .done (ret, namelist, (Int32.ofInt index + 1).toInt)
  | .fault => .fault

/-- `defnamelist_convert_ops`. -/
def defnamelistOps : TextOps Entry where
  getTextValue := namelistGet
  setTextValue := namelistSet
  zero _ := ⟨none, 0⟩

/-! ## What is read of an item -/

/-- The item of a list that has a name. -/
def NameValue.toEntry (e : NameValue) : Entry := ⟨some e.name, e.value⟩

variable {ret index' : Int} {text rest : List UInt8} {e : NameValue}

/-- An item that has a name is read without an error. -/
theorem namelistSet_eq_done {index : Int}
    (h : namelistSet index (defnamelistOps.zero 1) text = .done (ret, e.toEntry, index')) :
    ∃ r, namelistSetTextValue (Int32.ofInt index) text = .done r ∧
      e.name = nameAt (r.name ++ [0]) ∧ r.value = e.value := by
  rw [namelistSet] at h
  split at h
  next r hr =>
    rw [Outcome.done.injEq, Prod.mk.injEq, Prod.mk.injEq] at h
    obtain ⟨hname, hvalue⟩ := Entry.mk.inj h.2.1
    exact ⟨r, hr, (Option.some.inj hname).symm, hvalue⟩
  next =>
    -- An item that is left as it was has no name.
    obtain ⟨⟨_, textlen⟩, -, h⟩ := Outcome.bind_eq_done.1 h
    simp only at h
    split_ifs at h
    all_goals
      rw [Outcome.done.injEq, Prod.mk.injEq, Prod.mk.injEq] at h
      cases (Entry.mk.inj h.2.1).1
  next => cases h

/-- What is copied for a name is the front of the text. -/
theorem namelistSetTextValue_name {index : Int32} {r : ReadName}
    (h : namelistSetTextValue index text = .done r) : ∃ k, r.name = text.take k := by
  obtain ⟨⟨buf, textlen⟩, -, h⟩ := Outcome.bind_eq_done.1 h
  simp only at h
  split_ifs at h
  obtain ⟨⟨_, namelen⟩, -, h⟩ := Outcome.bind_eq_done.1 h
  obtain ⟨next, -, h⟩ := Outcome.bind_eq_done.1 h
  simp only at h
  split_ifs at h
  · exact ⟨namelen, by rw [← Outcome.done.inj h]⟩
  · obtain ⟨ret, -, h⟩ := Outcome.bind_eq_done.1 h
    split_ifs at h
    exact ⟨namelen, by rw [← Outcome.done.inj h]⟩

/-- The name that is read is in front of its field. -/
theorem namelistSet_prefix {index : Int} {field : List UInt8} (hnul : 0 ∉ field)
    (h : namelistSet index (defnamelistOps.zero 1) (field ++ 0 :: rest) =
      .done (ret, e.toEntry, index')) : e.name.chars <+: field := by
  obtain ⟨r, hr, hname, -⟩ := namelistSet_eq_done h
  obtain ⟨k, hk⟩ := namelistSetTextValue_name hr
  rw [hname, hk]
  change ((field ++ 0 :: rest).take k ++ [0]).takeWhile (· ≠ 0) <+: field
  have hall : ∀ c ∈ field, decide (c ≠ 0) = true := fun c hc =>
    decide_eq_true fun h0 => hnul (h0 ▸ hc)
  rcases Nat.lt_or_ge field.length k with hlt | hle
  · obtain ⟨j, rfl⟩ : ∃ j, k = field.length + (j + 1) := ⟨k - field.length - 1, by omega⟩
    have hwhole : ((field ++ 0 :: rest).take (field.length + (j + 1)) ++ [0]).takeWhile (· ≠ 0) =
        field := by
      rw [List.take_length_add_append, List.take_succ_cons, List.append_assoc]
      exact takeWhile_terminator hnul _
    exact hwhole.symm ▸ List.prefix_refl field
  · rw [List.take_append_of_le_length hle, List.takeWhile_append_of_pos fun c hc =>
      hall c (List.mem_of_mem_take hc), List.takeWhile_cons_of_neg (by decide), List.append_nil]
    exact List.take_prefix k field

/-! ## The text of an item -/

/-- What is written of an item behind the index zero: its name, with a value other than
    one. -/
def itemText (e : NameValue) : List UInt8 :=
  if e.value = 1 then e.name.chars
  else e.name.chars ++ '='.toUInt8 :: (Json.numText e.value.toInt).map Char.toUInt8

/-- The text of a value other than zero: a sign, and the digits of its number. -/
theorem numText_digits {v : Int32} (hv : v.toInt ≠ 0) : ∃ k, k < 10 ∧
    v.toInt.natAbs < 10 ^ (k + 1) ∧ (Json.numText v.toInt).map Char.toUInt8 =
      (if v.toInt < 0 then ['-'.toUInt8] else []) ++ Struct.printDigits k v.toInt.natAbs := by
  have hlt := toInt_lt v
  have hge : -2 ^ 31 ≤ v.toInt := v.le_toInt
  obtain ⟨k, hk, hless, hprint⟩ := itoaLoop_print (show 0 < v.toInt.natAbs by omega)
  refine ⟨k, (Nat.pow_lt_pow_iff_right (a := 10) (by decide)).1 (hk.trans_lt (by omega)), hless, ?_⟩
  rw [Json.numText, List.map_append, hprint]
  split_ifs <;> rfl

/-- The characters of a number are no separators, and there are eleven at most. -/
theorem numText_field {v : Int32} (hv : v.toInt ≠ 0) :
    0 ∉ (Json.numText v.toInt).map Char.toUInt8 ∧ comma ∉ (Json.numText v.toInt).map Char.toUInt8 ∧
      ((Json.numText v.toInt).map Char.toUInt8).length ≤ 11 := by
  obtain ⟨k, hk, hlt, hprint⟩ := numText_digits hv
  have hall : ∀ d < 10, Struct.digitChar d ≠ 0 ∧ Struct.digitChar d ≠ comma := by decide
  have hdigits : ∀ c ∈ Struct.printDigits k v.toInt.natAbs, c ≠ 0 ∧ c ≠ comma := fun c hc => by
    obtain ⟨d, hd, rfl⟩ := mem_printDigits hlt hc
    exact hall d hd
  have hlen := Struct.length_printDigits k v.toInt.natAbs
  rw [hprint]
  split_ifs
  · simp only [List.singleton_append, List.mem_cons, List.length_cons, not_or]
    exact ⟨⟨by decide, fun h => (hdigits 0 h).1 rfl⟩, ⟨by decide, fun h => (hdigits _ h).2 rfl⟩,
      by omega⟩
  · rw [List.nil_append]
    exact ⟨fun h => (hdigits 0 h).1 rfl, fun h => (hdigits _ h).2 rfl, by omega⟩

/-- What is written of an item behind the index zero: its name has to be short enough, and
    its value is neither zero nor the one whose negative is no `int`. -/
theorem namelistGet_zero (hret : 0 ≤ ret) :
    namelistGet 0 e.toEntry = .done (ret, text, index') ↔
      text = itemText e ++ [comma, 0] ∧ ret = text.length ∧ index' = e.value.toInt ∧
        e.name.chars.length ≤ DIGEST_SIZE ∧ e.value ≠ 0 ∧ e.value.toInt ≠ -2 ^ 31 := by
  have hstep : stepIndex (Int32.ofInt 0) = .done 1 := by decide
  have hone : (1 : Int32).toUInt32 = 1 := by decide
  have hneg : ¬ (0 : Int) ≤ -EINVAL := by decide
  have hinj (v : Int32) : e.value.toUInt32.toNat = v.toUInt32.toNat ↔ e.value = v := by
    refine ⟨fun h => ?_, fun h => by rw [h]⟩
    have := congrArg UInt32.toInt32 (UInt32.toNat_inj.1 h)
    simpa only [Int32.toInt32_toUInt32] using this
  have hbelow : e.value.toUInt32 < 1 ↔ e.value = 0 := by
    rw [UInt32.lt_iff_toNat_lt, ← hinj]
    exact Nat.lt_one_iff
  have habove : ¬ e.value = 0 → ((1 : UInt32) < e.value.toUInt32 ↔ e.value ≠ 1) := fun h0 => by
    rw [← hinj] at h0
    rw [UInt32.lt_iff_toNat_lt, ne_eq, ← hinj]
    change 1 < _ ↔ ¬ _ = 1
    change ¬ _ = 0 at h0
    omega
  rw [namelistGet, NameValue.toEntry]
  simp only [namelistGetTextValue, hstep, Outcome.done_bind, hone, hbelow, gt_iff_lt,
    Int32.toInt32_toUInt32]
  by_cases hlong : e.name.chars.length > DIGEST_SIZE
  · simp only [if_pos hlong, Outcome.done.injEq, Prod.mk.injEq]
    exact iff_of_false (fun h => hneg (h.1 ▸ hret)) fun h => Nat.not_lt.2 h.2.2.2.1 hlong
  by_cases hzero : e.value = 0
  · simp only [if_neg hlong, if_pos hzero, Outcome.done.injEq, Prod.mk.injEq]
    exact iff_of_false (fun h => hneg (h.1 ▸ hret)) fun h => h.2.2.2.2.1 hzero
  simp only [if_neg hlong, if_neg hzero, habove hzero, itemText]
  have hshort := Nat.not_lt.1 hlong
  by_cases hvalue : e.value = 1
  · simp only [hvalue, ne_eq, not_true_eq_false, if_false, if_true, Outcome.done.injEq, Prod.mk.injEq]
    constructor
    · rintro ⟨rfl, rfl, rfl⟩
      exact ⟨rfl, rfl, rfl, hshort, by decide, by decide⟩
    · rintro ⟨rfl, rfl, rfl, -⟩
      exact ⟨rfl, rfl, rfl⟩
  · simp only [hvalue, ne_eq, not_false_eq_true, if_false, if_true, Json.itoa]
    by_cases hleast : e.value.toInt = -2 ^ 31
    · rw [if_pos hleast]
      refine iff_of_false (fun h => ?_) fun h => h.2.2.2.2.2 hleast
      cases h
    · rw [if_neg hleast]
      simp only [Outcome.done_bind, Outcome.done.injEq, Prod.mk.injEq]
      constructor
      · rintro ⟨rfl, rfl, rfl⟩
        exact ⟨rfl, rfl, rfl, hshort, hzero, hleast⟩
      · rintro ⟨rfl, rfl, rfl, -⟩
        exact ⟨rfl, rfl, rfl⟩

/-! ## Reading one item -/

/-- The text of an item is one field exactly if its name has no comma and no blank at its
    beginning. -/
theorem oneField_itemText (hzero : e.value ≠ 0) :
    OneField (itemText e) ↔ OneField e.name.chars := by
  have hne : e.value.toInt ≠ 0 := fun h => hzero (Int32.toInt_inj.1 h)
  obtain ⟨-, hcomma, -⟩ := numText_field hne
  rw [itemText]
  split_ifs with hone
  · rfl
  · have hhead : (e.name.chars ++ '='.toUInt8 :: (Json.numText e.value.toInt).map Char.toUInt8).head? ≠
        some ' '.toUInt8 ↔ e.name.chars.head? ≠ some ' '.toUInt8 := by
      rcases e.name.chars with _ | ⟨c, cs⟩
      · exact iff_of_true (by rw [List.nil_append, List.head?_cons]; decide) (by decide)
      · rfl
    constructor
    · rintro ⟨h, hb⟩
      exact ⟨fun hmem => h (List.mem_append_left _ hmem), hhead.1 hb⟩
    · rintro ⟨h, hb⟩
      refine ⟨fun hmem => ?_, hhead.2 hb⟩
      rcases List.mem_append.1 hmem with hmem | hmem
      · exact h hmem
      · rcases List.mem_cons.1 hmem with hmem | hmem
        · exact absurd hmem (by decide)
        · exact hcomma hmem

theorem zero_notMem_itemText (hzero : e.value ≠ 0) : 0 ∉ itemText e := by
  have hne : e.value.toInt ≠ 0 := fun h => hzero (Int32.toInt_inj.1 h)
  obtain ⟨hnul, -, -⟩ := numText_field hne
  rw [itemText]
  split_ifs
  · exact e.name.nul_free
  · rw [List.mem_append, List.mem_cons, not_or, not_or]
    exact ⟨e.name.nul_free, by decide, hnul⟩

theorem length_itemText (hlen : e.name.chars.length ≤ DIGEST_SIZE)
    (hzero : e.value ≠ 0) : (itemText e).length ≤ DIGEST_SIZE * 2 := by
  have hdigest : DIGEST_SIZE = 32 := rfl
  obtain ⟨-, -, hdigits⟩ := numText_field fun h => hzero (Int32.toInt_inj.1 h)
  rw [itemText]
  split_ifs
  · omega
  · rw [List.length_append, List.length_cons]
    omega

/-- An item is not read back from a field that is not its text. -/
theorem not_namelistSet_short (hzero : e.value ≠ 0) (hone : ¬ OneField (itemText e))
    {index : Int} {field : List UInt8} (hfield : OneField field) (hnul : 0 ∉ field) :
    namelistSet index (defnamelistOps.zero 1) (field ++ 0 :: rest) ≠ .done (ret, e.toEntry, index') := by
  intro h
  obtain ⟨more, rfl⟩ := namelistSet_prefix hnul h
  refine hone ((oneField_itemText hzero).2 ⟨fun hmem => hfield.comma (List.mem_append_left _ hmem),
    fun hblank => hfield.blank ?_⟩)
  rcases hchars : e.name.chars with _ | ⟨c, cs⟩
  · rw [hchars] at hblank
    cases hblank
  · rw [hchars] at hblank
    exact hblank

/-! ## Arrays -/

/-- The first round of the loop reads the item back from its text as one field. -/
theorem setItems_name {n : Nat} {items : List Entry}
    (hzero : e.value ≠ 0) (hlen : (itemText e).length < DIGEST_SIZE * 32)
    (h : setItems defnamelistOps (n + 1) 0 [] (itemText e ++ comma :: rest) =
      .done (ret, e.toEntry :: items)) :
    OneField (itemText e) ∧ ∃ ret' index' ret'',
      namelistSet 0 (defnamelistOps.zero 1) (itemText e ++ [0]) = .done (ret', e.toEntry, index') ∧
      setItems defnamelistOps n index' (itemText e ++ [0]) rest = .done (ret'', items) := by
  obtain ⟨written, strlen, ret', item, index', c, ret'', more, hfield, hset, hc, hc0, hmore, heq⟩ :=
    setItems_succ h
  obtain ⟨rfl, rfl⟩ := List.cons.inj heq
  have hnul := zero_notMem_itemText hzero
  rw [List.drop_nil, List.append_nil] at hset hmore
  by_cases hone : OneField (itemText e)
  · have hall := getfiledfromstr_blanks (k := 0) hone hnul (.inl rfl) hlen rest
    rw [List.replicate_zero, List.nil_append, hfield, if_neg fun h => absurd h.2 (by decide),
      Nat.zero_add, Outcome.done.injEq, Prod.mk.injEq] at hall
    obtain ⟨rfl, rfl⟩ := hall
    rw [List.getElem?_append_right (Nat.le_refl _), Nat.sub_self, List.getElem?_cons_zero,
      Option.some.injEq] at hc
    rw [if_pos hc.symm, ← List.drop_drop, List.drop_left, List.drop_succ_cons, List.drop_zero] at hmore
    exact ⟨hone, ret', index', ret'', hset, hmore⟩
  · -- What is read is in front of a shorter field.
    obtain ⟨k, field, c', after, htext, hone', hnul', hshort, hc'⟩ :=
      exists_field hnul hone comma rest
    have hcomma : c' = comma := hc'.elim id And.left
    have hall := getfiledfromstr_blanks (k := k) hone' hnul' (.inl hcomma) (hshort.trans hlen) after
    rw [← htext, hfield, if_neg fun h => absurd (hcomma.symm.trans h.2) (by decide),
      Outcome.done.injEq, Prod.mk.injEq] at hall
    rw [hall.1] at hset
    exact absurd hset (not_namelistSet_short hzero hone hone' hnul')

/-- What follows the text of an item is its end, where the loop stops. -/
theorem not_setItems_end (n : Nat) (index : Int) (buf rest : List UInt8) (r : Int × List Entry) :
    setItems defnamelistOps (n + 1) index buf (0 :: rest) ≠ .done r := by
  intro h
  obtain ⟨written, strlen, _, _, _, c, _, _, hfield, -, hc, hc0, -, -⟩ := setItems_succ h
  have hall : getfiledfromstr (0 :: rest) comma (DIGEST_SIZE * 32) = .done ([], 0) := rfl
  rw [hfield, Outcome.done.injEq, Prod.mk.injEq] at hall
  rw [hall.2, List.getElem?_cons_zero, Option.some.injEq] at hc
  exact hc0 hc.symm

/-- One item is read back where its operation reads it from its text. -/
theorem setItems_single (hnul : 0 ∉ itemText e)
    (hlen : (itemText e).length < DIGEST_SIZE * 32) (hone : OneField (itemText e))
    (hset : namelistSet 0 (defnamelistOps.zero 1) (itemText e ++ [0]) = .done (ret, e.toEntry, index')) :
    setItems defnamelistOps 1 0 [] (itemText e ++ comma :: rest) =
      .done ((itemText e).length + 1, [e.toEntry]) := by
  have hall := getfiledfromstr_blanks (k := 0) hone hnul (.inl rfl) hlen rest
  rw [List.replicate_zero, List.nil_append, if_neg fun h => absurd h.2 (by decide),
    Nat.zero_add] at hall
  have hread : defnamelistOps.setTextValue 0 (defnamelistOps.zero 1) (itemText e ++ [0]) = _ := hset
  have hat : (itemText e ++ comma :: rest)[(itemText e).length]? = some comma := by simp
  rw [setItems, hall, Outcome.done_bind]
  simp only [List.drop_nil, List.append_nil, hread, Outcome.done_bind, hat, if_true, setItems,
    Outcome.map_done, Int.zero_add]

/-! ## The name and the value of a field -/

section Field

variable {field front back : List UInt8}

/-- A field without a value is a name with the value one. -/
theorem namelistSetTextValue_named (hfield : OneField field) (hnul : 0 ∉ field) (hne : field ≠ [])
    (hequals : '='.toUInt8 ∉ field) (hlen : field.length ≤ DIGEST_SIZE * 2) :
    namelistSetTextValue 0 (field ++ [0]) = .done ⟨field.length + 1, field, 1, 1⟩ := by
  have hstep : stepIndex 0 = .done 1 := by decide
  have hread := getfiledfromstr_blanks (k := 0) hfield hnul (.inr rfl) (n := 128)
    (hlen.trans_lt (by decide)) []
  rw [List.replicate_zero, List.nil_append, if_neg fun h => hne h.1, Nat.zero_add] at hread
  obtain ⟨name, hname⟩ := getfiledfromstr_all hequals hnul hfield.blank
  rw [namelistSetTextValue]
  change getfiledfromstr _ comma 128 >>= _ = _
  rw [hread, Outcome.done_bind]
  simp only [if_neg (Nat.not_lt.2 hlen), hname, Outcome.done_bind, hstep, if_true, List.take_left']

/-- A field with a value is the name in front of it, and what `Atoi` makes of the value. -/
theorem namelistSetTextValue_valued (hfield : OneField (front ++ '='.toUInt8 :: back))
    (hnul : 0 ∉ front ++ '='.toUInt8 :: back) (hequals : '='.toUInt8 ∉ front)
    (hlen : (front ++ '='.toUInt8 :: back).length ≤ DIGEST_SIZE * 2) :
    namelistSetTextValue 0 (front ++ '='.toUInt8 :: back ++ [0]) =
      atoi (back ++ [0]) (back.length + 1) >>= fun ret =>
        if (Int32.ofInt ret).toUInt32 < 1 then .error (-EINVAL)
        else .done ⟨(front ++ '='.toUInt8 :: back).length + 1, front, Int32.ofInt ret,
          Int32.ofInt ret⟩ := by
  have hstep : stepIndex 0 = .done 1 := by decide
  have hone : (1 : Int32).toUInt32 = 1 := by decide
  have hread := getfiledfromstr_blanks (k := 0) hfield hnul (.inr rfl) (n := 128)
    (hlen.trans_lt (by decide)) []
  rw [List.replicate_zero, List.nil_append, if_neg fun h => absurd h.1 (by simp), Nat.zero_add] at hread
  have hblank : front.head? ≠ some ' '.toUInt8 := fun h => hfield.blank (by
    rcases front with _ | ⟨c, cs⟩
    · cases h
    · exact h)
  have hname := getfiledfromstr_field (back ++ [0]) (n := (front ++ '='.toUInt8 :: back).length)
    hequals (fun h => hnul (List.mem_append_left _ h)) hblank (by decide) (by decide)
    (by rw [List.length_append, List.length_cons]; omega)
  rw [← List.cons_append, ← List.append_assoc] at hname
  have hdrop : (front ++ '='.toUInt8 :: back ++ [0]).drop (front.length + 1) = back ++ [0] := by
    rw [List.append_assoc, List.cons_append, ← List.drop_drop, List.drop_left]
    rfl
  have htake : (front ++ '='.toUInt8 :: back ++ [0]).take front.length = front := by
    rw [List.append_assoc, List.take_left]
  have hlimit : (front ++ '='.toUInt8 :: back).length - front.length = back.length + 1 := by
    rw [List.length_append, List.length_cons, Nat.add_sub_cancel_left]
  have hnamed : ¬ front.length = (front ++ '='.toUInt8 :: back).length := by
    rw [List.length_append, List.length_cons]
    omega
  rw [namelistSetTextValue]
  change getfiledfromstr _ comma 128 >>= _ = _
  rw [hread, Outcome.done_bind]
  simp only [if_neg (Nat.not_lt.2 hlen), hname, Outcome.done_bind, hstep, if_neg hnamed, hdrop,
    htake, hlimit, hone, Int32.toInt32_toUInt32]

/-- `Atoi` does not read a sign. -/
theorem atoi_minus {digits : List UInt8} (hnul : 0 ∉ digits) :
    atoi ('-'.toUInt8 :: digits ++ [0]) (digits.length + 2) = .done (-EINVAL) := by
  have hnul' : 0 ∉ '-'.toUInt8 :: digits := by
    rw [List.mem_cons, not_or]
    exact ⟨by decide, hnul⟩
  have hstrlen : strnlen ('-'.toUInt8 :: digits ++ [0]) (digits.length + 2) =
      .done (digits.length + 1) := strnlen_cstr hnul' (Nat.le_succ _)
  have hhead : Struct.intHead ('-'.toUInt8 :: digits ++ [0]) 0 (digits.length + 1) =
      .done (.digits 0 10) := by
    rw [Struct.intHead.eq_def]
    rfl
  have hdigits : atoiDigits ('-'.toUInt8 :: digits ++ [0]) 10 0 (digits.length + 1) 0 =
      .done (-EINVAL) := by
    rw [atoiDigits, digitsLoop]
    rfl
  rw [atoi, if_neg (by omega), hstrlen, Outcome.done_bind, hhead, Outcome.done_bind]
  exact hdigits

end Field

/-! ## Round trip -/

/-- The items that are restored as the only ones of their list: a name that fits and has no
    separators, with the value one if it is not empty, with one above, or with the value
    that an error of `Atoi` has as well. -/
structure NameRestorable (e : NameValue) : Prop where
  length_le : e.name.chars.length ≤ DIGEST_SIZE
  field : OneField e.name.chars
  equals : '='.toUInt8 ∉ e.name.chars
  value : (e.value = 1 ∧ e.name.chars ≠ []) ∨ 1 < e.value.toInt ∨ e.value.toInt = -EINVAL

/-- The name that is copied is the string of its characters. -/
theorem nameAt_chars {chars : List UInt8} (hnul : 0 ∉ chars) : (nameAt (chars ++ [0])).chars = chars :=
  congrArg Name.chars (nameAt_cstr ⟨chars, hnul⟩ [])

/-- An item is read back if its name and value are. -/
theorem namelistSet_toEntry {r : ReadName}
    (h : namelistSetTextValue 0 text = .done r) (hnul : 0 ∉ r.name) :
    (∃ ret index', namelistSet 0 (defnamelistOps.zero 1) text = .done (ret, e.toEntry, index')) ↔
      r.name = e.name.chars ∧ r.value = e.value := by
  constructor
  · rintro ⟨ret, index', hset⟩
    obtain ⟨r', hr', hname, hvalue⟩ := namelistSet_eq_done hset
    obtain rfl := Outcome.done.inj (h.symm.trans hr')
    exact ⟨by rw [hname, nameAt_chars hnul], hvalue⟩
  · rintro ⟨hname, hvalue⟩
    have hchars : nameAt (r.name ++ [0]) = e.name := Name.ext (by rw [nameAt_chars hnul, hname])
    have hindex : Int32.ofInt 0 = 0 := by decide
    exact ⟨r.offset, r.index.toInt, by
      rw [namelistSet, hindex, h]
      simp only [hchars, hvalue, NameValue.toEntry]⟩

/-- The values that are read back with a name that has no separator. -/
theorem namelistSet_itemText (hlen : e.name.chars.length ≤ DIGEST_SIZE)
    (hzero : e.value ≠ 0) (hfield : OneField e.name.chars) :
    (∃ ret index', namelistSet 0 (defnamelistOps.zero 1) (itemText e ++ [0]) =
      .done (ret, e.toEntry, index')) ↔ '='.toUInt8 ∉ e.name.chars ∧
        ((e.value = 1 ∧ e.name.chars ≠ []) ∨ 1 < e.value.toInt ∨ e.value.toInt = -EINVAL) := by
  have hne : e.value.toInt ≠ 0 := fun h => hzero (Int32.toInt_inj.1 h)
  have hnul := zero_notMem_itemText hzero
  have hone := (oneField_itemText hzero).2 hfield
  have hshort := length_itemText hlen hzero
  by_cases hequals : '='.toUInt8 ∈ e.name.chars
  · -- The name is cut where the value is looked for.
    refine iff_of_false (fun ⟨ret, index', h⟩ => ?_) fun h => h.1 hequals
    obtain ⟨front, back, hname, hfront⟩ := List.eq_append_cons_of_mem hequals
    obtain ⟨back', hback⟩ : ∃ back', itemText e = front ++ '='.toUInt8 :: back' := by
      rw [itemText, hname]
      split_ifs
      · exact ⟨back, rfl⟩
      · exact ⟨_, by rw [List.append_assoc, List.cons_append]⟩
    obtain ⟨r, hr, hread, -⟩ := namelistSet_eq_done h
    have hindex : Int32.ofInt 0 = 0 := by decide
    rw [hback] at hone hnul hshort hr
    rw [hindex, namelistSetTextValue_valued hone hnul hfront hshort] at hr
    obtain ⟨ret', -, hr⟩ := Outcome.bind_eq_done.1 hr
    split_ifs at hr
    have hcut := congrArg (fun name : Name => name.chars.length) hread
    rw [← Outcome.done.inj hr] at hcut
    simp only [nameAt_chars fun h => hnul (List.mem_append_left _ h), hname, List.length_append,
      List.length_cons] at hcut
    omega
  rw [and_iff_right hequals]
  by_cases hvalue : e.value = 1
  · have htext : itemText e = e.name.chars := if_pos hvalue
    rw [htext] at hone hnul hshort ⊢
    have hint : ¬ (1 < e.value.toInt ∨ e.value.toInt = -EINVAL) := by
      rw [hvalue]
      decide
    rw [or_iff_left hint, and_iff_right hvalue]
    by_cases hnil : e.name.chars = []
    · -- Nothing is in the buffer of an empty text.
      rw [hnil]
      refine iff_of_false (fun ⟨ret, index', h⟩ => ?_) (not_not.2 rfl)
      cases h
    · have hr := namelistSetTextValue_named hone hnul hnil hequals hshort
      exact iff_of_true ((namelistSet_toEntry hr hnul).2 ⟨rfl, hvalue.symm⟩) hnil
  · have htext : itemText e = e.name.chars ++
        '='.toUInt8 :: (Json.numText e.value.toInt).map Char.toUInt8 := if_neg hvalue
    have hr := namelistSetTextValue_valued (htext ▸ hone) (htext ▸ hnul) hequals (htext ▸ hshort)
    rw [htext]
    have hone' : e.value.toInt ≠ 1 := fun h => hvalue (Int32.toInt_inj.1 h)
    rw [or_iff_right fun h => hvalue h.1]
    rcases Int.lt_or_lt_of_ne hne with hneg | hpos
    · -- The error of `Atoi` is taken for a value, which is not negative as an unsigned one.
      obtain ⟨k, -, hless, hprint⟩ := numText_digits hne
      rw [if_pos hneg, List.singleton_append] at hprint
      have hminus := atoi_minus (Struct.zero_notMem_printDigits hless)
      rw [hprint, List.length_cons, hminus, Outcome.done_bind, if_neg (by decide)] at hr
      rw [hprint, namelistSet_toEntry hr e.name.nul_free, and_iff_right rfl]
      have hint : (Int32.ofInt (-EINVAL)).toInt = -EINVAL := by decide
      rw [or_iff_right (by omega), ← Int32.toInt_inj, hint, eq_comm]
    · obtain ⟨digits, hprint, -, -, -, -, hatoi⟩ := numText_value hpos
      have hbelow : ¬ e.value.toUInt32 < 1 := by
        rw [UInt32.lt_iff_toNat_lt]
        have := toNat_toUInt32 hpos.le
        change ¬ _ < 1
        omega
      rw [hprint, hatoi, Outcome.done_bind, Int32.ofInt_toInt, if_neg hbelow] at hr
      rw [hprint]
      exact iff_of_true ((namelistSet_toEntry hr e.name.nul_free).2 ⟨rfl, rfl⟩) (.inl (by omega))

/-- The items of a list of names are restored only if there are none, or the only one is
    as said. -/
theorem defnamelistRestored_iff (list : List NameValue) (size : Int) (place : Entry) :
    ArrayRestored defnamelistOps .defnamelist size list.length place (list.map NameValue.toEntry) ↔
      list = [] ∨ ∃ e, list = [e] ∧ NameRestorable e := by
  rcases list with _ | ⟨e, list⟩
  · exact iff_of_true (arrayRestored_nil rfl rfl) (.inl rfl)
  rw [or_iff_right (List.cons_ne_nil _ _), ← List.length_map (f := NameValue.toEntry),
    arrayRestored_iff rfl rfl, List.map_cons]
  -- The text that is written of the first item, if one is.
  have hfirst {strs : List (List UInt8)}
      (h : ItemTexts defnamelistOps 0 (e.toEntry :: list.map NameValue.toEntry) strs) :
      ∃ more, strs = (itemText e ++ [comma, 0]) :: more ∧ e.name.chars.length ≤ DIGEST_SIZE ∧
        e.value ≠ 0 ∧ e.value.toInt ≠ -2 ^ 31 := by
    obtain ⟨str, more, pad, index', rfl, hget, -⟩ := h
    obtain ⟨htext, hret, -, hlen, hzero, hleast⟩ :=
      (namelistGet_zero (Int.natCast_nonneg _)).1 hget
    have hpad : pad = [] := by
      have := Int.ofNat.inj hret
      rw [List.length_append] at this
      exact List.length_eq_zero_iff.1 (by omega)
    rw [hpad, List.append_nil] at htext
    exact ⟨more, by rw [htext], hlen, hzero, hleast⟩
  constructor
  · rintro ⟨⟨strs, hstrs⟩, ret, text, -, hget, hset⟩
    obtain ⟨more, rfl, hlen, hzero, -⟩ := hfirst hstrs
    obtain ⟨tail, hwritten⟩ := getArray_texts hstrs
    rw [hget, Outcome.done.injEq, Prod.mk.injEq] at hwritten
    obtain ⟨ret', -, hdone⟩ := hset []
    obtain ⟨rest, hrest⟩ : ∃ rest, text ++ [0] = itemText e ++ comma :: 0 :: rest :=
      ⟨_, by rw [hwritten.2]; simp only [List.append_assoc, List.cons_append]; rfl⟩
    rw [hrest, List.length_cons] at hdone
    have hroom := (length_itemText hlen hzero).trans_lt (show DIGEST_SIZE * 2 < DIGEST_SIZE * 32 by decide)
    obtain ⟨hone, ret₁, index₁, ret₂, hread, hmore⟩ := setItems_name hzero hroom hdone
    rcases list with _ | ⟨e', list⟩
    · have hfield := (oneField_itemText hzero).1 hone
      obtain ⟨hequals, hvalue⟩ := (namelistSet_itemText hlen hzero hfield).1 ⟨ret₁, index₁, hread⟩
      exact ⟨e, rfl, hlen, hfield, hequals, hvalue⟩
    · exact absurd hmore (not_setItems_end _ _ _ _ _)
  · rintro ⟨_, heq, h⟩
    obtain ⟨rfl, rfl⟩ := List.cons.inj heq
    have hzero : e.value ≠ 0 := fun h0 => by
      rcases h.value with ⟨hone, -⟩ | hpos | herr
      · exact absurd (h0.symm.trans hone) (by decide)
      · rw [h0] at hpos
        exact absurd hpos (by decide)
      · rw [h0] at herr
        exact absurd herr (by decide)
    have hleast : e.value.toInt ≠ -2 ^ 31 := fun hmin => by
      rcases h.value with ⟨hone, -⟩ | hpos | herr
      · rw [hone] at hmin
        exact absurd hmin (by decide)
      · omega
      · rw [hmin] at herr
        exact absurd herr (by decide)
    have hget := (namelistGet_zero (Int.natCast_nonneg _)).2
      ⟨rfl, rfl, rfl, h.length_le, hzero, hleast⟩
    have hstrs : ItemTexts defnamelistOps 0 [e.toEntry] [itemText e ++ [comma, 0]] :=
      ⟨_, [], [], _, rfl, by rw [List.append_nil]; exact hget, rfl⟩
    obtain ⟨tail, hwritten⟩ := getArray_texts hstrs
    obtain ⟨ret, index', hread⟩ :=
      (namelistSet_itemText h.length_le hzero h.field).2 ⟨h.equals, h.value⟩
    refine ⟨⟨_, hstrs⟩, _, _, Int.natCast_nonneg _, hwritten, fun rest =>
      ⟨(itemText e).length + 1, by omega, ?_⟩⟩
    rw [List.flatMap_nil, List.append_nil, List.append_assoc, List.append_assoc]
    exact setItems_single (zero_notMem_itemText hzero) ((length_itemText h.length_le hzero).trans_lt
      (by decide)) ((oneField_itemText hzero).2 h.field) hread

end Cube.Text
