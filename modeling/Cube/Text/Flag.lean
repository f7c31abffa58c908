import Cube.Text.Enum

/-!
# Flags as text

An element of flags is written as the names of the bits that are set, with a stroke
between them, and set from such a text (`flag_get_text_value` and `flag_set_text_value` in
`enum_flag_ops.c`).

* `flagLoop_eq`: the loop over the characters of a text takes its tokens in turn;
* `flagRestores_iff`: the values that are restored from their text;
* `flagRejects_iff`: the texts with an unknown token that are rejected;
* `flagText_iff`: both, for any list of names of single bits.
-/

namespace Cube.Text

open Lib Memdb Message

/-- A list of names as elements refer to it, `struct struct_namelist`: its entries, and the
    name that is in memory behind them, if there is memory, which may be a null pointer. -/
structure StructNamelist where
  elemlist : List NameValue
  behind : Option (Option Name)

/-- `_namevalue_2_namelist`, of the entries before the null name of an array, or of no
    array at all. -/
def namevalueToNamelist (namevalue : Option (List NameValue)) : Option StructNamelist :=
  match namevalue with
  | none => some ⟨[], none⟩
  | some entries => if entries.length < 1024 then some ⟨entries, some none⟩ else none

/-- The types of flags. -/
inductive FlagType
  | flag
  | sflag
  | bflag
  deriving DecidableEq, Repr

/-- The size of an element, in bytes. -/
def FlagType.size : FlagType → Nat
  | flag => 4
  | sflag => 2
  | bflag => 1

theorem FlagType.size_le (type : FlagType) : type.size ≤ 4 := by cases type <;> decide

/-- The character between names. -/
def stroke : UInt8 := '|'.toUInt8

/-! ## The operations -/

/-- The loop of `flag_get_text_value`, with the text written so far. -/
def flagNames (flagValue : UInt32) : List UInt8 → List NameValue → List UInt8
  | text, [] => text
  | text, e :: list =>
    if e.value.toUInt32 &&& flagValue ≠ 0 then
      flagNames flagValue ((if text ≠ [] then text ++ [stroke] else text) ++ e.name.chars) list
    else flagNames flagValue text list

/-- `flag_get_text_value`: what it returns and the text it writes. -/
def flagGetTextValue (ref : Option StructNamelist) (elem : List UInt8) :
    Outcome (Int × List UInt8) :=
  match ref with
  | none => .error (-EINVAL)
  | some flagList =>
    let names := flagNames (enumValue elem) [] flagList.elemlist
    let text := if names = [] then nulstring.chars else names
    .done (text.length + 1, text ++ [0])

/-- What a token does to the value: the first entry with the name is looked for, and where
    there is none, the name behind the list tells that the loop has come to its end. -/
def takeToken (flagList : StructNamelist) (token : List UInt8) (flagValue : UInt32) :
    Outcome UInt32 :=
  match flagList.elemlist.find? fun e => strcmp (e.name.chars ++ [0]) (token ++ [0]) = 0 with
  | some e => .done (flagValue ||| e.value.toUInt32)
  | none => match flagList.behind with
    | none => .fault
    | some none => .error (-EINVAL)
    | some (some _) => .done flagValue

/-- The loop of `flag_set_text_value` over the characters, with the start of a token that is
    in `temp_string`, and the value so far. -/
def flagLoop (flagList : StructNamelist) : List UInt8 → List UInt8 → UInt32 → Outcome UInt32
  | [], _, flagValue => .done flagValue
  | c :: text, temp, flagValue =>
    if c = stroke then flagLoop flagList text temp flagValue
    else if DIGEST_SIZE ≤ temp.length then .fault
    else if text.head? ≠ some stroke ∧ text ≠ [] then
      flagLoop flagList text (temp ++ [c]) flagValue
    -- The end of the token needs the room for a zero.
    else if DIGEST_SIZE ≤ temp.length + 1 then .fault
    else do
      let flagValue ← takeToken flagList (temp ++ [c]) flagValue
      flagLoop flagList text [] flagValue

/-- `flag_set_text_value`: what it returns and the bytes it writes, from the address of the
    element on. -/
def flagSetTextValue (type : FlagType) (ref : Option StructNamelist) (text : Name) :
    Outcome (Int × List UInt8) :=
  match ref with
  | none => .error (-EINVAL)
  | some flagList =>
    -- Whatever the type, an `int` is written here.
    if nulstring.strcmp text = 0 then .done (0, leBytes 4 0)
    else do
      let flagValue ← flagLoop flagList text.chars [] 0
      .done (0, leBytes type.size flagValue.toNat)

/-! ## Tokens -/

/-- The tokens of a text behind the start of one: what is between strokes. -/
def tokens : List UInt8 → List UInt8 → List (List UInt8)
  | temp, [] => if temp = [] then [] else [temp]
  | temp, c :: text =>
    if c = stroke then if temp = [] then tokens [] text else temp :: tokens [] text
    else tokens (temp ++ [c]) text

/-- Tokens taken in turn, each of which has to fit in `temp_string` with its end. -/
def takeTokens (flagList : StructNamelist) : List (List UInt8) → UInt32 → Outcome UInt32
  | [], flagValue => .done flagValue
  | token :: more, flagValue =>
    if DIGEST_SIZE ≤ token.length then .fault
    else takeToken flagList token flagValue >>= takeTokens flagList more

variable {flagList : StructNamelist}

variable {temp text : List UInt8} {more : List (List UInt8)} {flagValue : UInt32}

/-- A token that is begun goes on to the next stroke. -/
theorem tokens_cons_of_ne (htemp : temp ≠ []) (text : List UInt8) :
    ∃ token more, tokens temp text = token :: more ∧ temp.length ≤ token.length := by
  induction text generalizing temp with
  | nil => exact ⟨temp, [], if_neg htemp, Nat.le_refl _⟩
  | cons c text ih =>
    rw [tokens]
    by_cases hc : c = stroke
    · exact ⟨temp, tokens [] text, by rw [if_pos hc, if_neg htemp], Nat.le_refl _⟩
    · obtain ⟨token, more, heq, hlen⟩ := ih (show temp ++ [c] ≠ [] by simp)
      rw [List.length_append] at hlen
      exact ⟨token, more, by rw [if_neg hc, heq], by omega⟩

/-- The loop takes the tokens of a text in turn. What is in `temp_string` is the start of
    one, which goes on. -/
theorem flagLoop_eq (text : List UInt8) (flagValue : UInt32)
    (htemp : temp = [] ∨ text ≠ [] ∧ text.head? ≠ some stroke) :
    flagLoop flagList text temp flagValue = takeTokens flagList (tokens temp text) flagValue := by
  induction text generalizing temp flagValue with
  | nil =>
    obtain rfl : temp = [] := htemp.resolve_right fun h => h.1 rfl
    rfl
  | cons c text ih =>
    rw [flagLoop, tokens]
    by_cases hc : c = stroke
    · obtain rfl : temp = [] := htemp.resolve_right fun h => h.2 (by rw [hc]; rfl)
      rw [if_pos hc, if_pos hc, if_pos rfl, ih flagValue (.inl rfl)]
    rw [if_neg hc, if_neg hc]
    obtain ⟨token, more, htokens, hlen⟩ := tokens_cons_of_ne (show temp ++ [c] ≠ [] by simp) text
    rw [List.length_append, List.length_singleton] at hlen
    by_cases hroom : DIGEST_SIZE ≤ temp.length
    · -- The token is too long however it goes on.
      rw [if_pos hroom, htokens, takeTokens, if_pos (by omega)]
    rw [if_neg hroom]
    by_cases hgoes : text.head? ≠ some stroke ∧ text ≠ []
    · rw [if_pos hgoes, ih flagValue (.inr ⟨hgoes.2, hgoes.1⟩)]
    · -- The token ends here, at a stroke or with the text.
      have hend : tokens (temp ++ [c]) text = (temp ++ [c]) :: tokens [] text := by
        rcases text with _ | ⟨d, text⟩
        · simp [tokens]
        · obtain rfl : d = stroke := by simpa using hgoes
          simp [tokens]
      rw [if_neg hgoes, hend, takeTokens, List.length_append, List.length_singleton]
      by_cases hzero : DIGEST_SIZE ≤ temp.length + 1
      · rw [if_pos hzero, if_pos hzero]
      · rw [if_neg hzero, if_neg hzero]
        congr 1
        funext value
        exact ih value (.inl rfl)

/-- Strokes separate tokens. -/
theorem tokens_append (temp text more : List UInt8) :
    tokens temp (text ++ stroke :: more) = tokens temp text ++ tokens [] more := by
  induction text generalizing temp with
  | nil =>
    rw [List.nil_append, tokens, tokens, if_pos rfl]
    split_ifs <;> rfl
  | cons c text ih =>
    rw [List.cons_append, tokens, tokens]
    split_ifs
    · exact ih []
    · rw [ih [], List.cons_append]
    · exact ih (temp ++ [c])

/-- A text without strokes is one token. -/
theorem tokens_single (hstroke : stroke ∉ text) (hne : temp ++ text ≠ []) :
    tokens temp text = [temp ++ text] := by
  induction text generalizing temp with
  | nil =>
    rw [List.append_nil] at hne
    rw [tokens, if_neg hne, List.append_nil]
  | cons c text ih =>
    rw [List.mem_cons, not_or] at hstroke
    rw [tokens, if_neg (Ne.symm hstroke.1), ih hstroke.2 (by simp), List.append_assoc,
      List.singleton_append]

/-- What tokens are made of. -/
theorem mem_tokens {token : List UInt8} (hstroke : stroke ∉ temp) (h : token ∈ tokens temp text) :
    token ≠ [] ∧ stroke ∉ token ∧ ∀ c ∈ token, c ∈ temp ∨ c ∈ text := by
  induction text generalizing temp with
  | nil =>
    rw [tokens] at h
    split_ifs at h with htemp
    · cases h
    · obtain rfl := List.mem_singleton.1 h
      exact ⟨htemp, hstroke, fun c hc => .inl hc⟩
  | cons c text ih =>
    rw [tokens] at h
    have hrest (h : token ∈ tokens [] text) :
        token ≠ [] ∧ stroke ∉ token ∧ ∀ d ∈ token, d ∈ temp ∨ d ∈ c :: text := by
      obtain ⟨hne, hno, hmem⟩ := ih List.not_mem_nil h
      exact ⟨hne, hno, fun d hd =>
        .inr (List.mem_cons_of_mem _ ((hmem d hd).resolve_left List.not_mem_nil))⟩
    split_ifs at h with hc htemp
    · exact hrest h
    · rcases List.mem_cons.1 h with rfl | h
      · exact ⟨htemp, hstroke, fun d hd => .inl hd⟩
      · exact hrest h
    · have hno : stroke ∉ temp ++ [c] := by
        rw [List.mem_append, List.mem_singleton, not_or]
        exact ⟨hstroke, Ne.symm hc⟩
      obtain ⟨hne, hno', hmem⟩ := ih hno h
      refine ⟨hne, hno', fun d hd => ?_⟩
      rcases hmem d hd with hd | hd
      · rcases List.mem_append.1 hd with hd | hd
        · exact .inl hd
        · exact .inr (List.mem_singleton.1 hd ▸ List.mem_cons_self)
      · exact .inr (List.mem_cons_of_mem _ hd)

/-! ## What the tokens set -/

/-- The first entry of a list with the name of a token. -/
def firstNamed (list : List NameValue) (token : List UInt8) : Option NameValue :=
  list.find? fun e => e.name.chars = token

theorem takeToken_eq {token : List UInt8} (hnul : 0 ∉ token) (flagValue : UInt32) :
    takeToken flagList token flagValue = match firstNamed flagList.elemlist token with
      | some e => .done (flagValue ||| e.value.toUInt32)
      | none => match flagList.behind with
        | none => .fault
        | some none => .error (-EINVAL)
        | some (some _) => .done flagValue := by
  have hfind : (fun e : NameValue => decide (strcmp (e.name.chars ++ [0]) (token ++ [0]) = 0)) =
      fun e => decide (e.name.chars = token) := by
    funext e
    exact decide_eq_decide.2 (strcmp_eq_zero e.name.nul_free hnul)
  rw [takeToken, hfind, firstNamed]

/-- The bits that are set by tokens are those of their entries. -/
theorem takeTokens_testBit (hnul : ∀ token ∈ more, 0 ∉ token)
    {value : UInt32} (h : takeTokens flagList more flagValue = .done value) (k : Nat) :
    value.toNat.testBit k ↔ flagValue.toNat.testBit k ∨ ∃ token ∈ more, token.length < DIGEST_SIZE ∧
      ∃ e, firstNamed flagList.elemlist token = some e ∧ e.value.toUInt32.toNat.testBit k := by
  induction more generalizing flagValue with
  | nil =>
    obtain rfl := Outcome.done.inj h
    simp
  | cons token more ih =>
    rw [List.forall_mem_cons] at hnul
    rw [takeTokens] at h
    split_ifs at h with hlong
    rw [takeToken_eq hnul.1] at h
    cases hfirst : firstNamed flagList.elemlist token with
    | some e =>
      simp only [hfirst, Outcome.done_bind] at h
      rw [ih hnul.2 h, UInt32.toNat_or, Nat.testBit_or]
      simp only [List.exists_mem_cons_iff, hfirst, Option.some.injEq, exists_eq_left',
        Nat.lt_of_not_le hlong, true_and, Bool.or_eq_true, or_assoc]
    | none =>
      simp only [hfirst] at h
      rcases hbehind : flagList.behind with _ | _ | name
      · rw [hbehind] at h
        cases h
      · rw [hbehind] at h
        cases h
      · rw [hbehind] at h
        rw [ih hnul.2 h]
        simp only [List.exists_mem_cons_iff, hfirst, reduceCtorEq, false_and, exists_false,
          and_false, false_or]

/-- Tokens that are short and have entries are taken. -/
theorem takeTokens_found (hnul : ∀ token ∈ more, 0 ∉ token)
    (hfound : ∀ token ∈ more, token.length < DIGEST_SIZE ∧
      (firstNamed flagList.elemlist token).isSome) (flagValue : UInt32) :
    ∃ value, takeTokens flagList more flagValue = .done value := by
  induction more generalizing flagValue with
  | nil => exact ⟨flagValue, rfl⟩
  | cons token more ih =>
    rw [List.forall_mem_cons] at hnul hfound
    obtain ⟨e, he⟩ := Option.isSome_iff_exists.1 hfound.1.2
    rw [takeTokens, if_neg (Nat.not_le.2 hfound.1.1), takeToken_eq hnul.1, he]
    exact ih hnul.2 hfound.2 _

/-! ## What is written -/

/-- Names with strokes between them, behind a text. -/
def joinNames : List UInt8 → List (List UInt8) → List UInt8
  | text, [] => text
  | text, name :: names => joinNames ((if text ≠ [] then text ++ [stroke] else text) ++ name) names

/-- The entries whose bits are set. -/
def setEntries (list : List NameValue) (flagValue : UInt32) : List NameValue :=
  list.filter fun e => e.value.toUInt32 &&& flagValue ≠ 0

/-- The names of the entries that are set. -/
def setNames (list : List NameValue) (flagValue : UInt32) : List (List UInt8) :=
  (setEntries list flagValue).map fun e => e.name.chars

theorem flagNames_eq (list : List NameValue) (flagValue : UInt32) (text : List UInt8) :
    flagNames flagValue text list = joinNames text (setNames list flagValue) := by
  induction list generalizing text with
  | nil => rfl
  | cons e list ih =>
    rw [flagNames, setNames, setEntries]
    by_cases hset : e.value.toUInt32 &&& flagValue ≠ 0
    · rw [if_pos hset, List.filter_cons_of_pos (by simpa using hset), List.map_cons, joinNames, ih]
      rfl
    · rw [if_neg hset, List.filter_cons_of_neg (by simpa using hset), ih]
      rfl

theorem zero_notMem_joinNames {names : List (List UInt8)} (htext : 0 ∉ text)
    (hnames : ∀ name ∈ names, 0 ∉ name) : 0 ∉ joinNames text names := by
  induction names generalizing text with
  | nil => exact htext
  | cons name names ih =>
    rw [List.forall_mem_cons] at hnames
    refine ih ?_ hnames.2
    split_ifs
    · simp only [List.mem_append, List.mem_singleton, not_or]
      exact ⟨⟨htext, by decide⟩, hnames.1⟩
    · simp only [List.mem_append, not_or]
      exact ⟨htext, hnames.1⟩

/-- The tokens of a text that names are put to are its own and those of the names. -/
theorem tokens_joinNames (text : List UInt8) (names : List (List UInt8)) :
    tokens [] (joinNames text names) = tokens [] text ++ names.flatMap (tokens []) := by
  induction names generalizing text with
  | nil => rw [joinNames, List.flatMap_nil, List.append_nil]
  | cons name names ih =>
    rw [joinNames, ih, List.flatMap_cons, ← List.append_assoc]
    by_cases htext : text = []
    · subst htext
      rfl
    · rw [if_pos htext, List.append_assoc, List.singleton_append, tokens_append]

theorem prefix_joinNames (text : List UInt8) (names : List (List UInt8)) :
    text <+: joinNames text names := by
  induction names generalizing text with
  | nil => exact List.prefix_refl text
  | cons name names ih =>
    refine List.IsPrefix.trans ?_ (ih _)
    split_ifs
    · rw [List.append_assoc]
      exact List.prefix_append _ _
    · exact List.prefix_append _ _

/-- Empty names in front leave nothing in the text. -/
theorem joinNames_dropWhile (names : List (List UInt8)) :
    joinNames [] (names.dropWhile (· = [])) = joinNames [] names := by
  induction names with
  | nil => rfl
  | cons name names ih =>
    by_cases hname : name = []
    · rw [List.dropWhile_cons_of_pos (by simpa using hname), ih, hname]
      rfl
    · rw [List.dropWhile_cons_of_neg (by simpa using hname)]

/-- Where the first name is not empty, a text without strokes is that of one name. -/
theorem joinNames_cons_eq_iff {name word : List UInt8} {names : List (List UInt8)}
    (hname : name ≠ []) (hword : stroke ∉ word) :
    joinNames [] (name :: names) = word ↔ name :: names = [word] := by
  rw [joinNames, if_neg (not_not.2 rfl), List.nil_append]
  cases names with
  | nil => simp [joinNames]
  | cons other names =>
    refine iff_of_false (fun h => hword (h ▸ ?_)) (by simp)
    rw [joinNames, if_pos hname]
    exact (prefix_joinNames _ names).subset (by simp)

/-- The text that is written of a value. -/
def flagText (list : List NameValue) (flagValue : UInt32) : Name where
  chars := if joinNames [] (setNames list flagValue) = [] then nulstring.chars
    else joinNames [] (setNames list flagValue)
  nul_free := by
    split_ifs
    · exact nulstring.nul_free
    · refine zero_notMem_joinNames List.not_mem_nil fun name hname => ?_
      obtain ⟨e, -, rfl⟩ := List.mem_map.1 hname
      exact e.name.nul_free

theorem flagGetTextValue_eq (elem : List UInt8) : flagGetTextValue (some flagList) elem =
    .done (textWithEnd (flagText flagList.elemlist (enumValue elem))) := by
  simp only [flagGetTextValue, flagNames_eq, textWithEnd, flagText]

/-! ## Restoring -/

/-- The names of different single bits. -/
structure BitNames (list : List NameValue) : Prop where
  bit : ∀ e ∈ list, ∃ k, e.value.toUInt32.toNat = 2 ^ k
  nodup : (list.map NameValue.value).Nodup

/-- A value has no other bits than those of the list. -/
def Combines (list : List NameValue) (flagValue : UInt32) : Prop :=
  ∀ k, flagValue.toNat.testBit k → ∃ e ∈ list, e.value.toUInt32.toNat = 2 ^ k

variable {type : FlagType}

/-- The value of an element of flags is restored from its text, and nothing else is
    written. -/
def FlagRestores (type : FlagType) (flagList : StructNamelist) (elem : Vector UInt8 type.size) :
    Prop :=
  ∃ text : Name, flagGetTextValue (some flagList) elem.toList = .done (textWithEnd text) ∧
    ∃ ret, 0 ≤ ret ∧ flagSetTextValue type (some flagList) text = .done (ret, elem.toList)

/-- A name that is read as one token, and found as its own entry. -/
structure Readable (list : List NameValue) (e : NameValue) : Prop where
  ne_nil : e.name.chars ≠ []
  strokeless : stroke ∉ e.name.chars
  length_lt : e.name.chars.length < DIGEST_SIZE
  first : firstNamed list e.name.chars = some e

/-- The values that are restored: zero where an `int` is written, and those whose names can
    all be read and are not the null name alone. -/
def FlagRestoresWhen (type : FlagType) (list : List NameValue) (flagValue : UInt32) : Prop :=
  if flagValue = 0 then type = .flag
  else (∀ e ∈ setEntries list flagValue, Readable list e) ∧
    setNames list flagValue ≠ [nulstring.chars]

/-- The bit of an entry is in a value exactly where both have it. -/
theorem mem_setEntries {list : List NameValue} {e : NameValue} {k : Nat}
    (he : e ∈ list) (hk : e.value.toUInt32.toNat = 2 ^ k) :
    e ∈ setEntries list flagValue ↔ flagValue.toNat.testBit k := by
  have hand : e.value.toUInt32 &&& flagValue = 0 ↔ flagValue.toNat.testBit k = false := by
    rw [← UInt32.toNat_inj, UInt32.toNat_and, hk]
    constructor
    · intro h
      have hbit := congrArg (fun n => Nat.testBit n k) h
      simpa [Nat.testBit_and, Nat.testBit_two_pow_self] using hbit
    · intro h
      refine Nat.eq_of_testBit_eq fun j => ?_
      rw [Nat.testBit_and, Nat.testBit_two_pow]
      by_cases hjk : k = j
      · subst hjk
        simp [h]
      · simp [hjk]
  rw [setEntries, List.mem_filter]
  simp [he, hand]

theorem eq_of_bit {list : List NameValue} (hlist : BitNames list) {e e' : NameValue}
    (he : e ∈ list) (he' : e' ∈ list) {k : Nat} (hk : e.value.toUInt32.toNat = 2 ^ k)
    (hbit : e'.value.toUInt32.toNat.testBit k) : e = e' := by
  obtain ⟨j, hj⟩ := hlist.bit e' he'
  rw [hj, Nat.testBit_two_pow, decide_eq_true_eq] at hbit
  subst hbit
  have hvalue : e.value.toUInt32 = e'.value.toUInt32 := UInt32.toNat_inj.1 (hk.trans hj.symm)
  have hint := congrArg UInt32.toInt32 hvalue
  exact List.inj_on_of_nodup_map hlist.nodup he he' (by simpa using hint)

/-- Zero is written as the null name, which is read as an `int`. -/
theorem flagRestores_zero {elem : Vector UInt8 type.size} (hzero : enumValue elem.toList = 0) :
    FlagRestores type flagList elem ↔ type = .flag := by
  have hbytes := leBytes_enumValue elem type.size_le
  have hset : setNames flagList.elemlist 0 = [] := by
    simp [setNames, setEntries]
  have hnull : flagText flagList.elemlist 0 = nulstring := by
    refine Name.ext ?_
    simp only [flagText, hset]
    rfl
  have hread : flagSetTextValue type (some flagList) nulstring = .done (0, leBytes 4 0) := by
    simp only [flagSetTextValue, Name.strcmp_eq_zero, if_true]
  rw [hzero] at hbytes
  constructor
  · rintro ⟨text, hget, ret, -, hdone⟩
    rw [flagGetTextValue_eq, hzero, hnull, Outcome.done.injEq] at hget
    rw [← textWithEnd_inj hget, hread, Outcome.done.injEq, Prod.mk.injEq] at hdone
    have hlen := congrArg List.length hdone.2
    rw [length_leBytes, Vector.length_toList] at hlen
    cases type with
    | flag => rfl
    | sflag => exact absurd hlen (by decide)
    | bflag => exact absurd hlen (by decide)
  · rintro rfl
    refine ⟨nulstring, by rw [flagGetTextValue_eq, hzero, hnull], 0, Int.le_refl 0, ?_⟩
    rw [hread, ← hbytes]
    rfl

/-- Names that can be read are the tokens of the text of their value. -/
theorem tokens_flagText {list : List NameValue} (hzero : flagValue ≠ 0)
    (hvalue : Combines list flagValue) (hread : ∀ e ∈ setEntries list flagValue, Readable list e) :
    tokens [] (flagText list flagValue).chars = setNames list flagValue := by
  have hjoin : tokens [] (joinNames [] (setNames list flagValue)) = setNames list flagValue := by
    have hsingle : ∀ name ∈ setNames list flagValue, tokens [] name = [name] := fun name hname => by
      obtain ⟨e, he, rfl⟩ := List.mem_map.1 hname
      exact tokens_single (hread e he).strokeless (hread e he).ne_nil
    rw [tokens_joinNames, List.flatMap_congr hsingle, List.flatMap_singleton']
    rfl
  -- A bit that is set has an entry, so that there is a name to write.
  obtain ⟨k, hk⟩ := Nat.exists_testBit_of_ne_zero (show flagValue.toNat ≠ 0 from
    fun h => hzero (UInt32.toNat_inj.1 h))
  obtain ⟨e, he, hbit⟩ := hvalue k hk
  have hmem : e.name.chars ∈ setNames list flagValue :=
    List.mem_map.2 ⟨e, (mem_setEntries he hbit).2 hk, rfl⟩
  have hne : joinNames [] (setNames list flagValue) ≠ [] := fun h => by
    rw [h] at hjoin
    rw [← hjoin] at hmem
    cases hmem
  have hchars : (flagText list flagValue).chars = joinNames [] (setNames list flagValue) :=
    if_neg hne
  rw [hchars, hjoin]

/-- The text of a value is read by its tokens. -/
theorem flagSetTextValue_eq {text : Name} (hnull : text ≠ nulstring) :
    flagSetTextValue type (some flagList) text =
      takeTokens flagList (tokens [] text.chars) 0 >>= fun flagValue =>
        .done (0, leBytes type.size flagValue.toNat) := by
  simp only [flagSetTextValue, Name.strcmp_eq_zero, if_neg hnull.symm, flagLoop_eq _ _ (.inl rfl)]

theorem zero_notMem_tokens (text : Name) : ∀ token ∈ tokens [] text.chars, 0 ∉ token :=
  fun _ htoken h0 => text.nul_free
    (((mem_tokens List.not_mem_nil htoken).2.2 0 h0).resolve_left List.not_mem_nil)

/-- A value whose text is read back has names that can be read: the bit of each comes from a
    token, whose entry it is. -/
theorem readable_of_takeTokens {value : UInt32} {text : Name} (hlist : BitNames flagList.elemlist)
    (htake : takeTokens flagList (tokens [] text.chars) 0 = .done value)
    (hbits : ∀ k, flagValue.toNat.testBit k → value.toNat.testBit k) :
    ∀ e ∈ setEntries flagList.elemlist flagValue, Readable flagList.elemlist e := by
  intro e he
  have hmem : e ∈ flagList.elemlist := List.mem_of_mem_filter he
  obtain ⟨k, hk⟩ := hlist.bit e hmem
  have hbit := hbits k ((mem_setEntries hmem hk).1 he)
  rw [takeTokens_testBit (zero_notMem_tokens text) htake] at hbit
  obtain ⟨token, htoken, hlen, e', he', hbit'⟩ := hbit.resolve_left (by simp)
  have hmem' : e' ∈ flagList.elemlist ∧ e'.name.chars = token :=
    ⟨List.mem_of_find?_eq_some he', by simpa using List.find?_some he'⟩
  obtain rfl := eq_of_bit hlist hmem hmem'.1 hk hbit'
  obtain ⟨hne, hno, -⟩ := mem_tokens List.not_mem_nil htoken
  obtain ⟨-, rfl⟩ := hmem'
  exact ⟨hne, hno, hlen, he'⟩

/-- The tokens of names that can be read make the value of their bits. -/
theorem takeTokens_setNames (hlist : BitNames flagList.elemlist)
    (hvalue : Combines flagList.elemlist flagValue)
    (hread : ∀ e ∈ setEntries flagList.elemlist flagValue, Readable flagList.elemlist e) :
    takeTokens flagList (setNames flagList.elemlist flagValue) 0 = .done flagValue := by
  have hnul : ∀ token ∈ setNames flagList.elemlist flagValue, 0 ∉ token := fun token htoken => by
    obtain ⟨e, -, rfl⟩ := List.mem_map.1 htoken
    exact e.name.nul_free
  obtain ⟨value, htake⟩ := takeTokens_found hnul (fun token htoken => by
    obtain ⟨e, he, rfl⟩ := List.mem_map.1 htoken
    exact ⟨(hread e he).length_lt, by rw [(hread e he).first]; rfl⟩) 0
  have hbits (k : Nat) : value.toNat.testBit k ↔ flagValue.toNat.testBit k := by
    rw [takeTokens_testBit hnul htake]
    constructor
    · intro h
      obtain ⟨token, htoken, -, e, he, hbit⟩ := h.resolve_left (by simp)
      obtain ⟨e', he', rfl⟩ := List.mem_map.1 htoken
      rw [(hread e' he').first, Option.some.injEq] at he
      subst he
      have hmem : e' ∈ flagList.elemlist := List.mem_of_mem_filter he'
      obtain ⟨j, hj⟩ := hlist.bit e' hmem
      rw [hj, Nat.testBit_two_pow, decide_eq_true_eq] at hbit
      exact hbit ▸ (mem_setEntries hmem hj).1 he'
    · intro hk
      obtain ⟨e, he, hbit⟩ := hvalue k hk
      have hset := (mem_setEntries he hbit).2 hk
      refine .inr ⟨e.name.chars, List.mem_map.2 ⟨e, hset, rfl⟩, (hread e hset).length_lt, e,
        (hread e hset).first, ?_⟩
      rw [hbit, Nat.testBit_two_pow_self]
  have heq : value = flagValue :=
    UInt32.toNat_inj.1 (Nat.eq_of_testBit_eq fun k => Bool.eq_iff_iff.2 (hbits k))
  rw [htake, heq]

/-- The bits of a number that fits are those of any other with the same bytes. -/
theorem testBit_of_leBytes {n a b : Nat} (h : leBytes n a = leBytes n b) (hb : b < 256 ^ n) {k : Nat}
    (hk : b.testBit k) : a.testBit k := by
  have hmod := congrArg leNat h
  rw [leNat_leBytes, leNat_leBytes, Nat.mod_eq_of_lt hb, show 256 = 2 ^ 8 from rfl,
    ← Nat.pow_mul] at hmod
  rw [← hmod, Nat.testBit_mod_two_pow, Bool.and_eq_true] at hk
  exact hk.2

/-- The values that are restored from their text, of those that the names of single bits
    make. -/
theorem flagRestores_iff {elem : Vector UInt8 type.size} (hlist : BitNames flagList.elemlist)
    (hvalue : Combines flagList.elemlist (enumValue elem.toList)) :
    FlagRestores type flagList elem ↔
      FlagRestoresWhen type flagList.elemlist (enumValue elem.toList) := by
  rw [FlagRestoresWhen]
  by_cases hzero : enumValue elem.toList = 0
  · rw [if_pos hzero, flagRestores_zero hzero]
  rw [if_neg hzero]
  have hbytes := leBytes_enumValue elem type.size_le
  have hget : ∀ text, flagGetTextValue (some flagList) elem.toList = .done (textWithEnd text) ↔
      flagText flagList.elemlist (enumValue elem.toList) = text := by
    intro text
    rw [flagGetTextValue_eq, Outcome.done.injEq]
    exact ⟨textWithEnd_inj, congrArg textWithEnd⟩
  simp only [FlagRestores, hget, exists_eq_left']
  by_cases hnull : flagText flagList.elemlist (enumValue elem.toList) = nulstring
  · -- The null name is read as zero, and it is the only name of the value if all can be read.
    refine iff_of_false (fun ⟨ret, _, hset⟩ => hzero ?_) fun ⟨hread, hne⟩ => hne ?_
    · simp only [hnull, flagSetTextValue, Name.strcmp_eq_zero, if_true] at hset
      rw [Outcome.done.injEq, Prod.mk.injEq] at hset
      rw [enumValue, ← hset.2]
      rfl
    · rw [← tokens_flagText hzero hvalue hread, hnull]
      decide
  rw [flagSetTextValue_eq hnull]
  constructor
  · rintro ⟨ret, -, hset⟩
    obtain ⟨value, htake, hdone⟩ := Outcome.bind_eq_done.1 hset
    rw [Outcome.done.injEq, Prod.mk.injEq] at hdone
    have hread : ∀ e ∈ setEntries flagList.elemlist (enumValue elem.toList),
        Readable flagList.elemlist e := by
      refine readable_of_takeTokens hlist htake fun k hk => ?_
      refine testBit_of_leBytes (hdone.2.trans hbytes.symm) ?_ hk
      rw [toNat_enumValue elem type.size_le]
      simpa using leNat_lt elem.toList
    refine ⟨hread, fun hnames => hnull (Name.ext ?_)⟩
    simp only [flagText, hnames, joinNames]
    rfl
  · rintro ⟨hread, -⟩
    rw [tokens_flagText hzero hvalue hread, takeTokens_setNames hlist hvalue hread,
      Outcome.done_bind, hbytes]
    exact ⟨0, Int.le_refl 0, rfl⟩

/-! ## Any list -/

/-- The tokens that are taken: they fit, and are the name of an entry or passed over. -/
def Taken (flagList : StructNamelist) (token : List UInt8) : Prop :=
  token.length < DIGEST_SIZE ∧
    ((firstNamed flagList.elemlist token).isSome ∨ ∃ name, flagList.behind = some (some name))

/-- The bits of the entries that tokens name, together with those of a value. -/
def tokenBits (list : List NameValue) (flagValue : UInt32) (more : List (List UInt8)) : UInt32 :=
  more.foldl (fun value token =>
    value ||| ((firstNamed list token).map fun e => e.value.toUInt32).getD 0) flagValue

/-- The values that are restored with any list, whose names may have strokes and whose values
    more bits than one: zero where an `int` is written, and those of whose entries the names
    are not empty and not the null name alone, and have pieces between their strokes that
    name entries which together have the bits of the value. -/
def FlagReadsBack (type : FlagType) (flagList : StructNamelist) (flagValue : UInt32) : Prop :=
  let names := (setNames flagList.elemlist flagValue).dropWhile (· = [])
  let pieces := names.flatMap (tokens [])
  if flagValue = 0 then type = .flag
  else names ≠ [] ∧ names ≠ [nulstring.chars] ∧ (∀ piece ∈ pieces, Taken flagList piece) ∧
    (tokenBits flagList.elemlist 0 pieces).toNat % 256 ^ type.size = flagValue.toNat

theorem takeTokens_eq_done (hnul : ∀ token ∈ more, 0 ∉ token)
    {value : UInt32} : takeTokens flagList more flagValue = .done value ↔
      (∀ token ∈ more, Taken flagList token) ∧
        tokenBits flagList.elemlist flagValue more = value := by
  induction more generalizing flagValue with
  | nil => simp [takeTokens, tokenBits]
  | cons token more ih =>
    rw [List.forall_mem_cons] at hnul
    rw [takeTokens, List.forall_mem_cons, tokenBits, List.foldl_cons]
    by_cases hlong : DIGEST_SIZE ≤ token.length
    · rw [if_pos hlong]
      exact iff_of_false nofun fun h => Nat.not_le.2 h.1.1.1 hlong
    rw [if_neg hlong, takeToken_eq hnul.1]
    rcases hfirst : firstNamed flagList.elemlist token with _ | e
    · rcases hbehind : flagList.behind with _ | _ | name
      · simp [Taken, hfirst, hbehind]
      · simp [Taken, hfirst, hbehind]
      · simp only [Outcome.done_bind, ih hnul.2]
        simp [Taken, hfirst, hbehind, Nat.lt_of_not_le hlong, tokenBits]
    · simp only [Outcome.done_bind, ih hnul.2]
      simp [Taken, hfirst, Nat.lt_of_not_le hlong, tokenBits]

/-- Bytes are those of a number exactly if they are its digits of base 256. -/
theorem leBytes_eq_iff {n : Nat} (elem : Vector UInt8 n) (m : Nat) :
    leBytes n m = elem.toList ↔ m % 256 ^ n = leNat elem.toList := by
  constructor
  · intro h
    rw [← leNat_leBytes, h]
  · intro h
    have hback := leBytes_leNat (leBytes n m)
    have helem := leBytes_leNat elem.toList
    rw [length_leBytes, leNat_leBytes, h] at hback
    rw [Vector.length_toList] at helem
    rw [← hback, helem]

/-- With any list, exactly the values are restored that are said to be. -/
theorem flagRestores_iff_readsBack {elem : Vector UInt8 type.size} :
    FlagRestores type flagList elem ↔ FlagReadsBack type flagList (enumValue elem.toList) := by
  by_cases hzero : enumValue elem.toList = 0
  · rw [flagRestores_zero hzero, FlagReadsBack, if_pos hzero]
  have hget : ∀ text, flagGetTextValue (some flagList) elem.toList = .done (textWithEnd text) ↔
      flagText flagList.elemlist (enumValue elem.toList) = text := by
    intro text
    rw [flagGetTextValue_eq, Outcome.done.injEq]
    exact ⟨textWithEnd_inj, congrArg textWithEnd⟩
  have hvalue := toNat_enumValue elem type.size_le
  simp only [FlagRestores, hget, exists_eq_left', FlagReadsBack, if_neg hzero]
  have hchars : (flagText flagList.elemlist (enumValue elem.toList)).chars =
      if joinNames [] (setNames flagList.elemlist (enumValue elem.toList)) = [] then nulstring.chars
      else joinNames [] (setNames flagList.elemlist (enumValue elem.toList)) := rfl
  rw [← joinNames_dropWhile] at hchars
  by_cases hnull : flagText flagList.elemlist (enumValue elem.toList) = nulstring
  · -- The null name is read as zero, and there is no other text without a name or with that alone.
    refine iff_of_false (fun ⟨ret, _, hset⟩ => hzero ?_) fun ⟨hnil, hone, _⟩ => ?_
    · simp only [hnull, flagSetTextValue, Name.strcmp_eq_zero, if_true] at hset
      rw [enumValue, ← (Outcome.pair_inj hset).2]
      rfl
    · obtain ⟨name, names, hnames⟩ := List.exists_cons_of_ne_nil hnil
      have hname : name ≠ [] := by
        have := List.head_dropWhile_not _ hnil
        simpa [hnames] using this
      rw [hnames] at hchars hone
      rw [if_neg ((joinNames_cons_eq_iff hname List.not_mem_nil).not.2 (by simp [hname])), hnull] at hchars
      exact hone ((joinNames_cons_eq_iff hname (by decide)).1 hchars.symm)
  · have hne : joinNames [] ((setNames flagList.elemlist (enumValue elem.toList)).dropWhile
        (· = [])) ≠ [] := fun h => hnull (Name.ext (by rw [hchars, if_pos h]))
    rw [if_neg hne] at hchars
    have hnul := zero_notMem_tokens (flagText flagList.elemlist (enumValue elem.toList))
    rw [hchars] at hnul
    rw [flagSetTextValue_eq hnull, hchars]
    generalize (setNames flagList.elemlist (enumValue elem.toList)).dropWhile _ = names at hchars hne hnul ⊢
    have hnil : names ≠ [] := fun h => hne (h ▸ rfl)
    have hone : names ≠ [nulstring.chars] := fun h => hnull (Name.ext (by rw [hchars, h]; rfl))
    have htokens : tokens [] (joinNames [] names) = names.flatMap (tokens []) :=
      (tokens_joinNames [] names).trans (List.nil_append _)
    rw [htokens] at hnul ⊢
    simp only [ne_eq, hnil, hone, not_false_eq_true, true_and]
    constructor
    · rintro ⟨ret, -, hset⟩
      obtain ⟨value, htake, hdone⟩ := Outcome.bind_eq_done.1 hset
      obtain ⟨htaken, rfl⟩ := (takeTokens_eq_done hnul).1 htake
      refine ⟨htaken, ?_⟩
      rw [hvalue]
      exact (leBytes_eq_iff elem _).1 (Outcome.pair_inj hdone).2
    · rintro ⟨htaken, hbits⟩
      refine ⟨0, Int.le_refl 0, ?_⟩
      rw [(takeTokens_eq_done hnul).2 ⟨htaken, rfl⟩, Outcome.done_bind,
        (leBytes_eq_iff elem _).2 (hbits.trans hvalue)]

/-! ## Unknown tokens -/

/-- A token that is the name of no entry. -/
def Unknown (list : List NameValue) (token : List UInt8) : Prop := firstNamed list token = none

/-- A text is an error, so that nothing is written. -/
def FlagRejects (type : FlagType) (flagList : StructNamelist) (text : Name) : Prop :=
  ∃ ret < 0, flagSetTextValue type (some flagList) text = .error ret

/-- The texts with an unknown token that are rejected: those whose first token that is
    unknown or too long is not too long, where the list has a null name behind it. -/
def FlagRejectsWhen (flagList : StructNamelist) (text : Name) : Prop :=
  flagList.behind = some none ∧
    ∃ token, (tokens [] text.chars).find?
      (fun token => DIGEST_SIZE ≤ token.length ∨ firstNamed flagList.elemlist token = none) =
        some token ∧ token.length < DIGEST_SIZE

theorem takeTokens_error (hnul : ∀ token ∈ more, 0 ∉ token) (flagValue : UInt32) :
    (∃ ret < 0, takeTokens flagList more flagValue = .error ret) ↔ flagList.behind = some none ∧
      ∃ token, more.find?
        (fun token => DIGEST_SIZE ≤ token.length ∨ firstNamed flagList.elemlist token = none) =
          some token ∧ token.length < DIGEST_SIZE := by
  induction more generalizing flagValue with
  | nil => simp [takeTokens]
  | cons token more ih =>
    rw [List.forall_mem_cons] at hnul
    rw [takeTokens, List.find?_cons]
    by_cases hlong : DIGEST_SIZE ≤ token.length
    · rw [if_pos hlong]
      refine iff_of_false (fun ⟨_, _, h⟩ => by cases h) fun ⟨_, found, hfound, hlt⟩ => ?_
      simp only [hlong, true_or, decide_true, Option.some.injEq] at hfound
      rw [← hfound] at hlt
      omega
    rw [if_neg hlong, takeToken_eq hnul.1]
    cases hfirst : firstNamed flagList.elemlist token with
    | some e =>
      simp only [hlong, reduceCtorEq, or_self, decide_false, Outcome.done_bind]
      exact ih hnul.2 _
    | none =>
      simp only [hlong, or_true, decide_true, Option.some.injEq, exists_eq_left',
        Nat.lt_of_not_le hlong, and_true]
      rcases hbehind : flagList.behind with _ | _ | name
      · simp
      · exact iff_of_true ⟨-EINVAL, by decide, rfl⟩ rfl
      · -- With something else behind the list, the token is passed over.
        simp only [Outcome.done_bind]
        rw [ih hnul.2, hbehind]
        simp

/-- The texts that are rejected. -/
theorem flagRejects_iff (type : FlagType) (flagList : StructNamelist) {text : Name}
    (hnull : text ≠ nulstring) : FlagRejects type flagList text ↔ FlagRejectsWhen flagList text := by
  rw [FlagRejects, FlagRejectsWhen, ← takeTokens_error (zero_notMem_tokens text) 0,
    flagSetTextValue_eq hnull]
  refine exists_congr fun ret => and_congr_right fun _ => ?_
  cases takeTokens flagList (tokens [] text.chars) 0 <;> simp

/-- For any type and list: where its names are those of single bits, the values that are
    restored are known, and in any case the texts with an unknown token that are rejected. -/
theorem flagText_iff (type : FlagType) (flagList : StructNamelist) :
    (BitNames flagList.elemlist → ∀ elem : Vector UInt8 type.size,
      Combines flagList.elemlist (enumValue elem.toList) →
        (FlagRestores type flagList elem ↔
          FlagRestoresWhen type flagList.elemlist (enumValue elem.toList))) ∧
    ∀ text, text ≠ nulstring →
      (∃ token ∈ tokens [] text.chars, Unknown flagList.elemlist token) →
        (FlagRejects type flagList text ↔ FlagRejectsWhen flagList text) :=
  ⟨fun hlist _ hvalue => flagRestores_iff hlist hvalue,
    fun _ hnull _ => flagRejects_iff type flagList hnull⟩

/-- An element of one byte without flags is not restored: its text is read as an `int`. -/
theorem not_flagRestores_byte :
    BitNames [⟨⟨['A'.toUInt8], by decide⟩, 1⟩] ∧ Combines [⟨⟨['A'.toUInt8], by decide⟩, 1⟩] 0 ∧
    ¬ FlagRestores .bflag ⟨[⟨⟨['A'.toUInt8], by decide⟩, 1⟩], some none⟩ ⟨#[0], rfl⟩ := by
  refine ⟨⟨fun e he => ⟨0, ?_⟩, by decide⟩, fun k hk => ?_, ?_⟩
  · obtain rfl := List.mem_singleton.1 he
    rfl
  · exact absurd hk (by simp)
  · rintro ⟨text, hget, ret, -, hset⟩
    obtain rfl : text = nulstring :=
      textWithEnd_inj (Outcome.done.inj (hget.symm.trans (by decide)))
    have hread : flagSetTextValue .bflag
        (some ⟨[⟨⟨['A'.toUInt8], by decide⟩, 1⟩], some none⟩) nulstring =
          .done (0, [0, 0, 0, 0]) := by decide
    exact absurd (Outcome.pair_inj (hread.symm.trans hset)).2 (by decide)

end Cube.Text
