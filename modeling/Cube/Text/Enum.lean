import Cube.Memdb.TypeList
import Cube.Lib.Wire

/-!
# Enumerations as text

An element of an enumeration is written as the name of its value in a list of names, and
set from a name (`enum_get_text_value` and `enum_set_text_value` in `enum_flag_ops.c`).

* `enumSets_iff`: the texts that are taken or rejected as they should be;
* `enumRestores_iff`: the values that are restored from their text;
* `enumText_iff`: both, for any list.
-/

namespace Cube.Text

open Lib Memdb

/-- An entry of a list of names, `NAME2VALUE`. -/
structure NameValue where
  name : Name
  value : Int32
  deriving DecidableEq

/-- `nulstring`, the text of no value. -/
def nulstring : Name := ⟨['N', 'U', 'L', 'L'].map Char.toUInt8, by decide⟩

/-- The types of enumerations. -/
inductive EnumType
  | enum
  | senum
  | benum
  deriving DecidableEq, Repr

/-- The size of an element, in bytes. -/
def EnumType.size : EnumType → Nat
  | enum => 4
  | senum => 2
  | benum => 1

theorem EnumType.size_le (type : EnumType) : type.size ≤ 4 := by cases type <;> decide

/-! ## The operations -/

/-- The value that is read of the bytes of an element, as an unsigned number. -/
def enumValue (elem : List UInt8) : UInt32 := .ofNat (leNat elem)

/-- The text that is written with its end: what is returned counts both. -/
def textWithEnd (name : Name) : Int × List UInt8 := (name.chars.length + 1, name.chars ++ [0])

/-- `enum_get_text_value`: what it returns and the text it writes. `ref` is the list of the
    element, if it has one. -/
def enumGetTextValue (ref : Option (List NameValue)) (elem : List UInt8) :
    Outcome (Int × List UInt8) :=
  match ref with
  | none => .error (-EINVAL)
  | some enumList =>
    match enumList.find? fun e => e.value.toUInt32 = enumValue elem with
    | some e => .done (textWithEnd e.name)
    | none => if enumValue elem = 0 then .done (textWithEnd nulstring) else .error (-EINVAL)

/-- The loop of `enum_set_text_value` over the list: the value of the last entry with the
    name, or what `enum_value` is before, which nothing is at first. -/
def lookup (text : Name) : List NameValue → Option UInt32 → Option UInt32
  | [], enumValue => enumValue
  | e :: list, enumValue =>
    lookup text list (if e.name.strcmp text = 0 then some e.value.toUInt32 else enumValue)

/-- `enum_set_text_value`: what it returns and the bytes it writes, from the address of the
    element on. The value is used where no name has set it. -/
def enumSetTextValue (type : EnumType) (ref : Option (List NameValue)) (text : Name) :
    Outcome (Int × List UInt8) :=
  match ref with
  | none => .error (-EINVAL)
  | some enumList =>
    -- Whatever the type, an `int` is written here.
    if nulstring.strcmp text = 0 then .done (0, leBytes 4 0)
    else match lookup text enumList none with
      | none => .fault
      | some value => match type with
        | .enum => .done (value.toInt32.toInt, leBytes 4 value.toNat)
        | .senum =>
          if value > 32767 then .error (-EINVAL)
          else .done (value.toInt32.toInt, leBytes 2 value.toNat)
        | .benum =>
          if value > 127 then .error (-EINVAL)
          else .done (value.toInt32.toInt, leBytes 1 value.toNat)

/-! ## What they should do -/

variable (type : EnumType) (list : List NameValue)

/-- A text is the name of a value: the null name of zero, or one of the list. -/
def Names (text : Name) (value : UInt32) : Prop :=
  (text = nulstring ∧ value = 0) ∨ ∃ e ∈ list, e.name = text ∧ e.value.toUInt32 = value

/-- A value can be held by an element. -/
def Fits (value : UInt32) : Prop := value.toNat < 256 ^ type.size

/-- A name whose value fits sets it, and writes no other bytes; any other text is an error,
    and nothing is written. -/
structure EnumSets (text : Name) : Prop where
  taken : (∃ value, Names list text value ∧ Fits type value) →
    ∃ value ret, Names list text value ∧ Fits type value ∧ 0 ≤ ret ∧
      enumSetTextValue type (some list) text = .done (ret, leBytes type.size value.toNat)
  rejected : (∀ value, Names list text value → ¬ Fits type value) →
    ∃ ret < 0, enumSetTextValue type (some list) text = .error ret

/-- A value that has a name is restored from the text that is written of it. -/
def EnumRestores (elem : Vector UInt8 type.size) : Prop :=
  (∃ text, Names list text (enumValue elem.toList)) →
    ∃ text : Name, enumGetTextValue (some list) elem.toList = .done (textWithEnd text) ∧
      ∃ ret, 0 ≤ ret ∧ enumSetTextValue type (some list) text = .done (ret, elem.toList)

/-! ## When they do -/

/-- The last entry of the list with a name. -/
def lastNamed (text : Name) : Option NameValue := (list.filter fun e => e.name = text).getLast?

/-- The greatest value that a text can set. -/
def EnumType.limit : EnumType → Nat
  | enum => 2 ^ 31 - 1
  | senum => 32767
  | benum => 127

/-- The texts that set an element right: the null name where an `int` is written, and names
    whose last entry has a value that can be set, or whose entries all have values that do
    not fit. -/
def SetsWhen (text : Name) : Prop :=
  if text = nulstring then type = .enum
  else ∃ e, lastNamed list text = some e ∧
    (e.value.toUInt32.toNat ≤ type.limit ∨ ∀ e ∈ list, e.name = text → ¬ Fits type e.value.toUInt32)

/-- The values that are restored: those without a name, zero under the null name where an
    `int` is written, and those that can be set of which the name is not given to another
    value later in the list. -/
def RestoresWhen (value : UInt32) : Prop :=
  match list.find? fun e => e.value.toUInt32 = value with
  | none => value = 0 → type = .enum
  | some e =>
    if e.name = nulstring then value = 0 ∧ type = .enum
    else value.toNat ≤ type.limit ∧
      ∃ last, lastNamed list e.name = some last ∧ last.value.toUInt32 = value

variable {type list} {text : Name}

/-! ## Looking up -/

theorem lookup_eq (enumValue : Option UInt32) : lookup text list enumValue =
    ((lastNamed list text).map fun e => e.value.toUInt32).or enumValue := by
  induction list generalizing enumValue with
  | nil => rfl
  | cons e list ih =>
    rw [lookup, ih, lastNamed, lastNamed]
    by_cases hname : e.name = text
    · rw [if_pos (Name.strcmp_eq_zero.2 hname), List.filter_cons_of_pos (by simpa using hname),
        List.getLast?_cons]
      cases (list.filter fun e => e.name = text).getLast? <;> rfl
    · rw [if_neg (mt Name.strcmp_eq_zero.1 hname), List.filter_cons_of_neg (by simpa using hname)]

/-- The last entry with a name is one. -/
theorem mem_of_lastNamed {e : NameValue} (h : lastNamed list text = some e) :
    e ∈ list ∧ e.name = text := by
  simpa using List.mem_filter.1 (List.mem_of_getLast? h)

theorem lastNamed_eq_none (h : lastNamed list text = none) : ∀ e ∈ list, e.name ≠ text := by
  intro e he hname
  have hmem : e ∈ list.filter fun e => e.name = text := List.mem_filter.2 ⟨he, by simpa using hname⟩
  rw [List.getLast?_eq_none_iff.1 h] at hmem
  cases hmem

/-- A number below the half of the range is the same as an `int`. -/
theorem toInt_toInt32 (value : UInt32) : value.toInt32.toInt =
    if value.toNat < 2 ^ 31 then (value.toNat : Int) else value.toNat - 2 ^ 32 := by
  have h := BitVec.toInt_eq_toNat_cond value.toBitVec
  change value.toBitVec.toInt = _
  rw [h]
  change (if 2 * value.toNat < 2 ^ 32 then (value.toNat : Int) else value.toNat - (2 ^ 32 : Nat)) = _
  split_ifs <;> omega

/-! ## Setting -/

theorem enumSetTextValue_null :
    enumSetTextValue type (some list) nulstring = .done (0, leBytes 4 0) := by
  simp only [enumSetTextValue, Name.strcmp_eq_zero, if_true]

theorem enumSetTextValue_named (hnull : text ≠ nulstring) {e : NameValue}
    (hlast : lastNamed list text = some e) (hlimit : e.value.toUInt32.toNat ≤ type.limit) :
    enumSetTextValue type (some list) text =
      .done (e.value.toUInt32.toNat, leBytes type.size e.value.toUInt32.toNat) := by
  have hlookup : lookup text list none = some e.value.toUInt32 := by
    rw [lookup_eq, hlast]
    rfl
  simp only [enumSetTextValue, Name.strcmp_eq_zero, if_neg hnull.symm, hlookup]
  have hint := toInt_toInt32 e.value.toUInt32
  cases type with
  | enum =>
    simp only [EnumType.limit] at hlimit
    rw [if_pos (by omega)] at hint
    simp only [hint, EnumType.size]
  | senum =>
    simp only [EnumType.limit] at hlimit
    rw [if_pos (by omega)] at hint
    simp only [hint, EnumType.size]
    rw [if_neg (by rw [gt_iff_lt, UInt32.lt_iff_toNat_lt]; exact Nat.not_lt.2 hlimit)]
  | benum =>
    simp only [EnumType.limit] at hlimit
    rw [if_pos (by omega)] at hint
    simp only [hint, EnumType.size]
    rw [if_neg (by rw [gt_iff_lt, UInt32.lt_iff_toNat_lt]; exact Nat.not_lt.2 hlimit)]

/-- A value above the limit is an error, or is returned as one. -/
theorem enumSetTextValue_over (hnull : text ≠ nulstring) {e : NameValue}
    (hlast : lastNamed list text = some e) (hlimit : type.limit < e.value.toUInt32.toNat) :
    (type = .enum ∧ ∃ ret < 0, enumSetTextValue type (some list) text =
      .done (ret, leBytes 4 e.value.toUInt32.toNat)) ∨
    (type ≠ .enum ∧ enumSetTextValue type (some list) text = .error (-EINVAL)) := by
  have hlookup : lookup text list none = some e.value.toUInt32 := by
    rw [lookup_eq, hlast]
    rfl
  simp only [enumSetTextValue, Name.strcmp_eq_zero, if_neg hnull.symm, hlookup]
  cases type with
  | enum =>
    have hint := toInt_toInt32 e.value.toUInt32
    have hlt := e.value.toUInt32.toNat_lt
    simp only [EnumType.limit] at hlimit
    rw [if_neg (by omega)] at hint
    exact .inl ⟨rfl, _, by rw [hint]; omega, rfl⟩
  | senum =>
    refine .inr ⟨nofun, if_pos ?_⟩
    rw [gt_iff_lt, UInt32.lt_iff_toNat_lt]
    exact hlimit
  | benum =>
    refine .inr ⟨nofun, if_pos ?_⟩
    rw [gt_iff_lt, UInt32.lt_iff_toNat_lt]
    exact hlimit

/-- Without an entry of the name no value is set. -/
theorem enumSetTextValue_unknown (hnull : text ≠ nulstring) (hlast : lastNamed list text = none) :
    enumSetTextValue type (some list) text = .fault := by
  have hlookup : lookup text list none = none := by
    rw [lookup_eq, hlast]
    rfl
  simp only [enumSetTextValue, Name.strcmp_eq_zero, if_neg hnull.symm, hlookup]

theorem fits_of_le_limit {value : UInt32} (h : value.toNat ≤ type.limit) : Fits type value := by
  cases type <;> simp only [EnumType.limit] at h <;> simp only [Fits, EnumType.size] <;> omega

theorem fits_enum (value : UInt32) : Fits .enum value := value.toNat_lt

/-- A text sets an element right exactly when it is the null name of an `int`, or a name
    whose last entry has a value that can be set, or whose entries all do not fit. -/
theorem enumSets_iff (type : EnumType) (list : List NameValue) (text : Name) :
    EnumSets type list text ↔ SetsWhen type list text := by
  rw [SetsWhen]
  by_cases hnull : text = nulstring
  · subst hnull
    rw [if_pos rfl]
    have hzero : Names list nulstring 0 := .inl ⟨rfl, rfl⟩
    have hfits : Fits type 0 := Nat.pow_pos (by decide)
    constructor
    · intro h
      obtain ⟨value, ret, -, -, -, hset⟩ := h.taken ⟨0, hzero, hfits⟩
      rw [enumSetTextValue_null, Outcome.done.injEq, Prod.mk.injEq] at hset
      have hlen := congrArg List.length hset.2
      rw [length_leBytes, length_leBytes] at hlen
      cases type with
      | enum => rfl
      | senum => exact absurd hlen (by decide)
      | benum => exact absurd hlen (by decide)
    · rintro rfl
      exact ⟨fun _ => ⟨0, 0, hzero, hfits, Int.le_refl 0, enumSetTextValue_null⟩,
        fun h => absurd hfits (h 0 hzero)⟩
  · rw [if_neg hnull]
    have hnames {value : UInt32} (h : Names list text value) :
        ∃ e ∈ list, e.name = text ∧ e.value.toUInt32 = value :=
      h.resolve_left fun h => hnull h.1
    cases hlast : lastNamed list text with
    | none =>
      -- No entry has the name, and there is no value to write.
      refine iff_of_false (fun h => ?_) fun ⟨e, he, _⟩ => by cases he
      obtain ⟨ret, -, hset⟩ := h.rejected fun value hvalue => by
        obtain ⟨e, he, hname, -⟩ := hnames hvalue
        exact absurd hname (lastNamed_eq_none hlast e he)
      rw [enumSetTextValue_unknown hnull hlast] at hset
      cases hset
    | some e =>
      obtain ⟨he, hname⟩ := mem_of_lastNamed hlast
      have hvalue : Names list text e.value.toUInt32 := .inr ⟨e, he, hname, rfl⟩
      by_cases hlimit : e.value.toUInt32.toNat ≤ type.limit
      · have hset := enumSetTextValue_named hnull hlast hlimit
        have hfits := fits_of_le_limit hlimit
        exact iff_of_true
          ⟨fun _ => ⟨_, _, hvalue, hfits, Int.natCast_nonneg _, hset⟩,
            fun h => absurd hfits (h _ hvalue)⟩ ⟨e, rfl, .inl hlimit⟩
      · have hset := enumSetTextValue_over hnull hlast (Nat.lt_of_not_le hlimit)
        constructor
        · intro h
          refine ⟨e, rfl, .inr fun e' he' hname' hfits' => ?_⟩
          obtain ⟨value, ret, -, -, hret, hdone⟩ := h.taken ⟨_, .inr ⟨e', he', hname', rfl⟩, hfits'⟩
          rcases hset with ⟨-, ret', hneg, hset⟩ | ⟨-, hset⟩
          · rw [hset, Outcome.done.injEq, Prod.mk.injEq] at hdone
            omega
          · rw [hset] at hdone
            cases hdone
        · rintro ⟨e', he', hle | hno⟩
          · obtain rfl := Option.some.inj he'
            exact absurd hle hlimit
          · have hno' (value : UInt32) (h : Names list text value) : ¬ Fits type value := by
              obtain ⟨e', he', hname', rfl⟩ := hnames h
              exact hno e' he' hname'
            refine ⟨fun ⟨value, h, hfits⟩ => absurd hfits (hno' value h), fun _ => ?_⟩
            rcases hset with ⟨rfl, -⟩ | ⟨-, hset⟩
            · exact absurd (fits_enum _) (hno' _ hvalue)
            · exact ⟨-EINVAL, by decide, hset⟩

/-! ## Restoring -/

/-- The value of an element is the number of its bytes. -/
theorem toNat_enumValue {n : Nat} (elem : Vector UInt8 n) (hn : n ≤ 4) :
    (enumValue elem.toList).toNat = leNat elem.toList := by
  have hlt := leNat_lt elem.toList
  have hmax : 256 ^ n ≤ 2 ^ 32 := (Nat.pow_le_pow_right (by decide) hn).trans_eq (by decide)
  rw [Vector.length_toList] at hlt
  rw [enumValue, UInt32.toNat_ofNat', Nat.mod_eq_of_lt (by omega)]

/-- The bytes of an element are those of its value. -/
theorem leBytes_enumValue {n : Nat} (elem : Vector UInt8 n) (hn : n ≤ 4) :
    leBytes n (enumValue elem.toList).toNat = elem.toList := by
  have hback := leBytes_leNat elem.toList
  rw [Vector.length_toList] at hback
  rw [toNat_enumValue elem hn, hback]

/-- Numbers that fit are told by their bytes. -/
theorem leBytes_inj {k m n : Nat} (hm : m < 256 ^ k) (hn : n < 256 ^ k)
    (h : leBytes k m = leBytes k n) : m = n := by
  have heq := congrArg leNat h
  rwa [leNat_leBytes, leNat_leBytes, Nat.mod_eq_of_lt hm, Nat.mod_eq_of_lt hn] at heq

theorem fits_enumValue (elem : Vector UInt8 type.size) : Fits type (enumValue elem.toList) := by
  have hlt := leNat_lt elem.toList
  rwa [Vector.length_toList, ← toNat_enumValue elem type.size_le] at hlt

/-- A value that is written as the null name is restored where it is zero, and an `int`. -/
theorem restores_null (elem : Vector UInt8 type.size) :
    (∃ ret, 0 ≤ ret ∧ enumSetTextValue type (some list) nulstring = .done (ret, elem.toList)) ↔
      enumValue elem.toList = 0 ∧ type = .enum := by
  rw [enumSetTextValue_null]
  constructor
  · rintro ⟨ret, -, hset⟩
    rw [Outcome.done.injEq, Prod.mk.injEq] at hset
    have hlen := congrArg List.length hset.2
    rw [length_leBytes, Vector.length_toList] at hlen
    refine ⟨?_, ?_⟩
    · rw [enumValue, ← hset.2]
      rfl
    · cases type with
      | enum => rfl
      | senum => exact absurd hlen (by decide)
      | benum => exact absurd hlen (by decide)
  · rintro ⟨hzero, rfl⟩
    have hbytes := leBytes_enumValue elem (by decide)
    rw [hzero] at hbytes
    exact ⟨0, Int.le_refl 0, by rw [← hbytes]; rfl⟩

/-- A value that is written as a name of the list is restored where the name sets it. -/
theorem restores_named (elem : Vector UInt8 type.size) (hnull : text ≠ nulstring)
    {last : NameValue} (hlast : lastNamed list text = some last) :
    (∃ ret, 0 ≤ ret ∧ enumSetTextValue type (some list) text = .done (ret, elem.toList)) ↔
      (enumValue elem.toList).toNat ≤ type.limit ∧
        last.value.toUInt32 = enumValue elem.toList := by
  have hbytes := leBytes_enumValue elem type.size_le
  by_cases hlimit : last.value.toUInt32.toNat ≤ type.limit
  · rw [enumSetTextValue_named hnull hlast hlimit]
    constructor
    · rintro ⟨ret, -, hset⟩
      rw [Outcome.done.injEq, Prod.mk.injEq, ← hbytes] at hset
      have heq : last.value.toUInt32 = enumValue elem.toList :=
        UInt32.toNat_inj.1 (leBytes_inj (fits_of_le_limit hlimit) (fits_enumValue elem) hset.2)
      exact ⟨heq ▸ hlimit, heq⟩
    · rintro ⟨-, heq⟩
      exact ⟨_, Int.natCast_nonneg _, by rw [heq, hbytes]⟩
  · refine iff_of_false ?_ fun ⟨hle, heq⟩ => hlimit (heq ▸ hle)
    rintro ⟨ret, hret, hdone⟩
    rcases enumSetTextValue_over hnull hlast (Nat.lt_of_not_le hlimit) with
      ⟨-, ret', hneg, hset⟩ | ⟨-, hset⟩
    · rw [hset, Outcome.done.injEq, Prod.mk.injEq] at hdone
      omega
    · rw [hset] at hdone
      cases hdone

theorem textWithEnd_inj {a b : Name} (h : textWithEnd a = textWithEnd b) : a = b :=
  Name.ext (List.append_cancel_right (Prod.mk.inj h).2)

/-- What is written of a value is restored exactly where its name is, if it has one. -/
theorem enumRestores_of_get {elem : Vector UInt8 type.size} {text : Name}
    (hget : enumGetTextValue (some list) elem.toList = .done (textWithEnd text))
    (hnames : Names list text (enumValue elem.toList)) :
    EnumRestores type list elem ↔
      ∃ ret, 0 ≤ ret ∧ enumSetTextValue type (some list) text = .done (ret, elem.toList) := by
  constructor
  · intro h
    obtain ⟨text', hget', hset⟩ := h ⟨text, hnames⟩
    rw [hget, Outcome.done.injEq] at hget'
    rwa [textWithEnd_inj hget']
  · exact fun hset _ => ⟨text, hget, hset⟩

/-- The values that are restored from their text. -/
theorem enumRestores_iff (type : EnumType) (list : List NameValue)
    (elem : Vector UInt8 type.size) :
    EnumRestores type list elem ↔ RestoresWhen type list (enumValue elem.toList) := by
  rw [RestoresWhen]
  cases hfind : list.find? fun e => e.value.toUInt32 = enumValue elem.toList with
  | none =>
    have hnone : ∀ e ∈ list, e.value.toUInt32 ≠ enumValue elem.toList := by
      simpa using List.find?_eq_none.1 hfind
    by_cases hzero : enumValue elem.toList = 0
    · -- Zero that is not in the list has the null name.
      have hget : enumGetTextValue (some list) elem.toList = .done (textWithEnd nulstring) := by
        simp only [enumGetTextValue, hfind, if_pos hzero]
      rw [enumRestores_of_get hget (.inl ⟨rfl, hzero⟩), restores_null]
      simp [hzero]
    · refine iff_of_true (fun ⟨text, hnames⟩ => ?_) fun h => absurd h hzero
      rcases hnames with ⟨-, h⟩ | ⟨e, he, -, h⟩
      · exact absurd h hzero
      · exact absurd h (hnone e he)
  | some e =>
    have he : e ∈ list ∧ e.value.toUInt32 = enumValue elem.toList :=
      ⟨List.mem_of_find?_eq_some hfind, by simpa using List.find?_some hfind⟩
    have hget : enumGetTextValue (some list) elem.toList = .done (textWithEnd e.name) := by
      simp only [enumGetTextValue, hfind]
    rw [enumRestores_of_get hget (.inr ⟨e, he.1, rfl, he.2⟩)]
    by_cases hnull : e.name = nulstring
    · simp only [hnull, restores_null, if_true]
    · obtain ⟨last, hlast⟩ : ∃ last, lastNamed list e.name = some last := by
        cases hlast : lastNamed list e.name with
        | none => exact absurd rfl (lastNamed_eq_none hlast e he.1)
        | some last => exact ⟨last, rfl⟩
      simp only [if_neg hnull, restores_named elem hnull hlast, hlast, Option.some.injEq,
        exists_eq_left']

/-- For any list of names and any type, the texts that set an element right are known, and
    so are the values that are restored from their text. -/
theorem enumText_iff (type : EnumType) (list : List NameValue) :
    (∀ text, EnumSets type list text ↔ SetsWhen type list text) ∧
      ∀ elem : Vector UInt8 type.size,
        EnumRestores type list elem ↔ RestoresWhen type list (enumValue elem.toList) :=
  ⟨enumSets_iff type list, enumRestores_iff type list⟩

/-- A name that is not in the list is not rejected: the value written is one never set. -/
theorem not_enumSets_unknown : ¬ EnumSets .enum
    [⟨⟨['A'.toUInt8], by decide⟩, 1⟩] ⟨['B'.toUInt8], by decide⟩ := by
  intro h
  obtain ⟨ret, -, hset⟩ := h.rejected fun value hnames => by
    rcases hnames with ⟨hnull, -⟩ | ⟨e, he, hname, -⟩
    · exact absurd hnull (by decide)
    · obtain rfl := List.mem_singleton.1 he
      exact absurd hname (by decide)
  cases hset

end Cube.Text
