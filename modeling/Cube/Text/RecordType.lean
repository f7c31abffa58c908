import Cube.Text.Atoi
import Cube.Text.ElemText
import Cube.Text.ElemTypeName

/-!
# The names of record types

The types of records have names in a list, and each type has a list of its own for the
subtypes (`recordtype_get_text_value`, `subtype_get_text_value` and their setters in
`type_subtype_ops.c`). The loops over these lists go as far as the lists count.

* `findEntry_eq`: which entry a loop comes to;
* `recordtypeRestored_iff`, `subtypeRestored_iff`: the values that are restored.
-/

namespace Cube.Text

open Lib Memdb Message Struct

/-! ## The operations -/

/-- The loops over the entries of a list, which go `n` times more. -/
def findEntry (p : Entry → Outcome Bool) : Nat → List Entry → Outcome (Option Entry)
  | 0, _ => .done none
  | _ + 1, [] => .fault
  | n + 1, e :: list => do
    let found ← p e
    if found then .done (some e) else findEntry p n list

/-- The comparison of the name of an entry, which may not be a null pointer. -/
def hasName (text : Name) (e : Entry) : Outcome Bool :=
  match e.name with
  | none => .fault
  | some name => .done (name.strcmp text = 0)

/-- The text of the first entry with a value, if there is one. -/
def entryText (enumValue : Int32) (elemNo : Nat) (enumList : List Entry) :
    Outcome (Option (Int × List UInt8)) := do
  match ← findEntry (fun e => .done (e.value = enumValue)) elemNo enumList with
  | none => .done none
  | some e => match e.name with
    | none => .fault
    | some name => .done (some (textWithEnd name))

/-- `recordtype_get_text_value`, with the list of the database, if there is one. -/
def recordtypeGetTextValue (typeenumlist : Option EntryList) (addr : List UInt8) :
    Outcome (Int × List UInt8) :=
  match typeenumlist with
  | none => .error (-EINVAL)
  | some list =>
    let enumValue := bytesInt32 addr
    if enumValue < 0 then .error (-EINVAL)
    else do
      match ← entryText enumValue list.elemNo list.elemlist with
      | some text => .done text
      | none => if enumValue = 0 then .done (textWithEnd nulstring) else .error (-EINVAL)

/-- `recordtype_set_text_value`: what it returns and the bytes it writes. -/
def recordtypeSetTextValue (typeenumlist : Option EntryList) (text : Name) :
    Outcome (Int × List UInt8) :=
  match typeenumlist with
  | none => .error (-EINVAL)
  | some list =>
    if nulstring.strcmp text = 0 then .done (0, int32Bytes 0)
    else do
      match ← findEntry (hasName text) list.elemNo list.elemlist with
      | some e => .done (e.value.toInt, int32Bytes e.value)
      | none => .error (-EINVAL)

/-- A list of subtypes, `struct struct_namelist`, which may count without having entries. -/
structure SubtypeList where
  elemNo : Nat
  elemlist : Option (List Entry)
  deriving DecidableEq

variable (memdbGetSubtypelist : Int → Option SubtypeList)

/-- `subtype_get_text_value`, for the type in the index of the template. -/
def subtypeGetTextValue (index : Int) (addr : List UInt8) : Outcome (Int × List UInt8) :=
  let enumValue := bytesInt32 addr
  if enumValue = 0 then .done (textWithEnd nulstring)
  else if index < 0 then .error (-EINVAL)
  else match memdbGetSubtypelist index with
    | none => (fun digits => ((digits.length : Int), digits.map Char.toUInt8 ++ [0])) <$>
        Json.itoa enumValue.toInt
    | some list => match list.elemlist with
      | none => if list.elemNo = 0 then .error (-EINVAL) else .fault
      | some enumList => do
        match ← entryText enumValue list.elemNo enumList with
        | some text => .done text
        | none => .error (-EINVAL)

/-- `subtype_set_text_value`: what it returns and the bytes it writes. -/
def subtypeSetTextValue (index : Int) (text : Name) : Outcome (Int × List UInt8) :=
  if nulstring.strcmp text = 0 then .done (0, int32Bytes 0)
  else if index < 0 then .error (-EINVAL)
  else match memdbGetSubtypelist index with
    | none => .error (-EINVAL)
    | some list => match list.elemlist with
      | none => do
        let enumValue ← atoi (text.chars ++ [0]) DIGEST_SIZE
        if enumValue < 0 then .error enumValue
        else .done (enumValue, int32Bytes (Int32.ofInt enumValue))
      | some enumList => do
        match ← findEntry (hasName text) list.elemNo enumList with
        | some e => .done (e.value.toInt, int32Bytes e.value)
        | none => .error (-EINVAL)

/-- `recordtype_convert_ops`. -/
def recordtypeOps (typeenumlist : Option EntryList) : TextOps (List UInt8) :=
  plainOps 4 (recordtypeGetTextValue typeenumlist) (setByName (recordtypeSetTextValue typeenumlist))

/-- `subtype_convert_ops`. -/
def subtypeOps : TextOps (List UInt8) :=
  indexOps 4 (subtypeGetTextValue memdbGetSubtypelist) fun index =>
    setByName (subtypeSetTextValue memdbGetSubtypelist index)

/-! ## Looking up -/

/-- The entry that a loop comes to is the first that it does not pass. -/
theorem findEntry_eq (p : Entry → Outcome Bool) (n : Nat) (list : List Entry) :
    findEntry p n list = match (list.take n).find? fun e => p e ≠ .done false with
      | some e => (fun _ => some e) <$> p e
      | none => if n ≤ list.length then .done none else .fault := by
  induction list generalizing n with
  | nil => cases n <;> simp [findEntry]
  | cons e list ih =>
    rcases n with _ | n
    · simp [findEntry]
    · rw [findEntry, List.take_succ_cons, List.find?_cons, ih]
      cases hp : p e with
      | done found => cases found <;> simp [hp]
      | error err => simp [hp]
      | fault => simp [hp]

/-- A name and a value are the first of each other in a list, up to a null name. -/
def FirstOfEach (entries : List Entry) (name : Name) (value : Int32) : Prop :=
  entries.find? (fun e => e.value = value) = some ⟨some name, value⟩ ∧
    entries.find? (fun e => e.name = none ∨ e.name = some name) = some ⟨some name, value⟩

/-- The loop over the values, which none of the entries stops. -/
theorem findEntry_value (value : Int32) (n : Nat) (list : List Entry) :
    findEntry (fun e => .done (e.value = value)) n list =
      match (list.take n).find? fun e => e.value = value with
      | some e => .done (some e)
      | none => if n ≤ list.length then .done none else .fault := by
  have hp : (fun e : Entry => decide ((Outcome.done (decide (e.value = value))) ≠ .done false)) =
      fun e : Entry => decide (e.value = value) := by
    funext e
    simp
  rw [findEntry_eq, hp]
  rfl

variable {value : Int32} {n : Nat} {list : List Entry} {ret : Int} {name : Name}

/-- The text of an entry that is found. -/
theorem entryText_eq_some {r : Int × List UInt8} :
    entryText value n list = .done (some r) ↔ ∃ name, r = textWithEnd name ∧
      (list.take n).find? (fun e => e.value = value) = some ⟨some name, value⟩ := by
  rw [entryText, findEntry_value]
  rcases hfind : (list.take n).find? fun e => e.value = value with _ | ⟨name, v⟩
  · rw [hfind]
    split_ifs <;> simp
  · rw [hfind]
    obtain rfl : v = value := by simpa using List.find?_some hfind
    rcases name with _ | name <;> simp [eq_comm]

theorem entryText_eq_none :
    entryText value n list = .done none ↔
      (list.take n).find? (fun e => e.value = value) = none ∧ n ≤ list.length := by
  rw [entryText, findEntry_value]
  rcases hfind : (list.take n).find? fun e => e.value = value with _ | ⟨name, v⟩
  · rw [hfind]
    split_ifs with hn <;> simp [hn]
  · rw [hfind]
    rcases name with _ | name <;> simp

/-- The entry that is found by its name. -/
theorem findEntry_hasName {text : Name} {e : Entry} :
    findEntry (hasName text) n list = .done (some e) ↔
      e.name = some text ∧
        (list.take n).find? (fun e => e.name = none ∨ e.name = some text) = some e := by
  have hp : (fun e : Entry => decide (hasName text e ≠ .done false)) =
      fun e : Entry => decide (e.name = none ∨ e.name = some text) := by
    funext e
    rcases hname : e.name with _ | name
    · simp [hasName, hname]
    · simp [hasName, hname, Name.strcmp_eq_zero]
  rw [findEntry_eq, hp]
  rcases hfind : (list.take n).find? fun e => decide (e.name = none ∨ e.name = some text) with _ | e'
  · rw [hfind]
    split_ifs <;> simp
  · rw [hfind]
    have hname := List.find?_some hfind
    rw [decide_eq_true_iff] at hname
    rcases hname with hname | hname
    · simp only [hasName, hname, Outcome.map_fault, reduceCtorEq, false_iff, not_and, Option.some.injEq]
      intro he heq
      rw [← heq, hname] at he
      cases he
    · simp only [hasName, hname, Outcome.map_done, Outcome.done.injEq, Option.some.injEq]
      exact ⟨fun h => ⟨h ▸ hname, h⟩, fun h => h.2⟩

/-! ## Round trip -/

/-- The types of records that are restored: those that their name stands for, and zero also
    where it has no name. -/
def RecordtypeWhen (list : EntryList) (value : Int32) : Prop :=
  0 ≤ value ∧ ((∃ name, name ≠ nulstring ∧ FirstOfEach (list.elemlist.take list.elemNo) name value) ∨
    value = 0 ∧
      ((list.elemlist.take list.elemNo).find? (fun e => e.value = 0) = some ⟨some nulstring, 0⟩ ∨
        (list.elemlist.take list.elemNo).find? (fun e => e.value = 0) = none ∧
          list.elemNo ≤ list.elemlist.length))

/-- The subtypes that are restored: zero, and those that their name stands for in the list
    of their type. -/
def SubtypeWhen (index : Int) (value : Int32) : Prop :=
  value = 0 ∨ 0 < value ∧ ∃ elemNo enumList name,
    memdbGetSubtypelist index = some ⟨elemNo, some enumList⟩ ∧ name ≠ nulstring ∧
      FirstOfEach (enumList.take elemNo) name value

theorem bytesInt32_value (value : Int32) : bytesInt32 (int32Bytes value) = value := by
  have h := bytesInt32_int32Bytes value []
  rwa [List.append_nil] at h

/-- What is set by a name that is not the null name. -/
theorem setsEntry_iff {text : Name} :
    (do match ← findEntry (hasName text) n list with
        | some e => Outcome.done (e.value.toInt, int32Bytes e.value)
        | none => .error (-EINVAL)) = .done (ret, int32Bytes value) ↔
      ret = value.toInt ∧ (list.take n).find? (fun e => e.name = none ∨ e.name = some text) =
        some ⟨some text, value⟩ := by
  constructor
  · intro h
    obtain ⟨found, hfound, h⟩ := Outcome.bind_eq_done.1 h
    rcases found with _ | ⟨name, v⟩
    · cases h
    · obtain ⟨hname, hfind⟩ := findEntry_hasName.1 hfound
      rw [Outcome.done.injEq, Prod.mk.injEq] at h
      obtain rfl := int32Bytes_inj h.2
      obtain rfl : name = some text := hname
      exact ⟨h.1.symm, hfind⟩
  · rintro ⟨rfl, hfind⟩
    rw [findEntry_hasName.2 ⟨rfl, hfind⟩]
    rfl

/-- The texts that are written of a value. -/
theorem recordtypeGetTextValue_eq_done {list : EntryList} {r : Int × List UInt8} :
    recordtypeGetTextValue (some list) (int32Bytes value) = .done r ↔ 0 ≤ value ∧
      ∃ name, r = textWithEnd name ∧
        ((list.elemlist.take list.elemNo).find? (fun e => e.value = value) = some ⟨some name, value⟩ ∨
          name = nulstring ∧ value = 0 ∧
            (list.elemlist.take list.elemNo).find? (fun e => e.value = 0) = none ∧
              list.elemNo ≤ list.elemlist.length) := by
  simp only [recordtypeGetTextValue, bytesInt32_value]
  by_cases hneg : value < 0
  · rw [if_pos hneg]
    exact ⟨nofun, fun h => absurd h.1 (Int32.not_le.2 hneg)⟩
  rw [if_neg hneg, and_iff_right (Int32.not_lt.1 hneg)]
  constructor
  · intro h
    obtain ⟨found, hfound, h⟩ := Outcome.bind_eq_done.1 h
    rcases found with _ | text
    · obtain ⟨hnone, hwithin⟩ := entryText_eq_none.1 hfound
      simp only at h
      by_cases hzero : value = 0
      · subst hzero
        rw [if_pos rfl] at h
        exact ⟨nulstring, (Outcome.done.inj h).symm, .inr ⟨rfl, rfl, hnone, hwithin⟩⟩
      · rw [if_neg hzero] at h
        cases h
    · obtain rfl := Outcome.done.inj h
      obtain ⟨name, rfl, hfind⟩ := entryText_eq_some.1 hfound
      exact ⟨name, rfl, .inl hfind⟩
  · rintro ⟨name, rfl, hfind | ⟨rfl, rfl, hnone, hwithin⟩⟩
    · rw [entryText_eq_some.2 ⟨name, rfl, hfind⟩]
      rfl
    · rw [entryText_eq_none.2 ⟨hnone, hwithin⟩]
      rfl

/-- What a name sets. -/
theorem recordtypeSetTextValue_eq_done {list : EntryList} :
    recordtypeSetTextValue (some list) name = .done (ret, int32Bytes value) ↔
      ret = value.toInt ∧ if name = nulstring then value = 0 else
        (list.elemlist.take list.elemNo).find? (fun e => e.name = none ∨ e.name = some name) =
          some ⟨some name, value⟩ := by
  by_cases hnull : name = nulstring
  · subst hnull
    simp only [recordtypeSetTextValue, Name.strcmp_eq_zero, if_true, Outcome.done.injEq,
      Prod.mk.injEq]
    constructor
    · rintro ⟨rfl, h⟩
      obtain rfl := int32Bytes_inj h
      exact ⟨rfl, rfl⟩
    · rintro ⟨rfl, rfl⟩
      exact ⟨rfl, rfl⟩
  · simp only [recordtypeSetTextValue, Name.strcmp_eq_zero, if_neg hnull, if_neg (Ne.symm hnull)]
    exact setsEntry_iff

theorem length_recordtypeSetTextValue {list : Option EntryList}
    {written : List UInt8} (h : recordtypeSetTextValue list name = .done (ret, written)) :
    written.length = 4 := by
  rcases list with _ | list
  · cases h
  · simp only [recordtypeSetTextValue] at h
    split_ifs at h
    · obtain ⟨-, rfl⟩ := Outcome.pair_inj h
      exact length_int32Bytes _
    · obtain ⟨found, -, h⟩ := Outcome.bind_eq_done.1 h
      rcases found with _ | e
      · cases h
      · obtain ⟨-, rfl⟩ := Outcome.pair_inj h
        exact length_int32Bytes _

/-- A type of records is restored by its name exactly as said. -/
theorem recordtypeRestored_iff (list : EntryList) (value : Int32) (size defvalue : Int) :
    PlaceRestored (recordtypeOps (some list)) .recordtype size defvalue (int32Bytes value) ↔
      RecordtypeWhen list value := by
  rw [recordtypeOps, plainRestored_iff rfl rfl rfl, textRestored_setByName
    (fun r h => (recordtypeGetTextValue_eq_done.1 h).2.imp fun name h => h.1)
    (fun name ret written h => by rw [length_recordtypeSetTextValue h, length_int32Bytes])]
  simp only [recordtypeGetTextValue_eq_done, recordtypeSetTextValue_eq_done]
  constructor
  · rintro ⟨name, ⟨hpos, name', hname, hfind⟩, ret, -, rfl, hset⟩
    obtain rfl := textWithEnd_inj hname
    refine ⟨hpos, ?_⟩
    by_cases hnull : name = nulstring
    · rw [if_pos hnull] at hset
      subst hset hnull
      exact .inr ⟨rfl, hfind.imp_right fun h => h.2.2⟩
    · rw [if_neg hnull] at hset
      exact .inl ⟨name, hnull, hfind.resolve_right fun h => hnull h.1, hset⟩
  · rintro ⟨hpos, h⟩
    have hint : 0 ≤ value.toInt := Int32.le_iff_toInt_le.1 hpos
    rcases h with ⟨name, hnull, hfirst, hset⟩ | ⟨rfl, hfind⟩
    · exact ⟨name, ⟨hpos, name, rfl, .inl hfirst⟩, _, hint, rfl, by rwa [if_neg hnull]⟩
    · exact ⟨nulstring, ⟨hpos, nulstring, rfl, hfind.imp_right fun h => ⟨rfl, rfl, h⟩⟩, _, hint, rfl,
        by rw [if_pos rfl]⟩

/-! ## Subtypes -/

variable {memdbGetSubtypelist} {index : Int}

theorem length_subtypeSetTextValue {written : List UInt8}
    (h : subtypeSetTextValue memdbGetSubtypelist index name = .done (ret, written)) :
    written.length = 4 := by
  rw [subtypeSetTextValue] at h
  split_ifs at h
  · obtain ⟨-, rfl⟩ := Outcome.pair_inj h
    exact length_int32Bytes _
  · generalize memdbGetSubtypelist index = subtypelist at h
    rcases subtypelist with _ | ⟨elemNo, _ | enumList⟩
    · cases h
    · obtain ⟨enumValue, -, h⟩ := Outcome.bind_eq_done.1 h
      split_ifs at h
      obtain ⟨-, rfl⟩ := Outcome.pair_inj h
      exact length_int32Bytes _
    · obtain ⟨found, -, h⟩ := Outcome.bind_eq_done.1 h
      rcases found with _ | e
      · cases h
      · obtain ⟨-, rfl⟩ := Outcome.pair_inj h
        exact length_int32Bytes _

/-- Only the null name sets zero without looking at the list. -/
theorem subtypeSetTextValue_null :
    subtypeSetTextValue memdbGetSubtypelist index nulstring = .done (0, int32Bytes 0) := by
  simp only [subtypeSetTextValue, Name.strcmp_eq_zero, if_true]

/-- What a name sets from a list with entries. -/
theorem subtypeSetTextValue_eq_done (hindex : 0 ≤ index) {elemNo : Nat} {enumList : List Entry}
    (hlist : memdbGetSubtypelist index = some ⟨elemNo, some enumList⟩) (hzero : value ≠ 0) :
    subtypeSetTextValue memdbGetSubtypelist index name = .done (ret, int32Bytes value) ↔
      name ≠ nulstring ∧ ret = value.toInt ∧
        (enumList.take elemNo).find? (fun e => e.name = none ∨ e.name = some name) =
          some ⟨some name, value⟩ := by
  by_cases hnull : name = nulstring
  · subst hnull
    rw [subtypeSetTextValue_null, Outcome.done.injEq, Prod.mk.injEq]
    exact ⟨fun h => absurd (int32Bytes_inj h.2).symm hzero, fun h => absurd rfl h.1⟩
  · simp only [subtypeSetTextValue, Name.strcmp_eq_zero, if_neg (Ne.symm hnull),
      if_neg (Int.not_lt.2 hindex), hlist, setsEntry_iff, ne_eq, hnull, not_false_eq_true, true_and]

/-- The texts that are written of a value other than zero from a list with entries. -/
theorem subtypeGetTextValue_eq_done (hindex : 0 ≤ index) {elemNo : Nat} {enumList : List Entry}
    (hlist : memdbGetSubtypelist index = some ⟨elemNo, some enumList⟩)
    (hzero : value ≠ 0) {r : Int × List UInt8} :
    subtypeGetTextValue memdbGetSubtypelist index (int32Bytes value) = .done r ↔
      ∃ name, r = textWithEnd name ∧
        (enumList.take elemNo).find? (fun e => e.value = value) = some ⟨some name, value⟩ := by
  simp only [subtypeGetTextValue, bytesInt32_value, if_neg hzero, if_neg (Int.not_lt.2 hindex), hlist]
  rw [← entryText_eq_some]
  constructor
  · intro h
    obtain ⟨found, hfound, h⟩ := Outcome.bind_eq_done.1 h
    rcases found with _ | text
    · cases h
    · rw [hfound, Outcome.done.inj h]
  · intro h
    rw [h]
    rfl

/-- A subtype is restored by its name exactly as said. -/
theorem subtypeRestored_iff (value : Int32) (size : Int) (hindex : 0 ≤ index) :
    PlaceRestored (subtypeOps memdbGetSubtypelist) .recordsubtype size index (int32Bytes value) ↔
      SubtypeWhen memdbGetSubtypelist index value := by
  rw [subtypeOps, indexRestored_iff rfl rfl fun _ => hindex]
  change TextRestored (subtypeGetTextValue memdbGetSubtypelist index)
    (setByName (subtypeSetTextValue memdbGetSubtypelist index)) (int32Bytes value) ↔ _
  have hlen (name : Name) (ret : Int) (written : List UInt8)
      (h : subtypeSetTextValue memdbGetSubtypelist index name = .done (ret, written)) :
      (int32Bytes value).length ≤ written.length := by
    rw [length_subtypeSetTextValue h, length_int32Bytes]
  by_cases hzero : value = 0
  · subst hzero
    have hget : subtypeGetTextValue memdbGetSubtypelist index (int32Bytes 0) =
        .done (textWithEnd nulstring) := rfl
    rw [textRestored_setByName (fun r h => ⟨nulstring, (Outcome.done.inj (hget.symm.trans h)).symm⟩) hlen]
    exact iff_of_true ⟨nulstring, hget, 0, Int.le_refl 0, subtypeSetTextValue_null⟩ (.inl rfl)
  rw [SubtypeWhen, or_iff_right hzero]
  rcases hlist : memdbGetSubtypelist index with _ | ⟨elemNo, _ | enumList⟩
  · -- Without a list the number is written, and nothing is read.
    refine iff_of_false ?_ ?_
    swap
    · rintro ⟨-, _, _, _, ⟨⟩, -⟩
    rintro ⟨ret, text, -, -, hset⟩
    obtain ⟨ret', -, hdone⟩ := hset [] (int32Bytes value) rfl
    rw [setByName, if_pos (by simp)] at hdone
    obtain ⟨⟨r, written⟩, hwritten, heq⟩ := Outcome.map_eq_done.1 hdone
    obtain ⟨-, heq⟩ := Prod.mk.inj heq
    rw [List.drop_eq_nil_of_le (hlen _ _ _ hwritten), List.append_nil] at heq
    subst heq
    rw [subtypeSetTextValue] at hwritten
    split_ifs at hwritten
    · exact hzero (int32Bytes_inj (Outcome.pair_inj hwritten).2.symm)
    · rw [hlist] at hwritten
      cases hwritten
  · -- A list without entries gives no name to a value.
    refine iff_of_false ?_ ?_
    swap
    · rintro ⟨-, _, _, _, ⟨⟩, -⟩
    rintro ⟨ret, text, -, hget, -⟩
    simp only [subtypeGetTextValue, bytesInt32_value, if_neg hzero, if_neg (Int.not_lt.2 hindex),
      hlist] at hget
    split_ifs at hget
  · rw [textRestored_setByName (fun r h =>
      ((subtypeGetTextValue_eq_done hindex hlist hzero).1 h).imp fun name h => h.1) hlen]
    simp only [subtypeGetTextValue_eq_done hindex hlist hzero,
      subtypeSetTextValue_eq_done hindex hlist hzero]
    have hint : 0 ≤ value.toInt ↔ 0 < value := by
      have hne : value.toInt ≠ 0 := fun h => hzero (Int32.toInt_inj.1 h)
      rw [Int32.lt_iff_toInt_lt, Int32.toInt_zero]
      omega
    constructor
    · rintro ⟨name, ⟨name', hname, hfind⟩, ret, hret, hnull, rfl, hset⟩
      obtain rfl := textWithEnd_inj hname
      exact ⟨hint.1 hret, elemNo, enumList, name, rfl, hnull, hfind, hset⟩
    · rintro ⟨hpos, elemNo', enumList', name, heq, hnull, hfind, hset⟩
      obtain ⟨rfl, henum⟩ := SubtypeList.mk.inj (Option.some.inj heq)
      obtain rfl := Option.some.inj henum
      exact ⟨name, ⟨name, rfl, hfind⟩, _, hint.2 hpos, hnull, rfl, hset⟩

end Cube.Text
