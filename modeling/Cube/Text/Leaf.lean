import Cube.Text.Binary
import Cube.Text.Flag
import Cube.Text.NameItems
import Cube.Text.RecordType
import Cube.Text.UuidArray

/-!
# Leaves of structures as text

The elements of a structure whose types have text operations, with what the template and the
database hold for them: which of their values are restored by `_elem_set_text_value` from
the text that `_elem_get_text_value` writes.

* `intRestored_iff`, `enumRestored_iff`, `flagRestored_iff`, `elemtypeRestored_iff`: the
  integers, and the types whose values have names;
* `leafRestored_iff`: all types, with their arrays.
-/

namespace Cube.Text

open Lib Memdb Message Struct

/-! ## Integers -/

/-- The setter of an integer, which writes at the element. -/
def intSet (size : Nat) (elem text : List UInt8) : Outcome (Int × List UInt8) :=
  (fun r => (r.1, r.2 ++ elem.drop r.2.length)) <$> intSetTextValue size text

/-- `int_convert_ops`, and what the types of the network have of it. -/
def intOps (type : IntType) : TextOps (List UInt8) :=
  plainOps type.size (intGetTextValue type) (intSet type.size)

/-- One more than the greatest value that an element is restored with. -/
def intLimit : IntType → Nat
  | .uchar => 2 ^ 7
  | .ushort => 2 ^ 16
  | .int | .tpmUint32 => 2 ^ 31
  | .tpmUint16 => 1
  | .longlong | .tpmUint64 => 0

variable {type : IntType} {elem : Vector UInt8 type.size}

/-- The bytes that the setter writes are all of the element. -/
theorem intSet_bytes {ret : Int} {bytes text : List UInt8}
    (h : intSetTextValue type.size text = .done (ret, bytes)) (hlen : bytes.length = type.size)
    {old : List UInt8} (hold : old.length = type.size) :
    intSet type.size old text = .done (ret, bytes) := by
  rw [intSet, h, Outcome.map_done, hlen, ← hold, List.drop_length, List.append_nil]

/-- A positive number is restored if it is an `int`. -/
theorem textRestored_pos (hoperand : textOperand type elem.toList = ((leNat elem.toList : Int), -1))
    (hsize : type.size ≤ 4) (hpos : 0 < leNat elem.toList) (hlt : leNat elem.toList < 2 ^ 63) :
    TextRestored (intGetTextValue type) (intSet type.size) elem.toList ↔
      leNat elem.toList < 2 ^ 31 := by
  obtain ⟨k, hk, hk', hbound, hget⟩ := intGetTextValue_pos hoperand hpos hlt
  have hset (rest : List UInt8) := intSetTextValue_print hk hk' (hbound.trans (by decide)) type.size
    (0 :: rest)
  have hlen : elem.toList.length = type.size := Vector.length_toList ..
  constructor
  · rintro ⟨ret, text, -, htext, h⟩
    rw [hget, Outcome.done.injEq, Prod.mk.injEq] at htext
    obtain ⟨ret', -, hdone⟩ := h [] elem.toList rfl
    rw [← htext.2, List.append_assoc, intSet, List.singleton_append, hset] at hdone
    split_ifs at hdone with hfit
    · exact hfit
    · cases hdone
  · intro hfit
    have hbytes : Struct.intBytes (leNat elem.toList) type.size = .done elem.toList := by
      have hback := leBytes_leNat elem.toList
      rw [hlen] at hback
      rw [Struct.intBytes, if_neg (by omega), Int.toNat_natCast, take_leBytes hsize, hback]
    refine ⟨_, _, by omega, hget, fun rest old hold => ⟨((k + 1 : Nat) : Int) + 1, by omega, ?_⟩⟩
    rw [List.append_assoc, List.singleton_append]
    refine intSet_bytes ?_ hlen (hold.trans hlen)
    rw [hset, if_pos hfit, hbytes, Outcome.map_done]

/-- Where a zero is written, exactly zero is restored. -/
theorem textRestored_zero (hoperand : textOperand type elem.toList = (0, -1)) (hsize : type.size ≤ 4) :
    TextRestored (intGetTextValue type) (intSet type.size) elem.toList ↔ leNat elem.toList = 0 := by
  have hlen : elem.toList.length = type.size := Vector.length_toList ..
  have hget := intGetTextValue_zero hoperand
  have hset (rest : List UInt8) : intSetTextValue type.size (['0'.toUInt8, 0] ++ 0 :: rest) =
      .done (2, leBytes type.size 0) := by
    have hbytes : Struct.intBytes 0 type.size = .done (leBytes type.size 0) := by
      rw [Struct.intBytes, if_neg (by omega), Int.toNat_zero, take_leBytes hsize]
    change (2, ·) <$> Struct.intBytes 0 type.size = _
    rw [hbytes, Outcome.map_done]
  constructor
  · rintro ⟨ret, text, -, htext, h⟩
    rw [hget, Outcome.done.injEq, Prod.mk.injEq] at htext
    obtain ⟨ret', -, hdone⟩ := h [] elem.toList rfl
    rw [← htext.2, intSet_bytes (hset []) (length_leBytes ..) hlen, Outcome.done.injEq,
      Prod.mk.injEq] at hdone
    rw [← hdone.2, leNat_leBytes, Nat.zero_mod]
  · intro hzero
    have hback := leBytes_leNat elem.toList
    rw [hlen, hzero] at hback
    refine ⟨1, _, by decide, hget, fun rest old hold => ⟨2, by decide, ?_⟩⟩
    rw [intSet_bytes (hset rest) (length_leBytes ..) (hold.trans hlen), hback]

/-- A value with a sign in its text is not restored. -/
theorem not_textRestored_neg (hneg : (textOperand type elem.toList).1 < 0) :
    ¬ TextRestored (intGetTextValue type) (intSet type.size) elem.toList := by
  rintro ⟨ret, text, -, hget, h⟩
  obtain ⟨rest, rfl⟩ := intGetTextValue_neg hneg hget
  obtain ⟨ret', -, hdone⟩ := h [] elem.toList rfl
  obtain ⟨⟨r, bytes⟩, hset, -⟩ := Outcome.map_eq_done.1 hdone
  exact intSetTextValue_sign _ _ _ _ hset

theorem not_textRestored_wide (hsize : type.size = 8) :
    ¬ TextRestored (intGetTextValue type) (intSet type.size) elem.toList := by
  rintro ⟨ret, text, -, hget, h⟩
  obtain ⟨ret', -, hdone⟩ := h [] elem.toList rfl
  obtain ⟨⟨r, bytes⟩, hset, -⟩ := Outcome.map_eq_done.1 hdone
  rw [hsize] at hset
  exact intSetTextValue_wide _ _ _ hset

/-- A signed value is restored exactly if it is not negative. -/
theorem textRestored_signed (hoperand : textOperand type elem.toList = (leInt elem.toList, -1))
    (hsize : type.size ≤ 4) :
    TextRestored (intGetTextValue type) (intSet type.size) elem.toList ↔
      2 * leNat elem.toList < 256 ^ type.size := by
  have hmax : 256 ^ type.size ≤ 256 ^ 4 := Nat.pow_le_pow_right (by decide) hsize
  have hcases := leInt_half elem.toList
  rw [Vector.length_toList] at hcases
  rcases hcases with ⟨hhalf, hvalue⟩ | ⟨hhalf, hneg⟩
  · rw [hvalue] at hoperand
    refine iff_of_true ?_ hhalf
    rcases Nat.eq_zero_or_pos (leNat elem.toList) with hzero | hpos
    · rw [hzero] at hoperand
      exact (textRestored_zero hoperand hsize).2 hzero
    · exact (textRestored_pos hoperand hsize hpos (by omega)).2 (by omega)
  · refine iff_of_false (not_textRestored_neg ?_) hhalf
    rwa [hoperand]

/-- An unsigned value is restored exactly if it is an `int`. -/
theorem textRestored_unsigned
    (hoperand : textOperand type elem.toList = ((leNat elem.toList : Int), -1))
    (hsize : type.size ≤ 4) :
    TextRestored (intGetTextValue type) (intSet type.size) elem.toList ↔
      leNat elem.toList < 2 ^ 31 := by
  have hlt := leNat_lt elem.toList
  have hlen : elem.toList.length = type.size := Vector.length_toList ..
  have hmax : 256 ^ type.size ≤ 256 ^ 4 := Nat.pow_le_pow_right (by decide) hsize
  rw [hlen] at hlt
  rcases Nat.eq_zero_or_pos (leNat elem.toList) with hzero | hpos
  · rw [hzero] at hoperand ⊢
    exact iff_of_true ((textRestored_zero hoperand hsize).2 hzero) (by decide)
  · exact textRestored_pos hoperand hsize hpos (by omega)

/-- An integer is restored exactly below its limit. -/
theorem intRestored_iff (type : IntType) (elem : Vector UInt8 type.size) (size defvalue : Int) :
    PlaceRestored (intOps type) type.elemType size defvalue elem.toList ↔
      leNat elem.toList < intLimit type := by
  have hlt := leNat_lt elem.toList
  rw [Vector.length_toList] at hlt
  rw [intOps, plainRestored_iff (by cases type <;> rfl) (by cases type <;> rfl)
    (by cases type <;> rfl)]
  cases type with
  | uchar =>
    rw [textRestored_signed rfl (by decide)]
    simp only [intLimit, show IntType.uchar.size = 1 from rfl]
    omega
  | ushort =>
    rw [textRestored_unsigned rfl (by decide)]
    change leNat elem.toList < 2 ^ 16 at hlt
    simp only [intLimit]
    omega
  | int =>
    rw [textRestored_signed rfl (by decide)]
    simp only [intLimit, show IntType.int.size = 4 from rfl]
    omega
  | tpmUint32 => exact textRestored_unsigned rfl (by decide)
  | tpmUint16 =>
    rw [textRestored_zero rfl (by decide)]
    exact Nat.lt_one_iff.symm
  | longlong => exact iff_of_false (not_textRestored_wide rfl) (Nat.not_lt_zero _)
  | tpmUint64 => exact iff_of_false (not_textRestored_wide rfl) (Nat.not_lt_zero _)

/-! ## Types with names -/

/-- The type of elements of an enumeration. -/
def EnumType.elemType : EnumType → ElemType
  | enum => .enum
  | senum => .senum
  | benum => .benum

/-- The type of elements of flags. -/
def FlagType.elemType : FlagType → ElemType
  | flag => .flag
  | sflag => .sflag
  | bflag => .bflag

/-- `enum_convert_ops`, with the list of the element. -/
def enumOps (type : EnumType) (ref : Option (List NameValue)) : TextOps (List UInt8) :=
  plainOps type.size (enumGetTextValue ref) (setByName (enumSetTextValue type ref))

/-- `flag_convert_ops`, with the list of the element. -/
def flagOps (type : FlagType) (ref : Option StructNamelist) : TextOps (List UInt8) :=
  plainOps type.size (flagGetTextValue ref) (setByName (flagSetTextValue type ref))

/-- `enumtype_convert_ops`, with the list of the database. -/
def enumtypeOps (elemenumlist : Option EntryList) : TextOps (List UInt8) :=
  plainOps 4 (enumtypeGetTextValue elemenumlist) (setByName (enumtypeSetTextValue elemenumlist))

/-- The text of an enumeration is a name of its value. -/
theorem names_of_enumGetTextValue {list : List NameValue} {elem : List UInt8} {r : Int × List UInt8}
    (h : enumGetTextValue (some list) elem = .done r) :
    ∃ name, r = textWithEnd name ∧ Names list name (enumValue elem) := by
  simp only [enumGetTextValue] at h
  split at h
  next e hfind =>
    exact ⟨e.name, (Outcome.done.inj h).symm, .inr ⟨e, List.mem_of_find?_eq_some hfind, rfl, by
      simpa using List.find?_some hfind⟩⟩
  next =>
    split_ifs at h with hzero
    exact ⟨nulstring, (Outcome.done.inj h).symm, .inl ⟨rfl, hzero⟩⟩

theorem length_enumSetTextValue {type : EnumType} {ref : Option (List NameValue)} {name : Name}
    {ret : Int} {written : List UInt8} (h : enumSetTextValue type ref name = .done (ret, written)) :
    type.size ≤ written.length := by
  rcases ref with _ | list
  · cases h
  · simp only [enumSetTextValue] at h
    split_ifs at h
    · obtain ⟨-, rfl⟩ := Outcome.pair_inj h
      rw [length_leBytes]
      exact type.size_le
    · generalize lookup name list none = found at h
      rcases found with _ | value
      · cases h
      · cases type with
        | enum =>
          obtain ⟨-, rfl⟩ := Outcome.pair_inj h
          exact (length_leBytes ..).ge
        | senum =>
          simp only at h
          split_ifs at h
          obtain ⟨-, rfl⟩ := Outcome.pair_inj h
          exact (length_leBytes ..).ge
        | benum =>
          simp only at h
          split_ifs at h
          obtain ⟨-, rfl⟩ := Outcome.pair_inj h
          exact (length_leBytes ..).ge

/-- An enumeration is restored exactly if its value has a name and is restored by it. -/
theorem enumRestored_iff (type : EnumType) (list : List NameValue) (elem : Vector UInt8 type.size)
    (size defvalue : Int) :
    PlaceRestored (enumOps type (some list)) type.elemType size defvalue elem.toList ↔
      (∃ text, Names list text (enumValue elem.toList)) ∧
        RestoresWhen type list (enumValue elem.toList) := by
  rw [enumOps, plainRestored_iff (by cases type <;> rfl) (by cases type <;> rfl)
    (by cases type <;> rfl), textRestored_setByName
    (fun r h => (names_of_enumGetTextValue h).imp fun name h => h.1)
    (fun name ret written h => by rw [Vector.length_toList]; exact length_enumSetTextValue h),
    ← enumRestores_iff]
  constructor
  · rintro ⟨name, hget, hset⟩
    obtain ⟨name', -, hname⟩ := names_of_enumGetTextValue hget
    exact ⟨⟨name', hname⟩, fun _ => ⟨name, hget, hset⟩⟩
  · rintro ⟨hname, h⟩
    exact h hname

theorem length_flagSetTextValue {type : FlagType} {ref : Option StructNamelist} {name : Name}
    {ret : Int} {written : List UInt8} (h : flagSetTextValue type ref name = .done (ret, written)) :
    type.size ≤ written.length := by
  rcases ref with _ | flagList
  · cases h
  · simp only [flagSetTextValue] at h
    split_ifs at h
    · obtain ⟨-, rfl⟩ := Outcome.pair_inj h
      rw [length_leBytes]
      exact type.size_le
    · obtain ⟨value, -, h⟩ := Outcome.bind_eq_done.1 h
      obtain ⟨-, rfl⟩ := Outcome.pair_inj h
      rw [length_leBytes]

/-- Flags are restored exactly if their names read back. -/
theorem flagRestored_iff (type : FlagType) (flagList : StructNamelist)
    (elem : Vector UInt8 type.size) (size defvalue : Int) :
    PlaceRestored (flagOps type (some flagList)) type.elemType size defvalue elem.toList ↔
      FlagReadsBack type flagList (enumValue elem.toList) := by
  rw [flagOps, plainRestored_iff (by cases type <;> rfl) (by cases type <;> rfl)
    (by cases type <;> rfl), textRestored_setByName
    (fun r h => ⟨_, (Outcome.done.inj ((flagGetTextValue_eq _).symm.trans h)).symm⟩)
    (fun name ret written h => by rw [Vector.length_toList]; exact length_flagSetTextValue h),
    ← flagRestores_iff_readsBack]
  rfl

/-- What a name of a type of elements sets. -/
theorem enumtypeSetTextValue_bytes {list : EntryList} {name : Name} {ret : Int} {written : List UInt8}
    (h : enumtypeSetTextValue (some list) name = .done (ret, written)) :
    ∃ value : Int32, ret = value.toInt ∧ written = int32Bytes value := by
  simp only [enumtypeSetTextValue] at h
  split_ifs at h
  · obtain ⟨rfl, rfl⟩ := Outcome.pair_inj h
    exact ⟨0, rfl, rfl⟩
  · obtain ⟨found, -, h⟩ := Outcome.bind_eq_done.1 h
    rcases found with _ | ⟨_, value⟩
    · cases h
    · obtain ⟨rfl, rfl⟩ := Outcome.pair_inj h
      exact ⟨value, rfl, rfl⟩

theorem enumtypeGetTextValue_text {list : EntryList} {elem : List UInt8} {r : Int × List UInt8}
    (h : enumtypeGetTextValue (some list) elem = .done r) : ∃ name, r = textWithEnd name := by
  rw [enumtypeGetTextValue] at h
  by_cases hneg : bytesInt32 elem < 0
  · simp only [if_pos hneg] at h
    cases h
  simp only [if_neg hneg] at h
  obtain ⟨found, -, h⟩ := Outcome.bind_eq_done.1 h
  rcases found with _ | ⟨name, _⟩
  · simp only at h
    split_ifs at h
    exact ⟨nulstring, (Outcome.done.inj h).symm⟩
  · exact ⟨name, (Outcome.done.inj h).symm⟩

/-- A type of elements is restored exactly if it and a name are inverse. -/
theorem elemtypeRestored_iff (list : EntryList) (value : Int32) (size defvalue : Int) :
    PlaceRestored (enumtypeOps (some list)) .elemtype size defvalue (int32Bytes value) ↔
      ∃ name, InverseWhen list name value := by
  have hlen (name : Name) (ret : Int) (written : List UInt8)
      (h : enumtypeSetTextValue (some list) name = .done (ret, written)) :
      (int32Bytes value).length ≤ written.length := by
    obtain ⟨v, -, rfl⟩ := enumtypeSetTextValue_bytes h
    rw [length_int32Bytes, length_int32Bytes]
  rw [enumtypeOps, plainRestored_iff rfl rfl rfl,
    textRestored_setByName (fun r h => enumtypeGetTextValue_text h) hlen]
  refine exists_congr fun name => ?_
  constructor
  · rintro ⟨hget, ret, -, hset⟩
    obtain ⟨v, rfl, hbytes⟩ := enumtypeSetTextValue_bytes hset
    obtain rfl := int32Bytes_inj hbytes
    exact (typeInverse_iff list name value).1 ⟨hget, hset⟩
  · intro h
    obtain ⟨hget, hset⟩ := (typeInverse_iff list name value).2 h
    exact ⟨hget, value.toInt, Int32.le_iff_toInt_le.1 h.1, hset⟩

/-! ## All types -/

/-- An element whose type has text operations: what the template and the database hold for
    it, and its value. The items of arrays and the bytes of a counted binary are as many as
    the element says that counts them. -/
inductive Leaf
  | int (type : IntType) (value : Vector UInt8 type.size)
  | uuid (value : Vector UInt8 DIGEST_SIZE)
  | bindata (value : List UInt8)
  | hexdata (value : List UInt8)
  | define (value : List UInt8)
  | enum (type : EnumType) (ref : Option (List NameValue)) (value : Vector UInt8 type.size)
  | flag (type : FlagType) (ref : Option StructNamelist) (value : Vector UInt8 type.size)
  | elemtype (elemenumlist : Option EntryList) (value : Int32)
  | recordtype (typeenumlist : Option EntryList) (value : Int32)
  | recordsubtype (memdbGetSubtypelist : Int → Option SubtypeList) (recordType : Nat) (value : Int32)
  | uuidarray (items : List (Vector UInt8 DIGEST_SIZE))
  | defuuidarray (items : List (Vector UInt8 DIGEST_SIZE))
  | defnamelist (list : List NameValue)

namespace Leaf

/-- `_elem_set_text_value` of the text of `_elem_get_text_value` restores the value, whatever
    is in the memory that it does not take the value from. -/
def Restored : Leaf → Prop
  | int type value => PlaceRestored (intOps type) type.elemType type.size 0 value.toList
  | uuid value => PlaceRestored uuidOps .uuid DIGEST_SIZE 0 value.toList
  | bindata value => PlaceRestored (bindataOps value.length) .bindata value.length 0 value
  | hexdata value => PlaceRestored (hexdataOps value.length) .hexdata value.length 0 value
  | define value =>
    ∀ place, BlockRestored defineOps .define pointerSize value.length place [value]
  | enum type ref value => PlaceRestored (enumOps type ref) type.elemType type.size 0 value.toList
  | flag type ref value => PlaceRestored (flagOps type ref) type.elemType type.size 0 value.toList
  | elemtype ref value => PlaceRestored (enumtypeOps ref) .elemtype 4 0 (int32Bytes value)
  | recordtype ref value => PlaceRestored (recordtypeOps ref) .recordtype 4 0 (int32Bytes value)
  | recordsubtype memdbGetSubtypelist recordType value =>
    PlaceRestored (subtypeOps memdbGetSubtypelist) .recordsubtype 4 recordType (int32Bytes value)
  | uuidarray items => ∀ place : Vector UInt8 DIGEST_SIZE,
    BlockRestored uuidOps .uuidarray pointerSize 0 place.toList (items.map Vector.toList)
  | defuuidarray items => ∀ place,
    ArrayRestored uuidOps .defuuidarray pointerSize items.length place (items.map Vector.toList)
  | defnamelist list => ∀ place,
    ArrayRestored defnamelistOps .defnamelist pointerSize list.length place
      (list.map NameValue.toEntry)

/-- The values that are restored. -/
def RestoredWhen : Leaf → Prop
  | int type value => leNat value.toList < intLimit type
  | uuid value => ¬ FullName value.toList
  | bindata value => (value.length * 4 + 2) / 3 < 2 ^ 31
  | hexdata value => value = []
  | define value => value.length * 4 + 2 < 2 ^ 31
  | enum type ref value => ∃ list, ref = some list ∧
    (∃ text, Names list text (enumValue value.toList)) ∧
      RestoresWhen type list (enumValue value.toList)
  | flag type ref value => ∃ flagList, ref = some flagList ∧
    FlagReadsBack type flagList (enumValue value.toList)
  | elemtype ref value => ∃ list, ref = some list ∧ ∃ name, InverseWhen list name value
  | recordtype ref value => ∃ list, ref = some list ∧ RecordtypeWhen list value
  | recordsubtype memdbGetSubtypelist recordType value =>
    SubtypeWhen memdbGetSubtypelist recordType value
  | uuidarray _ => False
  | defuuidarray items => items = []
  | defnamelist list => list = [] ∨ ∃ e, list = [e] ∧ NameRestorable e

end Leaf

/-- Without a list there is no text. -/
theorem not_restored_none {type : ElemType} (hpointer : type.attr.pointer = false)
    (harray : type.attr.array = false) (hdefine : type.attr.define = false)
    {get : List UInt8 → Outcome (Int × List UInt8)}
    {set : List UInt8 → List UInt8 → Outcome (Int × List UInt8)} {n : Nat} {size defvalue : Int}
    {value : List UInt8} (hget : get value = .error (-EINVAL)) :
    ¬ PlaceRestored (plainOps n get set) type size defvalue value := by
  rw [plainRestored_iff hpointer harray hdefine]
  rintro ⟨ret, text, -, htext, -⟩
  cases hget.symm.trans htext

/-- A value is restored from its text exactly where it is said to be. -/
theorem leafRestored_iff (leaf : Leaf) : leaf.Restored ↔ leaf.RestoredWhen := by
  cases leaf with
  | int type value => exact intRestored_iff type value _ _
  | uuid value => exact uuidRestored_iff value _ _
  | bindata value => exact bindataRestored_iff value _ _
  | hexdata value => exact hexdataRestored_iff value _ _
  | define value =>
    exact ⟨fun h => (defineRestored_iff value [] _).1 (h []),
      fun h place => (defineRestored_iff value place _).2 h⟩
  | enum type ref value =>
    rcases ref with _ | list
    · exact iff_of_false (not_restored_none (by cases type <;> rfl) (by cases type <;> rfl)
        (by cases type <;> rfl) rfl) nofun
    · simpa only [Leaf.Restored, Leaf.RestoredWhen, Option.some.injEq, exists_eq_left'] using
        enumRestored_iff type list value _ _
  | flag type ref value =>
    rcases ref with _ | flagList
    · exact iff_of_false (not_restored_none (by cases type <;> rfl) (by cases type <;> rfl)
        (by cases type <;> rfl) rfl) nofun
    · simpa only [Leaf.Restored, Leaf.RestoredWhen, Option.some.injEq, exists_eq_left'] using
        flagRestored_iff type flagList value _ _
  | elemtype ref value =>
    rcases ref with _ | list
    · exact iff_of_false (not_restored_none rfl rfl rfl rfl) nofun
    · simpa only [Leaf.Restored, Leaf.RestoredWhen, Option.some.injEq, exists_eq_left'] using
        elemtypeRestored_iff list value _ _
  | recordtype ref value =>
    rcases ref with _ | list
    · exact iff_of_false (not_restored_none rfl rfl rfl rfl) nofun
    · simpa only [Leaf.Restored, Leaf.RestoredWhen, Option.some.injEq, exists_eq_left'] using
        recordtypeRestored_iff list value _ _
  | recordsubtype lists recordType value =>
    exact subtypeRestored_iff value _ (Int.natCast_nonneg _)
  | uuidarray items => exact iff_of_false (not_uuidarrayRestored 0 _) id
  | defuuidarray items =>
    exact ⟨fun h => (defuuidarrayRestored_iff items _ []).1 (h []),
      fun h place => (defuuidarrayRestored_iff items _ place).2 h⟩
  | defnamelist list =>
    exact ⟨fun h => (defnamelistRestored_iff list _ ⟨none, 0⟩).1 (h _),
      fun h place => (defnamelistRestored_iff list _ place).2 h⟩

/-- An array of one uuid is not restored: the end of its text is taken for an error. -/
theorem not_leafRestored_single : ¬ (Leaf.defuuidarray [.replicate DIGEST_SIZE 1]).Restored := by
  intro h
  have hnil := (defuuidarrayRestored_iff [.replicate DIGEST_SIZE 1] pointerSize []).1 (h [])
  cases hnil

end Cube.Text
