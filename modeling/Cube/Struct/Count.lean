import Cube.Json.Print
import Cube.Lib.Block
import Cube.Struct.Create
import Cube.Text.CString

/-!
# The fields that count

A counted element has as many values as another field of the structure says.
`_elem_get_defvalue` reads that field and `_elem_set_defvalue` writes it, each in its
own way for the types that can count: as text, as a number in the order of the machine
or in that of the network. A field is at an offset of a block of memory, which is where
`_elem_get_addr` finds it for both.

* `CountField.keeps_iff`: the field holds what was set in it exactly where both agree.
-/

namespace Cube.Struct

open Lib
open Text (strnlen strnlen_cstr)

/-- An element that can count others: `countElem` finds only those of a type with a
    value. -/
structure CountField where
  desc : ElemDesc
  value : desc.type.attr.value = true

/-! ## Numbers as text -/

/-- `_get_char_value`: letters count from 9 on, and capitals are off by the distance of
    the alphabets. -/
def getCharValue (c : UInt8) : Int :=
  if '0'.toUInt8 ≤ c ∧ c ≤ '9'.toUInt8 then c.toNat - '0'.toNat
  else if 'a'.toUInt8 ≤ c ∧ c ≤ 'f'.toUInt8 then c.toNat - 'a'.toNat + 9
  else if 'A'.toUInt8 ≤ c ∧ c ≤ 'F'.toUInt8 then c.toNat - 'a'.toNat + 9
  else -EINVAL

/-- What the head of a number tells: that it is zero, or the base of the digits and the
    position they start from. -/
inductive TextHead
  | zero
  | digits (i : Nat) (base : Int)
  deriving DecidableEq, Repr

/-- The base after a zero at `i`, by the character after it. -/
def zeroHead (mem : List UInt8) (addr i : Nat) : Outcome TextHead :=
  match mem[addr + (i + 1)]? with
  | none => .fault
  | some c =>
    if c = 0 then .done .zero
    else if c = 'b'.toUInt8 ∨ c = 'B'.toUInt8 then .done (.digits (i + 2) 2)
    else if c = 'x'.toUInt8 ∨ c = 'X'.toUInt8 then .done (.digits (i + 2) 16)
    else .done (.digits (i + 1) 8)

/-- The first loop of `get_string_value`, with `n` characters left. It leaves only at a
    zero, so that digits before it are passed over. -/
def textHead (mem : List UInt8) (addr : Nat) : Nat → Nat → Outcome TextHead
  | i, 0 => .done (.digits i 10)
  | i, n + 1 => match mem[addr + i]? with
    | none => .fault
    | some c =>
      if c = 0 then .done (.digits i 10)
      else if c = ' '.toUInt8 then
        -- The index is stepped twice.
        match n with
        | 0 => .done (.digits (i + 2) 10)
        | n + 1 => textHead mem addr (i + 2) n
      else if c = '0'.toUInt8 then zeroHead mem addr i
      else textHead mem addr (i + 1) n

/-- The second loop of `get_string_value`, with `n` characters left. -/
def textDigits (mem : List UInt8) (addr : Nat) (base : Int) : Nat → Nat → Int → Outcome Int
  | _, 0, ret => .done ret
  | i, n + 1, ret => match mem[addr + i]? with
    | none => .fault
    | some c =>
      if c = 0 then .done ret
      else if getCharValue c < 0 ∨ getCharValue c ≥ base then .done (-EINVAL)
      else if ret * base + getCharValue c ≥ 2 ^ 31 then .fault
      else textDigits mem addr base (i + 1) n (ret * base + getCharValue c)

/-- The number of a text of `strLen` characters. -/
def textValue (mem : List UInt8) (addr strLen : Nat) : Outcome Int := do
  match ← textHead mem addr 0 strLen with
  | .zero => .done 0
  | .digits i base => textDigits mem addr base i (strLen - i) 0

/-- `get_string_value`, in a field of the size. -/
def getStringValue (mem : List UInt8) (addr : Nat) (size : Int) : Outcome Int :=
  strnlen (mem.drop addr) size.toNat >>= textValue mem addr

/-- The characters of a number, as `Itoa` writes them. -/
def itoaBytes (value : Int32) : List UInt8 := (Json.numText value.toInt).map Char.toUInt8

/-! ## Reading and setting a count -/

/-- A signed number of `n` bytes. -/
def readInt (mem : List UInt8) (addr n : Nat) : Outcome Int := leInt <$> fetch mem addr n

/-- An unsigned number of `n` bytes. -/
def readUint (mem : List UInt8) (addr n : Nat) : Outcome Int :=
  (fun l => (leNat l : Int)) <$> fetch mem addr n

/-- `get_int_value`: through a `char`, a `short` or an `int`. -/
def getIntValue (mem : List UInt8) (addr : Nat) (size : Int) : Outcome Int :=
  if size = 1 then readInt mem addr 1
  else if size = 2 then readInt mem addr 2
  else readInt mem addr 4

namespace CountField

variable (field : CountField)

/-- The size of the field, which the creation gives to its element. -/
def size : Int := leafSize field.desc

/-- The value of the field, by the function of its type where that has one. -/
def defineValue (mem : List UInt8) (addr : Nat) : Outcome Int :=
  match field.desc.type with
  | .string => getStringValue mem addr field.size
  | .int | .uchar | .ushort | .longlong => getIntValue mem addr field.size
  | _ =>
    if field.size = 4 ∨ field.size = 8 then readInt mem addr 4
    else if field.size = 2 then readUint mem addr 2
    else if field.size = 1 then readUint mem addr 1
    else .error (-EINVAL)

/-- `_elem_get_defvalue`. -/
def elemGetDefvalue (mem : List UInt8) (addr : Nat) : Outcome Int := do
  let value ← field.defineValue mem addr
  if value < 0 then .error (-EINVAL) else .done value

/-- The `set_bin_value` of the types of the network. They read as many bytes of the `int`
    as they have, the highest first; that of 32 bits ends without a value. -/
def tpmSetBinValue (mem : List UInt8) (addr : Nat) (value : Int32) : Outcome (List UInt8) :=
  if field.desc.type = .tpmUint16 then
    memcpy mem addr (leBytes 2 (leNat ((int32Bytes value).take 2).reverse))
  else .fault

/-- `_elem_set_defvalue`: what it returns and the memory after it. `pointer` is the
    address that `Dalloc0` gives for a text, 0 where there is no memory. -/
def elemSetDefvalue (pointer : Nat) (mem : List UInt8) (addr : Nat) (value : Int32) :
    Outcome (Int × List UInt8) :=
  if value.toInt < 0 ∨ value.toInt > 1024 then .done (-EINVAL, mem)
  else match field.desc.type with
  | .string => (value.toInt, ·) <$> memcpy mem addr (itoaBytes value)
  | .estring => (if pointer = 0 then -ENOMEM else value.toInt, ·) <$>
      memcpy mem addr (leBytes 8 pointer)
  | .tpmUint64 | .tpmUint32 | .tpmUint16 =>
    (value.toInt, ·) <$> field.tpmSetBinValue mem addr value
  | type =>
    if type.fixedElemsize ≤ 0 then .done (-EINVAL, mem)
    else if type.fixedElemsize > 4 then .fault
    else (value.toInt, ·) <$> memcpy mem addr ((int32Bytes value).take type.fixedElemsize.toNat)

/-! ## What is kept -/

/-- One more than the greatest number of a type. -/
def capacity : ElemType → Int
  | .uchar => 2 ^ 8
  | .ushort | .tpmUint16 => 2 ^ 16
  | .int | .recordtype => 2 ^ 31
  | .tpmUint32 => 2 ^ 32
  | .longlong => 2 ^ 63
  | _ => 2 ^ 64

/-- The field can hold the number: a text of fixed size has room for its digits. -/
def Represents (value : Int32) : Prop :=
  if field.desc.type = .string then ((itoaBytes value).length : Int) ≤ field.size
  else value.toInt < capacity field.desc.type

/-- A number is one that is to be accepted. -/
def Accepts (value : Int32) : Prop :=
  0 ≤ value.toInt ∧ value.toInt ≤ 1024 ∧ field.Represents value

/-- The field holds the number that is set in it, and nothing else changes; a number
    that it cannot hold is rejected. It is in a block of memory, and there is memory for
    a text. -/
structure Keeps (value : Int32) : Prop where
  kept : field.Accepts value → ∀ (pointer : Nat) (mem : List UInt8) (addr : Nat),
    0 < pointer → pointer < 2 ^ 64 → addr + field.size.toNat ≤ mem.length →
    ∃ mem', field.elemSetDefvalue pointer mem addr value = .done (value.toInt, mem') ∧
      field.elemGetDefvalue mem' addr = .done value.toInt ∧ mem'.length = mem.length ∧
      ∀ i, i < addr ∨ addr + field.size.toNat ≤ i → mem'[i]? = mem[i]?
  rejected : ¬ field.Accepts value → ∀ (pointer : Nat) (mem : List UInt8) (addr : Nat),
    0 < pointer → pointer < 2 ^ 64 → addr + field.size.toNat ≤ mem.length →
    ∃ ret mem', field.elemSetDefvalue pointer mem addr value = .done (ret, mem') ∧ ret < 0

end CountField

/-! ## Texts -/

/-- The head of a number is found in its characters and the one after them. -/
theorem textHead_congr {mem mem' : List UInt8} {addr : Nat} (i n : Nat)
    (h : ∀ j ≤ i + n, mem[addr + j]? = mem'[addr + j]?) :
    textHead mem addr i n = textHead mem' addr i n := by
  induction n using Nat.strong_induction_on generalizing i with
  | _ n ih =>
    rcases n with _ | n
    · rw [textHead.eq_def, textHead.eq_def]
    · have hnext : textHead mem addr (i + 1) n = textHead mem' addr (i + 1) n :=
        ih n (Nat.lt_succ_self n) (i + 1) fun j hj => h j (by omega)
      have hzero : zeroHead mem addr i = zeroHead mem' addr i := by
        rw [zeroHead, zeroHead, h (i + 1) (by omega)]
      rw [textHead.eq_def, textHead.eq_def mem']
      simp only [h i (by omega), hnext, hzero]
      -- After a blank, two characters less are left.
      rcases n with _ | n
      · rfl
      · simp only [ih n (by omega) (i + 2) fun j hj => h j (by omega)]

/-- A number is found in its digits. -/
theorem textDigits_congr {mem mem' : List UInt8} {addr : Nat} {base : Int} (i n : Nat) (ret : Int)
    (h : ∀ j < i + n, mem[addr + j]? = mem'[addr + j]?) :
    textDigits mem addr base i n ret = textDigits mem' addr base i n ret := by
  induction n generalizing i ret with
  | zero => rfl
  | succ n ih =>
    rw [textDigits, textDigits, h i (by omega)]
    simp only [ih (i + 1) _ fun j hj => h j (by omega)]

theorem textValue_congr {mem mem' : List UInt8} {addr len : Nat}
    (h : ∀ j ≤ len, mem[addr + j]? = mem'[addr + j]?) :
    textValue mem addr len = textValue mem' addr len := by
  rw [textValue, textValue, textHead_congr 0 len fun j hj => h j (by omega)]
  congr 1
  funext head
  cases head with
  | zero => rfl
  | digits i base =>
    by_cases hi : i ≤ len
    · exact textDigits_congr i _ 0 fun j hj => h j (by omega)
    · simp only [Nat.sub_eq_zero_of_le (Nat.le_of_not_le hi)]
      rfl

/-- A text that ends in a zero is read up to it. -/
theorem getStringValue_text (text rest : List UInt8) {size : Int} (hnul : 0 ∉ text)
    (hsize : text.length ≤ size) :
    getStringValue (text ++ 0 :: rest) 0 size = textValue (text ++ [0]) 0 text.length := by
  rw [getStringValue, List.drop_zero, strnlen_cstr hnul (by omega), Outcome.done_bind]
  refine textValue_congr fun j hj => ?_
  rcases Nat.lt_or_eq_of_le hj with hj | rfl
  · rw [List.getElem?_append_left (by omega), List.getElem?_append_left (by omega)]
  · simp

/-- The digits of a number below `10 ^ k`, the last one first. -/
def lowDigits : Nat → Nat → List Char
  | 0, _ => []
  | k + 1, n => Char.ofNat (n % 10 + 48) :: if n / 10 > 0 then lowDigits k (n / 10) else []

theorem itoaLoop_eq {k n : Nat} (h : n < 10 ^ k) (hk : 0 < k) :
    Json.itoaLoop n = lowDigits k n := by
  induction k generalizing n with
  | zero => cases hk
  | succ k ih =>
    rw [Json.itoaLoop, lowDigits]
    split_ifs with hpos
    · rcases k with _ | k
      · rw [Nat.zero_add, Nat.pow_one] at h
        omega
      · rw [ih (by rw [Nat.pow_succ] at h; omega) (Nat.succ_pos k)]
    · rfl

/-- The text of a number below 10000. -/
def lowText (n : Nat) : List UInt8 := (lowDigits 4 n).reverse.map Char.toUInt8

theorem itoaBytes_eq {value : Int32} (hlo : 0 ≤ value.toInt) (hhi : value.toInt ≤ 1024) :
    itoaBytes value = lowText value.toInt.toNat := by
  have habs : value.toInt.natAbs = value.toInt.toNat := by omega
  rw [itoaBytes, Json.numText, if_neg (by omega), List.nil_append, habs,
    itoaLoop_eq (k := 4) (by omega) (by decide), lowText]

theorem lowText_value : ∀ n < 1025, 0 < n →
    0 ∉ lowText n ∧ textValue (lowText n ++ [0]) 0 (lowText n).length ≠ .done (n : Int) := by
  decide +kernel

/-! ## Numbers -/

theorem take_leBytes {k m : Nat} (h : k ≤ m) (n : Nat) : (leBytes m n).take k = leBytes k n := by
  induction m generalizing k n with
  | zero => rw [Nat.le_zero.1 h]; rfl
  | succ m ih =>
    cases k with
    | zero => rfl
    | succ k => rw [leBytes, leBytes, List.take_succ_cons, ih (Nat.le_of_succ_le_succ h)]

theorem int32Bytes_eq {value : Int32} {n : Nat} (h : value.toInt = n) :
    int32Bytes value = leBytes 4 n := by
  have hn : value.toUInt32.toNat = n := by
    have hlt := value.toInt_lt
    have hv : value.toInt = (value.toUInt32.toNat : Int).bmod (2 ^ 32) :=
      BitVec.toInt_eq_toNat_bmod value.toUInt32.toBitVec
    have hb := value.toUInt32.toNat_lt
    rw [Int.bmod_def] at hv
    omega
  rw [int32Bytes, hn]

namespace CountField
variable {field : CountField} {value : Int32} {n : Nat}

theorem keeps_outside (h : value.toInt < 0 ∨ 1024 < value.toInt) : field.Keeps value := by
  refine ⟨fun ⟨hlo, hhi, _⟩ => ?_,
    fun _ pointer mem addr _ _ _ => ⟨-EINVAL, mem, ?_, by decide⟩⟩
  · omega
  · rw [elemSetDefvalue, if_pos h]

/-- A number written over the whole field and read back from it is kept. -/
theorem keeps_write {bytes : List UInt8} (hsize : bytes.length = field.size.toNat)
    (haccept : field.Accepts value)
    (hset : ∀ pointer mem addr, field.elemSetDefvalue pointer mem addr value =
      (value.toInt, ·) <$> memcpy mem addr bytes)
    (hget : ∀ mem addr, fetch mem addr bytes.length = .done bytes →
      field.defineValue mem addr = .done value.toInt) : field.Keeps value := by
  refine ⟨fun _ pointer mem addr _ _ hin => ?_, fun h => absurd haccept h⟩
  rw [← hsize] at hin ⊢
  have hcopy := memcpy_eq hin
  refine ⟨_, by rw [hset, hcopy, Outcome.map_done], ?_, memcpy_length hcopy,
    fun i hi => memcpy_frame hcopy hi⟩
  rw [elemGetDefvalue, hget _ _ (fetch_memcpy hcopy rfl), Outcome.done_bind,
    if_neg (by have := haccept.1; omega)]

/-- The number that is set has to be the one that is read. -/
theorem not_keeps_write {bytes : List UInt8} (hsize : bytes.length = field.size.toNat)
    (haccept : field.Accepts value)
    (hset : ∀ pointer mem addr, ∃ ret, field.elemSetDefvalue pointer mem addr value =
      (ret, ·) <$> memcpy mem addr bytes)
    (hget : ∀ mem addr, fetch mem addr bytes.length = .done bytes →
      field.defineValue mem addr ≠ .done value.toInt) : ¬ field.Keeps value := by
  intro h
  have hin : 0 + field.size.toNat ≤ (List.replicate bytes.length (0 : UInt8)).length := by
    rw [List.length_replicate, hsize, Nat.zero_add]
  obtain ⟨mem', hdone, hvalue, -⟩ := h.kept haccept 1 _ 0 (by decide) (by decide) hin
  obtain ⟨ret, hret⟩ := hset 1 (List.replicate bytes.length 0) 0
  rw [← hsize] at hin
  rw [hret, memcpy_eq hin, Outcome.map_done] at hdone
  obtain rfl := congrArg Prod.snd (Outcome.done.inj hdone)
  rw [elemGetDefvalue] at hvalue
  obtain ⟨v, hv, hout⟩ := Outcome.bind_eq_done.1 hvalue
  split_ifs at hout with hneg
  rw [Outcome.done.inj hout] at hv
  exact hget _ _ (fetch_memcpy (memcpy_eq hin) rfl) hv

/-- What is not to be accepted has to be rejected. -/
theorem not_keeps_accepted (bytes : List UInt8) (haccept : ¬ field.Accepts value)
    (hvalue : 0 ≤ value.toInt)
    (hset : ∀ pointer mem addr, field.elemSetDefvalue pointer mem addr value =
      (value.toInt, ·) <$> memcpy mem addr bytes) : ¬ field.Keeps value := by
  intro h
  have hlen := List.length_replicate (n := bytes.length + field.size.toNat) (a := (0 : UInt8))
  obtain ⟨ret, mem', hdone, hneg⟩ := h.rejected haccept 1 (.replicate _ 0) 0 (by decide)
    (by decide) (by rw [hlen]; omega)
  rw [hset, memcpy_eq (by rw [hlen]; omega), Outcome.map_done] at hdone
  obtain rfl := congrArg Prod.fst (Outcome.done.inj hdone)
  omega

/-- To set a number is to be defined. -/
theorem not_keeps_fault (haccept : field.Accepts value)
    (hset : ∀ pointer mem addr, field.elemSetDefvalue pointer mem addr value = .fault) :
    ¬ field.Keeps value := by
  intro h
  obtain ⟨mem', hdone, -⟩ := h.kept haccept 1 (.replicate field.size.toNat 0) 0 (by decide)
    (by decide) (by rw [List.length_replicate]; omega)
  rw [hset] at hdone
  cases hdone

section Number

variable (hlo : 0 ≤ value.toInt) (hhi : value.toInt ≤ 1024)

include hlo hhi

/-- The numbers in the order of the machine are copied from the `int`, as many bytes as
    the type has. -/
theorem set_number (htype : field.desc.type = .int ∨ field.desc.type = .recordtype ∨
    field.desc.type = .ushort ∨ field.desc.type = .uchar) (pointer : Nat) (mem : List UInt8)
    (addr : Nat) : field.elemSetDefvalue pointer mem addr value =
      (value.toInt, ·) <$> memcpy mem addr (leBytes field.size.toNat value.toInt.toNat) := by
  have hbytes := int32Bytes_eq (Int.toNat_of_nonneg hlo).symm
  have hout : ¬ (value.toInt < 0 ∨ value.toInt > 1024) := by omega
  rcases htype with htype | htype | htype | htype <;>
  · simp only [elemSetDefvalue, if_neg hout, htype, hbytes, size, leafSize, take_leBytes,
      ElemType.fixedElemsize, ElemType.offset, ElemType.attr, Int.reduceToNat, Nat.reduceLeDiff,
      Int.reduceLE, Int.reduceLT, Int.reduceGT, Bool.false_eq_true, or_self, if_true, if_false]

/-- A number that is copied has the greatest one of its type as its bound. -/
theorem accepts_number (htype : field.desc.type ≠ .string)
    (hcap : value.toInt < capacity field.desc.type) : field.Accepts value :=
  ⟨hlo, hhi, by rwa [Represents, if_neg htype]⟩

omit hhi in
theorem readInt_eq {mem : List UInt8} {addr k : Nat} (hk : 2 * value.toInt.toNat < 256 ^ k)
    (hfetch : fetch mem addr k = .done (leBytes k value.toInt.toNat)) :
    readInt mem addr k = .done value.toInt := by
  rw [readInt, hfetch, Outcome.map_done, leInt_leBytes hk, Int.toNat_of_nonneg hlo]

theorem keeps_int (htype : field.desc.type = .int ∨ field.desc.type = .recordtype) :
    field.Keeps value := by
  have hsize : field.size = 4 := by
    rcases htype with h | h <;> simp only [size, leafSize, h] <;> rfl
  refine keeps_write (length_leBytes _ _) (accepts_number hlo hhi ?_ ?_)
    (set_number hlo hhi (by tauto)) fun mem addr hfetch => ?_
  · rcases htype with h | h <;> rw [h] <;> decide
  · rcases htype with h | h <;> rw [h, capacity] <;> omega
  · rw [length_leBytes, hsize] at hfetch
    have hread := readInt_eq (k := 4) hlo (by omega) hfetch
    rcases htype with h | h <;>
    · simp only [defineValue, getIntValue, h, hsize, hread, Int.reduceEq, if_true, if_false,
        or_false]

theorem keeps_ushort (htype : field.desc.type = .ushort) : field.Keeps value := by
  have hsize : field.size = 2 := by simp only [size, leafSize, htype]; rfl
  refine keeps_write (length_leBytes _ _) (accepts_number hlo hhi ?_ ?_)
    (set_number hlo hhi (by tauto)) fun mem addr hfetch => ?_
  · rw [htype]; decide
  · rw [htype, capacity]; omega
  · rw [length_leBytes, hsize] at hfetch
    have hread := readInt_eq (k := 2) hlo (by omega) hfetch
    simp only [defineValue, getIntValue, htype, hsize, hread, Int.reduceEq, if_true, if_false]

/-- A number of one byte is read as a signed one. -/
theorem keeps_uchar (htype : field.desc.type = .uchar) :
    field.Keeps value ↔ value.toInt < 128 := by
  have hsize : field.size = 1 := by simp only [size, leafSize, htype]; rfl
  have hset := set_number hlo hhi (show field.desc.type = .int ∨ _ by tauto)
  have hget {mem addr} : field.defineValue mem addr = readInt mem addr 1 := by
    simp only [defineValue, getIntValue, htype, hsize, if_true]
  have haccept (hcap : value.toInt < 2 ^ 8) : field.Accepts value :=
    accepts_number hlo hhi (by rw [htype]; decide) (by rwa [htype, capacity])
  constructor
  · intro h
    by_contra hge
    by_cases hcap : value.toInt < 2 ^ 8
    · -- The number fits, and is read as a negative one.
      refine not_keeps_write (length_leBytes _ _) (haccept hcap)
        (fun pointer mem addr => ⟨_, hset pointer mem addr⟩) (fun mem addr hfetch heq => ?_) h
      rw [length_leBytes, hsize] at hfetch
      change fetch mem addr 1 = .done (leBytes 1 _) at hfetch
      have hneg : leInt (leBytes 1 value.toInt.toNat) = value.toInt - 256 := by
        rw [leInt, length_leBytes, leNat_leBytes, Int.bmod_def]
        omega
      rw [hget, readInt, hfetch, Outcome.map_done] at heq
      have := hneg.symm.trans (Outcome.done.inj heq)
      omega
    · -- The number does not fit, and its lowest byte is stored.
      refine not_keeps_accepted _ (fun haccept => hcap ?_) hlo hset h
      have hrep := haccept.2.2
      rwa [Represents, htype, if_neg (by decide)] at hrep
  · intro hlt
    refine keeps_write (length_leBytes _ _) (haccept (by omega)) hset fun mem addr hfetch => ?_
    rw [length_leBytes, hsize] at hfetch
    rw [hget]
    exact readInt_eq (k := 1) hlo (by omega) hfetch

/-- A number of two bytes in the order of the network is not turned back. -/
theorem keeps_tpmUint16 (htype : field.desc.type = .tpmUint16) :
    field.Keeps value ↔ value.toInt % 256 = value.toInt / 256 := by
  have hsize : field.size = 2 := by simp only [size, leafSize, htype]; rfl
  let turned := leNat (leBytes 2 value.toInt.toNat).reverse
  have hturned : turned = value.toInt.toNat % 256 * 256 + value.toInt.toNat / 256 := by
    simp only [turned, leBytes, List.reverse_cons, List.reverse_nil, List.nil_append,
      List.singleton_append, leNat, UInt8.toNat_ofNat']
    omega
  have hout : ¬ (value.toInt < 0 ∨ value.toInt > 1024) := by omega
  have hbytes := int32Bytes_eq (Int.toNat_of_nonneg hlo).symm
  have hset (pointer : Nat) (mem : List UInt8) (addr : Nat) :
      field.elemSetDefvalue pointer mem addr value =
        (value.toInt, ·) <$> memcpy mem addr (leBytes 2 turned) := by
    simp only [elemSetDefvalue, if_neg hout, htype, tpmSetBinValue, if_true, hbytes]
    rw [take_leBytes (by decide)]
  have hlen : (leBytes 2 turned).length = field.size.toNat := by rw [length_leBytes, hsize]; rfl
  have haccept : field.Accepts value :=
    accepts_number hlo hhi (by rw [htype]; decide) (by rw [htype, capacity]; omega)
  have hget {mem addr}
      (hfetch : fetch mem addr (leBytes 2 turned).length = .done (leBytes 2 turned)) :
      field.defineValue mem addr = .done ((turned : Nat) : Int) := by
    rw [length_leBytes] at hfetch
    have hread : readUint mem addr 2 = .done ((turned : Nat) : Int) := by
      rw [readUint, hfetch, Outcome.map_done, leNat_leBytes, Nat.mod_eq_of_lt (by omega)]
    simp only [defineValue, htype, hsize, Int.reduceEq, or_self, if_true, if_false, hread]
  constructor
  · intro h
    by_contra hne
    refine not_keeps_write hlen haccept (fun pointer mem addr => ⟨_, hset pointer mem addr⟩)
      (fun mem addr hfetch heq => ?_) h
    have := Outcome.done.inj ((hget hfetch).symm.trans heq)
    omega
  · intro heq
    refine keeps_write hlen haccept hset fun mem addr hfetch => ?_
    rw [hget hfetch]
    congr 1
    omega

/-- More bytes are read than the `int` has, or a value that is none. -/
theorem not_keeps_wide (htype : field.desc.type = .longlong ∨ field.desc.type = .tpmUint64 ∨
    field.desc.type = .tpmUint32) : ¬ field.Keeps value := by
  have hout : ¬ (value.toInt < 0 ∨ value.toInt > 1024) := by omega
  refine not_keeps_fault (accepts_number hlo hhi ?_ ?_) fun pointer mem addr => ?_
  · rcases htype with h | h | h <;> rw [h] <;> decide
  · have hcap : 1024 < capacity field.desc.type := by
      rcases htype with h | h | h <;> rw [h] <;> decide
    omega
  · rcases htype with h | h | h <;> rw [elemSetDefvalue, if_neg hout] <;> simp only [h]
    · rfl
    · rw [tpmSetBinValue, h, if_neg (by decide)]
      rfl
    · rw [tpmSetBinValue, h, if_neg (by decide)]
      rfl

/-- The address of a text is read in the place of its number. -/
theorem not_keeps_estring (htype : field.desc.type = .estring) : ¬ field.Keeps value := by
  intro h
  have hout : ¬ (value.toInt < 0 ∨ value.toInt > 1024) := by omega
  have hcap : capacity field.desc.type = 2 ^ 64 := by rw [htype]; rfl
  have hsize : field.size = 8 := by simp only [size, leafSize, htype]; rfl
  have haccept : field.Accepts value :=
    accepts_number hlo hhi (by rw [htype]; decide) (by rw [hcap]; omega)
  -- A text may lie at the address 2048.
  obtain ⟨mem', hdone, hget, -⟩ :=
    h.kept haccept 2048 (.replicate 8 0) 0 (by decide) (by decide) (by rw [hsize]; decide)
  have hcopy : memcpy (.replicate 8 0) 0 (leBytes 8 2048) = .done (leBytes 8 2048) := by decide
  have hread : readInt (leBytes 8 2048) 0 4 = .done 2048 := by decide
  rw [elemSetDefvalue, if_neg hout] at hdone
  simp only [htype, hcopy, Outcome.map_done] at hdone
  obtain rfl := congrArg Prod.snd (Outcome.done.inj hdone)
  rw [elemGetDefvalue] at hget
  simp only [defineValue, htype, hsize, Int.reduceEq, or_true, if_true, hread, Outcome.done_bind,
    Int.reduceLT, if_false] at hget
  have := Outcome.done.inj hget
  omega

/-- What a text field holds after it is set is the text and what was there behind it. -/
theorem Keeps.string (h : field.Keeps value) (htype : field.desc.type = .string)
    (hrep : field.Represents value) (mem : List UInt8) (hin : field.size.toNat ≤ mem.length) :
    getStringValue (itoaBytes value ++ mem.drop (itoaBytes value).length) 0 field.size =
      .done value.toInt := by
  have hout : ¬ (value.toInt < 0 ∨ value.toInt > 1024) := by omega
  obtain ⟨mem', hdone, hget, -⟩ := h.kept ⟨hlo, hhi, hrep⟩ 1 mem 0 (by decide) (by decide)
    (by rwa [Nat.zero_add])
  rw [Represents, if_pos htype] at hrep
  rw [elemSetDefvalue, if_neg hout] at hdone
  simp only [htype, memcpy_eq (show 0 + (itoaBytes value).length ≤ mem.length by omega),
    Outcome.map_done] at hdone
  obtain rfl := congrArg Prod.snd (Outcome.done.inj hdone)
  rw [patch, List.take_zero, List.nil_append, Nat.zero_add, elemGetDefvalue] at hget
  simp only [defineValue, htype] at hget
  obtain ⟨v, hv, hres⟩ := Outcome.bind_eq_done.1 hget
  split_ifs at hres with hneg
  rwa [Outcome.done.inj hres] at hv

/-- The reader looks for a base and passes over the digits before it. -/
theorem not_keeps_string (htype : field.desc.type = .string) : ¬ field.Keeps value := by
  intro h
  by_cases hrep : field.Represents value
  · have hbytes := itoaBytes_eq hlo hhi
    have hroom := hrep
    rw [Represents, if_pos htype] at hroom
    by_cases hpos : 0 < value.toInt
    · -- A field of zeros, with one more byte behind it.
      obtain ⟨hnul, hne⟩ := lowText_value value.toInt.toNat (by omega) (by omega)
      have hget := h.string hlo hhi htype hrep (.replicate (field.size.toNat + 1) 0)
        (by rw [List.length_replicate]; omega)
      rw [Int.toNat_of_nonneg hlo, ← hbytes] at hne
      rw [← hbytes] at hnul
      obtain ⟨text, htext⟩ : ∃ text, text = itoaBytes value := ⟨_, rfl⟩
      rw [← htext] at hget hne hnul hroom
      have hdrop : (List.replicate (field.size.toNat + 1) (0 : UInt8)).drop text.length =
          0 :: .replicate (field.size.toNat - text.length) 0 := by
        rw [List.drop_replicate, ← List.replicate_succ]
        congr 1
        omega
      rw [hdrop] at hget
      rw [getStringValue_text _ _ hnul (by omega)] at hget
      exact hne hget
    · have hzero : itoaBytes value = [48] := by
        rw [hbytes, show value.toInt.toNat = 0 by omega]
        decide
      rw [hzero] at hroom
      change (1 : Int) ≤ field.size at hroom
      by_cases hone : field.size = 1
      · -- The field ends the block, and the byte behind it is read.
        have hget := h.string hlo hhi htype hrep [0] (by rw [hone]; decide)
        have hfault : getStringValue ([48] ++ [(0 : UInt8)].drop 1) 0 1 = .fault := by decide
        rw [hzero, hone] at hget
        exact absurd (hfault.symm.trans hget) (by simp)
      · -- A seven is behind the zero.
        have hget := h.string hlo hhi htype hrep
          (0 :: 55 :: 0 :: .replicate (field.size.toNat - 2) 0)
          (by simp only [List.length_cons, List.length_replicate]; omega)
        have hseven : textValue ([48, 55] ++ [0]) 0 [(48 : UInt8), 55].length = .done 7 := by decide
        rw [hzero] at hget
        have htwo : (([48, 55] : List UInt8).length : Int) ≤ field.size := by
          change (2 : Int) ≤ field.size
          omega
        have heq :=
          getStringValue_text [48, 55] (.replicate (field.size.toNat - 2) 0) (by decide) htwo
        have := Outcome.done.inj ((heq.trans hseven).symm.trans hget)
        omega
  · refine not_keeps_accepted (itoaBytes value) (fun haccept => hrep haccept.2.2) hlo
      (fun pointer mem addr => ?_) h
    rw [elemSetDefvalue, if_neg (by omega)]
    simp only [htype]

end Number

/-- The field holds what is set in it exactly for the numbers out of range, for those in
    a field of an `int`, a `short` or a record type, for those of seven bits in one byte,
    and for those with equal bytes in two of the network. -/
theorem keeps_iff (field : CountField) (value : Int32) : field.Keeps value ↔
    value.toInt < 0 ∨ 1024 < value.toInt ∨
    (field.desc.type = .int ∨ field.desc.type = .recordtype ∨ field.desc.type = .ushort) ∨
    field.desc.type = .uchar ∧ value.toInt < 128 ∨
    field.desc.type = .tpmUint16 ∧ value.toInt % 256 = value.toInt / 256 := by
  by_cases hout : value.toInt < 0 ∨ 1024 < value.toInt
  · exact ⟨fun _ => by tauto, fun _ => keeps_outside hout⟩
  obtain ⟨hlo, hhi⟩ : 0 ≤ value.toInt ∧ value.toInt ≤ 1024 := by omega
  have hlo' := Int.not_lt.2 hlo
  have hhi' := Int.not_lt.2 hhi
  have hvalue := field.value
  rcases htype : field.desc.type <;> rw [htype] at hvalue <;>
    first | exact absurd hvalue (by decide) | skip
  case string => simpa [hlo', hhi'] using not_keeps_string hlo hhi htype
  case estring => simpa [hlo', hhi'] using not_keeps_estring hlo hhi htype
  case int => simpa [hlo', hhi'] using keeps_int hlo hhi (.inl htype)
  case recordtype => simpa [hlo', hhi'] using keeps_int hlo hhi (.inr htype)
  case ushort => simpa [hlo', hhi'] using keeps_ushort hlo hhi htype
  case uchar => simpa [hlo', hhi'] using keeps_uchar hlo hhi htype
  case tpmUint16 => simpa [hlo', hhi'] using keeps_tpmUint16 hlo hhi htype
  case longlong => simpa [hlo', hhi'] using not_keeps_wide hlo hhi (.inl htype)
  case tpmUint64 => simpa [hlo', hhi'] using not_keeps_wide hlo hhi (.inr (.inl htype))
  case tpmUint32 => simpa [hlo', hhi'] using not_keeps_wide hlo hhi (.inr (.inr htype))

/-- A field of text of eight bytes does not hold a one. -/
theorem not_keeps_one : ¬ CountField.Keeps ⟨⟨['n'], .string, 8, [], none, none⟩, rfl⟩ 1 :=
  not_keeps_string (by decide) (by decide) rfl

end CountField

end Cube.Struct
