import Cube.Message.Head
import Cube.Struct.Count

/-!
# Integers as text

An integer of a structure is written as decimal digits, in a loop that goes down from the
greatest power of ten, and read back by a loop of its own (`int_get_text_value` and
`int_set_text_value` in `struct_ops.c`).

* `powerLoop_spec`, `textDigits_print`: the digits written are read back as the number;
* `intRestores_iff`: the values that are restored from their text.
-/

namespace Cube.Struct

open Lib Message
open Text (strnlen strnlen_cstr)

/-- The types of integers. -/
inductive IntType
  | uchar
  | ushort
  | int
  | longlong
  | tpmUint64
  | tpmUint32
  | tpmUint16
  deriving DecidableEq, Repr

namespace IntType

/-- The type of elements. -/
def elemType : IntType → ElemType
  | uchar => .uchar
  | ushort => .ushort
  | int => .int
  | longlong => .longlong
  | tpmUint64 => .tpmUint64
  | tpmUint32 => .tpmUint32
  | tpmUint16 => .tpmUint16

/-- The size of an element, in bytes. -/
def size (type : IntType) : Nat := type.elemType.fixedElemsize.toNat

end IntType

/-! ## Writing -/

/-- What `int_get_text_value` reads of the bytes of an element: the value whose digits it
    writes, and a last digit that is split off beforehand, or `-1`. There is no case for
    16 bits of the network. -/
def textOperand (type : IntType) (elem : List UInt8) : Int × Int :=
  match type with
  | .uchar => (leInt elem, -1)
  | .ushort => (leNat elem, -1)
  | .int => (leInt elem, -1)
  | .tpmUint32 => (leNat elem, -1)
  | .longlong => (leInt elem, -1)
  | .tpmUint64 => (leNat elem / 10, leNat elem % 10)
  | .tpmUint16 => (0, -1)

/-- The loop that looks for the greatest power of ten, here `10 ^ k`, with the length
    counted along. It may go round `n` times more. -/
def powerLoop (value : Nat) : Nat → Nat → Int → Nat × Int
  | 0, k, len => (k, len)
  | n + 1, k, len =>
    if value / 10 ^ k = 0 then (k, len)
    else if value / 10 ^ k < 10 then (k, len + 1)
    else powerLoop value n (k + 1) (len + 1)

/-- The character of a digit. -/
def digitChar (digit : Nat) : UInt8 := .ofNat (digit + '0'.toNat)

/-- The loop that writes the digits, from that of `10 ^ k` on. -/
def printDigits : Nat → Nat → List UInt8
  | 0, value => [digitChar (value / 1)]
  | k + 1, value => digitChar (value / 10 ^ (k + 1)) :: printDigits k (value % 10 ^ (k + 1))

/-- `int_get_text_value`: what it returns and the text it writes, with its end. A number
    of 64 bits has at most 19 digits. -/
def intGetTextValue (type : IntType) (elem : List UInt8) : Outcome (Int × List UInt8) :=
  let value := (textOperand type elem).1
  let endDigit := (textOperand type elem).2
  -- The negative of the least value overflows.
  if value = -2 ^ 63 then .fault
  else
    let sign := if value < 0 then ['-'.toUInt8] else []
    let power := powerLoop value.natAbs 19 0 (sign.length + 1)
    let digits :=
      if value = 0 then if endDigit = -1 then ['0'.toUInt8] else []
      else printDigits power.1 value.natAbs
    if endDigit > -1 then
      .done (power.2 + 1, sign ++ digits ++ [digitChar endDigit.toNat] ++ [0])
    else .done (power.2, sign ++ digits ++ [0])

/-! ## Reading -/

/-- The first loop of `int_set_text_value`, which unlike that of `get_string_value` ends at
    any character but a blank. -/
def intHead (mem : List UInt8) : Nat → Nat → Outcome TextHead
  | i, 0 => .done (.digits i 10)
  | i, n + 1 => match mem[i]? with
    | none => .fault
    | some c =>
      if c = 0 then .done (.digits i 10)
      else if c = ' '.toUInt8 then
        -- The index is stepped twice.
        match n with
        | 0 => .done (.digits (i + 2) 10)
        | n + 1 => intHead mem (i + 2) n
      else if c = '0'.toUInt8 then zeroHead mem 0 i
      else .done (.digits i 10)

/-- `Memcpy(addr,&ret,curr_elem->size)` from an `int`: the bytes at `addr`. -/
def intBytes (ret : Int) (size : Nat) : Outcome (List UInt8) :=
  if size > 4 then .fault else .done ((leBytes 4 ret.toNat).take size)

/-- `int_set_text_value` of an element of the size: what it returns and the bytes that it
    writes at the element. The second loop is that of `get_string_value`. -/
def intSetTextValue (size : Nat) (text : List UInt8) : Outcome (Int × List UInt8) := do
  let strLen ← strnlen text DIGEST_SIZE
  match ← intHead text 0 strLen with
  | .zero => (strLen + 1, ·) <$> intBytes 0 size
  | .digits i base =>
    let ret ← textDigits text 0 base i (strLen - i) 0
    if ret < 0 then .error ret else (strLen + 1, ·) <$> intBytes ret size

/-- What is returned is one more than the length of the text, and the text is read back as
    the bytes of the element and no others, whatever is behind it. -/
def IntRestores (type : IntType) (elem : Vector UInt8 type.size) : Prop :=
  ∃ text : List UInt8, 0 ∉ text ∧
    intGetTextValue type elem.toList = .done (text.length + 1, text ++ [0]) ∧
    ∀ rest, ∃ ret, intSetTextValue type.size (text ++ 0 :: rest) = .done (ret, elem.toList)

/-! ## Powers of ten -/

variable {value k : Nat} {type : IntType} {elem : Vector UInt8 type.size}

/-- The loop finds the power of the first digit, and counts the digits. -/
theorem powerLoop_spec {n : Nat} (len : Int) (hpos : 10 ^ k ≤ value)
    (hlt : value < 10 ^ (k + n)) (hn : 0 < n) :
    ∃ m, powerLoop value n k len = (m, len + ((m - k : Nat) : Int) + 1) ∧ k ≤ m ∧
      10 ^ m ≤ value ∧ value < 10 ^ (m + 1) := by
  induction n generalizing k len with
  | zero => cases hn
  | succ n ih =>
    have hk : 0 < 10 ^ k := Nat.pow_pos (by decide)
    rw [powerLoop, if_neg (Nat.div_pos hpos hk).ne']
    by_cases hlast : value / 10 ^ k < 10
    · rw [if_pos hlast]
      refine ⟨k, by simp, Nat.le_refl _, hpos, ?_⟩
      rw [Nat.pow_succ, Nat.mul_comm]
      exact (Nat.div_lt_iff_lt_mul hk).1 hlast |>.trans_eq (Nat.mul_comm _ _ ▸ rfl)
    · rw [if_neg hlast]
      have hnext : 10 ^ (k + 1) ≤ value := by
        rw [Nat.pow_succ, Nat.mul_comm]
        exact (Nat.le_div_iff_mul_le hk).1 (Nat.le_of_not_lt hlast)
      have hn' : 0 < n := by
        rcases n with _ | n
        · exact absurd hlt (Nat.not_lt.2 hnext)
        · exact Nat.succ_pos n
      obtain ⟨m, heq, hkm, hm⟩ := ih (len + 1) hnext (by rwa [Nat.add_right_comm, Nat.add_assoc]) hn'
      refine ⟨m, ?_, by omega, hm⟩
      rw [heq]
      congr 1
      omega

theorem length_printDigits (k value : Nat) : (printDigits k value).length = k + 1 := by
  induction k generalizing value with
  | zero => rfl
  | succ k ih => rw [printDigits, List.length_cons, ih]

/-- A digit is read as its number. -/
theorem getCharValue_digit {d : Nat} (hd : d < 10) :
    getCharValue (digitChar d) = d ∧ digitChar d ≠ 0 ∧ digitChar d ≠ ' '.toUInt8 ∧
      (d ≠ 0 → digitChar d ≠ '0'.toUInt8) := by
  have hall : ∀ d < 10, getCharValue (digitChar d) = d ∧ digitChar d ≠ 0 ∧
      digitChar d ≠ ' '.toUInt8 ∧ (d ≠ 0 → digitChar d ≠ '0'.toUInt8) := by decide
  exact hall d hd

/-- One digit is read behind the number `ret` before it. -/
theorem textDigits_digit {d ret : Nat} (hd : d < 10) (pre rest : List UInt8) (n : Nat) :
    textDigits (pre ++ digitChar d :: rest) 0 10 pre.length (n + 1) ret =
      if ret * 10 + d < 2 ^ 31 then
        textDigits (pre ++ digitChar d :: rest) 0 10 (pre.length + 1) n ((ret * 10 + d : Nat) : Int)
      else .fault := by
  obtain ⟨hvalue, hne, -, -⟩ := getCharValue_digit hd
  have hat : (pre ++ digitChar d :: rest)[0 + pre.length]? = some (digitChar d) := by simp
  rw [textDigits, hat]
  simp only [if_neg hne, hvalue]
  rw [if_neg (by omega)]
  by_cases hfit : ret * 10 + d < 2 ^ 31
  · rw [if_pos hfit, if_neg (by omega)]
    push_cast
    rfl
  · rw [if_neg hfit, if_pos (by omega)]

/-- The digits written are read as the number, behind the number `ret` before them, as long
    as it is an `int`. -/
theorem textDigits_print (ret : Nat) (hlt : value < 10 ^ (k + 1)) (pre rest : List UInt8) :
    textDigits (pre ++ (printDigits k value ++ rest)) 0 10 pre.length (k + 1) ret =
      if ret * 10 ^ (k + 1) + value < 2 ^ 31 then
        .done ((ret * 10 ^ (k + 1) + value : Nat) : Int)
      else .fault := by
  induction k generalizing ret value pre with
  | zero =>
    rw [printDigits, Nat.div_one, List.singleton_append, textDigits_digit (by simpa using hlt)]
    simp only [textDigits, Nat.zero_add, Nat.pow_one]
  | succ k ih =>
    have hpow : 0 < 10 ^ (k + 1) := Nat.pow_pos (by decide)
    have hd : value / 10 ^ (k + 1) < 10 := by
      rw [Nat.div_lt_iff_lt_mul hpow, Nat.mul_comm, ← Nat.pow_succ]
      exact hlt
    have hsum : (ret * 10 + value / 10 ^ (k + 1)) * 10 ^ (k + 1) + value % 10 ^ (k + 1) =
        ret * 10 ^ (k + 1 + 1) + value := by
      have hdiv := Nat.div_add_mod value (10 ^ (k + 1))
      have hten : 10 ^ (k + 1 + 1) = 10 * 10 ^ (k + 1) := Nat.pow_succ'
      rw [hten, Nat.add_mul, Nat.mul_assoc, Nat.mul_comm (value / _)]
      omega
    have hmore := ih (ret * 10 + value / 10 ^ (k + 1)) (Nat.mod_lt value hpow)
      (pre ++ [digitChar (value / 10 ^ (k + 1))])
    rw [List.append_assoc, List.singleton_append, List.length_append, List.length_singleton,
      hsum] at hmore
    rw [printDigits, List.cons_append, textDigits_digit hd, hmore]
    by_cases hfit : ret * 10 + value / 10 ^ (k + 1) < 2 ^ 31
    · rw [if_pos hfit]
    · -- The number is at least what has been read of it.
      have hge : ret * 10 + value / 10 ^ (k + 1) ≤ ret * 10 ^ (k + 1 + 1) + value := by
        rw [← hsum]
        exact (Nat.le_mul_of_pos_right _ hpow).trans (Nat.le_add_right _ _)
      rw [if_neg hfit, if_neg (by omega)]

/-! ## Texts of numbers -/

/-- The text of a positive number starts with a digit that is not zero. -/
theorem printDigits_head (hpos : 10 ^ k ≤ value) (hlt : value < 10 ^ (k + 1)) :
    ∃ d ds, printDigits k value = digitChar d :: ds ∧ 0 < d ∧ d < 10 := by
  have hpow : 0 < 10 ^ k := Nat.pow_pos (by decide)
  have hd : 0 < value / 10 ^ k ∧ value / 10 ^ k < 10 := by
    refine ⟨Nat.div_pos hpos hpow, ?_⟩
    rw [Nat.div_lt_iff_lt_mul hpow, Nat.mul_comm, ← Nat.pow_succ]
    exact hlt
  rcases k with _ | k
  · exact ⟨_, _, rfl, hd⟩
  · exact ⟨_, _, rfl, hd⟩

theorem zero_notMem_printDigits (hlt : value < 10 ^ (k + 1)) :
    0 ∉ printDigits k value := by
  induction k generalizing value with
  | zero =>
    rw [printDigits, Nat.div_one, List.mem_singleton]
    exact (getCharValue_digit (by simpa using hlt)).2.1.symm
  | succ k ih =>
    have hpow : 0 < 10 ^ (k + 1) := Nat.pow_pos (by decide)
    have hd : value / 10 ^ (k + 1) < 10 := by
      rw [Nat.div_lt_iff_lt_mul hpow, Nat.mul_comm, ← Nat.pow_succ]
      exact hlt
    rw [printDigits, List.mem_cons, not_or]
    exact ⟨(getCharValue_digit hd).2.1.symm, ih (Nat.mod_lt value hpow)⟩

/-- A positive number is read from its text as an `int`. -/
theorem intSetTextValue_print (hpos : 10 ^ k ≤ value) (hlt : value < 10 ^ (k + 1))
    (hk : k < DIGEST_SIZE) (size : Nat) (rest : List UInt8) :
    intSetTextValue size (printDigits k value ++ 0 :: rest) =
      if value < 2 ^ 31 then
        (((k + 1 : Nat) : Int) + 1, ·) <$> intBytes value size
      else .fault := by
  have hlen := length_printDigits k value
  obtain ⟨d, ds, hds, hd0, hd⟩ := printDigits_head hpos hlt
  obtain ⟨-, hne0, hnblank, hnzero⟩ := getCharValue_digit hd
  have hhead : intHead (printDigits k value ++ 0 :: rest) 0 (k + 1) = .done (.digits 0 10) := by
    rw [hds, List.cons_append, intHead.eq_def]
    simp only [List.getElem?_cons_zero, if_neg hne0, if_neg hnblank,
      if_neg (hnzero hd0.ne')]
  have hdigits := textDigits_print 0 hlt [] (0 :: rest)
  rw [List.nil_append, Nat.zero_mul, Nat.zero_add, List.length_nil] at hdigits
  rw [intSetTextValue, strnlen_cstr (zero_notMem_printDigits hlt) (by omega), hlen,
    Outcome.done_bind, hhead, Outcome.done_bind]
  simp only [Nat.sub_zero]
  rw [show ((0 : Int)) = ((0 : Nat) : Int) from rfl, hdigits]
  by_cases hfit : value < 2 ^ 31
  · rw [if_pos hfit, if_pos hfit, Outcome.done_bind, if_neg (by omega)]
  · rw [if_neg hfit, if_neg hfit, Outcome.fault_bind]

/-! ## What is written -/

/-- A positive number is written as its digits. -/
theorem intGetTextValue_pos {elem : List UInt8}
    (hoperand : textOperand type elem = ((value : Int), -1)) (hpos : 0 < value)
    (hlt : value < 2 ^ 63) :
    ∃ k, 10 ^ k ≤ value ∧ value < 10 ^ (k + 1) ∧ k < 19 ∧
      intGetTextValue type elem = .done (((k + 1 : Nat) : Int) + 1, printDigits k value ++ [0]) := by
  obtain ⟨k, hloop, -, hk, hk'⟩ := powerLoop_spec 1 (k := 0) (n := 19)
    (by rwa [Nat.pow_zero]) (hlt.trans (by decide)) (by decide)
  have hbound : k < 19 :=
    (Nat.pow_lt_pow_iff_right (by decide)).1 (hk.trans_lt (hlt.trans (by decide)))
  refine ⟨k, hk, hk', hbound, ?_⟩
  simp only [intGetTextValue, hoperand, Int.natAbs_natCast]
  rw [if_neg (by omega), if_neg (show ¬ (value : Int) < 0 by omega),
    if_neg (show ¬ (value : Int) = 0 by omega), if_neg (by decide)]
  simp only [List.length_nil, Int.ofNat_zero, Int.zero_add, hloop, List.nil_append]
  congr 2
  omega

/-- Zero is written as a digit that is not counted. -/
theorem intGetTextValue_zero {elem : List UInt8} (hoperand : textOperand type elem = (0, -1)) :
    intGetTextValue type elem = .done (1, ['0'.toUInt8, 0]) := by
  rw [intGetTextValue, hoperand]
  rfl

/-- A negative number is written with its sign first, if it is written. -/
theorem intGetTextValue_neg {elem text : List UInt8} {ret : Int}
    (hneg : (textOperand type elem).1 < 0) (h : intGetTextValue type elem = .done (ret, text)) :
    ∃ rest, text = '-'.toUInt8 :: rest := by
  simp only [intGetTextValue, if_pos hneg] at h
  split_ifs at h
  all_goals
    rw [Outcome.done.injEq, Prod.mk.injEq] at h
    exact ⟨_, h.2.symm⟩

/-! ## What is not read back -/

/-- A sign is not read. -/
theorem intSetTextValue_sign (size : Nat) (rest : List UInt8) (ret : Int) (elem : List UInt8) :
    intSetTextValue size ('-'.toUInt8 :: rest) ≠ .done (ret, elem) := by
  intro h
  rw [intSetTextValue] at h
  obtain ⟨strLen, hlen, h⟩ := Outcome.bind_eq_done.1 h
  obtain ⟨n, rfl⟩ : ∃ n, strLen = n + 1 := by
    rw [strnlen, if_neg (by decide)] at hlen
    obtain ⟨n, -, rfl⟩ := Outcome.map_eq_done.1 hlen
    exact ⟨n, rfl⟩
  have hhead : intHead ('-'.toUInt8 :: rest) 0 (n + 1) = .done (.digits 0 10) := by
    rw [intHead.eq_def]
    rfl
  have hdigits : textDigits ('-'.toUInt8 :: rest) 0 10 0 (n + 1) 0 = .done (-EINVAL) := by
    rw [textDigits]
    rfl
  rw [hhead, Outcome.done_bind] at h
  simp only [Nat.sub_zero, hdigits] at h
  cases h

/-- An `int` does not fill an element of 64 bits. -/
theorem intSetTextValue_wide (text : List UInt8) (ret : Int) (elem : List UInt8) :
    intSetTextValue 8 text ≠ .done (ret, elem) := by
  intro h
  rw [intSetTextValue] at h
  obtain ⟨strLen, -, h⟩ := Outcome.bind_eq_done.1 h
  obtain ⟨head, -, h⟩ := Outcome.bind_eq_done.1 h
  rcases head with _ | ⟨i, base⟩
  · cases h
  · obtain ⟨value, -, h⟩ := Outcome.bind_eq_done.1 h
    split_ifs at h
    cases h

/-! ## Round trip -/

/-- One more than the greatest value that is restored from its text. -/
def IntType.restorable : IntType → Nat
  | uchar => 2 ^ 7
  | ushort => 2 ^ 16
  | int | tpmUint32 => 2 ^ 31
  | longlong | tpmUint64 | tpmUint16 => 0

/-- A positive number is restored where it is an `int` and the element has no more bytes. -/
theorem intRestores_pos (hoperand : textOperand type elem.toList = ((leNat elem.toList : Int), -1))
    (hsize : type.size ≤ 4) (hpos : 0 < leNat elem.toList) (hlt : leNat elem.toList < 2 ^ 31) :
    IntRestores type elem := by
  obtain ⟨k, hk, hk', hbound, hget⟩ := intGetTextValue_pos hoperand hpos (hlt.trans (by decide))
  refine ⟨printDigits k (leNat elem.toList), zero_notMem_printDigits hk', ?_,
    fun rest => ⟨((k + 1 : Nat) : Int) + 1, ?_⟩⟩
  · rw [hget, length_printDigits]
  · have hbytes : (leBytes 4 (leNat elem.toList)).take type.size = elem.toList := by
      have hback := leBytes_leNat elem.toList
      rw [Vector.length_toList] at hback
      rw [take_leBytes hsize, hback]
    rw [intSetTextValue_print hk hk' (hbound.trans (by decide)), if_pos hlt, intBytes, if_neg (by omega),
      Int.toNat_natCast, hbytes, Outcome.map_done]

theorem not_intRestores_zero
    (hoperand : textOperand type elem.toList = (0, -1)) : ¬ IntRestores type elem := by
  rintro ⟨text, -, hget, -⟩
  rw [intGetTextValue_zero hoperand, Outcome.done.injEq, Prod.mk.injEq] at hget
  have hlen := congrArg List.length hget.2
  simp only [List.length_cons, List.length_nil, List.length_append] at hlen
  omega

theorem not_intRestores_neg
    (hneg : (textOperand type elem.toList).1 < 0) : ¬ IntRestores type elem := by
  rintro ⟨text, hnul, hget, hset⟩
  obtain ⟨rest, hrest⟩ := intGetTextValue_neg hneg hget
  rcases text with _ | ⟨c, text⟩
  · rw [List.nil_append, List.cons.injEq] at hrest
    exact absurd hrest.1 (by decide)
  · rw [List.cons_append, List.cons.injEq] at hrest
    obtain ⟨ret, hset⟩ := hset []
    rw [hrest.1] at hset
    exact intSetTextValue_sign _ _ _ _ hset

theorem not_intRestores_wide (hsize : type.size = 8) : ¬ IntRestores type elem := by
  rintro ⟨text, -, -, hset⟩
  obtain ⟨ret, hset⟩ := hset []
  have hwide : intSetTextValue type.size (text ++ [0]) = intSetTextValue 8 (text ++ [0]) := by
    rw [hsize]
  exact intSetTextValue_wide _ _ _ (hwide.symm.trans hset)

/-- The lower half of a range is the same with a sign, and the upper half is negative. -/
theorem leInt_half (bytes : List UInt8) :
    2 * leNat bytes < 256 ^ bytes.length ∧ leInt bytes = leNat bytes ∨
      ¬ 2 * leNat bytes < 256 ^ bytes.length ∧ leInt bytes < 0 := by
  have hlt := leNat_lt bytes
  by_cases hhalf : 2 * leNat bytes < 256 ^ bytes.length
  · have hvalue := leInt_leBytes hhalf
    rw [leBytes_leNat] at hvalue
    exact .inl ⟨hhalf, hvalue⟩
  · have hmod : (leNat bytes : Int) % ((256 ^ bytes.length : Nat) : Int) = leNat bytes :=
      Int.emod_eq_of_lt (by omega) (by omega)
    refine .inr ⟨hhalf, ?_⟩
    rw [leInt, Int.bmod_def, hmod]
    split_ifs <;> omega

/-- A signed value is restored exactly when it is positive. -/
theorem intRestores_signed
    (hoperand : textOperand type elem.toList = (leInt elem.toList, -1)) (hsize : type.size ≤ 4) :
    IntRestores type elem ↔ 0 < leNat elem.toList ∧ 2 * leNat elem.toList < 256 ^ type.size := by
  have hcases := leInt_half elem.toList
  rw [Vector.length_toList] at hcases
  rcases hcases with ⟨hhalf, hvalue⟩ | ⟨hhalf, hneg⟩
  · rw [hvalue] at hoperand
    rcases Nat.eq_zero_or_pos (leNat elem.toList) with hzero | hone
    · rw [hzero] at hoperand
      exact iff_of_false (not_intRestores_zero hoperand) fun h => absurd h.1 (by omega)
    · have hmax : 256 ^ type.size ≤ 256 ^ 4 := Nat.pow_le_pow_right (by decide) hsize
      exact iff_of_true (intRestores_pos hoperand hsize hone (by omega)) ⟨hone, hhalf⟩
  · refine iff_of_false (not_intRestores_neg ?_) fun h => hhalf h.2
    rwa [hoperand]

/-- A value is restored from its text exactly when it is positive and an `int`, and for
    `char` also as a signed one; no value of 64 bits is, nor of 16 bits of the network. -/
theorem intRestores_iff (type : IntType) (elem : Vector UInt8 type.size) :
    IntRestores type elem ↔ 0 < leNat elem.toList ∧ leNat elem.toList < type.restorable := by
  have hlt := leNat_lt elem.toList
  rw [Vector.length_toList] at hlt
  cases type with
  | uchar =>
    rw [intRestores_signed rfl (by decide)]
    simp only [IntType.restorable, show IntType.uchar.size = 1 from rfl]
    omega
  | ushort =>
    change leNat elem.toList < 2 ^ 16 at hlt
    rcases Nat.eq_zero_or_pos (leNat elem.toList) with hzero | hpos
    · refine iff_of_false (not_intRestores_zero ?_) fun h => absurd h.1 (by omega)
      rw [textOperand, hzero]
      rfl
    · exact iff_of_true (intRestores_pos rfl (by decide) hpos (by omega)) ⟨hpos, hlt⟩
  | int =>
    rw [intRestores_signed rfl (by decide)]
    simp only [IntType.restorable, show IntType.int.size = 4 from rfl]
    omega
  | longlong => exact iff_of_false (not_intRestores_wide rfl) fun h => Nat.not_lt_zero _ h.2
  | tpmUint64 => exact iff_of_false (not_intRestores_wide rfl) fun h => Nat.not_lt_zero _ h.2
  | tpmUint32 =>
    change leNat elem.toList < 2 ^ 32 at hlt
    rcases Nat.eq_zero_or_pos (leNat elem.toList) with hzero | hpos
    · refine iff_of_false (not_intRestores_zero ?_) fun h => absurd h.1 (by omega)
      rw [textOperand, hzero]
      rfl
    by_cases hfit : leNat elem.toList < 2 ^ 31
    · exact iff_of_true (intRestores_pos rfl (by decide) hpos hfit) ⟨hpos, hfit⟩
    · -- The digits are more than an `int` holds.
      refine iff_of_false (fun ⟨text, _, hget, hset⟩ => ?_) fun h => hfit h.2
      have hoperand : textOperand .tpmUint32 elem.toList = ((leNat elem.toList : Int), -1) := rfl
      obtain ⟨k, hk, hk', hbound, hget'⟩ := intGetTextValue_pos hoperand hpos
        (hlt.trans (by decide))
      rw [hget', Outcome.done.injEq, Prod.mk.injEq] at hget
      obtain ⟨ret, hset⟩ := hset []
      rw [← List.append_cancel_right hget.2,
        intSetTextValue_print hk hk' (hbound.trans (by decide)), if_neg hfit] at hset
      cases hset
  | tpmUint16 =>
    exact iff_of_false (not_intRestores_zero rfl) fun h => Nat.not_lt_zero _ h.2

/-- A negative number is not restored. -/
theorem not_intRestores_minus : ¬ IntRestores .int ⟨#[255, 255, 255, 255], rfl⟩ :=
  not_intRestores_neg (by decide)

end Cube.Struct
