import Cube.Message.Box
import Cube.Text.Hex
import Cube.Text.Uuid

/-!
# The sender and the receiver of a message

A message names its sender and its receiver in fields of 32 bytes, by a digest or by a name
with zeros behind it. `message_set_sender` and `message_set_receiver` set them from a string,
the digits of a digest or a name, told apart by the length of the string. The field is zeroed
first, set to the digest then if the string has the length of one, and a name is copied to it
last, which is done also after a digest was set.

* `setName_eq`: what is left in the field, for every string;
* `setsName_iff`: the strings for which the field is set as it should.
-/

namespace Cube.Message.Address

open Lib Text

variable {T V : Type}

/-- The field with the bytes, and zeros behind them. -/
def uuidOf (bytes : List UInt8) : Uuid := (Layout.bytes DIGEST_SIZE).get bytes

/-! ## The code -/

/-- What `message_set_sender` and `message_set_receiver` do to the field they set: what is
    returned and what is in the field then. The length of the string is kept in an `int`. -/
def setName (name : List UInt8) : Outcome (Int × Uuid) := do
  let uuid := List.replicate DIGEST_SIZE (0 : UInt8)
  let length ← strlen name
  let len := (Int32.ofNat length).toInt
  if len = DIGEST_SIZE * 2 then
    let (ret, uuid) ← uuidToDigest uuid name
    if ret < 0 then .done (ret, uuidOf uuid)
    else
      -- The digest is copied over here, too.
      let uuid ← strncpy uuid name nameSize
      .done (0, uuidOf uuid)
  else if len > nameSize then .done (-EINVAL, uuidOf uuid)
  else
    let uuid ← strncpy uuid name nameSize
    .done (0, uuidOf uuid)

/-- The message with another sender. -/
def withSender (box : MessageBox T V) (uuid : Uuid) : MessageBox T V :=
  { box with head := { box.head with senderUuid := uuid } }

/-- The message with another receiver. -/
def withReceiver (box : MessageBox T V) (uuid : Uuid) : MessageBox T V :=
  { box with head := { box.head with receiverUuid := uuid } }

/-- `message_set_sender` of a message, which is not `NULL`. -/
def messageSetSender (box : MessageBox T V) (sender : List UInt8) :
    Outcome (Int × MessageBox T V) :=
  (fun r => (r.1, withSender box r.2)) <$> setName sender

/-- `message_set_receiver` of a message, which is not `NULL`. -/
def messageSetReceiver (box : MessageBox T V) (receiver : List UInt8) :
    Outcome (Int × MessageBox T V) :=
  (fun r => (r.1, withReceiver box r.2)) <$> setName receiver

/-! ## Strings for a field -/

/-- A hexadecimal digit. -/
def IsHex (c : UInt8) : Prop := (hexValue c).isSome

instance : DecidablePred IsHex := fun c => inferInstanceAs (Decidable ((hexValue c).isSome = true))

/-- The hexadecimal digits that a string starts with, as numbers. -/
def digits : List UInt8 → List UInt8
  | [] => []
  | c :: name => match hexValue c with
    | none => []
    | some digit => digit :: digits name

/-- The bytes with the digits, the high one first. A last digit that is alone is a high one. -/
def bytesOf : List UInt8 → List UInt8
  | [] => []
  | [high] => [high <<< 4]
  | high :: low :: rest => (high <<< 4 + low) :: bytesOf rest

/-- The digits of a digest. -/
def IsDigest (name : List UInt8) : Prop := name.length = DIGEST_SIZE * 2 ∧ ∀ c ∈ name, IsHex c

/-- A name, or the digits of a digest. -/
def Accepted (name : List UInt8) : Prop := name.length ≤ nameSize ∨ IsDigest name

/-- What a field should be for a string: the name with zeros behind it, or the digest. -/
def fieldOf (name : List UInt8) : Uuid :=
  if name.length ≤ nameSize then uuidOf name else uuidOf (bytesOf (digits name))

/-- A field is set as it should, by a function and in the message: to what the string says if
    it is accepted, and with nothing changed if not. The string ends with a zero, whatever is
    behind it. -/
def SetsName (set : List UInt8 → Outcome (Int × MessageBox T V)) (withField : Uuid → MessageBox T V)
    (box : MessageBox T V) (name : List UInt8) : Prop :=
  ∀ rest, ∃ ret box', set (name ++ 0 :: rest) = .done (ret, box') ∧
    (Accepted name → ret = 0 ∧ box' = withField (fieldOf name)) ∧
    (¬ Accepted name → ret < 0 ∧ box' = box)

/-- The length of a string as an `int`. -/
def intLength (name : List UInt8) : Int := (Int32.ofNat name.length).toInt

/-- By its length as an `int`, and its digits if that is the length of a digest, a string is
    refused. -/
def Refused (name : List UInt8) : Prop :=
  if intLength name = DIGEST_SIZE * 2 then (digits name).length < DIGEST_SIZE * 2
  else nameSize < intLength name

/-- The field has already what a string that is refused leaves in it: zeros, and in front of
    them the digits if the string has the length of a digest. -/
def AlreadyLeft (uuid : Uuid) (name : List UInt8) : Prop :=
  uuid = uuidOf (if intLength name = DIGEST_SIZE * 2 then bytesOf (digits name) else [])

/-- A field is set right from a name, from the digits of a digest whose first bytes are the
    text of their own digits, and from a string refused that leaves what was there. -/
def SetRight (uuid : Uuid) (name : List UInt8) : Prop :=
  name.length ≤ nameSize ∨
  (IsDigest name ∧ ∀ c ∈ name.take (2 * nameSize), c = '3'.toUInt8) ∨
  (¬ Accepted name ∧ Refused name ∧ AlreadyLeft uuid name)

/-! ## Fields and bytes -/

theorem getElem_uuidOf (l : List UInt8) {i : Nat} (hi : i < DIGEST_SIZE) :
    (uuidOf l)[i] = l.getD i 0 := by
  simp [uuidOf, Layout.bytes]

theorem uuidOf_eq_iff {l l' : List UInt8} :
    uuidOf l = uuidOf l' ↔ ∀ i < DIGEST_SIZE, l.getD i 0 = l'.getD i 0 := by
  constructor
  · intro h i hi
    rw [← getElem_uuidOf l hi, h, getElem_uuidOf l' hi]
  · intro h
    refine Vector.ext fun i hi => ?_
    rw [getElem_uuidOf l hi, getElem_uuidOf l' hi, h i hi]

/-- Zeros behind the bytes do not matter. -/
theorem getD_append_zeros (l : List UInt8) (k i : Nat) :
    (l ++ List.replicate k 0).getD i 0 = l.getD i 0 := by
  rcases Nat.lt_or_ge i l.length with hi | hi
  · rw [List.getD_append _ _ _ _ hi]
  · rw [List.getD_append_right _ _ _ _ hi, List.getD_eq_default _ _ hi]
    simp [List.getD_eq_getElem?_getD, List.getElem?_replicate]
    split_ifs <;> rfl

theorem uuidOf_append_zeros (l : List UInt8) (k : Nat) :
    uuidOf (l ++ List.replicate k 0) = uuidOf l :=
  uuidOf_eq_iff.2 fun i _ => getD_append_zeros l k i

/-! ## Digits -/

theorem hexValue_zero : hexValue 0 = none := by decide

/-- The number of a digit, and zero for other characters. -/
def digitOf (c : UInt8) : UInt8 := (hexValue c).getD 0

variable {name : List UInt8}

theorem digits_isHex (h : ∀ c ∈ name, IsHex c) :
    digits name = name.map digitOf := by
  induction name with
  | nil => rfl
  | cons c name ih =>
    rw [List.forall_mem_cons] at h
    obtain ⟨digit, hdigit⟩ := Option.isSome_iff_exists.1 h.1
    simp only [digits, digitOf, hdigit, List.map_cons, Option.getD_some, ih h.2]

theorem length_digits_le (name : List UInt8) : (digits name).length ≤ name.length := by
  induction name with
  | nil => exact Nat.le_refl 0
  | cons c name ih =>
    rw [digits]
    cases hexValue c with
    | none => exact Nat.zero_le _
    | some digit => exact Nat.succ_le_succ ih

/-- There are fewer digits than asked for if a character is none. -/
theorem length_digits_lt_iff {n : Nat} (hn : n ≤ name.length) :
    (digits name).length < n ↔ ∃ c ∈ name.take n, ¬ IsHex c := by
  induction name generalizing n with
  | nil =>
    obtain rfl := Nat.le_zero.1 hn
    simp
  | cons c name ih =>
    rcases n with _ | n
    · simp
    rw [digits, List.take_succ_cons]
    cases hdigit : hexValue c with
    | none =>
      refine iff_of_true (Nat.succ_pos n) ⟨c, List.mem_cons_self, ?_⟩
      simp [IsHex, hdigit]
    | some digit =>
      have hhex : IsHex c := by simp [IsHex, hdigit]
      have hih := ih (Nat.le_of_succ_le_succ hn)
      simp only [List.length_cons, Nat.add_lt_add_iff_right, hih, List.exists_mem_cons_iff, hhex,
        not_true_eq_false, false_or]

/-- A byte has the two digits at its place. -/
theorem getD_bytesOf (ds : List UInt8) (i : Nat) :
    (bytesOf ds).getD i 0 = ds.getD (2 * i) 0 <<< 4 + ds.getD (2 * i + 1) 0 := by
  induction ds using bytesOf.induct generalizing i with
  | case1 => simp [bytesOf]
  | case2 high => cases i <;> simp [bytesOf, Nat.mul_add]
  | case3 high low rest ih =>
    cases i with
    | zero => simp [bytesOf]
    | succ i => simpa [bytesOf, Nat.mul_add] using ih i

theorem length_bytesOf (ds : List UInt8) : (bytesOf ds).length = (ds.length + 1) / 2 := by
  induction ds using bytesOf.induct with
  | case1 => rfl
  | case2 high => simp [bytesOf]
  | case3 high low rest ih =>
    rw [bytesOf, List.length_cons, ih, List.length_cons, List.length_cons]
    omega

/-- The digits are read until there is none, or the digest is full. -/
theorem uuidToDigest_eq (n : Nat) (name rest : List UInt8) :
    uuidToDigest (.replicate n 0) (name ++ 0 :: rest) =
      .done (if (digits name).length < 2 * n
        then (-EINVAL, bytesOf (digits name) ++
          .replicate (n - (bytesOf (digits name)).length) 0)
        else (0, bytesOf ((digits name).take (2 * n)))) := by
  induction n generalizing name with
  | zero => simp [uuidToDigest, bytesOf]
  | succ n ih =>
    rw [List.replicate_succ]
    rcases name with _ | ⟨c, name⟩
    · simp [uuidToDigest, hexValue_zero, digits, bytesOf, List.replicate_succ]
    rw [List.cons_append, uuidToDigest]
    cases hhigh : hexValue c with
    | none => simp [digits, hhigh, bytesOf, List.replicate_succ]
    | some high =>
      rcases name with _ | ⟨c', name⟩
      · have hone : 1 < 2 * (n + 1) := by omega
        simp [hexValue_zero, digits, hhigh, bytesOf, hone]
      simp only [List.cons_append]
      cases hlow : hexValue c' with
      | none =>
        have hone : 1 < 2 * (n + 1) := by omega
        simp [digits, hhigh, hlow, bytesOf, hone]
      | some low =>
        have hdigits : digits (c :: c' :: name) = high :: low :: digits name := by
          simp only [digits, hhigh, hlow]
        have hless : (digits name).length + 1 + 1 < 2 * n + 2 ↔ (digits name).length < 2 * n := by
          omega
        simp only [ih, Outcome.map_done, hdigits, List.length_cons, bytesOf, Nat.mul_add,
          Nat.mul_one, hless, Nat.add_sub_add_right, List.cons_append, List.take_succ_cons]
        split_ifs <;> rfl

/-! ## What is set -/

/-- What is returned for a string, and what is in the field then. -/
theorem setName_eq (hname : 0 ∉ name) (rest : List UInt8) :
    setName (name ++ 0 :: rest) = .done (
      if intLength name = DIGEST_SIZE * 2 then
        if (digits name).length < DIGEST_SIZE * 2 then (-EINVAL, uuidOf (bytesOf (digits name)))
        else (0, uuidOf (name.take nameSize ++
          (bytesOf ((digits name).take (DIGEST_SIZE * 2))).drop nameSize))
      else if nameSize < intLength name then (-EINVAL, uuidOf [])
      else (0, uuidOf (name.take nameSize))) := by
  have hzeros : uuidOf (.replicate DIGEST_SIZE 0) = uuidOf [] := by
    rw [← uuidOf_append_zeros [] DIGEST_SIZE, List.nil_append]
  have hnameSize : nameSize = 24 := rfl
  have hdigest : DIGEST_SIZE = 32 := rfl
  rw [setName, strlen_cstr hname, Outcome.done_bind]
  have hlength : (Int32.ofNat name.length).toInt = intLength name := rfl
  simp only [hlength, gt_iff_lt]
  split_ifs with hint hdigits hlong
  · -- There are not enough digits.
    rw [uuidToDigest_eq, if_pos (by omega), Outcome.done_bind]
    simp only [uuidOf_append_zeros]
    rfl
  · have hlen := length_digits_le name
    rw [uuidToDigest_eq, if_neg (by omega), Outcome.done_bind]
    simp only [Int.lt_irrefl, if_false]
    rw [strncpy_string hname (by rw [length_bytesOf, List.length_take]; omega),
      if_neg (by omega), Outcome.done_bind, Nat.mul_comm]
  · rw [hzeros]
  · rw [strncpy_string hname (by rw [List.length_replicate]; omega), Outcome.done_bind]
    rw [Outcome.done.injEq, Prod.mk.injEq]
    refine ⟨rfl, ?_⟩
    split_ifs with hshort
    · rw [List.drop_replicate, List.take_of_length_le hshort.le, ← List.replicate_succ,
        uuidOf_append_zeros]
    · rw [List.drop_replicate, uuidOf_append_zeros]

theorem intLength_eq (h : name.length < 2 ^ 31) :
    intLength name = name.length := by
  rw [intLength, Int32.toInt_ofNat_of_lt h]

/-- The digits and their numbers. -/
theorem isHex_toNat : ∀ c : UInt8, IsHex c →
    (48 ≤ c.toNat ∧ c.toNat ≤ 57 ∧ (digitOf c).toNat = c.toNat - 48) ∨
    (97 ≤ c.toNat ∧ c.toNat ≤ 102 ∧ (digitOf c).toNat = c.toNat - 87) ∨
    (65 ≤ c.toNat ∧ c.toNat ≤ 70 ∧ (digitOf c).toNat = c.toNat - 55) :=
  forall_byte (by decide +kernel)

theorem toNat_digits {high low : UInt8} (hhigh : high.toNat < 16) (hlow : low.toNat < 16) :
    (high <<< 4 + low).toNat = 16 * high.toNat + low.toNat := by
  simp only [UInt8.toNat_add, UInt8.toNat_shiftLeft, UInt8.reduceToNat, Nat.shiftLeft_eq,
    Nat.reduceMod, Nat.reducePow]
  omega

/-- The text of a digest is in front of it only where all of the digits there are `3`. -/
theorem text_eq_digest_iff (h : IsDigest name) {n : Nat} (hn : n ≤ DIGEST_SIZE) :
    (∀ i < n, name.getD i 0 = (bytesOf (digits name)).getD i 0) ↔
      ∀ i < 2 * n, name.getD i 0 = '3'.toUInt8 := by
  have hdigest : DIGEST_SIZE = 32 := rfl
  have hlen : name.length = 64 := h.1
  have hhex : ∀ i < 2 * n, IsHex (name.getD i 0) := by
    intro i hi
    rw [List.getD_eq_getElem _ _ (by omega)]
    exact h.2 _ (List.getElem_mem _)
  have hbyte : ∀ i < n, name.getD i 0 = (bytesOf (digits name)).getD i 0 ↔
      (name.getD i 0).toNat = 16 * (digitOf (name.getD (2 * i) 0)).toNat +
        (digitOf (name.getD (2 * i + 1) 0)).toNat := by
    intro i hi
    have hzero : digitOf 0 = 0 := by decide
    have hhigh := isHex_toNat _ (hhex (2 * i) (by omega))
    have hlow := isHex_toNat _ (hhex (2 * i + 1) (by omega))
    rw [getD_bytesOf, digits_isHex h.2, ← UInt8.toNat_inj]
    have hmap (j : Nat) : (name.map digitOf).getD j 0 = digitOf (name.getD j 0) := by
      rw [← hzero, List.getD_map, hzero]
    rw [hmap, hmap, toNat_digits (by omega) (by omega)]
  constructor
  · -- A character is the byte of the two digits that follow from it.
    intro htext j
    induction j using Nat.strongRecOn with
    | ind j ih =>
      intro hj
      have hi : j / 2 < n := by omega
      have heq := (hbyte _ hi).1 (htext _ hi)
      have hchar := isHex_toNat _ (hhex (j / 2) (by omega))
      have hhigh := isHex_toNat _ (hhex (2 * (j / 2)) (by omega))
      have hlow := isHex_toNat _ (hhex (2 * (j / 2) + 1) (by omega))
      have hthree : '3'.toUInt8.toNat = 51 := rfl
      rw [← UInt8.toNat_inj, hthree]
      rcases Nat.lt_or_ge j 2 with hfirst | hlater
      · -- The first character is its own high digit.
        have hzero : j / 2 = 0 := by omega
        rw [hzero] at heq hchar hhigh hlow
        simp only [Nat.mul_zero, Nat.zero_add] at heq hhigh hlow
        rcases Nat.le_one_iff_eq_zero_or_eq_one.1 (Nat.le_of_lt_succ hfirst) with rfl | rfl <;>
          omega
      · have hbefore := ih (j / 2) (by omega) (by omega)
        rw [hbefore, hthree] at heq
        obtain ⟨k, rfl | rfl⟩ : ∃ k, j = 2 * k ∨ j = 2 * k + 1 := ⟨j / 2, by omega⟩
        · rw [Nat.mul_div_cancel_left k (by decide)] at heq hhigh hlow
          omega
        · rw [show (2 * k + 1) / 2 = k by omega] at heq hhigh hlow
          omega
  · intro hthree i hi
    rw [hbyte i hi, hthree i (by omega), hthree (2 * i) (by omega), hthree (2 * i + 1) (by omega)]
    decide

/-- A name is set with zeros behind it. -/
theorem setName_name (hname : 0 ∉ name) (hlen : name.length ≤ nameSize)
    {rest : List UInt8} : setName (name ++ 0 :: rest) = .done (0, uuidOf name) := by
  have hnameSize : nameSize = 24 := rfl
  have hdigest : DIGEST_SIZE = 32 := rfl
  have hint : intLength name = name.length := intLength_eq (by omega)
  rw [setName_eq hname, hint, if_neg (by omega), if_neg (by omega), List.take_of_length_le hlen]

/-- A string between a name and the digits of a digest is refused, and leaves zeros. -/
theorem setName_between (hname : 0 ∉ name) (hlen : nameSize < name.length)
    (hlen' : name.length < DIGEST_SIZE * 2) {rest : List UInt8} :
    setName (name ++ 0 :: rest) = .done (-EINVAL, uuidOf []) := by
  have hdigest : DIGEST_SIZE = 32 := rfl
  have hint : intLength name = name.length := intLength_eq (by omega)
  rw [setName_eq hname, hint, if_neg (by omega), if_pos (by omega)]

/-! ## Setting a field right -/

theorem forall_take_iff {n : Nat} (hn : n ≤ name.length) (c : UInt8) :
    (∀ b ∈ name.take n, b = c) ↔ ∀ i < n, name.getD i 0 = c := by
  constructor
  · intro h i hi
    rw [List.getD_eq_getElem _ _ (by omega)]
    exact h _ (List.mem_take_iff_getElem.2 ⟨i, by omega, rfl⟩)
  · intro h b hb
    obtain ⟨i, hi, rfl⟩ := List.mem_take_iff_getElem.1 hb
    have hget := h i (by omega)
    rwa [List.getD_eq_getElem _ _ (by omega)] at hget

/-- A digest is left as it is by the copy of its text where they are the same. -/
theorem digest_copied_iff (h : IsDigest name) :
    uuidOf (name.take nameSize ++ (bytesOf (digits name)).drop nameSize) =
        uuidOf (bytesOf (digits name)) ↔
      ∀ c ∈ name.take (2 * nameSize), c = '3'.toUInt8 := by
  have hnameSize : nameSize = 24 := rfl
  have hdigest : DIGEST_SIZE = 32 := rfl
  have hlen : name.length = 64 := h.1
  have htake : (name.take nameSize).length = nameSize := List.length_take_of_le (by omega)
  rw [forall_take_iff (by omega), ← text_eq_digest_iff h (by omega), uuidOf_eq_iff]
  have hfront : ∀ i < nameSize, (name.take nameSize ++ (bytesOf (digits name)).drop nameSize).getD i 0 =
      name.getD i 0 := by
    intro i hi
    rw [List.getD_append _ _ _ _ (by omega), List.getD_eq_getElem _ _ (by omega),
      List.getD_eq_getElem _ _ (by omega), List.getElem_take]
  constructor
  · intro heq i hi
    rw [← heq i (by omega), hfront i hi]
  · intro heq i _
    rcases Nat.lt_or_ge i nameSize with hi | hi
    · rw [hfront i hi, heq i hi]
    · rw [List.getD_append_right _ _ _ _ (by omega), htake]
      simp only [List.getD_eq_getElem?_getD, List.getElem?_drop]
      rw [Nat.add_sub_cancel' hi]

/-- A field is set right by a string exactly where what is returned and what is in it then are
    those of the string. -/
theorem setRight_iff (hname : 0 ∉ name) (uuid : Uuid) :
    (∀ rest, ∃ ret uuid', setName (name ++ 0 :: rest) = .done (ret, uuid') ∧
      (Accepted name → ret = 0 ∧ uuid' = fieldOf name) ∧
      (¬ Accepted name → ret < 0 ∧ uuid' = uuid)) ↔ SetRight uuid name := by
  have hnameSize : nameSize = 24 := rfl
  have hdigest : DIGEST_SIZE = 32 := rfl
  simp only [setName_eq hname, Outcome.done.injEq]
  rcases Nat.lt_or_ge nameSize name.length with hlong | hshort
  · by_cases haccepted : IsDigest name
    · -- The digits of a digest.
      have hlen : name.length = 64 := haccepted.1
      have hint : intLength name = DIGEST_SIZE * 2 := by
        rw [intLength_eq (by omega), haccepted.1]
        rfl
      have hdigits : (digits name).length = DIGEST_SIZE * 2 := by
        rw [digits_isHex haccepted.2, List.length_map, haccepted.1]
      rw [if_pos hint, if_neg (by omega), List.take_of_length_le hdigits.le]
      have hfield : fieldOf name = uuidOf (bytesOf (digits name)) := if_neg (by omega)
      have hright : SetRight uuid name ↔ ∀ c ∈ name.take (2 * nameSize), c = '3'.toUInt8 := by
        have hnot : ¬ name.length ≤ nameSize := by omega
        simp [SetRight, Accepted, hnot, haccepted]
      rw [hright, ← digest_copied_iff haccepted, hfield]
      constructor
      · intro h
        obtain ⟨ret, uuid', heq, hset, -⟩ := h []
        rw [Prod.mk.injEq] at heq
        rw [heq.2, (hset (.inr haccepted)).2]
      · exact fun h _ => ⟨0, _, rfl, fun _ => ⟨rfl, h⟩, fun hnot => (hnot (.inr haccepted)).elim⟩
    · -- Neither a name nor a digest.
      have hnot : ¬ Accepted name := by
        rintro (h | h)
        · omega
        · exact haccepted h
      have hright : SetRight uuid name ↔ Refused name ∧ AlreadyLeft uuid name := by
        have hnot' : ¬ name.length ≤ nameSize := by omega
        simp [SetRight, hnot', haccepted, hnot]
      have hrefused (r : Int × Uuid) : (∀ _ : List UInt8, ∃ ret uuid', r = (ret, uuid') ∧
          (Accepted name → ret = 0 ∧ uuid' = fieldOf name) ∧
          (¬ Accepted name → ret < 0 ∧ uuid' = uuid)) ↔ r.1 < 0 ∧ uuid = r.2 := by
        constructor
        · intro h
          obtain ⟨ret, uuid', rfl, -, hleft⟩ := h []
          exact ⟨(hleft hnot).1, (hleft hnot).2.symm⟩
        · exact fun h _ => ⟨r.1, r.2, rfl, fun hacc => (hnot hacc).elim, fun _ => ⟨h.1, h.2.symm⟩⟩
      have hneg : (-EINVAL : Int) < 0 := by decide
      rw [hright, hrefused, Refused, AlreadyLeft]
      by_cases hint : intLength name = DIGEST_SIZE * 2
      · simp only [if_pos hint]
        by_cases hdigits : (digits name).length < DIGEST_SIZE * 2
        · rw [if_pos hdigits]
          exact and_congr_left' (iff_of_true hneg hdigits)
        · rw [if_neg hdigits]
          exact iff_of_false (fun h => Int.lt_irrefl 0 h.1) fun h => hdigits h.1
      · simp only [if_neg hint]
        by_cases hint' : (nameSize : Int) < intLength name
        · rw [if_pos hint']
          exact and_congr_left' (iff_of_true hneg hint')
        · rw [if_neg hint']
          exact iff_of_false (fun h => Int.lt_irrefl 0 h.1) fun h => hint' h.1
  · -- A name.
    have hint : intLength name = name.length := intLength_eq (by omega)
    refine iff_of_true (fun rest => ⟨0, uuidOf name, ?_, fun _ => ⟨rfl, ?_⟩,
      fun h => (h (.inl hshort)).elim⟩) (.inl hshort)
    · rw [hint, if_neg (by omega), if_neg (by omega), List.take_of_length_le hshort]
    · rw [fieldOf, if_pos hshort]

/-- A field of the message that is set by a string. -/
theorem setsName_field (hname : 0 ∉ name) {box : MessageBox T V}
    {withField : Uuid → MessageBox T V} (hinj : Function.Injective withField) {uuid : Uuid}
    (huuid : withField uuid = box) :
    SetsName (fun name => (fun r => (r.1, withField r.2)) <$> setName name) withField box name ↔
      SetRight uuid name := by
  rw [← setRight_iff hname, SetsName]
  refine forall_congr' fun rest => ?_
  constructor
  · rintro ⟨ret, box', hset, haccepted, hrefused⟩
    obtain ⟨r, hr, heq⟩ := Outcome.map_eq_done.1 hset
    obtain ⟨rfl, rfl⟩ := Prod.mk.inj heq
    refine ⟨r.1, r.2, hr, fun h => ⟨(haccepted h).1, hinj (haccepted h).2⟩,
      fun h => ⟨(hrefused h).1, hinj ((hrefused h).2.trans huuid.symm)⟩⟩
  · rintro ⟨ret, uuid', hset, haccepted, hrefused⟩
    refine ⟨ret, withField uuid', by rw [hset, Outcome.map_done],
      fun h => ⟨(haccepted h).1, congrArg withField (haccepted h).2⟩,
      fun h => ⟨(hrefused h).1, ?_⟩⟩
    rw [(hrefused h).2, huuid]

theorem withSender_injective (box : MessageBox T V) : Function.Injective (withSender box) :=
  fun _ _ h => congrArg (fun box : MessageBox T V => box.head.senderUuid) h

theorem withReceiver_injective (box : MessageBox T V) : Function.Injective (withReceiver box) :=
  fun _ _ h => congrArg (fun box : MessageBox T V => box.head.receiverUuid) h

/-- The sender and the receiver of a message are set as they should by a string if and only if
    it is a name, or the digits of a digest the text of which is in front of it, or it is refused
    and leaves what was in the field. -/
theorem setsName_iff {name : List UInt8} (hname : 0 ∉ name) (box : MessageBox T V) :
    (SetsName (messageSetSender box) (withSender box) box name ↔
      SetRight box.head.senderUuid name) ∧
    (SetsName (messageSetReceiver box) (withReceiver box) box name ↔
      SetRight box.head.receiverUuid name) :=
  ⟨setsName_field hname (withSender_injective box) rfl,
    setsName_field hname (withReceiver_injective box) rfl⟩

/-- A new message. -/
def newBox : MessageBox Unit Unit where
  head := initHead
  recordTemplate := none
  boxState := .init
  headSize := 0
  records := []
  expands := []
  blob := .null
  currentOffset := 0

/-- A new message gets its sender and its receiver from a name of one character. -/
theorem setsName_one : SetsName (messageSetSender newBox) (withSender newBox) newBox [97] ∧
    SetsName (messageSetReceiver newBox) (withReceiver newBox) newBox [97] :=
  ⟨(setsName_iff (by decide) newBox).1.2 (.inl (by decide)),
    (setsName_iff (by decide) newBox).2.2 (.inl (by decide))⟩

/-- The digits of the digest of zeros do not set the digest, neither as the sender nor as the
    receiver. -/
theorem not_setsName_digest : ∃ name : List UInt8, 0 ∉ name ∧
    ¬ SetsName (messageSetSender newBox) (withSender newBox) newBox name ∧
    ¬ SetsName (messageSetReceiver newBox) (withReceiver newBox) newBox name := by
  refine ⟨.replicate 64 '0'.toUInt8, by decide, ?_⟩
  have hdigest : IsDigest (.replicate 64 '0'.toUInt8) := by
    refine ⟨rfl, fun c hc => ?_⟩
    rw [List.eq_of_mem_replicate hc]
    decide
  have hwrong (uuid : Uuid) : ¬ SetRight uuid (.replicate 64 '0'.toUInt8) := by
    rintro (h | ⟨-, h⟩ | ⟨h, -⟩)
    · exact absurd h (by decide)
    · exact absurd (h '0'.toUInt8 (by decide)) (by decide)
    · exact h (.inr hdigest)
  exact ⟨fun h => hwrong _ ((setsName_field (by decide) (withSender_injective _) rfl).1 h),
    fun h => hwrong _ ((setsName_field (by decide) (withReceiver_injective _) rfl).1 h)⟩

end Cube.Message.Address
