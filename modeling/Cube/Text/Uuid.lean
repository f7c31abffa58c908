import Cube.Message.Head
import Cube.Text.CString

/-!
# Uuids as text

A uuid is 32 bytes: a digest, or a name with zeros behind it. It is written as the name or
as the hexadecimal digits of the digest, and read back by the length of the text
(`uuid_get_text_value` and `uuid_set_text_value` in `struct_ops.c`).

* `uuidToDigest_digestToUuid`: the digits of a digest are read back;
* `uuid_restores_iff`: the uuids that are read back from their text.
-/

namespace Cube.Text

open Lib Message

/-! ## Digits -/

/-- The hexadecimal digit that `_digest_to_uuid` writes for a number of four bits. -/
def hexChar (tempdata : UInt8) : UInt8 :=
  if tempdata > 9 then tempdata - 10 + 'a'.toUInt8 else tempdata + '0'.toUInt8

/-- `_digest_to_uuid`: the characters it writes, two for a byte. -/
def digestToUuid (digest : List UInt8) : List UInt8 :=
  digest.flatMap fun (charValue : UInt8) =>
    [hexChar (charValue >>> 4), hexChar ((charValue <<< 4) >>> 4)]

/-- The number of a hexadecimal digit, for `_uuid_to_digest`. -/
def hexValue (c : UInt8) : Option UInt8 :=
  if '0'.toUInt8 ≤ c ∧ c ≤ '9'.toUInt8 then some (c - '0'.toUInt8)
  else if 'a'.toUInt8 ≤ c ∧ c ≤ 'f'.toUInt8 then some (c - 'a'.toUInt8 + 10)
  else if 'A'.toUInt8 ≤ c ∧ c ≤ 'F'.toUInt8 then some (c - 'A'.toUInt8 + 10)
  else none

/-- `_uuid_to_digest`, two characters for each byte of the digest: what it returns and the
    digest after it. A byte is set from the first of its digits already. -/
def uuidToDigest : List UInt8 → List UInt8 → Outcome (Int × List UInt8)
  | [], _ => .done (0, [])
  | _ :: _, [] => .fault
  | d :: digest, c :: uuid =>
    match hexValue c with
    | none => .done (-EINVAL, d :: digest)
    | some high => match uuid with
      | [] => .fault
      | c' :: uuid => match hexValue c' with
        | none => .done (-EINVAL, high <<< 4 :: digest)
        | some low => (fun (r : Int × List UInt8) => (r.1, (high <<< 4 + low) :: r.2)) <$>
            uuidToDigest digest uuid

/-! ## Names and digests -/

/-- The size of a name, `DIGEST_SIZE/4*3`. -/
def nameSize : Nat := DIGEST_SIZE / 4 * 3

/-- `Isstrinuuid`: the bytes are a name of at most the size with zeros behind it. -/
def isstrinuuid (uuid : List UInt8) : Outcome Bool := do
  let len ← strnlen uuid DIGEST_SIZE
  if len > nameSize then .done false
  else .done (memcmp (.replicate (DIGEST_SIZE - len) 0) (uuid.drop len) = 0)

/-- `uuid_get_text_value`: what it returns and the text it writes. -/
def uuidGetTextValue (addr : List UInt8) : Outcome (Int × List UInt8) := do
  let isname ← isstrinuuid addr
  if isname then
    let data ← strncpy (.replicate DIGEST_SIZE 0) addr nameSize
    let len ← strlen data
    .done (len, data)
  else .done (DIGEST_SIZE * 2, digestToUuid addr)

/-- `uuid_set_text_value`, where the bytes at `addr` are set from the text: what it returns
    and the bytes after it. -/
def uuidSetTextValue (addr text : List UInt8) : Outcome (Int × List UInt8) := do
  let len ← strnlen text (DIGEST_SIZE * 2)
  if len < nameSize then
    let name ← strncpy (.replicate DIGEST_SIZE 0) text nameSize
    .done (DIGEST_SIZE, name)
  else uuidToDigest addr text

/-- The text of a uuid is read back as the uuid, whatever is behind the text and whatever
    the uuid is read over. -/
def Restores (uuid : Vector UInt8 DIGEST_SIZE) : Prop :=
  ∃ ret text, uuidGetTextValue uuid.toList = .done (ret, text) ∧
    ∀ (rest : List UInt8) (old : Vector UInt8 DIGEST_SIZE), ∃ ret' : Int,
      uuidSetTextValue old.toList (text ++ rest) = .done (ret', uuid.toList) ∧ 0 ≤ ret'

/-! ## Digests -/

theorem hexValue_hexChar {t : UInt8} (ht : t < 16) : hexValue (hexChar t) = some t := by
  have hall : ∀ n < 16, hexValue (hexChar (.ofNat n)) = some (.ofNat n) := by decide
  have h := hall t.toNat (UInt8.lt_iff_toNat_lt.1 ht)
  rwa [UInt8.ofNat_toNat] at h

/-- The two halves of a byte. -/
theorem nibbles (b : UInt8) : b >>> 4 < 16 ∧ (b <<< 4) >>> 4 < 16 ∧
    (b >>> 4) <<< 4 + (b <<< 4) >>> 4 = b := by
  have hb := b.toNat_lt
  simp only [UInt8.lt_iff_toNat_lt, ← UInt8.toNat_inj, UInt8.toNat_add, UInt8.toNat_shiftRight,
    UInt8.toNat_shiftLeft, UInt8.reduceToNat, Nat.shiftRight_eq_div_pow,
    Nat.shiftLeft_eq, Nat.reduceMod, Nat.reducePow]
  omega

/-- A digest is read back from its digits. -/
theorem uuidToDigest_digestToUuid (digest old rest : List UInt8)
    (hold : old.length = digest.length) :
    uuidToDigest old (digestToUuid digest ++ rest) = .done (0, digest) := by
  induction digest generalizing old with
  | nil =>
    obtain rfl := List.length_eq_zero_iff.1 hold
    rfl
  | cons b digest ih =>
    obtain ⟨o, old, rfl⟩ := List.exists_cons_of_length_eq_add_one hold
    obtain ⟨hhigh, hlow, hsum⟩ := nibbles b
    have hrest := ih old (Nat.succ.inj hold)
    rw [digestToUuid] at hrest
    simp only [digestToUuid, List.flatMap_cons, List.cons_append, List.nil_append,
      uuidToDigest, hexValue_hexChar hhigh, hexValue_hexChar hlow, hrest,
      Outcome.map_done, hsum]

theorem length_digestToUuid (digest : List UInt8) :
    (digestToUuid digest).length = digest.length * 2 := by
  simp [digestToUuid, List.length_flatMap, List.map_const']

theorem hexChar_ne_zero {t : UInt8} (ht : t < 16) : hexChar t ≠ 0 := by
  have hall : ∀ n < 16, hexChar (.ofNat n) ≠ 0 := by decide
  have h := hall t.toNat (UInt8.lt_iff_toNat_lt.1 ht)
  rwa [UInt8.ofNat_toNat] at h

theorem zero_notMem_digestToUuid (digest : List UInt8) : 0 ∉ digestToUuid digest := by
  intro h
  obtain ⟨b, -, hb⟩ := List.mem_flatMap.1 h
  simp only [List.mem_cons, List.not_mem_nil, or_false] at hb
  obtain ⟨hhigh, hlow, -⟩ := nibbles b
  rcases hb with hb | hb
  · exact hexChar_ne_zero hhigh hb.symm
  · exact hexChar_ne_zero hlow hb.symm

/-- A text that ends before the digits of a digest do is an error. -/
theorem uuidToDigest_zero (old str rest : List UInt8) (hlen : str.length < old.length * 2) :
    ∃ ret digest, uuidToDigest old (str ++ 0 :: rest) = .done (ret, digest) ∧ ret < 0 := by
  induction old generalizing str with
  | nil => exact absurd hlen (Nat.not_lt_zero _)
  | cons o old ih =>
    rcases str with _ | ⟨c, str⟩
    · exact ⟨-EINVAL, o :: old, rfl, by decide⟩
    · rw [List.cons_append, uuidToDigest]
      rcases hexValue c with _ | high
      · exact ⟨-EINVAL, o :: old, rfl, by decide⟩
      · rcases str with _ | ⟨c', str⟩
        · exact ⟨-EINVAL, high <<< 4 :: old, rfl, by decide⟩
        · simp only [List.cons_append]
          rcases hexValue c' with _ | low
          · exact ⟨-EINVAL, high <<< 4 :: old, rfl, by decide⟩
          · simp only [List.length_cons] at hlen
            obtain ⟨ret, digest, heq, hret⟩ := ih str (by omega)
            exact ⟨ret, (high <<< 4 + low) :: digest, by simp only [heq, Outcome.map_done], hret⟩

/-! ## Names -/

theorem isstrinuuid_string {str rest : List UInt8} (hstr : 0 ∉ str)
    (hlen : (str ++ 0 :: rest).length = DIGEST_SIZE) :
    isstrinuuid (str ++ 0 :: rest) =
      .done (decide (str.length ≤ nameSize ∧ ∀ c ∈ rest, c = 0)) := by
  simp only [List.length_append, List.length_cons] at hlen
  rw [isstrinuuid, strnlen_cstr hstr (by omega), Outcome.done_bind]
  by_cases hname : str.length ≤ nameSize
  · have hsize : DIGEST_SIZE - str.length = (0 :: rest : List UInt8).length := by
      rw [List.length_cons]
      omega
    rw [if_neg (by omega), List.drop_left, hsize]
    refine congrArg Outcome.done (decide_eq_decide.2 ?_)
    rw [memcmp_zero]
    simp [hname]
  · rw [if_pos (by omega)]
    simp [hname]

/-- What is not taken for a name is read back. -/
theorem restores_digest {uuid : Vector UInt8 DIGEST_SIZE}
    (h : isstrinuuid uuid.toList = .done false) : Restores uuid := by
  refine ⟨_, _, by rw [uuidGetTextValue, h, Outcome.done_bind]; rfl, fun rest old => ⟨0, ?_, Int.le_refl 0⟩⟩
  have hlen : DIGEST_SIZE * 2 ≤ (digestToUuid uuid.toList).length := by
    rw [length_digestToUuid, Vector.length_toList]
  rw [uuidSetTextValue, strnlen_long (zero_notMem_digestToUuid _) hlen, Outcome.done_bind,
    if_neg (by decide), uuidToDigest_digestToUuid _ _ _ (by simp)]

/-- The text of a name is the name with its zeros. -/
theorem uuidGetTextValue_name {name : List UInt8} (hname : 0 ∉ name)
    (hlen : name.length ≤ nameSize) :
    uuidGetTextValue (name ++ .replicate (DIGEST_SIZE - name.length) 0) =
      .done (name.length, name ++ .replicate (DIGEST_SIZE - name.length) 0) := by
  have hsize : nameSize = 24 := rfl
  have hdigest : DIGEST_SIZE = 32 := rfl
  obtain ⟨k, hk⟩ : ∃ k, DIGEST_SIZE - name.length = k + 1 :=
    ⟨DIGEST_SIZE - name.length - 1, by omega⟩
  have hdest : List.replicate DIGEST_SIZE (0 : UInt8) =
      List.replicate name.length 0 ++ 0 :: List.replicate k 0 := by
    rw [← List.replicate_succ, List.replicate_append_replicate]
    congr 1
    omega
  have hname' : isstrinuuid (name ++ 0 :: List.replicate k 0) = .done true := by
    rw [isstrinuuid_string hname (by simp; omega)]
    exact congrArg Outcome.done
      (decide_eq_true ⟨hlen, fun c hc => List.eq_of_mem_replicate hc⟩)
  rw [hk, List.replicate_succ, uuidGetTextValue, hname', Outcome.done_bind, if_pos rfl, hdest]
  have hcopy : strncpy (List.replicate name.length 0 ++ 0 :: List.replicate k 0)
      (name ++ 0 :: List.replicate k 0) nameSize = .done (name ++ 0 :: List.replicate k 0) := by
    rcases Nat.lt_or_eq_of_le hlen with hlt | heq
    · exact strncpy_cstr hname hlt (List.length_replicate ..)
    · rw [← heq]
      exact strncpy_full hname (List.length_replicate ..)
  rw [hcopy, Outcome.done_bind, strlen_cstr hname, Outcome.done_bind]

/-- A text below the size of a name is read as one. -/
theorem uuidSetTextValue_name {name : List UInt8} (hname : 0 ∉ name)
    (hlen : name.length < nameSize) (old rest : List UInt8) :
    uuidSetTextValue old (name ++ 0 :: rest) =
      .done (DIGEST_SIZE, name ++ .replicate (DIGEST_SIZE - name.length) 0) := by
  have hsize : nameSize = 24 := rfl
  have hdigest : DIGEST_SIZE = 32 := rfl
  obtain ⟨k, hk⟩ : ∃ k, DIGEST_SIZE - name.length = k + 1 :=
    ⟨DIGEST_SIZE - name.length - 1, by omega⟩
  have hdest : List.replicate DIGEST_SIZE (0 : UInt8) =
      List.replicate name.length 0 ++ 0 :: List.replicate k 0 := by
    rw [← List.replicate_succ, List.replicate_append_replicate]
    congr 1
    omega
  rw [uuidSetTextValue, strnlen_cstr hname (by omega), Outcome.done_bind, if_pos hlen, hdest,
    strncpy_cstr hname hlen (List.length_replicate ..), Outcome.done_bind, hk, List.replicate_succ]

/-- A text of the size of a name is read as the digits of a digest, of which there are not
    enough. -/
theorem uuidSetTextValue_full {name : List UInt8} (hname : 0 ∉ name)
    (hlen : name.length = nameSize) (old : Vector UInt8 DIGEST_SIZE) (rest : List UInt8) :
    ∃ ret digest, uuidSetTextValue old.toList (name ++ 0 :: rest) = .done (ret, digest) ∧
      ret < 0 := by
  have hsize : nameSize = 24 := rfl
  have hdigest : DIGEST_SIZE = 32 := rfl
  rw [uuidSetTextValue, strnlen_cstr hname (by omega), Outcome.done_bind, if_neg (by omega)]
  exact uuidToDigest_zero _ name rest (by rw [Vector.length_toList]; omega)

/-! ## Round trip -/

/-- A name of the greatest size, with zeros behind it. -/
def FullName (uuid : List UInt8) : Prop :=
  ∃ name : List UInt8, 0 ∉ name ∧ name.length = nameSize ∧
    uuid = name ++ .replicate (DIGEST_SIZE - nameSize) 0

/-- Only such a name is not restored: it is written as a name, and read as the digits of a
    digest. -/
theorem restores_iff_not_fullName (uuid : Vector UInt8 DIGEST_SIZE) :
    Restores uuid ↔ ¬ FullName uuid.toList := by
  have hlen : uuid.toList.length = DIGEST_SIZE := Vector.length_toList ..
  have hsize : nameSize = 24 := rfl
  have hdigest : DIGEST_SIZE = 32 := rfl
  rcases exists_cstr uuid.toList with hnul | ⟨str, rest, hstr, heq⟩
  · -- Without a zero it is a digest.
    refine iff_of_true (restores_digest ?_) fun ⟨name, _, _, hname⟩ => hnul ?_
    · have hall : strnlen (uuid.toList ++ []) DIGEST_SIZE = .done DIGEST_SIZE :=
        strnlen_long hnul hlen.ge
      rw [List.append_nil] at hall
      rw [isstrinuuid, hall, Outcome.done_bind, if_pos (by decide)]
    · simp [hname, nameSize]
  -- Its string is the only one that it can be.
  have hunique {name : List UInt8} (hnul : 0 ∉ name) (hfull : name.length = nameSize)
      (hname : uuid.toList = name ++ .replicate (DIGEST_SIZE - nameSize) 0) :
      str = name ∧ rest = .replicate 7 0 := by
    have h := heq.symm.trans hname
    have hstrname := cstr_inj hstr hnul h
    refine ⟨hstrname, ?_⟩
    rw [hstrname, List.append_cancel_left_eq] at h
    exact (List.cons.inj h).2
  have hstring := isstrinuuid_string hstr (heq ▸ hlen)
  rw [← heq] at hstring
  rw [heq, List.length_append, List.length_cons] at hlen
  by_cases hname : str.length ≤ nameSize ∧ ∀ c ∈ rest, c = 0
  · -- A name with zeros behind it.
    have hpad : uuid.toList = str ++ .replicate (DIGEST_SIZE - str.length) 0 := by
      rw [heq, List.append_cancel_left_eq, show DIGEST_SIZE - str.length = rest.length + 1 by omega,
        List.replicate_succ, List.cons_inj_right]
      exact List.eq_replicate_iff.2 ⟨rfl, hname.2⟩
    have hget := uuidGetTextValue_name hstr hname.1
    rw [← hpad] at hget
    rcases Nat.lt_or_eq_of_le hname.1 with hlt | hfull
    · refine iff_of_true ⟨_, _, hget, fun rest' old => ⟨DIGEST_SIZE, ?_, by decide⟩⟩
        fun ⟨name, hnul, hfull, hname'⟩ => ?_
      · rw [heq, List.append_assoc, List.cons_append, uuidSetTextValue_name hstr hlt, ← hpad, heq]
      · rw [(hunique hnul hfull hname').1] at hlt
        exact Nat.lt_irrefl _ (hfull ▸ hlt)
    · refine iff_of_false (fun ⟨ret, text, htext, hset⟩ => ?_)
        (not_not.2 ⟨str, hstr, hfull, hfull ▸ hpad⟩)
      rw [hget, Outcome.done.injEq, Prod.mk.injEq] at htext
      obtain ⟨ret', hread, hret'⟩ := hset [] uuid
      rw [← htext.2, List.append_nil, heq] at hread
      obtain ⟨ret'', digest, hread', hneg⟩ := uuidSetTextValue_full hstr hfull uuid rest
      rw [← heq] at hread hread'
      rw [hread', Outcome.done.injEq, Prod.mk.injEq] at hread
      omega
  · refine iff_of_true (restores_digest ?_) fun ⟨name, hnul, hfull, hname'⟩ => hname ?_
    · rw [hstring]
      simp only [hname, decide_false]
    · obtain ⟨rfl, rfl⟩ := hunique hnul hfull hname'
      exact ⟨hfull.le, fun c hc => List.eq_of_mem_replicate hc⟩

/-- A uuid is read back from its text unless it is a name of the greatest size. -/
theorem uuid_restores_iff (uuid : Vector UInt8 DIGEST_SIZE) : Restores uuid ↔
    ¬ ∃ name : List UInt8, 0 ∉ name ∧ name.length = nameSize ∧
      uuid.toList = name ++ .replicate (DIGEST_SIZE - nameSize) 0 := restores_iff_not_fullName uuid

/-- A name of 24 characters is not read back. -/
theorem not_restores_name : ¬ Restores
    ⟨#[97, 97, 97, 97, 97, 97, 97, 97, 97, 97, 97, 97, 97, 97, 97, 97, 97, 97, 97, 97, 97, 97, 97, 97,
      0, 0, 0, 0, 0, 0, 0, 0], rfl⟩ := by
  rintro ⟨ret, text, hget, hset⟩
  have htext : uuidGetTextValue (.replicate 24 97 ++ .replicate 8 0) =
      .done (24, .replicate 24 97 ++ .replicate 8 0) := by decide
  obtain rfl : .replicate 24 97 ++ .replicate 8 0 = text :=
    (Outcome.pair_inj (htext.symm.trans hget)).2
  obtain ⟨ret', hread, hret'⟩ := hset [] (.replicate 32 0)
  have hfail : uuidSetTextValue (.replicate 32 0) (.replicate 24 97 ++ .replicate 8 0 ++ []) =
      .done (-EINVAL, .replicate 12 170 ++ .replicate 20 0) := by decide
  obtain rfl := (Outcome.pair_inj (hfail.symm.trans hread)).1
  exact absurd hret' (by decide)

end Cube.Text
