import Cube.Text.ElemText
import Cube.Text.Uuid

/-!
# Uuids and arrays of uuids as elements

A uuid is written by its operation. An array that is counted by another element goes through
the loops of `_elem_get_text_value` and `_elem_set_text_value`, while an array of a fixed
size is taken for a uuid when it is written, and for an array when it is read.

* `uuidText`: what is written of a uuid, as a field of an array;
* `not_setItems_uuid`: no text of uuids is read back, since its end has to be behind a comma;
* `uuidRestored_iff`, `defuuidarrayRestored_iff`, `not_uuidarrayRestored`: what is restored.
-/

namespace Cube.Text

open Lib Message

/-- `uuid_convert_ops`, which are also those of both arrays of uuids. -/
def uuidOps : TextOps (List UInt8) := plainOps DIGEST_SIZE uuidGetTextValue uuidSetTextValue

/-! ## One uuid -/

/-- A uuid is taken for a digest, or it is a name with zeros behind it. -/
theorem isstrinuuid_cases (uuid : Vector UInt8 DIGEST_SIZE) :
    isstrinuuid uuid.toList = .done false ∨ ∃ name : List UInt8, 0 ∉ name ∧
      name.length ≤ nameSize ∧ uuid.toList = name ++ .replicate (DIGEST_SIZE - name.length) 0 := by
  have hlen : uuid.toList.length = DIGEST_SIZE := Vector.length_toList ..
  rcases exists_cstr uuid.toList with hnul | ⟨str, rest, hstr, heq⟩
  · have hall : strnlen (uuid.toList ++ []) DIGEST_SIZE = .done DIGEST_SIZE :=
      strnlen_long hnul hlen.ge
    rw [List.append_nil] at hall
    rw [isstrinuuid, hall, Outcome.done_bind, if_pos (by decide)]
    exact .inl rfl
  · have hstring := isstrinuuid_string hstr (heq ▸ hlen)
    rw [heq, List.length_append, List.length_cons] at hlen
    rw [heq, hstring]
    by_cases hname : str.length ≤ nameSize ∧ ∀ c ∈ rest, c = 0
    · refine .inr ⟨str, hstr, hname.1, ?_⟩
      rw [List.append_cancel_left_eq, show DIGEST_SIZE - str.length = rest.length + 1 by omega,
        List.replicate_succ, List.cons_inj_right]
      exact List.eq_replicate_iff.2 ⟨rfl, hname.2⟩
    · exact .inl (by rw [decide_eq_false hname])

/-- The digits of a digest are one field. -/
theorem oneField_digestToUuid (digest : List UInt8) : OneField (digestToUuid digest) := by
  have hdigit : ∀ c ∈ digestToUuid digest, c ≠ comma ∧ c ≠ ' '.toUInt8 := by
    have hall : ∀ n < 16, hexChar (.ofNat n) ≠ comma ∧ hexChar (.ofNat n) ≠ ' '.toUInt8 := by
      decide
    have hchar {t : UInt8} (ht : t < 16) : hexChar t ≠ comma ∧ hexChar t ≠ ' '.toUInt8 := by
      have h := hall t.toNat (UInt8.lt_iff_toNat_lt.1 ht)
      rwa [UInt8.ofNat_toNat] at h
    intro c hc
    obtain ⟨b, -, hb⟩ := List.mem_flatMap.1 hc
    simp only [List.mem_cons, List.not_mem_nil, or_false] at hb
    rcases hb with rfl | rfl
    · exact hchar (nibbles b).1
    · exact hchar (nibbles b).2.1
  exact ⟨fun h => (hdigit _ h).1 rfl, fun h => (hdigit _ (List.mem_of_mem_head? h)).2 rfl⟩

/-- The text of a uuid: the digits of a digest, which are one field, or a name. -/
structure UuidText (uuid str : List UInt8) : Prop where
  get : ∃ pad, uuidGetTextValue uuid = .done (str.length, str ++ pad)
  nul_free : 0 ∉ str
  shape : (OneField str ∧ str.length = DIGEST_SIZE * 2) ∨
    str.length ≤ nameSize ∧ uuid = str ++ .replicate (DIGEST_SIZE - str.length) 0

theorem uuidText (uuid : Vector UInt8 DIGEST_SIZE) : ∃ str, UuidText uuid.toList str := by
  rcases isstrinuuid_cases uuid with hdigest | ⟨name, hnul, hlen, hname⟩
  · have hsize : (digestToUuid uuid.toList).length = DIGEST_SIZE * 2 := by
      rw [length_digestToUuid, Vector.length_toList]
    refine ⟨digestToUuid uuid.toList, ⟨[], ?_⟩, zero_notMem_digestToUuid _,
      .inl ⟨oneField_digestToUuid _, hsize⟩⟩
    rw [uuidGetTextValue, hdigest, Outcome.done_bind, hsize, List.append_nil]
    rfl
  · exact ⟨name, ⟨_, by rw [hname]; exact uuidGetTextValue_name hnul hlen⟩, hnul, .inr ⟨hlen, hname⟩⟩

/-- A uuid has no other text. -/
theorem UuidText.unique {uuid str str' : List UInt8} (h : UuidText uuid str)
    (h' : UuidText uuid str') : str = str' := by
  obtain ⟨pad, hget⟩ := h.get
  obtain ⟨pad', hget'⟩ := h'.get
  rw [hget, Outcome.done.injEq, Prod.mk.injEq] at hget'
  exact List.append_inj_left hget'.2 (Int.ofNat.inj hget'.1)

/-- A name is the text of the uuid that it is in. -/
theorem uuidText_name {name : List UInt8} (hnul : 0 ∉ name) (hlen : name.length ≤ nameSize) :
    UuidText (name ++ .replicate (DIGEST_SIZE - name.length) 0) name :=
  ⟨⟨_, uuidGetTextValue_name hnul hlen⟩, hnul, .inr ⟨hlen, rfl⟩⟩

/-- An element is restored as the uuid is. -/
theorem uuidRestored_iff (uuid : Vector UInt8 DIGEST_SIZE) (size defvalue : Int) :
    PlaceRestored uuidOps .uuid size defvalue uuid.toList ↔ ¬ FullName uuid.toList := by
  rw [uuidOps, plainRestored_iff rfl rfl rfl]
  constructor
  · rintro ⟨ret, text, -, hget, hset⟩ ⟨name, hnul, hfull, hname⟩
    have htext := uuidGetTextValue_name hnul hfull.le
    rw [hfull, ← hname, hget, Outcome.done.injEq, Prod.mk.injEq] at htext
    obtain ⟨ret', hret', hread⟩ := hset [] uuid.toList rfl
    obtain ⟨ret'', digest, hread', hneg⟩ :=
      uuidSetTextValue_full hnul hfull uuid (.replicate 7 0 ++ 0 :: [])
    rw [htext.2, hname, List.append_assoc] at hread
    rw [hname] at hread'
    have hsame := hread.symm.trans hread'
    rw [Outcome.done.injEq, Prod.mk.injEq] at hsame
    omega
  · intro h
    obtain ⟨ret, text, hget, hset⟩ := (restores_iff_not_fullName uuid).2 h
    obtain ⟨str, hstr⟩ := uuidText uuid
    obtain ⟨pad, hpad⟩ := hstr.get
    refine ⟨ret, text, ?_, hget, fun rest old hold => ?_⟩
    · rw [hget, Outcome.done.injEq, Prod.mk.injEq] at hpad
      omega
    · obtain ⟨ret', hdone, hret'⟩ := hset (0 :: rest) ⟨⟨old⟩, by simpa using hold⟩
      exact ⟨ret', hret', hdone⟩

/-! ## Arrays -/

/-- The texts of the items of an array are those of the uuids. -/
theorem itemTexts_uuid {items : List (Vector UInt8 DIGEST_SIZE)} {index : Int}
    {strs : List (List UInt8)} (h : ItemTexts uuidOps index (items.map Vector.toList) strs) :
    List.Forall₂ (fun uuid str => UuidText uuid.toList str) items strs := by
  induction items generalizing index strs with
  | nil =>
    obtain rfl : strs = [] := h
    exact .nil
  | cons uuid items ih =>
    obtain ⟨str, more, pad, index', rfl, hget, hmore⟩ := h
    refine .cons ?_ (ih hmore)
    obtain ⟨⟨r, t⟩, hrt, heq⟩ := Outcome.map_eq_done.1 hget
    obtain ⟨rfl, rfl, -⟩ : r = str.length ∧ t = str ++ pad ∧ index = index' := by
      simpa only [Prod.mk.injEq] using heq
    obtain ⟨str', hstr'⟩ := uuidText uuid
    obtain ⟨pad', hget'⟩ := hstr'.get
    have hrt : uuidGetTextValue uuid.toList = _ := hrt
    rw [hrt, Outcome.done.injEq, Prod.mk.injEq] at hget'
    have hsame : str = str' := List.append_inj_left hget'.2 (Int.ofNat.inj hget'.1)
    exact hsame ▸ hstr'

/-- What is read of a uuid leaves the index. -/
theorem setTextValue_uuid {index ret index' : Int} {text uuid : List UInt8}
    (h : uuidOps.setTextValue index (uuidOps.zero 1) text = .done (ret, uuid, index')) :
    uuidSetTextValue (.replicate DIGEST_SIZE 0) text = .done (ret, uuid) := by
  obtain ⟨⟨r, v⟩, hrv, heq⟩ := Outcome.map_eq_done.1 h
  obtain ⟨rfl, rfl, -⟩ : r = ret ∧ v = uuid ∧ index = index' := by
    simpa only [Prod.mk.injEq] using heq
  exact hrv

/-- A buffer does not hold a field that is read as a name of blanks. -/
def NotBlank (buf : List UInt8) : Prop :=
  ∀ ret k, 0 < k → k ≤ nameSize → uuidSetTextValue (.replicate DIGEST_SIZE 0) buf ≠
    .done (ret, .replicate k ' '.toUInt8 ++ .replicate (DIGEST_SIZE - k) 0)

/-- One round of the loop with the text of a uuid in front, which is read back: the text is
    one field with a comma behind it, and the buffer holds it. Only a text of blanks would
    be passed over without being read, at the end. -/
theorem setItems_uuid {uuid : Vector UInt8 DIGEST_SIZE} {str : List UInt8}
    (hstr : UuidText uuid.toList str) {buf : List UInt8} (hbuf : NotBlank buf)
    {sep : UInt8} (hsep : sep = comma ∨ sep = 0) {n : Nat} {index ret : Int} {rest : List UInt8}
    {items : List (List UInt8)}
    (h : setItems uuidOps (n + 1) index buf (str ++ sep :: rest) = .done (ret, uuid.toList :: items)) :
    sep = comma ∧ ∃ index' buf' ret',
      NotBlank buf' ∧ setItems uuidOps n index' buf' rest = .done (ret', items) := by
  have hsize : nameSize = 24 := rfl
  have hdigest : DIGEST_SIZE = 32 := rfl
  obtain ⟨written, strlen, ret', item, index', c, ret'', more, hfield, hset, hc, hc0, hmore, heq⟩ :=
    setItems_succ h
  obtain ⟨rfl, rfl⟩ := List.cons.inj heq
  have hset := setTextValue_uuid hset
  have hlen : str.length < DIGEST_SIZE * 32 := by rcases hstr.shape with h | h <;> omega
  by_cases hone : OneField str
  · -- The field is the text, so that the character behind it is not the end.
    have hall := getfiledfromstr_blanks (k := 0) hone hstr.nul_free hsep hlen rest
    rw [List.replicate_zero, List.nil_append, hfield, Nat.zero_add] at hall
    have hstrlen : strlen = str.length := by
      split_ifs at hall with hend
      · rw [(Outcome.pair_inj hall).2, hend.1]
        rfl
      · exact (Outcome.pair_inj hall).2
    subst hstrlen
    rw [List.getElem?_append_right (Nat.le_refl _), Nat.sub_self, List.getElem?_cons_zero,
      Option.some.injEq] at hc
    obtain rfl : sep = comma := hsep.resolve_right fun h => hc0 (hc ▸ h)
    subst hc
    rw [if_neg fun h => absurd h.2 (by decide)] at hall
    obtain ⟨rfl, -⟩ := Outcome.pair_inj hall
    rw [if_pos rfl, ← List.drop_drop, List.drop_left, List.drop_succ_cons, List.drop_zero] at hmore
    refine ⟨rfl, index', _, ret'', fun ret k hk hle hblanks => hone.blank ?_, hmore⟩
    -- A name of blanks would be the text itself.
    rw [hset, Outcome.done.injEq, Prod.mk.injEq] at hblanks
    have hnul : 0 ∉ List.replicate k ' '.toUInt8 :=
      fun h0 => absurd (List.eq_of_mem_replicate h0) (by decide)
    have hname := uuidText_name hnul (by simpa using hle)
    rw [List.length_replicate, ← hblanks.2] at hname
    obtain ⟨j, rfl⟩ := Nat.exists_eq_succ_of_ne_zero hk.ne'
    rw [hstr.unique hname]
    rfl
  · -- Otherwise the field is shorter, and the name that is read of it another one.
    obtain ⟨hle, hpad⟩ := hstr.shape.resolve_left fun h => hone h.1
    exfalso
    obtain ⟨k, field, c', after, htext, hone', hnul', hshort, hc'⟩ :=
      exists_field hstr.nul_free hone sep rest
    have hall := getfiledfromstr_blanks (k := k) hone' hnul'
      (hc'.elim .inl fun h => h.1 ▸ hsep) (hshort.trans hlen) after
    rw [← htext, hfield] at hall
    split_ifs at hall with hend
    · obtain ⟨rfl, -⟩ := Outcome.pair_inj hall
      obtain ⟨rfl, rfl⟩ := hend
      obtain ⟨-, hblanks⟩ := hc'.resolve_left (by decide)
      rw [List.append_nil] at hblanks
      subst hblanks
      rw [List.length_replicate] at hpad hle
      simp only [List.length_replicate, List.length_nil] at hshort
      rw [hpad] at hset
      exact hbuf ret' k hshort hle hset
    · obtain ⟨rfl, -⟩ := Outcome.pair_inj hall
      rw [List.append_assoc, List.singleton_append,
        uuidSetTextValue_name hnul' (by omega), Outcome.done.injEq, Prod.mk.injEq, hpad] at hset
      obtain ⟨j, hj⟩ : ∃ j, DIGEST_SIZE - field.length = j + 1 := ⟨DIGEST_SIZE - field.length - 1, by omega⟩
      obtain ⟨i, hi⟩ : ∃ i, DIGEST_SIZE - str.length = i + 1 := ⟨DIGEST_SIZE - str.length - 1, by omega⟩
      rw [hj, hi, List.replicate_succ, List.replicate_succ] at hset
      have hsame := cstr_inj hnul' hstr.nul_free hset.2
      rw [hsame] at hshort
      exact Nat.lt_irrefl _ hshort

/-- Uuids are not all read back from a text that ends behind the last of them. -/
theorem not_setItems_uuid {items : List (Vector UInt8 DIGEST_SIZE)} {strs : List (List UInt8)}
    (hstrs : List.Forall₂ (fun uuid str => UuidText uuid.toList str) items strs) :
    ∀ {uuid : Vector UInt8 DIGEST_SIZE} {str buf : List UInt8}, UuidText uuid.toList str →
      NotBlank buf → ∀ (index ret : Int) (tail : List UInt8),
      setItems uuidOps (items.length + 1) index buf
        (str ++ strs.flatMap (comma :: ·) ++ 0 :: tail) ≠
          .done (ret, uuid.toList :: items.map Vector.toList) := by
  induction hstrs with
  | nil =>
    intro uuid str buf hstr hbuf index ret tail h
    rw [List.flatMap_nil, List.append_nil] at h
    exact absurd (setItems_uuid hstr hbuf (.inr rfl) h).1 (by decide)
  | cons hstr' _ ih =>
    intro uuid str buf hstr hbuf index ret tail h
    rw [List.flatMap_cons, List.cons_append, List.append_assoc, List.cons_append] at h
    obtain ⟨-, index', buf', ret', hbuf', hmore⟩ := setItems_uuid hstr hbuf (.inl rfl) h
    exact ih hstr' hbuf' index' ret' tail hmore

/-- The items of an array of uuids are restored only if there are none. -/
theorem defuuidarrayRestored_iff (items : List (Vector UInt8 DIGEST_SIZE)) (size : Int)
    (place : List UInt8) :
    ArrayRestored uuidOps .defuuidarray size items.length place (items.map Vector.toList) ↔
      items = [] := by
  constructor
  · intro h
    by_contra hne
    obtain ⟨uuid, items, rfl⟩ := List.exists_cons_of_ne_nil hne
    have hrestored := h
    rw [← List.length_map (f := Vector.toList), arrayRestored_iff rfl rfl] at hrestored
    obtain ⟨⟨strs, hstrs⟩, ret, text, -, hget, hset⟩ := hrestored
    have htexts := itemTexts_uuid hstrs
    rcases strs with _ | ⟨str, strs⟩
    · cases htexts
    obtain ⟨hstr, hmore⟩ := List.forall₂_cons.1 htexts
    rw [List.map_cons] at hstrs hget hset
    obtain ⟨tail, hwritten⟩ := getArray_texts hstrs
    rw [hget, Outcome.done.injEq, Prod.mk.injEq] at hwritten
    obtain ⟨ret', -, hdone⟩ := hset []
    rw [hwritten.2, List.append_assoc, List.cons_append, List.length_cons, List.length_map] at hdone
    refine not_setItems_uuid hmore hstr (fun ret k _ _ hblank => ?_) _ _ _ hdone
    rw [uuidSetTextValue] at hblank
    cases hblank
  · rintro rfl
    exact arrayRestored_nil rfl rfl

/-- An array of a fixed size is not restored: it is not looked at when it is written, where
    the place of its pointer is read as a uuid, and a text of digits is not one of an
    array. -/
theorem not_uuidarrayRestored (defvalue : Int) (items : List (List UInt8)) :
    ¬ ∀ place : Vector UInt8 DIGEST_SIZE,
      BlockRestored uuidOps .uuidarray Struct.pointerSize defvalue place.toList items := by
  intro h
  have hplace : isstrinuuid (Vector.replicate DIGEST_SIZE (1 : UInt8)).toList = .done false := by
    rcases isstrinuuid_cases (.replicate DIGEST_SIZE 1) with hdigest | ⟨name, -, hlen, hname⟩
    · exact hdigest
    · have hmem : (0 : UInt8) ∈ (Vector.replicate DIGEST_SIZE (1 : UInt8)).toList := by
        rw [hname, List.mem_append, List.mem_replicate]
        exact .inr ⟨(Nat.sub_pos_of_lt (hlen.trans_lt (by decide))).ne', rfl⟩
      simp at hmem
  obtain ⟨ret, text, -, hget, hset⟩ := h (.replicate DIGEST_SIZE 1)
  have htext : text = digestToUuid (Vector.replicate DIGEST_SIZE (1 : UInt8)).toList := by
    simp only [elemGetTextValue, Struct.ElemType.attr, uuidOps, plainOps, indexOps, uuidGetTextValue,
      hplace, Bool.false_eq_true, false_and, or_self, if_false, Outcome.done_bind,
      Outcome.map_done, Outcome.done.injEq, Prod.mk.injEq] at hget
    exact hget.2.symm
  -- The first field is all of the digits, and the end is behind it.
  obtain ⟨ret', -, hdone⟩ := hset [] items
  obtain ⟨r, hitems, -⟩ := Outcome.map_eq_done.1 hdone
  obtain ⟨written, strlen, _, _, _, c, _, _, hfield, -, hc, hc0, -, -⟩ := setItems_succ hitems
  have hone := oneField_digestToUuid (Vector.replicate DIGEST_SIZE (1 : UInt8)).toList
  have hlen := length_digestToUuid (Vector.replicate DIGEST_SIZE (1 : UInt8)).toList
  rw [← htext] at hone hlen
  rw [Vector.length_toList] at hlen
  have hnul : 0 ∉ text := htext ▸ zero_notMem_digestToUuid _
  have hall := getfiledfromstr_blanks (k := 0) hone hnul (.inr rfl)
    (show text.length < DIGEST_SIZE * 32 by rw [hlen]; decide) []
  rw [List.replicate_zero, List.nil_append, hfield, if_neg fun hend => by
    rw [hend.1] at hlen; exact absurd hlen (by decide)] at hall
  obtain ⟨-, rfl⟩ := Outcome.pair_inj hall
  rw [Nat.zero_add, List.getElem?_append_right (Nat.le_refl _), Nat.sub_self,
    List.getElem?_cons_zero, Option.some.injEq] at hc
  exact hc0 hc.symm

end Cube.Text
