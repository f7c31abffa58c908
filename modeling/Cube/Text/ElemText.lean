import Cube.Lib.Scan
import Cube.Lib.Write
import Cube.Struct.Elem
import Cube.Text.NameList

/-!
# Elements as text

The operations of a type turn an item into text and back. `_elem_get_text_value` and
`_elem_set_text_value` (`struct_init.c`) bring them to the memory of an element: to the
element itself, to what its pointer leads to, or to the items of an array in turn, with a
comma between their texts.

* `getArray_texts`: the text of an array whose items are written;
* `setItems_succ`: what is read for one item, and what has to be behind it;
* `indexRestored_iff`, `pointerRestored_iff`: without an array, the operations decide.
-/

namespace Cube.Text

open Lib Memdb Message Struct

/-- The text operations of a type. Beside the item they are given the variable of the
    template that they use, `index` or `tempsize`, and they leave it. An error that they
    return is a value, since an array does not look at it. -/
structure TextOps (α : Type) where
  getTextValue : Int → α → Outcome (Int × List UInt8 × Int)
  setTextValue : Int → α → List UInt8 → Outcome (Int × α × Int)
  /-- An item of memory that is set to zero. -/
  zero : Int → α

/-- Operations that use the variable of the template without changing it, of elements of a
    size. -/
def indexOps (size : Nat) (get : Int → List UInt8 → Outcome (Int × List UInt8))
    (set : Int → List UInt8 → List UInt8 → Outcome (Int × List UInt8)) : TextOps (List UInt8) where
  getTextValue index elem := (fun r => (r.1, r.2, index)) <$> get index elem
  setTextValue index elem text := (fun r => (r.1, r.2, index)) <$> set index elem text
  zero _ := .replicate size 0

/-- Operations that do not use it. -/
def plainOps (size : Nat) (get : List UInt8 → Outcome (Int × List UInt8))
    (set : List UInt8 → List UInt8 → Outcome (Int × List UInt8)) : TextOps (List UInt8) :=
  indexOps size (fun _ => get) fun _ => set

/-- The string that starts at an address. -/
def nameAt (text : List UInt8) : Name where
  chars := text.takeWhile (· ≠ 0)
  nul_free := zero_notMem_takeWhile text

theorem nameAt_cstr (name : Name) (rest : List UInt8) : nameAt (name.chars ++ 0 :: rest) = name := by
  refine Name.ext ?_
  exact takeWhile_terminator name.nul_free rest

/-- The setter of an operation that takes a string, and writes bytes at the element. -/
def setByName (set : Name → Outcome (Int × List UInt8)) (elem text : List UInt8) :
    Outcome (Int × List UInt8) :=
  if 0 ∈ text then
    (fun r => (r.1, r.2 ++ elem.drop r.2.length)) <$> set (nameAt text)
  else .fault

/-- The memory of an element: what is at its own address, and the items that its pointer
    leads to, if it is one. -/
structure Slot (α : Type) where
  place : α
  block : List α

variable {α : Type} (ops : TextOps α)

/-- The character between the items of an array. -/
def comma : UInt8 := ','.toUInt8

/-! ## Writing -/

/-- The loop of `_elem_get_text_value` over the items of an array: the offset and the text
    after it. The buffer that is written holds zeros. -/
def getItems : List α → Int → Int → List UInt8 → Outcome (Int × List UInt8)
  | [], _, offset, text => .done (offset, text)
  | a :: items, index, offset, text => do
    let (ret, written, index) ← ops.getTextValue index a
    let text := writeAt 0 text offset.toNat written
    -- An error is added like a length.
    if offset + ret < 0 then .fault
    else getItems items index (offset + ret + 1) (writeAt 0 text (offset + ret).toNat [comma])

/-- The text of an array, whose last comma becomes its end. -/
def getArray (items : List α) : Outcome (Int × List UInt8) := do
  let (offset, text) ← getItems ops items 0 0 []
  if items = [] then .done (offset, text)
  else .done (offset - 1, writeAt 0 text (offset - 1).toNat [0])

/-- `_elem_get_text_value` of an element of a type with text operations: what it returns and
    the text it writes. `size` is that of the template, and `defvalue` what
    `_elem_get_defvalue` gives. -/
def elemGetTextValue (type : ElemType) (size defvalue : Int) (elem : Slot α) :
    Outcome (Int × List UInt8) :=
  let attr := type.attr
  if attr.define = true ∧ defvalue < 0 then .error defvalue
  else if attr.pointer = true ∨ (attr.define = true ∧ attr.array = true) then
    let repeatNum := if attr.define then defvalue else size
    if attr.array then
      if repeatNum ≤ elem.block.length then getArray ops (elem.block.take repeatNum.toNat)
      else .fault
    else match elem.block with
      | [] => .fault
      | a :: _ => (fun r => (r.1, r.2.1)) <$> ops.getTextValue repeatNum a
  else (fun r => (r.1, r.2.1)) <$> ops.getTextValue (if attr.define then defvalue else 0) elem.place

/-! ## Reading -/

/-- The loop of `_elem_set_text_value` over the items of an array, from a place in the text
    on: how far it goes, and the items. Nothing is written in `buf` for an empty field at
    the end, so that it may be the field before that is read. -/
def setItems : Nat → Int → List UInt8 → List UInt8 → Outcome (Int × List α)
  | 0, _, _, _ => .done (0, [])
  | n + 1, index, buf, text => do
    let (written, strlen) ← getfiledfromstr text comma (DIGEST_SIZE * 32)
    let buf := written ++ buf.drop written.length
    let (_, item, index) ← ops.setTextValue index (ops.zero 1) buf
    match text[strlen]? with
    | none => .fault
    | some c =>
      if c = comma then
        (fun r => (r.1 + strlen + 1, item :: r.2)) <$> setItems n index buf (text.drop (strlen + 1))
      else if c = 0 then .error (-EINVAL)
      else (fun r => (r.1 + strlen, item :: r.2)) <$> setItems n index buf (text.drop strlen)

/-- `_elem_set_text_value`: what it returns and the memory after it. New memory is taken for
    what a pointer leads to, and is there: the `-ENOMEM` of an array without it is left out. -/
def elemSetTextValue (type : ElemType) (size defvalue : Int) (elem : Slot α)
    (text : List UInt8) : Outcome (Int × Slot α) :=
  let attr := type.attr
  if attr.define = true ∧ defvalue < 0 then .error defvalue
  else if attr.array = true ∨ attr.pointer = true then
    let repeatNum := if attr.define then defvalue else size
    if attr.array then
      (fun r => (r.1, { elem with block := r.2 })) <$> setItems ops repeatNum.toNat 0 [] text
    else
      (fun r => (r.1, { elem with block := [r.2.1] })) <$>
        ops.setTextValue repeatNum (ops.zero repeatNum) text
  else
    (fun r => (r.1, { elem with place := r.2.1 })) <$>
      ops.setTextValue (if attr.define then defvalue else 0) elem.place text

/-! ## What they should do -/

/-- A value is restored by operations from its text, which is followed by a zero, whatever
    was in its place before. -/
def TextRestored (get : List UInt8 → Outcome (Int × List UInt8))
    (set : List UInt8 → List UInt8 → Outcome (Int × List UInt8)) (value : List UInt8) : Prop :=
  ∃ ret text, 0 ≤ ret ∧ get value = .done (ret, text) ∧
    ∀ rest old, old.length = value.length → ∃ ret', 0 ≤ ret' ∧
      set old (text ++ 0 :: rest) = .done (ret', value)

/-- The value at the address of an element is restored from its text, which is followed by
    a zero, whatever was at the address before. -/
def PlaceRestored (ops : TextOps (List UInt8)) (type : ElemType) (size defvalue : Int)
    (value : List UInt8) : Prop :=
  ∀ block, ∃ ret text, 0 ≤ ret ∧
    elemGetTextValue ops type size defvalue ⟨value, block⟩ = .done (ret, text) ∧
    ∀ rest old, old.length = value.length → ∃ ret', 0 ≤ ret' ∧
      elemSetTextValue ops type size defvalue ⟨old, block⟩ (text ++ 0 :: rest) =
        .done (ret', ⟨value, block⟩)

/-- The items that an element leads to are restored from their text, whatever it led to
    before. -/
def BlockRestored (type : ElemType) (size defvalue : Int) (place : α) (items : List α) : Prop :=
  ∃ ret text, 0 ≤ ret ∧
    elemGetTextValue ops type size defvalue ⟨place, items⟩ = .done (ret, text) ∧
    ∀ rest old, ∃ ret', 0 ≤ ret' ∧
      elemSetTextValue ops type size defvalue ⟨place, old⟩ (text ++ 0 :: rest) =
        .done (ret', ⟨place, items⟩)

/-- The texts that the operation writes of items in turn, each of the length it returns. -/
def ItemTexts : Int → List α → List (List UInt8) → Prop
  | _, [], strs => strs = []
  | index, a :: items, strs => ∃ str more pad index', strs = str :: more ∧
      ops.getTextValue index a = .done (str.length, str ++ pad, index') ∧
      ItemTexts index' items more

/-- The items of an array are restored: each is written by its own operation, and all from
    the text that is made of theirs. -/
def ArrayRestored (type : ElemType) (size defvalue : Int) (place : α) (items : List α) : Prop :=
  (∃ strs, ItemTexts ops 0 items strs) ∧ BlockRestored ops type size defvalue place items

variable {ops}

/-! ## Elements without an array -/

variable {type : ElemType} {size : Int} {items : List α}

/-- The operations decide about an element that is at its own address. -/
theorem indexRestored_iff (hpointer : type.attr.pointer = false)
    (harray : type.attr.array = false) {get : Int → List UInt8 → Outcome (Int × List UInt8)}
    {set : Int → List UInt8 → List UInt8 → Outcome (Int × List UInt8)} {n : Nat}
    {defvalue : Int} (hdef : type.attr.define = true → 0 ≤ defvalue) {value : List UInt8} :
    PlaceRestored (indexOps n get set) type size defvalue value ↔
      TextRestored (get (if type.attr.define then defvalue else 0))
        (set (if type.attr.define then defvalue else 0)) value := by
  have hneg : ¬ (type.attr.define = true ∧ defvalue < 0) := fun h => by
    have := hdef h.1
    omega
  simp only [PlaceRestored, TextRestored, elemGetTextValue, elemSetTextValue, indexOps, hpointer,
    harray, hneg, Bool.false_eq_true, and_false, or_self, if_false]
  generalize (if type.attr.define then defvalue else 0) = index
  constructor
  · intro h
    obtain ⟨ret, text, hret, hget, hset⟩ := h []
    obtain ⟨_, hr, heq⟩ := Outcome.map_eq_done.1 hget
    obtain ⟨⟨r, t⟩, hrt, rfl⟩ := Outcome.map_eq_done.1 hr
    obtain ⟨rfl, rfl⟩ := Prod.mk.inj heq
    refine ⟨r, t, hret, hrt, fun rest old hold => ?_⟩
    obtain ⟨ret', hret', hdone⟩ := hset rest old hold
    obtain ⟨_, hr', heq'⟩ := Outcome.map_eq_done.1 hdone
    obtain ⟨⟨r', v⟩, hv, rfl⟩ := Outcome.map_eq_done.1 hr'
    obtain ⟨rfl, hslot⟩ := Prod.mk.inj heq'
    obtain rfl : v = value := congrArg Slot.place hslot
    exact ⟨r', hret', hv⟩
  · rintro ⟨ret, text, hret, hget, hset⟩ block
    refine ⟨ret, text, hret, by rw [hget]; rfl, fun rest old hold => ?_⟩
    obtain ⟨ret', hret', hdone⟩ := hset rest old hold
    exact ⟨ret', hret', by rw [hdone]; rfl⟩

theorem plainRestored_iff (hpointer : type.attr.pointer = false)
    (harray : type.attr.array = false) (hdefine : type.attr.define = false)
    {get : List UInt8 → Outcome (Int × List UInt8)}
    {set : List UInt8 → List UInt8 → Outcome (Int × List UInt8)} {n : Nat} {defvalue : Int}
    {value : List UInt8} :
    PlaceRestored (plainOps n get set) type size defvalue value ↔ TextRestored get set value :=
  indexRestored_iff hpointer harray fun h => absurd (hdefine.symm.trans h) (by decide)

/-- A setter that takes a string writes the value over all of what was there. -/
theorem textRestored_setByName {get : List UInt8 → Outcome (Int × List UInt8)}
    {set : Name → Outcome (Int × List UInt8)} {value : List UInt8}
    (hget : ∀ r, get value = .done r → ∃ name, r = textWithEnd name)
    (hset : ∀ name ret written, set name = .done (ret, written) → value.length ≤ written.length) :
    TextRestored get (setByName set) value ↔
      ∃ name, get value = .done (textWithEnd name) ∧ ∃ ret, 0 ≤ ret ∧ set name = .done (ret, value) := by
  have htake (name : Name) (rest old : List UInt8) :
      setByName set old (name.chars ++ [0] ++ 0 :: rest) =
        (fun r => (r.1, r.2 ++ old.drop r.2.length)) <$> set name := by
    have hname : nameAt (name.chars ++ [0] ++ 0 :: rest) = name := by
      rw [List.append_assoc]
      exact nameAt_cstr name _
    rw [setByName, if_pos (by simp), hname]
  constructor
  · rintro ⟨ret, text, -, htext, hdone⟩
    obtain ⟨name, heq⟩ := hget _ htext
    refine ⟨name, heq ▸ htext, ?_⟩
    obtain ⟨ret', hret', h⟩ := hdone [] value rfl
    obtain ⟨-, rfl⟩ := Prod.mk.inj heq
    rw [htake] at h
    obtain ⟨⟨r, written⟩, hwritten, h⟩ := Outcome.map_eq_done.1 h
    obtain ⟨rfl, hvalue⟩ := Prod.mk.inj h
    rw [List.drop_eq_nil_of_le (hset _ _ _ hwritten), List.append_nil] at hvalue
    exact ⟨r, hret', hvalue ▸ hwritten⟩
  · rintro ⟨name, htext, ret, hret, hwritten⟩
    refine ⟨name.chars.length + 1, _, by omega, htext, fun rest old hold => ⟨ret, hret, ?_⟩⟩
    rw [htake, hwritten, Outcome.map_done, ← hold, List.drop_length, List.append_nil]

/-- The operations decide about an element with a pointer to one item of a given size. -/
theorem pointerRestored_iff (hpointer : type.attr.pointer = true)
    (hdefine : type.attr.define = true) (harray : type.attr.array = false)
    {defvalue : Int} (hdef : 0 ≤ defvalue) {place value : α} :
    BlockRestored ops type size defvalue place [value] ↔
      ∃ ret text index, 0 ≤ ret ∧
        ops.getTextValue defvalue value = .done (ret, text, index) ∧
        ∀ rest, ∃ ret' index', 0 ≤ ret' ∧
          ops.setTextValue defvalue (ops.zero defvalue) (text ++ 0 :: rest) =
            .done (ret', value, index') := by
  have hneg : ¬ defvalue < 0 := Int.not_lt.2 hdef
  simp only [BlockRestored, elemGetTextValue, elemSetTextValue, hpointer, harray, hdefine, hneg,
    Bool.false_eq_true, and_false, or_false, false_or, if_true, if_false]
  constructor
  · rintro ⟨ret, text, hret, hget, hset⟩
    obtain ⟨⟨r, t, index⟩, hr, hrt⟩ := Outcome.map_eq_done.1 hget
    obtain ⟨rfl, rfl⟩ := Prod.mk.inj hrt
    refine ⟨r, t, index, hret, hr, fun rest => ?_⟩
    obtain ⟨ret', hret', hdone⟩ := hset rest []
    obtain ⟨⟨r', v, index'⟩, hr', hv⟩ := Outcome.map_eq_done.1 hdone
    obtain ⟨rfl, hslot⟩ := Prod.mk.inj hv
    obtain rfl : v = value := List.head_eq_of_cons_eq (congrArg Slot.block hslot)
    exact ⟨r', index', hret', hr'⟩
  · rintro ⟨ret, text, index, hret, hget, hset⟩
    refine ⟨ret, text, hret, by rw [hget, Outcome.map_done], fun rest old => ?_⟩
    obtain ⟨ret', index', hret', hdone⟩ := hset rest
    exact ⟨ret', hret', by rw [hdone, Outcome.map_done]⟩

/-! ## The text of an array -/

/-- A write in front of what is left of a buffer. -/
theorem writeAt_append (pre tail data : List UInt8) :
    writeAt 0 (pre ++ tail) pre.length data = pre ++ data ++ tail.drop data.length := by
  rcases eq_or_ne data [] with rfl | hdata
  · simp
  · rw [writeAt, if_neg hdata, List.take_left, List.length_append, Nat.sub_eq_zero_of_le (by omega),
      List.replicate_zero, List.append_nil, List.drop_append, List.drop_of_length_le (by omega),
      List.nil_append, Nat.add_sub_cancel_left]

/-- Items that are written make their texts, each with a comma behind it. -/
theorem getItems_texts {strs : List (List UInt8)} {index : Int}
    (h : ItemTexts ops index items strs) (pre tail : List UInt8) :
    ∃ tail', getItems ops items index pre.length (pre ++ tail) =
      .done ((pre ++ strs.flatMap (· ++ [comma])).length,
        pre ++ strs.flatMap (· ++ [comma]) ++ tail') := by
  induction items generalizing index strs pre tail with
  | nil =>
    obtain rfl : strs = [] := h
    exact ⟨tail, by simp only [getItems, List.flatMap_nil, List.append_nil]⟩
  | cons a items ih =>
    obtain ⟨str, more, pad, index', rfl, hget, hmore⟩ := h
    obtain ⟨tail', hrest⟩ := ih hmore (pre ++ (str ++ [comma]))
      ((pad ++ tail.drop (str ++ pad).length).drop 1)
    refine ⟨tail', ?_⟩
    have hcomma := writeAt_append (pre ++ str) (pad ++ tail.drop (str ++ pad).length) [comma]
    rw [getItems, hget, Outcome.done_bind]
    simp only [Int.toNat_natCast, writeAt_append, ← Int.natCast_add, ← List.append_assoc] at hcomma ⊢
    rw [if_neg (by omega), ← List.length_append, hcomma]
    simp only [List.flatMap_cons, List.length_append, List.length_singleton, ← List.append_assoc,
      Int.natCast_add] at hrest ⊢
    exact hrest

theorem flatMap_comma (str : List UInt8) (more : List (List UInt8)) :
    (str :: more).flatMap (· ++ [comma]) = str ++ more.flatMap (comma :: ·) ++ [comma] := by
  induction more generalizing str with
  | nil => simp
  | cons str' more ih =>
    rw [List.flatMap_cons, ih]
    simp

/-- The text of an array is the texts of its items with commas between them. -/
theorem getArray_texts {a : α} {str : List UInt8} {more : List (List UInt8)}
    (h : ItemTexts ops 0 (a :: items) (str :: more)) :
    ∃ tail, getArray ops (a :: items) = .done ((str ++ more.flatMap (comma :: ·)).length,
      str ++ more.flatMap (comma :: ·) ++ 0 :: tail) := by
  obtain ⟨tail, hitems⟩ := getItems_texts h [] []
  simp only [List.nil_append, List.length_nil, Int.ofNat_zero, flatMap_comma] at hitems
  refine ⟨tail, ?_⟩
  have hend := writeAt_append (str ++ more.flatMap (comma :: ·)) (comma :: tail) [0]
  have hlen : ((str ++ more.flatMap (comma :: ·) ++ [comma]).length : Int) - 1 =
      (str ++ more.flatMap (comma :: ·)).length := by
    simp only [List.length_append, List.length_singleton]
    omega
  rw [getArray, hitems, Outcome.done_bind]
  simp only [List.cons_ne_nil, if_false, hlen, Int.toNat_natCast]
  rw [List.append_assoc, List.singleton_append, hend]
  simp

/-- A counted array is restored if the loop reads its items from its text. -/
theorem arrayRestored_iff (hdefine : type.attr.define = true)
    (harray : type.attr.array = true) {place : α} :
    ArrayRestored ops type size items.length place items ↔
      (∃ strs, ItemTexts ops 0 items strs) ∧ ∃ ret text, 0 ≤ ret ∧
        getArray ops items = .done (ret, text) ∧ ∀ rest, ∃ ret', 0 ≤ ret' ∧
          setItems ops items.length 0 [] (text ++ 0 :: rest) = .done (ret', items) := by
  have hneg : ¬ (items.length : Int) < 0 := by omega
  simp only [ArrayRestored, BlockRestored, elemGetTextValue, elemSetTextValue, hdefine, harray,
    hneg, and_false, and_self, or_true, true_or, if_true, if_false, Int.toNat_natCast,
    Int.le_refl, List.take_length]
  refine and_congr_right fun _ => exists_congr fun ret => exists_congr fun text =>
    and_congr_right fun _ => and_congr_right fun _ => ?_
  constructor
  · intro h rest
    obtain ⟨ret', hret', hdone⟩ := h rest []
    obtain ⟨⟨r, more⟩, hmore, heq⟩ := Outcome.map_eq_done.1 hdone
    obtain ⟨rfl, hslot⟩ := Prod.mk.inj heq
    obtain rfl : more = items := congrArg Slot.block hslot
    exact ⟨r, hret', hmore⟩
  · intro h rest old
    obtain ⟨ret', hret', hdone⟩ := h rest
    exact ⟨ret', hret', by rw [hdone, Outcome.map_done]⟩

/-- The empty array is restored. -/
theorem arrayRestored_nil (hdefine : type.attr.define = true)
    (harray : type.attr.array = true) {place : α} :
    ArrayRestored ops type size 0 place [] :=
  (arrayRestored_iff hdefine harray).2 ⟨⟨[], rfl⟩, 0, [], Int.le_refl 0, rfl,
    fun _ => ⟨0, Int.le_refl 0, rfl⟩⟩

/-! ## The fields of a text -/

/-- The texts that are one field of an array: they have no comma, and do not begin with a
    blank. -/
structure OneField (str : List UInt8) : Prop where
  comma : comma ∉ str
  blank : str.head? ≠ some ' '.toUInt8

variable {n k : Nat} {c : UInt8} {field after str : List UInt8}

/-- A field behind blanks. Nothing is written if there is none in front of the end. -/
theorem getfiledfromstr_blanks (hfield : OneField field) (hnul : 0 ∉ field) (hc : c = comma ∨ c = 0)
    (hn : field.length < n) (after : List UInt8) :
    getfiledfromstr (.replicate k ' '.toUInt8 ++ (field ++ c :: after)) comma n =
      if field = [] ∧ c = 0 then .done ([], 0) else .done (field ++ [0], k + field.length) := by
  have hhead : ∃ b more, field ++ c :: after = b :: more ∧ b ≠ ' '.toUInt8 ∧
      (b = 0 ↔ field = [] ∧ c = 0) := by
    rcases field with _ | ⟨b, field⟩
    · exact ⟨c, after, rfl, by rcases hc with rfl | rfl <;> decide, by simp⟩
    · have hb : b ≠ 0 := fun h => hnul (h ▸ List.mem_cons_self)
      exact ⟨b, field ++ c :: after, rfl, by simpa using hfield.blank, by simp [hb]⟩
  obtain ⟨b, more, hmore, hb, hb0⟩ := hhead
  have htake : (List.replicate k ' '.toUInt8 ++ (field ++ c :: after)).takeWhile (· = ' '.toUInt8) =
      .replicate k ' '.toUInt8 := by
    rw [hmore]
    exact takeWhile_stop (by simp) (by simpa using hb) more
  have hdrop : (List.replicate k ' '.toUInt8 ++ (field ++ c :: after)).drop k = b :: more := by
    rw [List.drop_left' (List.length_replicate ..), hmore]
  simp only [getfiledfromstr, htake, List.length_replicate, hdrop, hb0, if_neg (Nat.ne_zero_of_lt hn)]
  split_ifs with hend
  · rfl
  · rw [← hmore, fieldLoop_stop after hfield.comma hnul hc hn, List.nil_append]

/-- A text that is not one field is cut before its end, unless it is one behind blanks. -/
theorem exists_field (hnul : 0 ∉ str) (hstr : ¬ OneField str) (sep : UInt8) (rest : List UInt8) :
    ∃ (k : Nat) (field : List UInt8) (c : UInt8) (after : List UInt8),
      str ++ sep :: rest = .replicate k ' '.toUInt8 ++ (field ++ c :: after) ∧
      OneField field ∧ 0 ∉ field ∧ field.length < str.length ∧
      (c = comma ∨ c = sep ∧ str = .replicate k ' '.toUInt8 ++ field) := by
  obtain ⟨k, left, rfl, hleft⟩ : ∃ (k : Nat) (left : List UInt8),
      str = .replicate k ' '.toUInt8 ++ left ∧ left.head? ≠ some ' '.toUInt8 := by
    clear hnul hstr
    induction str with
    | nil => exact ⟨0, [], rfl, nofun⟩
    | cons b str ih =>
      by_cases hb : b = ' '.toUInt8
      · obtain ⟨k, left, rfl, hleft⟩ := ih
        exact ⟨k + 1, left, by rw [hb, List.replicate_succ, List.cons_append], hleft⟩
      · exact ⟨0, b :: str, rfl, by simpa using hb⟩
  have hnul' : 0 ∉ left := fun h0 => hnul (List.mem_append_right _ h0)
  by_cases hcomma : comma ∈ left
  · -- The field ends at the first comma.
    obtain ⟨field, after, rfl, hfield⟩ := List.eq_append_cons_of_mem hcomma
    refine ⟨k, field, comma, after ++ sep :: rest, by simp, ⟨hfield, fun h => hleft ?_⟩,
      fun h0 => hnul' (List.mem_append_left _ h0), by simp; omega, .inl rfl⟩
    rcases field with _ | ⟨b, field⟩
    · cases h
    · exact h
  · have hk : 0 < k := by
      refine Nat.pos_of_ne_zero fun h => hstr ?_
      subst h
      exact ⟨hcomma, hleft⟩
    exact ⟨k, left, sep, rest, by simp, ⟨hcomma, hleft⟩, hnul', by simp; omega, .inr ⟨rfl, rfl⟩⟩

/-- One round of the loop that comes to a result: a field is read, and no end is behind
    it. -/
theorem setItems_succ {ops : TextOps α} {index : Int} {buf text : List UInt8} {ret : Int}
    (h : setItems ops (n + 1) index buf text = .done (ret, items)) :
    ∃ written strlen ret' item index' c ret'' more,
      getfiledfromstr text comma (DIGEST_SIZE * 32) = .done (written, strlen) ∧
      ops.setTextValue index (ops.zero 1) (written ++ buf.drop written.length) =
        .done (ret', item, index') ∧
      text[strlen]? = some c ∧ c ≠ 0 ∧
      setItems ops n index' (written ++ buf.drop written.length)
        (text.drop (if c = comma then strlen + 1 else strlen)) = .done (ret'', more) ∧
      items = item :: more := by
  rw [setItems] at h
  obtain ⟨⟨written, strlen⟩, hfield, h⟩ := Outcome.bind_eq_done.1 h
  obtain ⟨⟨ret', item, index'⟩, hset, h⟩ := Outcome.bind_eq_done.1 h
  simp only at h
  split at h
  · cases h
  next c hc =>
    refine ⟨written, strlen, ret', item, index', c, ?_⟩
    split_ifs at h with hcomma hzero
    · obtain ⟨⟨ret'', more⟩, hmore, heq⟩ := Outcome.map_eq_done.1 h
      exact ⟨ret'', more, hfield, hset, hc, by rw [hcomma]; decide, by rwa [if_pos hcomma],
        (Prod.mk.inj heq).2.symm⟩
    · obtain ⟨⟨ret'', more⟩, hmore, heq⟩ := Outcome.map_eq_done.1 h
      exact ⟨ret'', more, hfield, hset, hc, hzero, by rwa [if_neg hcomma],
        (Prod.mk.inj heq).2.symm⟩

end Cube.Text
