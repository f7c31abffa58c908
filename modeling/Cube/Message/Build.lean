import Cube.Message.Get

/-!
# Building messages

`message_create` makes a message without records and expands. Records and expands are
added to it as structures, which are copied (`message_add_record`,
`message_add_expand`), or as bytes (`message_add_record_blob`,
`message_add_expand_blob`), and fields of its head are set.

* `build_complete`: a message that was built has the records and expands that were
  added, in order.
-/

namespace Cube.Message

open Lib

/-- What building a message needs of struct templates beyond the rest: copying a
    structure into another one, `struct_clone`. -/
structure MessageOps (T V : Type) extends StructOps T V where
  structClone : T → V → Outcome V

variable {T V : Type}

/-- A larger array of slots, as `__message_add_record_site` and
    `__message_add_expand_site` make it: the new number of slots, and the slots. -/
def addSite {S : Type} (heap : Heap) (num : Int32) (slots : List S) (empty : S) :
    Outcome (Int32 × List S) :=
  if num.toInt + 1 ≥ 2 ^ 31 then .fault
  else do
    let size := (Int32.ofInt (20 * (num + 1).toInt)).toInt
    let mem ← dalloc0 heap size
    if !mem then .error (-ENOMEM)
    else if size < 20 * (num + 1).toInt then .fault
    else .done (num + 1, slots ++ [empty])

/-- `message_create`, with the nonce of the message that caused it or a random one. -/
def messageCreate (ops : MessageOps T V) (type subtype : Int32) (nonce : Vector UInt8 DIGEST_SIZE) :
    Outcome (MessageBox T V) :=
  match ops.getTemplate type subtype with
  | none => .error (-EINVAL)
  | some template => .done {
      head := { initHead with
        recordType := type
        recordSubtype := subtype
        state := 1
        nonce := nonce }
      recordTemplate := some template
      boxState := .init
      headSize := 0
      records := []
      expands := []
      blob := .null
      currentOffset := 0 }

section Build

variable (ops : MessageOps T V) (heap : Heap)

/-- How the functions that add a record find its place: the message with one more
    place at the end. If there is a free place already, they go on with a return value
    that was never set. -/
def messageRecordSite (box : MessageBox T V) : Outcome (MessageBox T V) :=
  if (box.records.take box.head.recordNum.toInt.toNat).any
      (fun slot => slot.precord.isNone && slot.record.isNone) then .fault
  else do
    let (num, records) ← addSite heap box.head.recordNum box.records .empty
    .done { box with records := records, head := { box.head with recordNum := num } }

/-- `message_add_record`: the message after the call. -/
def messageAddRecord (record : V) (box : MessageBox T V) : Outcome (MessageBox T V) := do
  let no := box.head.recordNum.toInt.toNat
  let box ← messageRecordSite heap box
  match box.recordTemplate with
  | none => .error (-EINVAL)
  | some template => do
    let mem ← dalloc0 heap (ops.structSize template)
    if !mem then .error (-ENOMEM)
    else do
      let precord ← ops.structClone template record
      .done { box with records := box.records.set no ⟨none, some precord, 0⟩, boxState := .add }

/-- `message_add_record_blob`: the message after the call. -/
def messageAddRecordBlob (recordSize : Int32) (record : List UInt8) (box : MessageBox T V) :
    Outcome (MessageBox T V) := do
  let no := box.head.recordNum.toInt.toNat
  let box ← messageRecordSite heap box
  if !heap.ok (recordSize.toInt + 12) then .error (-ENOMEM)
  else do
    let data ← copyBlock (some record) recordSize
    .done { box with
      records := box.records.set no ⟨some data, none, recordSize⟩
      head := { box.head with recordSize := box.head.recordSize + recordSize }
      boxState := .add }

/-- The message with one more place for an expand. Its callers return `-EINVAL` if there is none,
    whatever the error was. -/
def messageExpandSite (box : MessageBox T V) : Outcome (MessageBox T V) :=
  match addSite heap box.head.expandNum box.expands .empty with
  | .done (num, expands) =>
    .done { box with expands := expands, head := { box.head with expandNum := num } }
  | .error _ => .error (-EINVAL)
  | .fault => .fault

/-- `message_add_expand`: the message after the call. -/
def messageAddExpand (expand : MsgExpand V) (box : MessageBox T V) : Outcome (MessageBox T V) := do
  let no := box.head.expandNum.toInt.toNat
  let box ← messageExpandSite heap box
  let mem ← dalloc0 heap 20
  if !mem then .error (-ENOMEM)
  else match ops.getTemplate expand.type expand.subtype with
  | none => .error (-ENOMEM)
  | some template => do
    let mem ← dalloc0 heap (ops.structSize template)
    if !mem then .fault
    else do
      let value ← ops.structClone template expand.expand
      let pexpand : MsgExpand V := ⟨0, expand.type, expand.subtype, value⟩
      .done { box with expands := box.expands.set no ⟨none, some pexpand, 0⟩, boxState := .expand }

/-- `message_add_expand_data`: the message after the call. -/
def messageAddExpandData (type subtype : Int32) (expand : V) (box : MessageBox T V) :
    Outcome (MessageBox T V) := do
  let mem ← dalloc0 heap 20
  if !mem then .error (-ENOMEM)
  else messageAddExpand ops heap ⟨0, type, subtype, expand⟩ box

/-- `message_add_expand_blob`: the message after the call. -/
def messageAddExpandBlob (size : Int32) (blob : List UInt8) (box : MessageBox T V) :
    Outcome (MessageBox T V) := do
  let no := box.head.expandNum.toInt.toNat
  let box ← messageExpandSite heap box
  let mem ← dalloc0 heap size.toInt
  if !mem then .error (-ENOMEM)
  else do
    let data ← copyBlock (some blob) size
    .done { box with expands := box.expands.set no ⟨some data, none, size⟩ }

end Build

/-- `Isstrinuuid`: the bytes in the place of a digest are a name of at most 24
    characters and zeros. -/
def isStrInUuid (uuid : Vector UInt8 DIGEST_SIZE) : Bool :=
  let len := (uuid.toList.takeWhile (· ≠ 0)).length
  len ≤ DIGEST_SIZE / 4 * 3 && (uuid.toList.drop len).all (· == 0)

/-- What `message_set_sender_uuid` and `message_set_receiver_uuid` write over zeros: a
    name up to its end, or a digest. -/
def uuidInHead (uuid : Vector UInt8 DIGEST_SIZE) : Vector UInt8 DIGEST_SIZE :=
  if isStrInUuid uuid then
    Vector.ofFn fun i => if i < (uuid.toList.takeWhile (· ≠ 0)).length then uuid[i] else 0
  else uuid

/-- What `message_set_route` leaves in the route: the name with a zero behind it, if
    there is room for one, and what was there. -/
def routeInHead (route : List UInt8) (old : Vector UInt8 DIGEST_SIZE) : Vector UInt8 DIGEST_SIZE :=
  Vector.ofFn fun i => ((route ++ [0])[i.val]?).getD old[i]

/-- The calls a message is built with, after it was created. -/
inductive Call (V : Type)
  | addRecord (record : V)
  | addRecordBlob (recordSize : Int32) (record : List UInt8)
  | addExpand (expand : MsgExpand V)
  | addExpandData (type subtype : Int32) (expand : V)
  | addExpandBlob (size : Int32) (blob : List UInt8)
  | recordStruct2Blob
  | expandStruct2Blob
  | setFlag (flag : Int32)
  | setState (state : Int32)
  | setFlow (flow : Int32)
  | setSenderUuid (uuid : Vector UInt8 DIGEST_SIZE)
  | setReceiverUuid (uuid : Vector UInt8 DIGEST_SIZE)
  | setRoute (route : List UInt8)

/-- The message after a call. -/
def messageCall (ops : MessageOps T V) (heap : Heap) (box : MessageBox T V) :
    Call V → Outcome (MessageBox T V)
  | .addRecord record => messageAddRecord ops heap record box
  | .addRecordBlob size record => messageAddRecordBlob heap size record box
  | .addExpand expand => messageAddExpand ops heap expand box
  | .addExpandData type subtype expand => messageAddExpandData ops heap type subtype expand box
  | .addExpandBlob size blob => messageAddExpandBlob heap size blob box
  | .recordStruct2Blob => messageRecordStruct2Blob ops.toCodec heap outputBufsize box
  | .expandStruct2Blob => messageExpandStruct2Blob ops.toCodec heap outputBufsize box
  | .setFlag flag => .done { box with head := { box.head with flag := flag } }
  | .setState state => .done { box with head := { box.head with state := state } }
  | .setFlow flow => .done { box with head := { box.head with flow := flow } }
  | .setSenderUuid uuid =>
    .done { box with head := { box.head with senderUuid := uuidInHead uuid } }
  | .setReceiverUuid uuid =>
    .done { box with head := { box.head with receiverUuid := uuidInHead uuid } }
  | .setRoute route =>
    .done { box with head := { box.head with route := routeInHead route box.head.route } }

/-- The message after the calls. -/
def messageCalls (ops : MessageOps T V) (heap : Heap) (box : MessageBox T V) :
    List (Call V) → Outcome (MessageBox T V)
  | [] => .done box
  | call :: calls => do
    let box ← messageCall ops heap box call
    messageCalls ops heap box calls

/-! ## What a message consists of -/

/-- A record as bytes and as a structure. -/
structure RecordPiece (V : Type) where
  bytes : List UInt8
  value : V

/-- An expand as bytes behind its head and as a structure. -/
structure ExpandPiece (V : Type) where
  type : Int32
  subtype : Int32
  bytes : List UInt8
  value : V

/-- The head of an expand. -/
def ExpandPiece.head (e : ExpandPiece V) : MsgExpandHead :=
  ⟨Int32.ofNat e.bytes.length, e.type, e.subtype⟩

/-- The bytes of an expand with its head. -/
def ExpandPiece.toBytes (e : ExpandPiece V) : List UInt8 := e.head.toBytes ++ e.bytes

variable (ops : MessageOps T V)

/-- The place of a message has the record: as a structure with these bytes, which may be
    there as well, or as bytes of the structure. -/
inductive RecordStands (template : T) (slot : RecordSlot V) (r : RecordPiece V) : Prop
  | struct (hprecord : slot.precord = some r.value)
      (hencode : ops.struct2Blob template r.value = .done r.bytes) (hrecord : slot.record = none)
  | both (hprecord : slot.precord = some r.value)
      (hencode : ops.struct2Blob template r.value = .done r.bytes)
      (hrecord : slot.record = some r.bytes) (hsize : slot.size.toInt = r.bytes.length)
  | blob (hprecord : slot.precord = none)
      (hdecode : ops.blob2Struct template r.bytes = .done (r.bytes.length, r.value))
      (hrecord : slot.record = some r.bytes) (hsize : slot.size.toInt = r.bytes.length)

/-- The place of a message has the expand, as a structure with these bytes or as bytes of
    the structure. -/
inductive ExpandStands (slot : ExpandSlot V) (e : ExpandPiece V) : Prop
  | struct {template : T} {pexpand : MsgExpand V} (hpexpand : slot.pexpand = some pexpand)
      (hcontent : (pexpand.type, pexpand.subtype, pexpand.expand) = (e.type, e.subtype, e.value))
      (htemplate : ops.getTemplate e.type e.subtype = some template)
      (hencode : ops.struct2Blob template e.value = .done e.bytes)
  | blob {template : T} (hpexpand : slot.pexpand = none)
      (htemplate : ops.getTemplate e.type e.subtype = some template)
      (hdecode : ops.blob2Struct template e.bytes = .done (e.bytes.length, e.value))
      (hexpand : slot.expand = some e.toBytes) (hsize : slot.size.toInt = e.toBytes.length)

/-- The message has these records and expands, in order. -/
structure Complete (template : T) (box : MessageBox T V) (rs : List (RecordPiece V))
    (es : List (ExpandPiece V)) : Prop where
  tag : box.head.tag = mesgTag
  version : box.head.version = mesgVersion
  recordTemplate : box.recordTemplate = some template
  getTemplate : ops.getTemplate box.head.recordType box.head.recordSubtype = some template
  recordNum : box.head.recordNum.toInt = rs.length
  recordSite : SiteFits box.head.recordNum
  expandNum : box.head.expandNum.toInt = es.length
  blob : box.blob = .null
  records : List.Forall₂ (RecordStands ops template) box.records rs
  expands : List.Forall₂ (ExpandStands ops) box.expands es

/-- Whether a call adds neither a record nor an expand. -/
def Call.addsNone : Call V → Bool
  | .addRecord _ | .addRecordBlob _ _ | .addExpand _ | .addExpandData _ _ _ | .addExpandBlob _ _ =>
    false
  | _ => true

/-- The call adds these records and expands: a structure whose copy can be encoded, the
    bytes of a structure, or nothing. -/
inductive Call.Adds (template : T) :
    Call V → List (RecordPiece V) → List (ExpandPiece V) → Prop
  | record {record : V} {r : RecordPiece V} (hclone : ops.structClone template record = .done r.value)
      (hencode : ops.struct2Blob template r.value = .done r.bytes) :
      Adds template (.addRecord record) [r] []
  | recordBlob {size : Int32} {r : RecordPiece V} (hsize : size.toInt = r.bytes.length)
      (hdecode : ops.blob2Struct template r.bytes = .done (r.bytes.length, r.value)) :
      Adds template (.addRecordBlob size r.bytes) [r] []
  | expand {dataSize : Int32} {value : V} {e : ExpandPiece V} {template' : T}
      (htemplate : ops.getTemplate e.type e.subtype = some template')
      (hclone : ops.structClone template' value = .done e.value)
      (hencode : ops.struct2Blob template' e.value = .done e.bytes) :
      Adds template (.addExpand ⟨dataSize, e.type, e.subtype, value⟩) [] [e]
  | expandData {value : V} {e : ExpandPiece V} {template' : T}
      (htemplate : ops.getTemplate e.type e.subtype = some template')
      (hclone : ops.structClone template' value = .done e.value)
      (hencode : ops.struct2Blob template' e.value = .done e.bytes) :
      Adds template (.addExpandData e.type e.subtype value) [] [e]
  | expandBlob {size : Int32} {e : ExpandPiece V} {template' : T}
      (hsize : size.toInt = e.toBytes.length)
      (htemplate : ops.getTemplate e.type e.subtype = some template')
      (hdecode : ops.blob2Struct template' e.bytes = .done (e.bytes.length, e.value)) :
      Adds template (.addExpandBlob size e.toBytes) [] [e]
  | none {call : Call V} (h : call.addsNone = true) : Adds template call [] []

/-- The calls add these records and expands, in order. -/
inductive AddsAll (template : T) :
    List (Call V) → List (RecordPiece V) → List (ExpandPiece V) → Prop
  | nil : AddsAll template [] [] []
  | cons {call : Call V} {calls : List (Call V)} {rs rs' : List (RecordPiece V)}
      {es es' : List (ExpandPiece V)} (hcall : call.Adds ops template rs es)
      (hcalls : AddsAll template calls rs' es') :
      AddsAll template (call :: calls) (rs ++ rs') (es ++ es')

/-! ## What a call does -/

variable {ops} {heap : Heap} {template : T} {box box' : MessageBox T V}
  {rs rs' : List (RecordPiece V)} {es es' : List (ExpandPiece V)}

theorem int32_add_one {n : Int32} (h : ¬ n.toInt + 1 ≥ 2 ^ 31) : (n + 1).toInt = n.toInt + 1 := by
  have hle := n.le_toInt
  rw [Int32.toInt_add, Int32.toInt_one, Int.bmod_def]
  split <;> omega

theorem addSite_done {S : Type} {num num' : Int32} {slots slots' : List S} {empty : S}
    (h₀ : 0 ≤ num.toInt) (h : addSite heap num slots empty = .done (num', slots')) :
    num'.toInt = num.toInt + 1 ∧ SiteFits num' ∧ slots' = slots ++ [empty] := by
  rw [addSite] at h
  by_cases hnum : num.toInt + 1 ≥ 2 ^ 31
  · rw [if_pos hnum] at h
    cases h
  rw [if_neg hnum] at h
  obtain ⟨mem, _, h⟩ := Outcome.bind_eq_done.1 h
  split_ifs at h with _ hsize
  obtain ⟨rfl, rfl⟩ := Outcome.pair_inj h
  refine ⟨int32_add_one hnum, ?_, rfl⟩
  have hle := int32_ofInt_le (show 0 ≤ 20 * (num + 1).toInt by rw [int32_add_one hnum]; omega)
  exact Int.le_antisymm hle (Int.not_lt.1 hsize)

theorem messageRecordSite_done (h₀ : 0 ≤ box.head.recordNum.toInt)
    (h : messageRecordSite heap box = .done box') :
    ∃ num : Int32, num.toInt = box.head.recordNum.toInt + 1 ∧ SiteFits num ∧
      box' = { box with
        records := box.records ++ [.empty]
        head := { box.head with recordNum := num } } := by
  rw [messageRecordSite] at h
  split_ifs at h
  obtain ⟨⟨num, records⟩, hsite, h⟩ := Outcome.bind_eq_done.1 h
  obtain ⟨hnum, hfits, rfl⟩ := addSite_done h₀ hsite
  exact ⟨num, hnum, hfits, (Outcome.done.inj h).symm⟩

theorem messageExpandSite_done (h₀ : 0 ≤ box.head.expandNum.toInt)
    (h : messageExpandSite heap box = .done box') :
    ∃ num : Int32, num.toInt = box.head.expandNum.toInt + 1 ∧
      box' = { box with
        expands := box.expands ++ [.empty]
        head := { box.head with expandNum := num } } := by
  rw [messageExpandSite] at h
  split at h
  next num expands hsite =>
    obtain ⟨hnum, _, rfl⟩ := addSite_done h₀ hsite
    exact ⟨num, hnum, (Outcome.done.inj h).symm⟩
  all_goals cases h

/-- What is put at the new place is behind the rest. -/
theorem set_append_last {S : Type} (slots : List S) (empty slot : S) {n : Nat}
    (h : n = slots.length) : (slots ++ [empty]).set n slot = slots ++ [slot] := by
  rw [h, List.set_append_right _ _ (Nat.le_refl _), Nat.sub_self, List.set_cons_zero]

/-- All the bytes of a block are copied. -/
theorem copyBlock_whole {bytes : List UInt8} {size : Int32} (h : size.toInt = bytes.length) :
    copyBlock (some bytes) size = .done bytes := by
  simp only [copyBlock]
  rw [if_neg (by omega), h, Int.toNat_natCast, List.take_length]

theorem Complete.recordNum_nonneg (h : Complete ops template box rs es) :
    0 ≤ box.head.recordNum.toInt := by
  rw [h.recordNum]
  exact Int.natCast_nonneg _

theorem Complete.expandNum_nonneg (h : Complete ops template box rs es) :
    0 ≤ box.head.expandNum.toInt := by
  rw [h.expandNum]
  exact Int.natCast_nonneg _

theorem Complete.records_length (h : Complete ops template box rs es) :
    box.head.recordNum.toInt.toNat = box.records.length := by
  rw [h.recordNum, Int.toNat_natCast, h.records.length_eq]

theorem Complete.expands_length (h : Complete ops template box rs es) :
    box.head.expandNum.toInt.toNat = box.expands.length := by
  rw [h.expandNum, Int.toNat_natCast, h.expands.length_eq]

/-- A record at the end of the others. -/
theorem Complete.addRecord (h : Complete ops template box rs es) {slot : RecordSlot V}
    {r : RecordPiece V} (hstands : RecordStands ops template slot r) {num : Int32}
    (hnum : num.toInt = box.head.recordNum.toInt + 1) (hsite : SiteFits num) (size : Int32) :
    Complete ops template { box with
      records := (box.records ++ [RecordSlot.empty]).set box.head.recordNum.toInt.toNat slot
      head := { box.head with recordNum := num, recordSize := size }
      boxState := .add } (rs ++ [r]) es where
  tag := h.tag
  version := h.version
  recordTemplate := h.recordTemplate
  getTemplate := h.getTemplate
  recordNum := by
    rw [hnum, h.recordNum, List.length_append]
    rfl
  recordSite := hsite
  expandNum := h.expandNum
  blob := h.blob
  records := by
    rw [set_append_last _ _ _ h.records_length]
    exact List.rel_append h.records (.cons hstands .nil)
  expands := h.expands

variable {e : ExpandPiece V} {bufsize : Nat}

/-- An expand at the end of the others. -/
theorem Complete.addExpand (h : Complete ops template box rs es) {slot : ExpandSlot V}
    (hstands : ExpandStands ops slot e) {num : Int32}
    (hnum : num.toInt = box.head.expandNum.toInt + 1) (boxState : BoxState) :
    Complete ops template { box with
      expands := (box.expands ++ [ExpandSlot.empty]).set box.head.expandNum.toInt.toNat slot
      head := { box.head with expandNum := num }
      boxState := boxState } rs (es ++ [e]) where
  tag := h.tag
  version := h.version
  recordTemplate := h.recordTemplate
  getTemplate := h.getTemplate
  recordNum := h.recordNum
  recordSite := h.recordSite
  expandNum := by
    rw [hnum, h.expandNum, List.length_append]
    rfl
  blob := h.blob
  records := h.records
  expands := by
    rw [set_append_last _ _ _ h.expands_length]
    exact List.rel_append h.expands (.cons hstands .nil)

/-- The loops over the places of a message leave at each what the step does. -/
theorem structs2Blob_forall₂ {S P : Type} {step : S → Outcome S} {size : S → Int32}
    {R F : S → P → Prop} (hstep : ∀ slot p slot', R slot p → step slot = .done slot' → F slot' p)
    {slots slots' : List S} {ps : List P} {total : Int32} (hslots : List.Forall₂ R slots ps)
    (h : structs2Blob step size ps.length slots = .done (slots', total)) :
    List.Forall₂ F slots' ps := by
  induction hslots generalizing slots' total with
  | nil =>
    obtain ⟨rfl, _⟩ := Outcome.pair_inj h
    exact .nil
  | @cons slot p slots ps hslot _ ih =>
    rw [List.length_cons, structs2Blob] at h
    obtain ⟨slot', hslot', h⟩ := Outcome.bind_eq_done.1 h
    obtain ⟨⟨rest, sum⟩, hrest, h⟩ := Outcome.bind_eq_done.1 h
    obtain ⟨rfl, _⟩ := Outcome.pair_inj h
    exact .cons (hstep slot p slot' hslot hslot') (ih hrest)

/-- What a place has of a record once its bytes are there: it still stands for it. -/
structure RecordFilled (ops : MessageOps T V) (template : T) (slot : RecordSlot V)
    (r : RecordPiece V) : Prop where
  stands : RecordStands ops template slot r
  record : slot.record = some r.bytes
  size : slot.size.toInt = r.bytes.length

/-- A record that is only a structure is encoded, if there is room for it. -/
theorem recordStruct2Blob_cases (heap : Heap) {slot : RecordSlot V} {r : RecordPiece V}
    (hbuf : bufsize < 2 ^ 31) (h : RecordStands ops template slot r) :
    (∃ slot', recordStruct2Blob ops.toCodec heap bufsize (some template) slot = .done slot' ∧
        RecordFilled ops template slot' r) ∨
      (∃ e, recordStruct2Blob ops.toCodec heap bufsize (some template) slot = .error e ∧
        heap.ok (r.bytes.length + 12) = false) ∨
      recordStruct2Blob ops.toCodec heap bufsize (some template) slot = .fault ∧
        bufsize < r.bytes.length := by
  have hstands := h
  cases h with
  | struct hprecord hencode hrecord =>
    simp only [recordStruct2Blob, hrecord, hprecord, hencode, Outcome.done_bind]
    by_cases hfit : r.bytes.length > bufsize
    · rw [if_pos hfit]
      exact .inr (.inr ⟨rfl, hfit⟩)
    rw [if_neg hfit]
    cases hok : heap.ok (r.bytes.length + 12) with
    | false =>
      rw [dalloc0_none hok]
      exact .inr (.inl ⟨_, rfl, rfl⟩)
    | true =>
      rw [dalloc0_done hok (Int.natCast_nonneg _)]
      have hsize : (Int32.ofNat r.bytes.length).toInt = r.bytes.length :=
        int32_ofNat_toInt (by omega)
      exact .inl ⟨_, rfl, .both rfl hencode rfl hsize, rfl, hsize⟩
  | both hprecord hencode hrecord hsize =>
    simp only [recordStruct2Blob, hrecord]
    exact .inl ⟨_, rfl, hstands, hrecord, hsize⟩
  | blob hprecord hdecode hrecord hsize =>
    simp only [recordStruct2Blob, hrecord]
    exact .inl ⟨_, rfl, hstands, hrecord, hsize⟩

/-- What a place has of an expand once its bytes are there. -/
structure ExpandFilled (ops : MessageOps T V) (slot : ExpandSlot V) (e : ExpandPiece V) : Prop where
  stands : ExpandStands ops slot e
  expand : slot.expand = some e.toBytes
  size : slot.size.toInt = e.toBytes.length

theorem ExpandPiece.length_toBytes (e : ExpandPiece V) : e.toBytes.length = 12 + e.bytes.length := by
  rw [ExpandPiece.toBytes, List.length_append, MsgExpandHead.length_toBytes]
  rfl

/-- The length an expand starts with is that of its bytes. -/
theorem ExpandPiece.bytesInt32_toBytes (e : ExpandPiece V) (rest : List UInt8) :
    bytesInt32 (e.toBytes ++ rest) = Int32.ofNat e.bytes.length := by
  have hhead := MsgExpandHead.ofBytes_toBytes e.head (e.bytes ++ rest)
  rw [← List.append_assoc] at hhead
  exact congrArg MsgExpandHead.dataSize hhead

theorem ExpandPiece.size_toInt (h : e.toBytes.length < 2 ^ 31) :
    (Int32.ofNat e.bytes.length + 12).toInt = e.toBytes.length := by
  rw [length_toBytes] at h ⊢
  rw [show (12 : Int32) = Int32.ofNat 12 from rfl, ← Int32.ofNat_add, int32_ofNat_toInt (by omega),
    Nat.add_comm]

/-- An expand that is a structure is encoded, if there is room for it. -/
theorem expandStruct2Blob_cases (heap : Heap) {slot : ExpandSlot V}
    (hbuf : bufsize < 2 ^ 31) (h : ExpandStands ops slot e) :
    (∃ slot', expandStruct2Blob ops.toCodec heap bufsize slot = .done slot' ∧
        ExpandFilled ops slot' e) ∨
      (∃ err, expandStruct2Blob ops.toCodec heap bufsize slot = .error err ∧
        heap.ok (e.toBytes.length + 12) = false) ∨
      expandStruct2Blob ops.toCodec heap bufsize slot = .fault ∧ bufsize < e.toBytes.length := by
  have hstands := h
  cases h with
  | @struct template pexpand hpexpand hcontent htemplate hencode =>
    obtain ⟨htype, hsubtype, hvalue⟩ : pexpand.type = e.type ∧ pexpand.subtype = e.subtype ∧
        pexpand.expand = e.value := by
      obtain ⟨h₁, h₂⟩ := Prod.mk.inj hcontent
      exact ⟨h₁, Prod.mk.inj h₂⟩
    simp only [expandStruct2Blob, hpexpand, htype, hsubtype, hvalue, htemplate, hencode,
      Outcome.done_bind]
    rw [e.length_toBytes]
    by_cases hfit : MsgExpandHead.sizeof + e.bytes.length > bufsize
    · rw [if_pos hfit]
      exact .inr (.inr ⟨rfl, hfit⟩)
    rw [if_neg hfit]
    have hlen : ((MsgExpandHead.sizeof : Int) + e.bytes.length) = ((12 + e.bytes.length : Nat) : Int) :=
      rfl
    rw [hlen]
    cases hok : heap.ok ((12 + e.bytes.length : Nat) + 12) with
    | false =>
      rw [dalloc0_none hok]
      exact .inr (.inl ⟨_, rfl, rfl⟩)
    | true =>
      rw [dalloc0_done hok (Int.natCast_nonneg _)]
      have hsize : (Int32.ofNat (12 + e.bytes.length)).toInt = e.toBytes.length := by
        rw [e.length_toBytes]
        exact int32_ofNat_toInt (by rw [MsgExpandHead.sizeof] at hfit; omega)
      exact .inl ⟨_, rfl, .struct rfl hcontent htemplate hencode, rfl, hsize⟩
  | @blob template hpexpand htemplate hdecode hexpand hsize =>
    have hlen := e.length_toBytes
    have hdata : bytesInt32 e.toBytes = Int32.ofNat e.bytes.length := by
      simpa using e.bytesInt32_toBytes []
    have hlt := slot.size.toInt_lt
    have hsize' := e.size_toInt (by omega)
    simp only [expandStruct2Blob, hpexpand, hexpand, hdata]
    rw [if_neg (by omega)]
    exact .inl ⟨_, rfl, .blob rfl htemplate hdecode rfl hsize', rfl, hsize'⟩

/-- Other values in the head, and places with more of their bytes. -/
theorem Complete.congr (h : Complete ops template box rs es)
    (hhead : box'.head.tag = box.head.tag ∧ box'.head.version = box.head.version ∧
      box'.head.recordType = box.head.recordType ∧ box'.head.recordSubtype = box.head.recordSubtype ∧
      box'.head.recordNum = box.head.recordNum ∧ box'.head.expandNum = box.head.expandNum)
    (hrest : box'.recordTemplate = box.recordTemplate ∧ box'.blob = box.blob)
    (hrecords : List.Forall₂ (RecordStands ops template) box'.records rs)
    (hexpands : List.Forall₂ (ExpandStands ops) box'.expands es) :
    Complete ops template box' rs es := by
  obtain ⟨htag, hversion, htype, hsubtype, hrecordNum, hexpandNum⟩ := hhead
  exact ⟨htag.trans h.tag, hversion.trans h.version, hrest.1.trans h.recordTemplate,
    by rw [htype, hsubtype, h.getTemplate], by rw [hrecordNum, h.recordNum],
    by rw [hrecordNum]; exact h.recordSite,
    by rw [hexpandNum, h.expandNum], hrest.2.trans h.blob, hrecords, hexpands⟩

/-- The records of a message get their bytes: the message has the same ones. -/
theorem Complete.recordStruct2Blob (hbuf : bufsize < 2 ^ 31) (h : Complete ops template box rs es)
    (hcall : messageRecordStruct2Blob ops.toCodec heap bufsize box = .done box') :
    Complete ops template box' rs es := by
  rw [messageRecordStruct2Blob, h.recordTemplate, h.recordNum, Int.toNat_natCast] at hcall
  obtain ⟨⟨records, size⟩, hloop, hcall⟩ := Outcome.bind_eq_done.1 hcall
  obtain rfl := Outcome.done.inj hcall
  refine h.congr ⟨rfl, rfl, rfl, rfl, rfl, rfl⟩ ⟨h.recordTemplate.symm, rfl⟩ ?_ h.expands
  refine structs2Blob_forall₂ (fun slot r slot' hslot hstep => ?_) h.records hloop
  rcases recordStruct2Blob_cases heap hbuf hslot with
    ⟨slot₁, hdone, hfilled⟩ | ⟨e, herror, _⟩ | ⟨hfault, _⟩
  · rw [hdone] at hstep
    exact Outcome.done.inj hstep ▸ hfilled.stands
  · rw [herror] at hstep
    cases hstep
  · rw [hfault] at hstep
    cases hstep

/-- The expands of a message get their bytes: the message has the same ones. -/
theorem Complete.expandStruct2Blob (hbuf : bufsize < 2 ^ 31) (h : Complete ops template box rs es)
    (hcall : messageExpandStruct2Blob ops.toCodec heap bufsize box = .done box') :
    Complete ops template box' rs es := by
  rw [messageExpandStruct2Blob, h.expandNum, Int.toNat_natCast] at hcall
  obtain ⟨⟨expands, size⟩, hloop, hcall⟩ := Outcome.bind_eq_done.1 hcall
  obtain rfl := Outcome.done.inj hcall
  refine h.congr ⟨rfl, rfl, rfl, rfl, rfl, rfl⟩ ⟨rfl, rfl⟩ h.records ?_
  refine structs2Blob_forall₂ (fun slot e slot' hslot hstep => ?_) h.expands hloop
  rcases expandStruct2Blob_cases heap hbuf hslot with
    ⟨slot₁, hdone, hfilled⟩ | ⟨err, herror, _⟩ | ⟨hfault, _⟩
  · rw [hdone] at hstep
    exact Outcome.done.inj hstep ▸ hfilled.stands
  · rw [herror] at hstep
    cases hstep
  · rw [hfault] at hstep
    cases hstep

/-- A structure added as an expand is the last one. -/
theorem Complete.messageAddExpand (h : Complete ops template box rs es)
    {template' : T} {dataSize : Int32} {value : V}
    (htemplate : ops.getTemplate e.type e.subtype = some template')
    (hclone : ops.structClone template' value = .done e.value)
    (hencode : ops.struct2Blob template' e.value = .done e.bytes)
    (hcall : messageAddExpand ops heap ⟨dataSize, e.type, e.subtype, value⟩ box = .done box') :
    Complete ops template box' rs (es ++ [e]) := by
  obtain ⟨box₁, hsite, hcall⟩ := Outcome.bind_eq_done.1 hcall
  obtain ⟨num, hnum, rfl⟩ := messageExpandSite_done h.expandNum_nonneg hsite
  obtain ⟨mem, _, hcall⟩ := Outcome.bind_eq_done.1 hcall
  split_ifs at hcall
  simp only [htemplate] at hcall
  obtain ⟨mem', _, hcall⟩ := Outcome.bind_eq_done.1 hcall
  split_ifs at hcall
  rw [hclone, Outcome.done_bind] at hcall
  obtain rfl := Outcome.done.inj hcall
  exact h.addExpand (.struct rfl rfl htemplate hencode) hnum .expand

/-- A call adds what it is given behind the rest. -/
theorem Complete.call (h : Complete ops template box rs es) {call : Call V}
    (hadds : call.Adds ops template rs' es') (hcall : messageCall ops heap box call = .done box') :
    Complete ops template box' (rs ++ rs') (es ++ es') := by
  cases hadds with
  | @record record r hclone hencode =>
    rw [List.append_nil]
    obtain ⟨box₁, hsite, hcall⟩ := Outcome.bind_eq_done.1 hcall
    obtain ⟨num, hnum, hfits, rfl⟩ := messageRecordSite_done h.recordNum_nonneg hsite
    simp only [h.recordTemplate] at hcall
    obtain ⟨mem, _, hcall⟩ := Outcome.bind_eq_done.1 hcall
    split_ifs at hcall
    rw [hclone, Outcome.done_bind] at hcall
    obtain rfl := Outcome.done.inj hcall
    have hstands : RecordStands ops template ⟨none, some r.value, 0⟩ r := .struct rfl hencode rfl
    have hcomplete := h.addRecord hstands hnum hfits box.head.recordSize
    rwa [h.recordTemplate] at hcomplete
  | @recordBlob size r hsize hdecode =>
    rw [List.append_nil]
    obtain ⟨box₁, hsite, hcall⟩ := Outcome.bind_eq_done.1 hcall
    obtain ⟨num, hnum, hfits, rfl⟩ := messageRecordSite_done h.recordNum_nonneg hsite
    split_ifs at hcall
    rw [copyBlock_whole hsize, Outcome.done_bind] at hcall
    obtain rfl := Outcome.done.inj hcall
    exact h.addRecord (.blob rfl hdecode rfl hsize) hnum hfits (box.head.recordSize + size)
  | @expand dataSize value e template' htemplate hclone hencode =>
    rw [List.append_nil]
    exact h.messageAddExpand htemplate hclone hencode hcall
  | @expandData value e template' htemplate hclone hencode =>
    rw [List.append_nil]
    obtain ⟨mem, _, hcall⟩ := Outcome.bind_eq_done.1 hcall
    split_ifs at hcall
    exact h.messageAddExpand htemplate hclone hencode hcall
  | @expandBlob size e template' hsize htemplate hdecode =>
    rw [List.append_nil]
    obtain ⟨box₁, hsite, hcall⟩ := Outcome.bind_eq_done.1 hcall
    obtain ⟨num, hnum, rfl⟩ := messageExpandSite_done h.expandNum_nonneg hsite
    obtain ⟨mem, _, hcall⟩ := Outcome.bind_eq_done.1 hcall
    split_ifs at hcall
    rw [copyBlock_whole hsize, Outcome.done_bind] at hcall
    obtain rfl := Outcome.done.inj hcall
    exact h.addExpand (.blob rfl htemplate hdecode rfl hsize) hnum box.boxState
  | none hnone =>
    rw [List.append_nil, List.append_nil]
    have hset : ∀ head : MsgHead, (head.tag = box.head.tag ∧ head.version = box.head.version ∧
        head.recordType = box.head.recordType ∧ head.recordSubtype = box.head.recordSubtype ∧
        head.recordNum = box.head.recordNum ∧ head.expandNum = box.head.expandNum) →
        Complete ops template { box with head := head } rs es := fun head hhead =>
      h.congr hhead ⟨rfl, rfl⟩ h.records h.expands
    cases call with
    | recordStruct2Blob => exact h.recordStruct2Blob (by decide) hcall
    | expandStruct2Blob => exact h.expandStruct2Blob (by decide) hcall
    | addRecord | addRecordBlob | addExpand | addExpandData | addExpandBlob => cases hnone
    | setFlag | setState | setFlow | setSenderUuid | setReceiverUuid | setRoute =>
      obtain rfl := Outcome.done.inj hcall
      exact hset _ ⟨rfl, rfl, rfl, rfl, rfl, rfl⟩

/-- A message that is created has neither records nor expands. -/
theorem messageCreate_complete {type subtype : Int32} {nonce : Vector UInt8 DIGEST_SIZE}
    (htemplate : ops.getTemplate type subtype = some template)
    (h : messageCreate ops type subtype nonce = .done box) : Complete ops template box [] [] := by
  simp only [messageCreate, htemplate] at h
  obtain rfl := Outcome.done.inj h
  exact ⟨rfl, rfl, rfl, htemplate, rfl, rfl, rfl, rfl, .nil, .nil⟩

/-- A message has, behind what it had, the records and expands that were added. -/
theorem Complete.calls (h : Complete ops template box rs es) {calls : List (Call V)}
    (hadds : AddsAll ops template calls rs' es')
    (hcalls : messageCalls ops heap box calls = .done box') :
    Complete ops template box' (rs ++ rs') (es ++ es') := by
  induction hadds generalizing box rs es with
  | nil =>
    obtain rfl := Outcome.done.inj hcalls
    rw [List.append_nil, List.append_nil]
    exact h
  | cons hcall _ ih =>
    obtain ⟨box₁, hbox, hcalls⟩ := Outcome.bind_eq_done.1 hcalls
    rw [← List.append_assoc, ← List.append_assoc]
    exact ih (h.call hcall hbox) hcalls

/-- A message that was built has the records and expands that were added, in order. -/
theorem build_complete {type subtype : Int32} {nonce : Vector UInt8 DIGEST_SIZE}
    {calls : List (Call V)} (htemplate : ops.getTemplate type subtype = some template)
    (hcreate : messageCreate ops type subtype nonce = .done box)
    (hadds : AddsAll ops template calls rs es)
    (hcalls : messageCalls ops heap box calls = .done box') : Complete ops template box' rs es :=
  (messageCreate_complete htemplate hcreate).calls hadds hcalls

end Cube.Message
