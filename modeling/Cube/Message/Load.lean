import Cube.Message.Read
import Cube.Message.Build

/-!
# Loading the records and expands of a message

The records and expands of a message that was read are bytes. `message_load_record` and
`message_load_expand` decode them into structures.

* `loadRecords_iff`, `loadExpands_iff`: the loops over the records and expands find the
  structures exactly if each is decoded from where it starts.
-/

namespace Cube.Message

open Lib

variable {T V : Type}

/-- What comes out of reads of a value that is not there: of a variable that was never
    set, and of an element behind the end of an array. -/
structure Stray where
  ret : Int
  size : Int32

/-- The bytes from an offset of a block on. -/
def Block.bytesFrom (block : Block) (offset : Int) : Option (List UInt8) :=
  match block with
  | .bytes data =>
    if 0 ≤ offset ∧ offset ≤ data.length then some (data.drop offset.toNat) else none
  | _ => none

section Load

variable (ops : StructOps T V) (heap : Heap)

/-- The loop of `message_load_record` over `n` records from the given one on: each
    starts where the one before it was found to end. -/
def loadRecords : Nat → Nat → MessageBox T V → Outcome (MessageBox T V)
  | 0, _, box => .done box
  | n + 1, no, box =>
    match box.blob.bytesFrom box.currentOffset, box.records[no]? with
    | some data, some slot => do
      let slot := { slot with record := some data }
      let (record, box) ← messageGetRecord ops heap { box with records := box.records.set no slot } no
      match record, box.records[no]? with
      | none, _ => .error (-EINVAL)
      | _, none => .fault
      | some _, some slot =>
        loadRecords n (no + 1) { box with currentOffset := box.currentOffset + slot.size.toInt }
    | _, _ => .fault

/-- The end of `message_load_record`, behind the last record. -/
def loadRecordEnd (stray : Stray) (box : MessageBox T V) : Int × MessageBox T V :=
  if box.head.recordNum.toInt > 0 then
    (1, { box with currentOffset := box.currentOffset + stray.size.toInt })
  else (1, box)

/-- `message_load_record`: the value returned and the message after the call. It goes on
    from the first record without bytes; where there is none to load, the value it tests
    was never set. Behind the last record it adds the size of one more. -/
def messageLoadRecord (stray : Stray) (box : MessageBox T V) : Outcome (Int × MessageBox T V) :=
  match templateOf ops box with
  | none => .done (-EINVAL, box)
  | some template => do
    let records ← if box.records.isEmpty then messageAllocRecordSite heap box else .done box.records
    let box := { box with recordTemplate := some template, records := records }
    let num := box.head.recordNum.toInt.toNat
    if records.length < num then .fault
    else match (records.take num).findIdx? (·.record.isNone) with
    | some no => do
      let box ← loadRecords ops heap (num - no) no box
      .done (loadRecordEnd stray box)
    | none =>
      -- Behind the last pointer to bytes is the first one to a structure.
      if num ≠ 0 ∧ (records.head?.bind (·.precord)).isSome then .done (0, box)
      else if stray.ret < 0 then .done (stray.ret, box)
      else .done (loadRecordEnd stray box)

/-- The structure decoded from the bytes of an expand behind its head; none if its type is
    not registered. -/
def loadExpand (expand : List UInt8) : Outcome (Option (MsgExpand V)) :=
  if expand.length < MsgExpandHead.sizeof then .fault
  else
    let head := MsgExpandHead.ofBytes expand
    if head.dataSize.toInt < 0 then .error (-EINVAL)
    else match ops.getTemplate head.type head.subtype with
    | none => .done none
    | some template => do
      let mem ← dalloc0 heap (ops.structSize template)
      if !mem then .error (-ENOMEM)
      else match ops.blob2Struct template (expand.drop MsgExpandHead.sizeof) with
      | .fault => .fault
      | .error _ => .error (-EINVAL)
      | .done (size, value) =>
        if size ≠ head.dataSize.toInt then .error (-EINVAL)
        else do
          let mem ← dalloc0 heap 20
          if !mem then .error (-EINVAL)
          else .done (some ⟨0, head.type, head.subtype, value⟩)

/-- The loop of `message_load_expand` over `n` expands, within so many bytes: the offset
    behind those that were decoded, and the places. -/
def loadExpands (expandSize : Int) :
    Nat → Int → List (ExpandSlot V) → Outcome (Int × List (ExpandSlot V))
  | 0, offset, slots => .done (offset, slots)
  | n + 1, offset, slots =>
    if offset ≥ expandSize then .error (-EINVAL)
    else match slots with
    | [] => .fault
    | slot :: slots => match slot.expand with
      | none => .error (-EINVAL)
      | some expand => do
        match ← loadExpand ops heap expand with
        | none => do
          let (offset, slots) ← loadExpands expandSize n offset slots
          .done (offset, slot :: slots)
        | some pexpand => do
          let size := (MsgExpandHead.ofBytes expand).dataSize.toInt + MsgExpandHead.sizeof
          let (offset, slots) ← loadExpands expandSize n (offset + size) slots
          .done (offset, { slot with pexpand := some pexpand } :: slots)

/-- `message_load_expand`: the value returned and the message after the call. -/
def messageLoadExpand (box : MessageBox T V) : Outcome (Int × MessageBox T V) := do
  let (offset, expands) ← loadExpands ops heap box.head.expandSize.toInt
    box.head.expandNum.toInt.toNat 0 box.expands
  .done (offset, { box with expands := expands })

end Load

/-! ## The bytes of the pieces -/

/-- The bytes of records, one behind the other. -/
def recordBytes (rs : List (RecordPiece V)) : List UInt8 := (rs.map (·.bytes)).flatten

/-- The bytes of expands with their heads, one behind the other. -/
def expandBytes (es : List (ExpandPiece V)) : List UInt8 := (es.map (·.toBytes)).flatten

@[simp] theorem recordBytes_nil : recordBytes ([] : List (RecordPiece V)) = [] := rfl

@[simp] theorem recordBytes_cons (r : RecordPiece V) (rs : List (RecordPiece V)) :
    recordBytes (r :: rs) = r.bytes ++ recordBytes rs := rfl

@[simp] theorem expandBytes_nil : expandBytes ([] : List (ExpandPiece V)) = [] := rfl

@[simp] theorem expandBytes_cons (e : ExpandPiece V) (es : List (ExpandPiece V)) :
    expandBytes (e :: es) = e.toBytes ++ expandBytes es := rfl

/-! ## Loading records -/

section LoadRecords

variable (ops : StructOps T V) (template : T)

/-- The structure of a record is decoded from the bytes that start with its own, in as many
    bytes, and can be copied. -/
structure RecordDecodes (data : List UInt8) (r : RecordPiece V) : Prop where
  structSize : 0 ≤ ops.structSize template
  decode : ∃ n, ops.blob2Struct template data = .done (n, r.value) ∧
    (Int32.ofNat n).toInt = r.bytes.length
  clone : (ops.cloneStruct r.value template).isSome = true

/-- Each record is decoded from where it starts, with the other ones and the rest of the
    bytes behind it. -/
def RecordsDecode : List (RecordPiece V) → List UInt8 → Prop
  | [], _ => True
  | r :: rs, rest => RecordDecodes ops template (r.bytes ++ (recordBytes rs ++ rest)) r ∧
      RecordsDecode rs rest

/-- The place has the record as a structure, and its size. -/
structure RecordLoaded (slot : RecordSlot V) (r : RecordPiece V) : Prop where
  precord : slot.precord = some r.value
  size : slot.size.toInt = r.bytes.length

variable {ops template} {box box' : MessageBox T V} {data : List UInt8} {no : Nat}

/-- A block for a structure is there, in a heap that is never exhausted, unless its size is
    negative. -/
theorem dalloc0_ample {size : Int} : dalloc0 Heap.ample size = .done true ↔ 0 ≤ size := by
  constructor
  · intro h
    rw [dalloc0] at h
    split_ifs at h with _ hneg
    · exact Int.not_lt.1 hneg
    · cases h
  · intro h
    exact dalloc0_done (by simp [Heap.ample]; omega) h

variable (template) in
/-- A record that is only bytes is decoded, and the structure stays in the message. -/
theorem getRecord_blob {record : Option V} (hno : (no : Int) < box.head.recordNum.toInt)
    (htemplate : box.recordTemplate = some template) {size : Int32}
    (hslot : box.records[no]? = some ⟨some data, none, size⟩) :
    messageGetRecord ops Heap.ample box no = .done (record, box') ↔
      0 ≤ ops.structSize template ∧ ∃ n precord value,
        ops.blob2Struct template data = .done (n, precord) ∧
        ops.cloneStruct precord template = some value ∧ record = some value ∧
        box' = { box with
          records := box.records.set no ⟨some data, some precord, Int32.ofNat n⟩ } := by
  have htemplateOf : templateOf ops box = some template := by rw [templateOf, htemplate]
  rw [messageGetRecord, if_neg (by omega), if_neg (by omega)]
  simp only [Int.toNat_natCast, hslot, htemplateOf]
  constructor
  · intro h
    obtain ⟨mem, hmem, h⟩ := Outcome.bind_eq_done.1 h
    cases mem with
    | false => cases h
    | true =>
      obtain ⟨⟨n, precord⟩, hdecode, h⟩ := Outcome.bind_eq_done.1 h
      obtain ⟨value, hvalue, h⟩ := Outcome.bind_eq_done.1 h
      obtain ⟨rfl, rfl⟩ := Outcome.pair_inj h
      refine ⟨dalloc0_ample.1 hmem, n, precord, value, hdecode, ?_, rfl, ?_⟩
      · rw [cloneRecord] at hvalue
        cases hclone : ops.cloneStruct precord template with
        | none => simp only [hclone, reduceCtorEq] at hvalue
        | some value' =>
          simp only [hclone] at hvalue
          rw [Outcome.done.inj hvalue]
      · rw [htemplate]
  · rintro ⟨hsize, n, precord, value, hdecode, hclone, rfl, rfl⟩
    rw [dalloc0_ample.2 hsize]
    simp only [Outcome.done_bind, Bool.not_true, Bool.false_eq_true, if_false, hdecode, cloneRecord,
      hclone, htemplate]

/-- Getting a record changes no other one, nor the head and the expands. -/
theorem getRecord_frame {heap : Heap} {recordNo : Int} {record : Option V}
    (h : messageGetRecord ops heap box recordNo = .done (record, box')) :
    box'.head = box.head ∧ box'.expands = box.expands ∧
      box'.records.length = box.records.length ∧
      ∀ i, i ≠ recordNo.toNat → box'.records[i]? = box.records[i]? := by
  rw [messageGetRecord] at h
  split_ifs at h
  · obtain ⟨_, rfl⟩ := Outcome.pair_inj h
    exact ⟨rfl, rfl, rfl, fun _ _ => rfl⟩
  split at h
  · cases h
  split at h
  · obtain ⟨value, _, h⟩ := Outcome.bind_eq_done.1 h
    obtain ⟨_, rfl⟩ := Outcome.pair_inj h
    exact ⟨rfl, rfl, rfl, fun _ _ => rfl⟩
  split at h
  · cases h
  obtain ⟨mem, _, h⟩ := Outcome.bind_eq_done.1 h
  split_ifs at h
  split at h
  · cases h
  obtain ⟨⟨n, precord⟩, _, h⟩ := Outcome.bind_eq_done.1 h
  obtain ⟨value, _, h⟩ := Outcome.bind_eq_done.1 h
  obtain ⟨_, rfl⟩ := Outcome.pair_inj h
  exact ⟨rfl, rfl, List.length_set, fun i hi => List.getElem?_set_ne (Ne.symm hi)⟩

/-- The loop changes no record before the first one it loads, nor the head and the
    expands. -/
theorem loadRecords_frame {heap : Heap} {n : Nat} (h : loadRecords ops heap n no box = .done box') :
    box'.head = box.head ∧ box'.expands = box.expands ∧
      box'.records.length = box.records.length ∧ ∀ i < no, box'.records[i]? = box.records[i]? := by
  induction n generalizing no box with
  | zero =>
    obtain rfl := Outcome.done.inj h
    exact ⟨rfl, rfl, rfl, fun _ _ => rfl⟩
  | succ n ih =>
    rw [loadRecords] at h
    split at h
    · obtain ⟨⟨record, box₁⟩, hget, h⟩ := Outcome.bind_eq_done.1 h
      obtain ⟨hhead, hexpands, hlen, hrecords⟩ := getRecord_frame hget
      simp only at h
      split at h
      · cases h
      · cases h
      · obtain ⟨hhead', hexpands', hlen', hrecords'⟩ := ih h
        refine ⟨hhead'.trans hhead, hexpands'.trans hexpands, ?_, fun i hi => ?_⟩
        · exact (hlen'.trans hlen).trans List.length_set
        · have hne : i ≠ no := by omega
          refine ((hrecords' i (by omega)).trans (hrecords i (by simpa using hne))).trans ?_
          exact List.getElem?_set_ne (Ne.symm hne)
    · cases h

/-- Where the loop stands before the record: the bytes behind it are where the offset is,
    and the places from it on are empty. -/
structure LoadsFrom (template : T) (box : MessageBox T V) (no n : Nat) (data : List UInt8) : Prop where
  recordTemplate : box.recordTemplate = some template
  recordNum : box.head.recordNum.toInt = (no + n : Nat)
  blob : box.blob.bytesFrom box.currentOffset = some data
  length : box.records.length = no + n
  empty : ∀ i, no ≤ i → i < no + n → box.records[i]? = some .empty

/-- Behind the bytes from an offset on that are skipped, there are the others. -/
theorem Block.bytesFrom_add {block : Block} {offset : Int} {bytes rest : List UInt8}
    (h : block.bytesFrom offset = some (bytes ++ rest)) :
    block.bytesFrom (offset + bytes.length) = some rest := by
  cases block with
  | null => cases h
  | freed => cases h
  | bytes data =>
    simp only [Block.bytesFrom] at h ⊢
    split_ifs at h with hin
    have hdrop := Option.some.inj h
    have hlen := congrArg List.length hdrop
    rw [List.length_drop, List.length_append] at hlen
    rw [if_pos (by omega)]
    have hoffset : (offset + bytes.length).toNat = offset.toNat + bytes.length := by omega
    rw [hoffset, ← List.drop_drop, hdrop, List.drop_left]

/-- The record the loop stands before is decoded: it stands before the next one. -/
theorem LoadsFrom.next {n : Nat} {bytes rest : List UInt8}
    (h : LoadsFrom template box no (n + 1) (bytes ++ rest)) (slot : RecordSlot V) {size : Int}
    (hsize : size = bytes.length) : LoadsFrom template { box with
      records := box.records.set no slot
      currentOffset := box.currentOffset + size } (no + 1) n rest where
  recordTemplate := h.recordTemplate
  recordNum := by
    rw [h.recordNum]
    omega
  blob := by
    rw [hsize]
    exact Block.bytesFrom_add h.blob
  length := by
    rw [List.length_set, h.length]
    omega
  empty i hle hlt := by
    rw [List.getElem?_set_ne (by omega)]
    exact h.empty i (by omega) (by omega)

/-- A round of the loop decodes a record. -/
theorem loadRecords_succ {n : Nat} (h : LoadsFrom template box no (n + 1) data) :
    loadRecords ops Heap.ample (n + 1) no box = .done box' ↔
      0 ≤ ops.structSize template ∧ ∃ k precord,
        ops.blob2Struct template data = .done (k, precord) ∧
        (ops.cloneStruct precord template).isSome = true ∧
        loadRecords ops Heap.ample n (no + 1) { box with
          records := box.records.set no ⟨some data, some precord, Int32.ofNat k⟩
          currentOffset := box.currentOffset + (Int32.ofNat k).toInt } = .done box' := by
  have hslot := h.empty no (Nat.le_refl no) (by omega)
  have hlt : no < box.records.length := by rw [h.length]; omega
  have hno : (no : Int) < box.head.recordNum.toInt := by rw [h.recordNum]; omega
  have hread : ∀ (record : Option V) (box₁ : MessageBox T V), messageGetRecord ops Heap.ample
      { box with records := box.records.set no { RecordSlot.empty with record := some data } } no =
        .done (record, box₁) ↔
      0 ≤ ops.structSize template ∧ ∃ k precord value,
        ops.blob2Struct template data = .done (k, precord) ∧
        ops.cloneStruct precord template = some value ∧ record = some value ∧
        box₁ = { box with
          records := box.records.set no ⟨some data, some precord, Int32.ofNat k⟩ } := by
    intro record box₁
    refine (getRecord_blob template ?_ ?_ (List.getElem?_set_self hlt)).trans ?_
    · exact hno
    · exact h.recordTemplate
    · simp only [List.set_set]
  rw [loadRecords, h.blob, hslot]
  simp only [Outcome.bind_eq_done]
  constructor
  · rintro ⟨⟨record, box₁⟩, hget, hrest⟩
    obtain ⟨hsize, k, precord, value, hdecode, hclone, rfl, rfl⟩ := (hread _ _).1 hget
    rw [List.getElem?_set_self hlt] at hrest
    exact ⟨hsize, k, precord, hdecode, by rw [hclone]; rfl, hrest⟩
  · rintro ⟨hsize, k, precord, hdecode, hclone, hrest⟩
    obtain ⟨value, hvalue⟩ := Option.isSome_iff_exists.1 hclone
    refine ⟨_, (hread _ _).2 ⟨hsize, k, precord, value, hdecode, hvalue, rfl, rfl⟩, ?_⟩
    rw [List.getElem?_set_self hlt]
    exact hrest

/-- The loop finds the structures of the records exactly if each is decoded from where it
    starts. -/
theorem loadRecords_iff {rs : List (RecordPiece V)} {rest : List UInt8}
    (h : LoadsFrom template box no rs.length (recordBytes rs ++ rest)) :
    (∃ box', loadRecords ops Heap.ample rs.length no box = .done box' ∧
        List.Forall₂ RecordLoaded (box'.records.drop no) rs) ↔
      RecordsDecode ops template rs rest := by
  induction rs generalizing box no with
  | nil =>
    refine iff_of_true ⟨box, rfl, ?_⟩ trivial
    have hnil : box.records.drop no = [] := List.drop_eq_nil_of_le (Nat.le_of_eq h.length)
    rw [hnil]
    exact .nil
  | cons r rs ih =>
    rw [recordBytes_cons, List.append_assoc] at h
    rw [List.length_cons, RecordsDecode]
    have hlt : no < box.records.length := by rw [h.length, List.length_cons]; omega
    constructor
    · rintro ⟨box', hloop, hloaded⟩
      obtain ⟨hsize, k, precord, hdecode, hclone, hrest⟩ := (loadRecords_succ h).1 hloop
      -- The rest of the loop leaves the record as it is.
      obtain ⟨_, _, hlen, hframe⟩ := loadRecords_frame hrest
      have hslot := (hframe no (Nat.lt_succ_self no)).trans (List.getElem?_set_self hlt)
      rw [List.length_set] at hlen
      rw [List.drop_eq_getElem_cons (hlen ▸ hlt), List.forall₂_cons] at hloaded
      obtain ⟨hat, hnext⟩ := hloaded
      rw [(List.getElem_eq_iff _).2 hslot] at hat
      obtain ⟨hprecord, hk⟩ := hat
      obtain rfl := Option.some.inj hprecord
      exact ⟨⟨hsize, ⟨k, hdecode, hk⟩, hclone⟩, (ih (h.next _ hk)).1 ⟨box', hrest, hnext⟩⟩
    · rintro ⟨⟨hsize, ⟨k, hdecode, hk⟩, hclone⟩, hdecodes⟩
      obtain ⟨box', hrest, hnext⟩ :=
        (ih (h.next ⟨some _, some r.value, Int32.ofNat k⟩ hk)).2 hdecodes
      refine ⟨box', (loadRecords_succ h).2 ⟨hsize, k, r.value, hdecode, hclone, hrest⟩, ?_⟩
      obtain ⟨_, _, hlen, hframe⟩ := loadRecords_frame hrest
      have hslot := (hframe no (Nat.lt_succ_self no)).trans (List.getElem?_set_self hlt)
      rw [List.length_set] at hlen
      rw [List.drop_eq_getElem_cons (hlen ▸ hlt), List.forall₂_cons]
      refine ⟨?_, hnext⟩
      rw [(List.getElem_eq_iff _).2 hslot]
      exact ⟨rfl, hk⟩

end LoadRecords

/-! ## Loading expands -/

section LoadExpands

variable (ops : StructOps T V)

/-- The structure of an expand is decoded from its bytes. -/
def ExpandDecodes (e : ExpandPiece V) : Prop :=
  ∃ template, ops.getTemplate e.type e.subtype = some template ∧ 0 ≤ ops.structSize template ∧
    ops.blob2Struct template e.bytes = .done (e.bytes.length, e.value)

/-- What an expand is as a structure: its type, its subtype and the structure. -/
def MsgExpand.content (expand : MsgExpand V) : Int32 × Int32 × V :=
  (expand.type, expand.subtype, expand.expand)

/-- The place has the expand as a structure. -/
def ExpandLoaded (slot : ExpandSlot V) (e : ExpandPiece V) : Prop :=
  slot.pexpand.map MsgExpand.content = some (e.type, e.subtype, e.value)

variable {ops} {template : T} {e : ExpandPiece V} {loaded : Option (MsgExpand V)}

theorem ExpandPiece.ofBytes_toBytes (e : ExpandPiece V) : MsgExpandHead.ofBytes e.toBytes = e.head :=
  MsgExpandHead.ofBytes_toBytes e.head e.bytes

theorem ExpandPiece.dataSize_toInt (hlen : e.toBytes.length < 2 ^ 31) :
    e.head.dataSize.toInt = e.bytes.length := by
  rw [e.length_toBytes] at hlen
  exact int32_ofNat_toInt (by omega)

/-- An expand of a registered type is decoded from its bytes, all of them. -/
theorem loadExpand_done (hlen : e.toBytes.length < 2 ^ 31)
    (htemplate : ops.getTemplate e.type e.subtype = some template) :
    loadExpand ops Heap.ample e.toBytes = .done loaded ↔
      0 ≤ ops.structSize template ∧ ∃ value,
        ops.blob2Struct template e.bytes = .done (e.bytes.length, value) ∧
        loaded = some ⟨0, e.type, e.subtype, value⟩ := by
  have hdata := e.dataSize_toInt hlen
  have hdrop : e.toBytes.drop MsgExpandHead.sizeof = e.bytes :=
    List.drop_left' (MsgExpandHead.length_toBytes _)
  have hsizeof : ¬ e.toBytes.length < MsgExpandHead.sizeof := by
    rw [e.length_toBytes, MsgExpandHead.sizeof]
    omega
  have htemplate' : ops.getTemplate e.head.type e.head.subtype = some template := htemplate
  simp only [loadExpand, e.ofBytes_toBytes, htemplate', hdrop, hdata]
  rw [if_neg hsizeof, if_neg (Int.not_lt.2 (Int.natCast_nonneg _))]
  constructor
  · intro h
    obtain ⟨mem, hmem, h⟩ := Outcome.bind_eq_done.1 h
    cases mem with
    | false => cases h
    | true =>
      simp only [Bool.not_true, Bool.false_eq_true, if_false] at h
      split at h
      · cases h
      · cases h
      · rename_i n value hdecode
        split_ifs at h with hn
        obtain rfl : n = e.bytes.length := by
          rw [not_not] at hn
          exact Int.ofNat_inj.1 hn
        rw [dalloc0_ample.2 (by decide)] at h
        exact ⟨dalloc0_ample.1 hmem, value, hdecode, (Outcome.done.inj h).symm⟩
  · rintro ⟨hsize, value, hdecode, rfl⟩
    rw [dalloc0_ample.2 hsize]
    simp only [Outcome.done_bind, Bool.not_true, Bool.false_eq_true, if_false, hdecode, ne_eq,
      not_true_eq_false, dalloc0_ample.2 (show (0 : Int) ≤ 20 by decide)]
    rfl

/-- The loop finds the structures of the expands, and comes to the end of their bytes,
    exactly if each is decoded. -/
theorem loadExpands_iff {es : List (ExpandPiece V)} {slots : List (ExpandSlot V)}
    {expandSize offset : Int}
    (hregistered : ∀ e ∈ es, ∃ template, ops.getTemplate e.type e.subtype = some template)
    (hlen : (expandBytes es).length < 2 ^ 31)
    (hslots : List.Forall₂ (fun slot e => slot.expand = some e.toBytes) slots es)
    (hsize : expandSize = offset + (expandBytes es).length) :
    (∃ slots', loadExpands ops Heap.ample expandSize es.length offset slots =
        .done (expandSize, slots') ∧ List.Forall₂ ExpandLoaded slots' es) ↔
      ∀ e ∈ es, ExpandDecodes ops e := by
  induction hslots generalizing offset with
  | nil =>
    obtain rfl : expandSize = offset := by simpa using hsize
    exact iff_of_true ⟨[], rfl, .nil⟩ (by simp)
  | @cons slot e slots es hslot _ ih =>
    rw [expandBytes_cons, List.length_append] at hlen hsize
    obtain ⟨template, htemplate⟩ := hregistered e List.mem_cons_self
    have helen := e.length_toBytes
    have hdata := e.dataSize_toInt (by omega)
    have hsize' : expandSize = offset + (e.head.dataSize.toInt + MsgExpandHead.sizeof) +
        (expandBytes es).length := by
      rw [MsgExpandHead.sizeof]
      omega
    have ih := ih (fun e he => hregistered e (List.mem_cons_of_mem _ he)) (by omega) hsize'
    rw [List.length_cons, loadExpands, if_neg (by omega)]
    simp only [hslot, e.ofBytes_toBytes]
    rw [List.forall_mem_cons, ← ih]
    constructor
    · rintro ⟨slots', h, hloaded⟩
      obtain ⟨loaded, hload, h⟩ := Outcome.bind_eq_done.1 h
      obtain ⟨hstruct, value, hdecode, rfl⟩ := (loadExpand_done (by omega) htemplate).1 hload
      obtain ⟨⟨offset', rest⟩, hrest, h⟩ := Outcome.bind_eq_done.1 h
      obtain ⟨rfl, rfl⟩ := Outcome.pair_inj h
      rw [List.forall₂_cons] at hloaded
      obtain ⟨hat, hnext⟩ := hloaded
      obtain ⟨_, hat⟩ := Prod.mk.inj (Option.some.inj hat)
      obtain ⟨_, rfl⟩ := Prod.mk.inj hat
      exact ⟨⟨template, htemplate, hstruct, hdecode⟩, rest, hrest, hnext⟩
    · rintro ⟨⟨template', htemplate', hstruct, hdecode⟩, rest, hrest, hnext⟩
      refine ⟨_, Outcome.bind_eq_done.2 ⟨_, (loadExpand_done (by omega) htemplate').2
        ⟨hstruct, _, hdecode, rfl⟩, Outcome.bind_eq_done.2 ⟨_, hrest, rfl⟩⟩, .cons rfl hnext⟩

end LoadExpands

/-! ## All records -/

section LoadAll

variable (ops : StructOps T V) (heap : Heap)

/-- `message_load_record` returns 1, with every record as a structure and the offset behind the
    last one, whatever is read where nothing was written; a second call changes nothing. -/
def LoadsAll (box : MessageBox T V) (rs : List (RecordPiece V)) : Prop :=
  ∀ stray, ∃ box', messageLoadRecord ops heap stray box = .done (1, box') ∧
    List.Forall₂ (fun slot (r : RecordPiece V) => slot.precord = some r.value)
      (box'.records.take box.head.recordNum.toInt.toNat) rs ∧
    box'.currentOffset = (recordBytes rs).length ∧
    ∀ stray', ∃ ret, messageLoadRecord ops heap stray' box' = .done (ret, box')

/-- `message_load_record` with the array of records in the message. -/
def loadRecordFrom (stray : Stray) (box : MessageBox T V) : Outcome (Int × MessageBox T V) :=
  let num := box.head.recordNum.toInt.toNat
  if box.records.length < num then .fault
  else match (box.records.take num).findIdx? (·.record.isNone) with
  | some no => do
    let box ← loadRecords ops heap (num - no) no box
    .done (loadRecordEnd stray box)
  | none =>
    if num ≠ 0 ∧ (box.records.head?.bind (·.precord)).isSome then .done (0, box)
    else if stray.ret < 0 then .done (stray.ret, box)
    else .done (loadRecordEnd stray box)

variable {ops heap} {box : MessageBox T V}

/-- The part of the function before the array is there does not depend on values never set. -/
theorem messageLoadRecord_from : (∃ ret, ret ≠ 1 ∧ ∃ box', ∀ stray,
      messageLoadRecord ops heap stray box = .done (ret, box')) ∨
    (∃ box', ∀ stray, messageLoadRecord ops heap stray box = loadRecordFrom ops heap stray box') ∨
    ∀ stray ret box', messageLoadRecord ops heap stray box ≠ .done (ret, box') := by
  rcases htemplate : templateOf ops box with _ | template
  · refine .inl ⟨-EINVAL, by decide, box, fun stray => ?_⟩
    rw [messageLoadRecord, htemplate]
  by_cases hempty : box.records.isEmpty
  · rcases halloc : messageAllocRecordSite heap box with records | _ | _
    · refine .inr (.inl ⟨{ box with recordTemplate := some template, records := records }, ?_⟩)
      intro stray
      simp only [messageLoadRecord, htemplate, hempty, if_true, halloc, Outcome.done_bind]
      rfl
    all_goals
      refine .inr (.inr fun stray ret box' h => ?_)
      simp only [messageLoadRecord, htemplate, hempty, if_true, halloc] at h
      cases h
  · refine .inr (.inl ⟨{ box with recordTemplate := some template }, fun stray => ?_⟩)
    simp only [messageLoadRecord, htemplate, hempty]
    rfl

/-- What `message_load_record` returns: it has run its loop, or returns 0, or what it tests was
    never set. -/
theorem messageLoadRecord_cases {stray : Stray} {box' : MessageBox T V}
    (h : messageLoadRecord ops heap stray box = .done (1, box')) :
    (∃ loaded, 0 < loaded.head.recordNum.toInt ∧ ∀ stray',
        messageLoadRecord ops heap stray' box = .done (loadRecordEnd stray' loaded)) ∨
      ∀ stray' : Stray, stray'.ret < 0 → ∃ box'',
        messageLoadRecord ops heap stray' box = .done (stray'.ret, box'') := by
  rcases messageLoadRecord_from with ⟨ret, hret, box'', hsame⟩ | ⟨box, hfrom⟩ | hnone
  · exact absurd (Outcome.pair_inj ((hsame stray).symm.trans h)).1 hret
  · rw [hfrom] at h
    simp only [hfrom, loadRecordFrom] at h ⊢
    by_cases hshort : box.records.length < box.head.recordNum.toInt.toNat
    · rw [if_pos hshort] at h
      cases h
    simp only [if_neg hshort] at h ⊢
    rcases hidx : (box.records.take box.head.recordNum.toInt.toNat).findIdx?
      (·.record.isNone) with _ | no
    · -- Every record has bytes, so that the loop has nothing to do.
      simp only [hidx] at h ⊢
      by_cases hstruct : box.head.recordNum.toInt.toNat ≠ 0 ∧
          (box.records.head?.bind (·.precord)).isSome
      · rw [if_pos hstruct] at h
        exact absurd (Outcome.pair_inj h).1 (by decide)
      · exact .inr fun stray' hneg => ⟨box, by rw [if_neg hstruct, if_pos hneg]⟩
    · simp only [hidx] at h ⊢
      obtain ⟨loaded, hloop, -⟩ := Outcome.bind_eq_done.1 h
      refine .inl ⟨loaded, ?_, fun stray' => by rw [hloop, Outcome.done_bind]⟩
      obtain ⟨hlt, -⟩ := List.findIdx?_eq_some_iff_getElem.1 hidx
      rw [(loadRecords_frame hloop).1]
      rw [List.length_take] at hlt
      omega
  · exact absurd h (hnone stray 1 box')

/-- The records of no message are loaded as they should be: where there are some, the size of one
    behind the last is added to the offset, and where there is none, the value that is tested was
    never set. -/
theorem not_loadsAll (rs : List (RecordPiece V)) : ¬ LoadsAll ops heap box rs := by
  intro hloads
  obtain ⟨box₀, hdone₀, -, hoffset₀, -⟩ := hloads ⟨-1, 0⟩
  obtain ⟨box₁, hdone₁, -, hoffset₁, -⟩ := hloads ⟨-1, 1⟩
  rcases messageLoadRecord_cases hdone₀ with ⟨loaded, hpos, hend⟩ | hstray
  · -- The offset depends on what is read behind the sizes.
    rw [hend, loadRecordEnd, if_pos hpos] at hdone₀ hdone₁
    rw [← (Outcome.pair_inj hdone₀).2] at hoffset₀
    rw [← (Outcome.pair_inj hdone₁).2] at hoffset₁
    have hsame := hoffset₀.trans hoffset₁.symm
    simp only [Int32.toInt_zero, Int32.toInt_one] at hsame
    omega
  · obtain ⟨box₂, hdone₂⟩ := hstray ⟨-1, 0⟩ (by decide)
    rw [hdone₀] at hdone₂
    exact absurd (Outcome.pair_inj hdone₂).1 (by decide)

end LoadAll

/-- A message of one record without bytes: the offset behind it is whatever is read behind the
    size of the record. -/
theorem loadsAll_not : ∃ (ops : StructOps Unit Unit) (box : MessageBox Unit Unit),
    box.head.recordNum = 1 ∧ ¬ LoadsAll ops Heap.ample box [⟨[], ()⟩] := by
  refine ⟨⟨⟨fun _ _ => .done [], fun _ _ => .done (0, ()), fun _ _ => some ()⟩, fun _ => 0,
    fun _ _ => some (), fun _ _ _ _ => 0⟩, {
      head := { initHead with recordNum := 1 }, recordTemplate := some (), boxState := .recover,
      headSize := 0, records := [⟨none, none, 0⟩], blob := .bytes [], expands := [],
      currentOffset := 0 }, rfl, fun hloads => ?_⟩
  obtain ⟨box, hdone, -, hoffset, -⟩ := hloads ⟨0, 1⟩
  have hbox := congrArg MessageBox.currentOffset (Outcome.pair_inj hdone).2
  exact absurd (hbox.trans hoffset) (by decide)

end Cube.Message
