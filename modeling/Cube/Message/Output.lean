import Cube.Message.Box

/-!
# Writing messages

`message_output_blob` writes a message into one buffer: first every record and
expand that is only a structure is turned into bytes
(`message_record_struct2blob`, `message_expand_struct2blob`), then the bytes of
all are copied behind the head, which tells their sizes.

* `output_format`: what is written is the head and, behind it, as many bytes as
  it tells.
-/

namespace Cube.Message

open Lib

/-- What messages need of struct templates: encoding and decoding under one, and
    the template of a type and subtype (`memdb_get_template`). -/
structure Codec (T V : Type) where
  struct2Blob : T → V → Outcome (List UInt8)
  blob2Struct : T → List UInt8 → Outcome (Nat × V)
  getTemplate : Int32 → Int32 → Option T

/-- The size of the buffers a message is written in. -/
def outputBufsize : Nat := 4096

variable {T V : Type}

/-- The loops of `message_record_struct2blob` and `message_expand_struct2blob`
    over the first `n` places: the places with their bytes, and the sum of the
    sizes. -/
def structs2Blob {S : Type} (step : S → Outcome S) (size : S → Int32) :
    Nat → List S → Outcome (List S × Int32)
  | 0, slots => .done (slots, 0)
  | _ + 1, [] => .fault
  | n + 1, slot :: slots => do
    let slot ← step slot
    let (slots, total) ← structs2Blob step size n slots
    .done (slot :: slots, size slot + total)

section Output

variable (c : Codec T V) (heap : Heap) (bufsize : Nat)

/-- The record with its bytes, encoded if it is only a structure. -/
def recordStruct2Blob (template : Option T) (slot : RecordSlot V) : Outcome (RecordSlot V) :=
  match slot.record, slot.precord, template with
  | some _, _, _ => .done slot
  | none, none, _ => .error (-EINVAL)
  | none, some _, none => .fault
  | none, some precord, some template => do
    let blob ← c.struct2Blob template precord
    if blob.length > bufsize then .fault
    else do
      let mem ← dalloc0 heap blob.length
      if !mem then .error (-ENOMEM)
      else .done { slot with record := some blob, size := Int32.ofNat blob.length }

/-- `message_record_struct2blob`: the message after the call. -/
def messageRecordStruct2Blob (box : MessageBox T V) : Outcome (MessageBox T V) := do
  let (records, size) ← structs2Blob (recordStruct2Blob c heap bufsize box.recordTemplate)
    (·.size) box.head.recordNum.toInt.toNat box.records
  .done { box with records := records, head := { box.head with recordSize := size } }

/-- The expand with its bytes and their size. One that is a structure is encoded
    behind its head, in which the size is then written; of one that is only bytes,
    the size is the one its head tells. -/
def expandStruct2Blob (slot : ExpandSlot V) : Outcome (ExpandSlot V) :=
  match slot.pexpand with
  | none => match slot.expand with
    | none => .error (-EINVAL)
    | some expand =>
      if expand.length < 4 then .fault
      else .done { slot with size := bytesInt32 expand + 12 }
  | some pexpand => match c.getTemplate pexpand.type pexpand.subtype with
    | none => .error (-EINVAL)
    | some template => do
      let blob ← c.struct2Blob template pexpand.expand
      if MsgExpandHead.sizeof + blob.length > bufsize then .fault
      else do
        let mem ← dalloc0 heap (MsgExpandHead.sizeof + blob.length)
        if !mem then .error (-ENOMEM)
        else
          let head : MsgExpandHead := ⟨Int32.ofNat blob.length, pexpand.type, pexpand.subtype⟩
          .done { slot with
            expand := some (head.toBytes ++ blob)
            size := Int32.ofNat (MsgExpandHead.sizeof + blob.length) }

/-- `message_expand_struct2blob`: the message after the call. -/
def messageExpandStruct2Blob (box : MessageBox T V) : Outcome (MessageBox T V) := do
  let (expands, size) ← structs2Blob (expandStruct2Blob c heap bufsize) (·.size)
    box.head.expandNum.toInt.toNat box.expands
  .done { box with expands := expands, head := { box.head with expandSize := size } }

/-- The bytes copied from a block, `size` of them. -/
def copyBlock (block : Option (List UInt8)) (size : Int32) : Outcome (List UInt8) :=
  match block with
  | none => .fault
  | some bytes =>
    if size.toInt < 0 ∨ size.toInt > bytes.length then .fault
    else .done (bytes.take size.toInt.toNat)

/-- The bytes copied from the first `n` blocks, one behind the other. -/
def copyBlocks : Nat → List (Option (List UInt8) × Int32) → Outcome (List UInt8)
  | 0, _ => .done []
  | _ + 1, [] => .fault
  | n + 1, (block, size) :: blocks => do
    let bytes ← copyBlock block size
    let rest ← copyBlocks n blocks
    .done (bytes ++ rest)

/-- The bytes of the records, and the message once they are known. A message that
    has a blob takes them from there. -/
def outputRecords (box : MessageBox T V) : Outcome (List UInt8 × MessageBox T V) :=
  match box.blob with
  | .freed => .fault
  | .bytes blob => do
    let bytes ← copyBlock (some blob) box.head.recordSize
    .done (bytes, box)
  | .null => do
    let box ← messageRecordStruct2Blob c heap bufsize box
    let bytes ← copyBlocks box.head.recordNum.toInt.toNat
      (box.records.map fun slot => (slot.record, slot.size))
    .done (bytes, box)

/-- The bytes of the expands, and the message once they are known. -/
def outputExpands (box : MessageBox T V) : Outcome (List UInt8 × MessageBox T V) := do
  let box ← messageExpandStruct2Blob c heap bufsize box
  let bytes ← copyBlocks box.head.expandNum.toInt.toNat
    (box.expands.map fun slot => (slot.expand, slot.size))
  .done (bytes, box)

/-- `message_output_blob`: the bytes written, and the message after the call. It
    is left with the buffer, which is freed, as its blob. -/
def messageOutputBlob (box : MessageBox T V) : Outcome (List UInt8 × MessageBox T V) :=
  if box.head.flag &&& MSG_FLAG_CRYPT ≠ 0 ∧ box.blob = .null then .error (-EINVAL)
  else if box.recordTemplate.isNone ∧ box.blob = .null then .error (-EINVAL)
  else if box.head.recordNum.toInt < 0 then .error (-EINVAL)
  else if box.head.expandNum.toInt < 0 then .error (-EINVAL)
  else do
    let (records, box) ← outputRecords c heap bufsize box
    if MsgHead.sizeof + records.length > bufsize then .fault
    else do
      let (expands, box) ← outputExpands c heap bufsize box
      if MsgHead.sizeof + records.length + expands.length > bufsize then .fault
      else do
        let buffer := box.head.toBytes ++ records ++ expands
        let blobSize := (Int32.ofNat MsgHead.sizeof + box.head.recordSize +
          box.head.expandSize).toInt
        let mem ← dalloc0 heap blobSize
        if !mem then .error (-ENOMEM)
        else if blobSize > bufsize then .fault
        else
          let zeros : List UInt8 := List.replicate (bufsize - buffer.length) 0
          .done ((buffer ++ zeros).take blobSize.toNat, { box with blob := .freed })

end Output

/-! ## The sizes a message tells -/

variable {c : Codec T V} {heap : Heap} {bufsize : Nat} {box box' : MessageBox T V}

theorem int32_ofNat_toInt {n : Nat} (h : n < 2 ^ 31) : (Int32.ofNat n).toInt = n :=
  Int32.toInt_ofNat_of_lt h

variable {bytes : List UInt8}

theorem copyBlock_size {block : Option (List UInt8)} {size : Int32}
    (h : copyBlock block size = .done bytes) : (bytes.length : Int) = size.toInt := by
  cases block with
  | none => cases h
  | some data =>
    simp only [copyBlock] at h
    split_ifs at h with hsize
    obtain rfl := Outcome.done.inj h
    rw [List.length_take]
    omega

theorem int32_ofNat_of_copy {block : Option (List UInt8)} {size : Int32}
    (h : copyBlock block size = .done bytes) : Int32.ofNat bytes.length = size := by
  have hlen := copyBlock_size h
  have hlt := size.toInt_lt
  refine Int32.toInt_inj.1 ?_
  rw [int32_ofNat_toInt (by omega), hlen]

/-- The sum of the sizes is that of the bytes copied. -/
theorem copyBlocks_size {S : Type} {step : S → Outcome S} {size : S → Int32}
    {block : S → Option (List UInt8)} {n : Nat} {slots slots' : List S} {total : Int32}
    (hs : structs2Blob step size n slots = .done (slots', total))
    (hc : copyBlocks n (slots'.map fun slot => (block slot, size slot)) = .done bytes) :
    total = Int32.ofNat bytes.length := by
  induction n generalizing slots slots' total bytes with
  | zero =>
    rw [structs2Blob] at hs
    rw [copyBlocks] at hc
    obtain ⟨rfl, rfl⟩ := Outcome.pair_inj hs
    obtain rfl := Outcome.done.inj hc
    rfl
  | succ n ih =>
    cases slots with
    | nil => cases hs
    | cons slot slots =>
      rw [structs2Blob, Outcome.bind_eq_done] at hs
      obtain ⟨slot', _, hs⟩ := hs
      obtain ⟨⟨rest, sum⟩, hrest, hs⟩ := Outcome.bind_eq_done.1 hs
      obtain ⟨rfl, rfl⟩ := Outcome.pair_inj hs
      rw [List.map_cons, copyBlocks, Outcome.bind_eq_done] at hc
      obtain ⟨first, hfirst, hc⟩ := hc
      obtain ⟨tail, htail, hc⟩ := Outcome.bind_eq_done.1 hc
      obtain rfl := Outcome.done.inj hc
      rw [ih hrest htail, List.length_append, Int32.ofNat_add, int32_ofNat_of_copy hfirst]

/-- The bytes of the records are as many as the head then tells. -/
theorem outputRecords_size (h : outputRecords c heap bufsize box = .done (bytes, box')) :
    box'.head.recordSize = Int32.ofNat bytes.length := by
  rw [outputRecords] at h
  split at h
  · cases h
  · obtain ⟨bytes', hcopy, h⟩ := Outcome.bind_eq_done.1 h
    obtain ⟨rfl, rfl⟩ := Outcome.pair_inj h
    exact (int32_ofNat_of_copy hcopy).symm
  · obtain ⟨box₁, hbox, h⟩ := Outcome.bind_eq_done.1 h
    obtain ⟨bytes', hcopy, h⟩ := Outcome.bind_eq_done.1 h
    obtain ⟨rfl, rfl⟩ := Outcome.pair_inj h
    rw [messageRecordStruct2Blob] at hbox
    obtain ⟨⟨records, size⟩, hloop, hbox⟩ := Outcome.bind_eq_done.1 hbox
    obtain rfl := Outcome.done.inj hbox
    exact copyBlocks_size hloop hcopy

/-- The bytes of the expands are as many as the head then tells; the rest of the
    head is as it was. -/
theorem outputExpands_size (h : outputExpands c heap bufsize box = .done (bytes, box')) :
    box'.head = { box.head with expandSize := Int32.ofNat bytes.length } := by
  rw [outputExpands] at h
  obtain ⟨box₁, hbox, h⟩ := Outcome.bind_eq_done.1 h
  obtain ⟨bytes', hcopy, h⟩ := Outcome.bind_eq_done.1 h
  obtain ⟨rfl, rfl⟩ := Outcome.pair_inj h
  rw [messageExpandStruct2Blob] at hbox
  obtain ⟨⟨expands, size⟩, hloop, hbox⟩ := Outcome.bind_eq_done.1 hbox
  obtain rfl := Outcome.done.inj hbox
  rw [copyBlocks_size hloop hcopy]

/-- A message that is not refused before anything is written. -/
structure OutputReady (box : MessageBox T V) : Prop where
  crypt : ¬ (box.head.flag &&& MSG_FLAG_CRYPT ≠ 0 ∧ box.blob = .null)
  template : ¬ (box.recordTemplate.isNone = true ∧ box.blob = .null)
  recordNum : ¬ box.head.recordNum.toInt < 0
  expandNum : ¬ box.head.expandNum.toInt < 0

/-- What is written is the head, the bytes of the records and those of the expands, if there is
    room and memory for them. -/
theorem messageOutputBlob_done (hbuf : bufsize < 2 ^ 31) :
    messageOutputBlob c heap bufsize box = .done (bytes, box') ↔
      OutputReady box ∧ ∃ records expands box₁ box₂,
        outputRecords c heap bufsize box = .done (records, box₁) ∧
        outputExpands c heap bufsize box₁ = .done (expands, box₂) ∧
        MsgHead.sizeof + records.length + expands.length ≤ bufsize ∧
        dalloc0 heap (MsgHead.sizeof + records.length + expands.length : Nat) = .done true ∧
        bytes = box₂.head.toBytes ++ (records ++ expands) ∧ box' = { box₂ with blob := .freed } := by
  have hsize {records expands : List UInt8} {box₁ box₂ : MessageBox T V}
      (hrecords : outputRecords c heap bufsize box = .done (records, box₁))
      (hexpands : outputExpands c heap bufsize box₁ = .done (expands, box₂))
      (hfit : MsgHead.sizeof + records.length + expands.length ≤ bufsize) :
      (Int32.ofNat MsgHead.sizeof + box₂.head.recordSize + box₂.head.expandSize).toInt =
        (MsgHead.sizeof + records.length + expands.length : Nat) := by
    rw [outputExpands_size hexpands]
    simp only [outputRecords_size hrecords]
    rw [← Int32.ofNat_add, ← Int32.ofNat_add, int32_ofNat_toInt (by omega)]
  have htake {head : MsgHead} {records expands zeros : List UInt8} :
      (head.toBytes ++ records ++ expands ++ zeros).take
        ((MsgHead.sizeof + records.length + expands.length : Nat) : Int).toNat =
        head.toBytes ++ (records ++ expands) := by
    rw [List.append_assoc head.toBytes records expands]
    refine List.take_left' ?_
    rw [List.length_append, List.length_append, MsgHead.length_toBytes, Int.toNat_natCast]
    omega
  constructor
  · intro h
    rw [messageOutputBlob] at h
    split_ifs at h with h₁ h₂ h₃ h₄
    obtain ⟨⟨records, box₁⟩, hrecords, h⟩ := Outcome.bind_eq_done.1 h
    simp only at h
    split_ifs at h
    obtain ⟨⟨expands, box₂⟩, hexpands, h⟩ := Outcome.bind_eq_done.1 h
    simp only at h
    by_cases hfit : MsgHead.sizeof + records.length + expands.length > bufsize
    · rw [if_pos hfit] at h
      cases h
    rw [if_neg hfit] at h
    have hsize := hsize hrecords hexpands (Nat.not_lt.1 hfit)
    rw [hsize] at h
    obtain ⟨mem, hmem, h⟩ := Outcome.bind_eq_done.1 h
    cases mem with
    | false => cases h
    | true =>
      split_ifs at h
      obtain ⟨rfl, rfl⟩ := Outcome.pair_inj h
      exact ⟨⟨h₁, h₂, h₃, h₄⟩, records, expands, box₁, box₂, hrecords, hexpands, Nat.not_lt.1 hfit,
        hmem, htake, rfl⟩
  · rintro ⟨hready, records, expands, box₁, box₂, hrecords, hexpands, hfit, hmem, rfl, rfl⟩
    rw [messageOutputBlob, if_neg hready.crypt, if_neg hready.template, if_neg hready.recordNum,
      if_neg hready.expandNum, hrecords, Outcome.done_bind]
    simp only
    rw [if_neg (by omega), hexpands, Outcome.done_bind]
    simp only
    rw [if_neg (Nat.not_lt.2 hfit), hsize hrecords hexpands hfit, hmem, Outcome.done_bind,
      if_neg (by decide), if_neg (by omega), htake]

/-- What is written is the head and, behind it, as many bytes of records and
    expands as it tells. -/
theorem output_format (hbuf : bufsize < 2 ^ 31)
    (h : messageOutputBlob c heap bufsize box = .done (bytes, box')) :
    ∃ records expands : List UInt8, bytes = box'.head.toBytes ++ (records ++ expands) ∧
      (records.length : Int) = box'.head.recordSize.toInt ∧
      (expands.length : Int) = box'.head.expandSize.toInt ∧
      (box'.head.recordSize + box'.head.expandSize).toInt = records.length + expands.length := by
  obtain ⟨-, records, expands, box₁, box₂, hrecords, hexpands, hfit, -, rfl, rfl⟩ :=
    (messageOutputBlob_done hbuf).1 h
  have hrec := outputRecords_size hrecords
  have hexp := outputExpands_size hexpands
  have hrec₂ : box₂.head.recordSize = Int32.ofNat records.length := by rw [hexp, hrec]
  have hexp₂ : box₂.head.expandSize = Int32.ofNat expands.length := by rw [hexp]
  refine ⟨records, expands, rfl, ?_, ?_, ?_⟩
  · rw [hrec₂, int32_ofNat_toInt (by omega)]
  · rw [hexp₂, int32_ofNat_toInt (by omega)]
  · rw [hrec₂, hexp₂, ← Int32.ofNat_add, int32_ofNat_toInt (by omega)]
    omega

end Cube.Message
