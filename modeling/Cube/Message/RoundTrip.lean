import Cube.Message.Load

/-!
# The wire round trip of a message

A message is built, written by `message_output_blob`, read by `message_read_from_blob` and
loaded by `message_load_record` and `message_load_expand`.

* `output_complete`: what is written of a message is its head, the bytes of its records
  and those of its expands.
* `wire_round_trip_iff`: the message comes back exactly if it has a record and anything
  but empty ones, at most ten expands, fits in the buffer it is written in, and its
  structures are decoded from their bytes.
-/

namespace Cube.Message

open Lib

variable {T V : Type}

/-- The structure of a record in a message: as it is, or decoded from its bytes. -/
def recordContent (ops : MessageOps T V) (template : T) (slot : RecordSlot V) : Option V :=
  match slot.precord with
  | some precord => some precord
  | none => slot.record.bind fun record =>
    (ops.blob2Struct template record).toOption.map Prod.snd

/-- The type, subtype and structure of an expand in a message: as it is, or decoded from
    its bytes. -/
def expandContent (ops : MessageOps T V) (slot : ExpandSlot V) : Option (Int32 × Int32 × V) :=
  match slot.pexpand with
  | some pexpand => some pexpand.content
  | none => slot.expand.bind fun expand =>
    let head := MsgExpandHead.ofBytes expand
    (ops.getTemplate head.type head.subtype).bind fun template =>
      (ops.blob2Struct template (expand.drop MsgExpandHead.sizeof)).toOption.map
        fun (_, value) => (head.type, head.subtype, value)

/-- The message that was read and loaded is the one that was written: it has the same head,
    the same records in order, of the same sizes, and the same expands in order. -/
structure SameMessage (ops : MessageOps T V) (template : T) (written loaded : MessageBox T V) :
    Prop where
  head : loaded.head = written.head
  records : loaded.records.map (·.precord) = written.records.map (recordContent ops template)
  sizes : loaded.records.map (·.size) = written.records.map (·.size)
  expands : loaded.expands.map (·.pexpand.map MsgExpand.content) =
    written.expands.map (expandContent ops)

/-- The message comes back from the bytes that are written of it, if any are, whatever
    undefined reads yield: all bytes are read, its records and expands are loaded to the
    end, and they are the same. Writing it changes nothing of its head but the sizes. -/
def RoundTrips (ops : MessageOps T V) (template : T) (box : MessageBox T V) : Prop :=
  match messageOutputBlob ops.toCodec Heap.ample outputBufsize box with
  | .error _ => True
  | .fault => False
  | .done (bytes, written) =>
    written.head = { box.head with
      recordSize := written.head.recordSize
      expandSize := written.head.expandSize } ∧
    ∀ stray : Stray, ∃ read withRecords loaded : MessageBox T V, ∃ ret : Int,
      messageReadFromBlob Heap.ample bytes = .done ((bytes.length : Int), read) ∧
      messageLoadRecord ops.toStructOps Heap.ample stray read = .done (ret, withRecords) ∧ 0 ≤ ret ∧
      messageLoadExpand ops.toStructOps Heap.ample withRecords =
        .done (written.head.expandSize.toInt, loaded) ∧
      SameMessage ops template written loaded

/-- What it takes for a message with these records and expands to come back. -/
structure Readable (ops : MessageOps T V) (template : T) (rs : List (RecordPiece V))
    (es : List (ExpandPiece V)) : Prop where
  some_record : rs ≠ []
  some_byte : 0 < (recordBytes rs).length + (expandBytes es).length
  few_expands : (es.length : Int) ≤ MAX_EXPAND_NUM
  fits : MsgHead.sizeof + (recordBytes rs).length + (expandBytes es).length ≤ outputBufsize
  records : RecordsDecode ops.toStructOps template rs (expandBytes es)
  expands : ∀ e ∈ es, ExpandDecodes ops.toStructOps e

/-! ## Writing -/

variable {ops : MessageOps T V} {template : T} {box : MessageBox T V} {rs : List (RecordPiece V)}
  {es : List (ExpandPiece V)} {bufsize : Nat}

/-- A loop over the places of a message comes to the end if each step does, and faults at
    one whose piece is too long for the buffer. -/
theorem structs2Blob_cases {S P : Type} {step : S → Outcome S} (size : S → Int32)
    {R F : S → P → Prop} (bytes : P → List UInt8)
    (hstep : ∀ slot p, R slot p → (∃ slot', step slot = .done slot' ∧ F slot' p) ∨
      step slot = .fault ∧ bufsize < (bytes p).length)
    {slots : List S} {ps : List P} (hslots : List.Forall₂ R slots ps) :
    (∃ slots' total, structs2Blob step size ps.length slots = .done (slots', total) ∧
        List.Forall₂ F slots' ps) ∨
      structs2Blob step size ps.length slots = .fault ∧ bufsize < (ps.map bytes).flatten.length := by
  induction hslots with
  | nil => exact .inl ⟨[], 0, rfl, .nil⟩
  | @cons slot p slots ps hslot _ ih =>
    rw [List.length_cons, structs2Blob, List.map_cons, List.flatten_cons, List.length_append]
    rcases hstep slot p hslot with ⟨slot', hdone, hfilled⟩ | ⟨hfault, hlt⟩
    · rw [hdone, Outcome.done_bind]
      rcases ih with ⟨slots', total, hrest, hfilled'⟩ | ⟨hrest, hlt⟩
      · rw [hrest]
        exact .inl ⟨slot' :: slots', _, rfl, .cons hfilled hfilled'⟩
      · rw [hrest]
        exact .inr ⟨rfl, by omega⟩
    · rw [hfault]
      exact .inr ⟨rfl, by omega⟩

/-- The bytes copied from places that have them. -/
theorem copyBlocks_filled {S P : Type} {block : S → Option (List UInt8)} {size : S → Int32}
    {bytes : P → List UInt8} {slots : List S} {ps : List P}
    (h : List.Forall₂ (fun slot p => block slot = some (bytes p) ∧
      (size slot).toInt = (bytes p).length) slots ps) :
    copyBlocks ps.length (slots.map fun slot => (block slot, size slot)) =
      .done (ps.map bytes).flatten := by
  induction h with
  | nil => rfl
  | cons hslot _ ih =>
    obtain ⟨hblock, hsize⟩ := hslot
    rw [List.length_cons, List.map_cons, copyBlocks, hblock, copyBlock_whole hsize, ih]
    rfl

theorem ample_ok (n : Nat) : Heap.ample.ok ((n : Int) + 12) = true := by
  simp [Heap.ample]
  omega

/-- The records of a message are written one behind the other, if each fits. -/
theorem outputRecords_complete (hbuf : bufsize < 2 ^ 31) (h : Complete ops template box rs es) :
    (∃ records, outputRecords ops.toCodec Heap.ample bufsize box = .done (recordBytes rs, { box with
        records := records
        head := { box.head with recordSize := Int32.ofNat (recordBytes rs).length } }) ∧
        List.Forall₂ (RecordFilled ops template) records rs) ∨
      outputRecords ops.toCodec Heap.ample bufsize box = .fault ∧ bufsize < (recordBytes rs).length := by
  have hloop := structs2Blob_cases RecordSlot.size RecordPiece.bytes
    (fun slot r hslot => by
      rcases recordStruct2Blob_cases Heap.ample hbuf hslot with hdone | ⟨_, _, hok⟩ | hfault
      · exact .inl hdone
      · rw [ample_ok] at hok
        cases hok
      · exact .inr hfault) h.records
  rcases hloop with ⟨records, total, hloop, hfilled⟩ | ⟨hloop, hlt⟩
  · have hcopy : copyBlocks rs.length (records.map fun slot => (slot.record, slot.size)) =
        .done (recordBytes rs) :=
      copyBlocks_filled (hfilled.imp fun slot r hslot => ⟨hslot.record, hslot.size⟩)
    refine .inl ⟨records, ?_, hfilled⟩
    simp only [outputRecords, h.blob, messageRecordStruct2Blob, h.recordTemplate, h.recordNum,
      Int.toNat_natCast, hloop, hcopy, Outcome.done_bind, copyBlocks_size hloop hcopy]
  · refine .inr ⟨?_, hlt⟩
    simp only [outputRecords, h.blob, messageRecordStruct2Blob, h.recordTemplate, h.recordNum,
      Int.toNat_natCast, hloop, Outcome.fault_bind]

/-- The expands of a message are written one behind the other, if each fits. -/
theorem outputExpands_complete (hbuf : bufsize < 2 ^ 31) (h : Complete ops template box rs es) :
    (∃ expands, outputExpands ops.toCodec Heap.ample bufsize box = .done (expandBytes es, { box with
        expands := expands
        head := { box.head with expandSize := Int32.ofNat (expandBytes es).length } }) ∧
        List.Forall₂ (ExpandFilled ops) expands es) ∨
      outputExpands ops.toCodec Heap.ample bufsize box = .fault ∧ bufsize < (expandBytes es).length := by
  have hloop := structs2Blob_cases ExpandSlot.size ExpandPiece.toBytes
    (fun slot e hslot => by
      rcases expandStruct2Blob_cases Heap.ample hbuf hslot with hdone | ⟨_, _, hok⟩ | hfault
      · exact .inl hdone
      · rw [ample_ok] at hok
        cases hok
      · exact .inr hfault) h.expands
  rcases hloop with ⟨expands, total, hloop, hfilled⟩ | ⟨hloop, hlt⟩
  · have hcopy : copyBlocks es.length (expands.map fun slot => (slot.expand, slot.size)) =
        .done (expandBytes es) :=
      copyBlocks_filled (hfilled.imp fun slot e hslot => ⟨hslot.expand, hslot.size⟩)
    refine .inl ⟨expands, ?_, hfilled⟩
    simp only [outputExpands, messageExpandStruct2Blob, h.expandNum, Int.toNat_natCast, hloop, hcopy,
      Outcome.done_bind, copyBlocks_size hloop hcopy]
  · refine .inr ⟨?_, hlt⟩
    simp only [outputExpands, messageExpandStruct2Blob, h.expandNum, Int.toNat_natCast, hloop,
      Outcome.fault_bind]

/-- The message once it is written: its places are filled, and its head tells the sizes. -/
structure Written (ops : MessageOps T V) (template : T) (box written : MessageBox T V)
    (rs : List (RecordPiece V)) (es : List (ExpandPiece V)) : Prop where
  head : written.head = { box.head with
    recordSize := Int32.ofNat (recordBytes rs).length
    expandSize := Int32.ofNat (expandBytes es).length }
  records : List.Forall₂ (RecordFilled ops template) written.records rs
  expands : List.Forall₂ (ExpandFilled ops) written.expands es

/-- What is written of a message that is not encrypted: its head, its records and its
    expands, if they fit in the buffer. -/
theorem output_complete (hbuf : bufsize < 2 ^ 31) (h : Complete ops template box rs es)
    (hflag : box.head.flag &&& MSG_FLAG_CRYPT = 0) :
    if MsgHead.sizeof + (recordBytes rs).length + (expandBytes es).length ≤ bufsize then
      ∃ written, messageOutputBlob ops.toCodec Heap.ample bufsize box =
        .done (written.head.toBytes ++ (recordBytes rs ++ expandBytes es), written) ∧
        Written ops template box written rs es
    else messageOutputBlob ops.toCodec Heap.ample bufsize box = .fault := by
  have hcrypt : ¬ (box.head.flag &&& MSG_FLAG_CRYPT ≠ 0 ∧ box.blob = .null) := fun h => h.1 hflag
  have hnone : ¬ (box.recordTemplate.isNone = true ∧ box.blob = .null) := by
    rw [h.recordTemplate]
    simp
  have hrecordNum : ¬ box.head.recordNum.toInt < 0 := by rw [h.recordNum]; omega
  have hexpandNum : ¬ box.head.expandNum.toInt < 0 := by rw [h.expandNum]; omega
  rw [messageOutputBlob, if_neg hcrypt, if_neg hnone, if_neg hrecordNum, if_neg hexpandNum]
  rcases outputRecords_complete hbuf h with ⟨records, hrecords, hfilled⟩ | ⟨hrecords, hlt⟩
  swap
  · have hlong : ¬ MsgHead.sizeof + (recordBytes rs).length + (expandBytes es).length ≤ bufsize := by
      omega
    rw [hrecords, if_neg hlong]
    rfl
  rw [hrecords, Outcome.done_bind]
  simp only
  by_cases hfit : MsgHead.sizeof + (recordBytes rs).length > bufsize
  · have hlong : ¬ MsgHead.sizeof + (recordBytes rs).length + (expandBytes es).length ≤ bufsize := by
      omega
    rw [if_pos hfit, if_neg hlong]
  rw [if_neg hfit]
  -- The message has the same records and expands when its records are written.
  have h₁ : Complete ops template { box with
      records := records
      head := { box.head with recordSize := Int32.ofNat (recordBytes rs).length } } rs es :=
    h.congr ⟨rfl, rfl, rfl, rfl, rfl, rfl⟩ ⟨rfl, rfl⟩ (hfilled.imp fun _ _ hr => hr.stands) h.expands
  rcases outputExpands_complete hbuf h₁ with ⟨expands, hexpands, hfilled'⟩ | ⟨hexpands, hlt⟩
  swap
  · have hlong : ¬ MsgHead.sizeof + (recordBytes rs).length + (expandBytes es).length ≤ bufsize := by
      omega
    rw [hexpands, if_neg hlong]
    rfl
  rw [hexpands, Outcome.done_bind]
  simp only
  by_cases hfit₂ : MsgHead.sizeof + (recordBytes rs).length + (expandBytes es).length ≤ bufsize
  swap
  · rw [if_neg hfit₂, if_pos (Nat.not_le.1 hfit₂)]
  rw [if_pos hfit₂]
  have hsize : (Int32.ofNat MsgHead.sizeof + Int32.ofNat (recordBytes rs).length +
      Int32.ofNat (expandBytes es).length).toInt =
        ((MsgHead.sizeof + (recordBytes rs).length + (expandBytes es).length : Nat) : Int) := by
    rw [← Int32.ofNat_add, ← Int32.ofNat_add, int32_ofNat_toInt (by omega)]
  simp only [hsize, dalloc0_ample.2 (Int.natCast_nonneg _), Outcome.done_bind, Int.toNat_natCast]
  rw [if_neg (Nat.not_lt.2 hfit₂), if_neg (by simp), if_neg (by omega)]
  refine ⟨_, congrArg _ (Prod.ext ?_ rfl), rfl, hfilled, hfilled'⟩
  rw [← List.append_assoc]
  refine List.take_left' ?_
  rw [List.length_append, List.length_append, MsgHead.length_toBytes]

/-! ## Reading -/

/-- The place of an expand that was read. -/
def readSlot (e : ExpandPiece V) : ExpandSlot V :=
  ⟨some e.toBytes, none, Int32.ofNat e.bytes.length + 12⟩

/-- The expands are cut out as they were written. -/
theorem readExpands_pieces {data front back : List UInt8} (es : List (ExpandPiece V))
    (hdata : data = front ++ (expandBytes es ++ back)) (hlen : (expandBytes es).length < 2 ^ 31) :
    readExpands Heap.ample data es.length front.length = .done (0, es.map readSlot) := by
  induction es generalizing front with
  | nil => rfl
  | cons e es ih =>
    rw [expandBytes_cons, List.length_append] at hlen
    rw [expandBytes_cons, List.append_assoc] at hdata
    have hdrop : data.drop front.length = e.toBytes ++ (expandBytes es ++ back) := by
      rw [hdata, List.drop_left]
    have hsize : sizeAt data front.length = Int32.ofNat e.bytes.length + 12 := by
      rw [sizeAt, Int.toNat_natCast, hdrop, e.bytesInt32_toBytes]
    have hint := e.size_toInt (by omega)
    have helen := e.length_toBytes
    have hall : data.length = front.length + (e.toBytes.length + (expandBytes es ++ back).length) := by
      rw [hdata, List.length_append, List.length_append]
    have hslot : slotAt data front.length = (readSlot e : ExpandSlot V) := by
      rw [slotAt, readSlot, hsize, hint, slice, ← Int.natCast_add, Int.toNat_natCast,
        Int.toNat_natCast, hdrop, Nat.add_sub_cancel_left, List.take_left]
    have hread : (readExpand Heap.ample data front.length : Outcome (Int × ExpandSlot V × Int)) =
        .done (0, readSlot e, ((front ++ e.toBytes).length : Int)) := by
      rw [readExpand_done ⟨by omega, by omega⟩ (by rw [hsize, hint]; exact ample_ok _)
        (by rw [hsize, hint]; omega), hslot, hsize, hint, List.length_append]
      rfl
    have hrest := ih (by rw [hdata, List.append_assoc]) (by omega)
    rw [List.length_cons, readExpands, hread]
    simp only [Outcome.done_bind, hrest, Int.lt_irrefl, if_false]
    rfl

/-- The message that was read. -/
def readBox (written : MessageBox T V) (rs : List (RecordPiece V)) (es : List (ExpandPiece V)) :
    MessageBox T V :=
  { (waiting written.head : MessageBox T V) with
    blob := .bytes (recordBytes rs ++ expandBytes es)
    records := List.replicate rs.length .empty
    expands := es.map readSlot
    boxState := .rebuilding }

section Read

variable {written : MessageBox T V} (h : Complete ops template box rs es)
  (hw : Written ops template box written rs es) (htype : ¬ box.head.recordType < 0)
  (hfit : (recordBytes rs).length + (expandBytes es).length < 2 ^ 31)

include hw hfit in
/-- The sizes in the head of a message that was written are those of its parts. -/
theorem Written.sizes : written.head.recordSize.toInt = (recordBytes rs).length ∧
    (written.head.recordSize + written.head.expandSize).toInt =
      (recordBytes rs ++ expandBytes es).length := by
  rw [hw.head]
  simp only [← Int32.ofNat_add]
  rw [int32_ofNat_toInt (by omega), int32_ofNat_toInt hfit, List.length_append]
  exact ⟨rfl, rfl⟩

include h hw htype hfit in
/-- The head of a message that was written is accepted if it does not have too many
    expands. -/
theorem headAccepted_iff :
    HeadAccepted Heap.ample (written.head.toBytes ++ (recordBytes rs ++ expandBytes es)) ↔
      (es.length : Int) ≤ MAX_EXPAND_NUM := by
  have hhead : MsgHead.ofBytes (written.head.toBytes ++ (recordBytes rs ++ expandBytes es)) =
      written.head := MsgHead.ofBytes_toBytes ..
  have hexpandNum : written.head.expandNum = box.head.expandNum := by rw [hw.head]
  constructor
  · intro hacc
    have hchecked := (headChecked_iff.1 (hhead ▸ hacc.headChecked)).2.2.1
    rwa [hexpandNum, h.expandNum] at hchecked
  · intro hfew
    refine ⟨?_, ?_, ?_, ?_⟩
    · rw [List.length_append, MsgHead.length_toBytes]
      omega
    · rw [hhead, hw.head]
      exact htype
    · rw [hhead, headChecked_iff, hexpandNum, h.expandNum, hw.head]
      exact ⟨h.recordNum_nonneg, Int.natCast_nonneg _, hfew, h.tag, h.version⟩
    · rw [hhead, (hw.sizes hfit).2]
      exact decide_eq_true (Int.natCast_nonneg (recordBytes rs ++ expandBytes es).length)

include h hw htype hfit in
/-- A message that was written is read. -/
theorem read_written (hfew : (es.length : Int) ≤ MAX_EXPAND_NUM)
    (hsome : 0 < (recordBytes rs).length + (expandBytes es).length) :
    (messageReadFromBlob Heap.ample (written.head.toBytes ++ (recordBytes rs ++ expandBytes es)) :
        Outcome (Int × MessageBox T V)) =
      .done (((written.head.toBytes ++ (recordBytes rs ++ expandBytes es)).length : Int),
        readBox written rs es) := by
  have hhead : MsgHead.ofBytes (written.head.toBytes ++ (recordBytes rs ++ expandBytes es)) =
      written.head := MsgHead.ofBytes_toBytes ..
  have hdrop : (written.head.toBytes ++ (recordBytes rs ++ expandBytes es)).drop MsgHead.sizeof =
      recordBytes rs ++ expandBytes es := List.drop_left' (MsgHead.length_toBytes _)
  obtain ⟨hrecordSize, htotal⟩ := hw.sizes hfit
  have hrecordNum : written.head.recordNum = box.head.recordNum := by rw [hw.head]
  have hexpandNum : written.head.expandNum = box.head.expandNum := by rw [hw.head]
  have hlen : (recordBytes rs ++ expandBytes es).length ≠ 0 := by
    rw [List.length_append]
    omega
  have hrecords : allocSite Heap.ample box.head.recordNum (RecordSlot.empty : RecordSlot V) =
      .done (List.replicate rs.length .empty) := by
    by_cases hnum : box.head.recordNum.toInt ≤ 0
    · have hzero : rs.length = 0 := by
        rw [h.recordNum] at hnum
        omega
      rw [allocSite_nil (.inl hnum), hzero]
      rfl
    · have hsite := h.recordSite
      rw [allocSite_done hnum ?_ hsite, h.recordNum, Int.toNat_natCast]
      rw [SiteFits] at hsite
      rw [hsite]
      simp only [Heap.ample, decide_eq_true_eq]
      omega
  obtain ⟨expands, hexpands, hcount⟩ := expandSite_fits (V := V) Heap.ample h.expandNum_nonneg
    (h.expandNum ▸ hfew)
  have hplace : ¬ (expands.length : Int) < es.length := by
    rw [← h.expandNum, hcount, not_not]
    intro _
    simp only [Heap.ample, decide_eq_true_eq]
    omega
  have hcut := readExpands_pieces (V := V) es (List.append_nil _ ▸ rfl :
    recordBytes rs ++ expandBytes es = recordBytes rs ++ (expandBytes es ++ [])) (by omega)
  rw [readFromBlob_eq ((headAccepted_iff h hw htype hfit).2 hfew), hhead, hdrop,
    readData_whole hlen (by omega) (by omega)]
  simp only [hrecordNum, hexpandNum, hrecords, hexpands, Outcome.done_bind, if_neg hplace, htotal,
    hrecordSize, Int.toNat_natCast, List.take_length, h.expandNum, hcut, Int.lt_irrefl, if_false]
  have hall : (written.head.toBytes ++ (recordBytes rs ++ expandBytes es)).length =
      (recordBytes rs ++ expandBytes es).length + MsgHead.sizeof := by
    rw [List.length_append, MsgHead.length_toBytes, Nat.add_comm]
  rw [if_neg (Int.not_lt.2 (Int.natCast_nonneg _)), hall]
  rfl

include h hw htype hfit in
/-- A message that was written is not read if it has too many expands or nothing behind its
    head. -/
theorem read_refused (hnot : ¬ ((es.length : Int) ≤ MAX_EXPAND_NUM ∧
      0 < (recordBytes rs).length + (expandBytes es).length)) :
    ∃ e, (messageReadFromBlob Heap.ample
      (written.head.toBytes ++ (recordBytes rs ++ expandBytes es)) :
        Outcome (Int × MessageBox T V)) = .error e := by
  by_cases hfew : (es.length : Int) ≤ MAX_EXPAND_NUM
  · -- The function that reads the data is given none.
    have hnil : recordBytes rs ++ expandBytes es = [] := by
      rw [← List.length_eq_zero_iff, List.length_append]
      omega
    have hacc := (headAccepted_iff h hw htype hfit).2 hfew
    have hdrop : (written.head.toBytes ++ (recordBytes rs ++ expandBytes es)).drop MsgHead.sizeof =
        [] := (List.drop_left' (MsgHead.length_toBytes _)).trans hnil
    refine ⟨-EINVAL, ?_⟩
    rw [readFromBlob_eq hacc, hdrop]
    rfl
  · have hacc := fun hacc => hfew ((headAccepted_iff h hw htype hfit).1 hacc)
    obtain ⟨e, _, herror⟩ := readHead_of_not_accepted (T := T) (V := V) hacc
    exact ⟨e, by rw [messageReadFromBlob, herror]; rfl⟩

end Read

/-! ## Loading -/

section Load

variable {written : MessageBox T V} {stray : Stray}

/-- The template of the records that were read is that of those written. -/
theorem templateOf_readBox (h : Complete ops template box rs es)
    (hw : Written ops template box written rs es) :
    templateOf ops.toStructOps (readBox written rs es) = some template := by
  have hhead : (readBox written rs es).head = written.head := rfl
  have htype : written.head.recordType = box.head.recordType := by rw [hw.head]
  have hsubtype : written.head.recordSubtype = box.head.recordSubtype := by rw [hw.head]
  have hnone : (readBox written rs es).recordTemplate = none := rfl
  simp only [templateOf, hnone, hhead, htype, hsubtype, h.getTemplate]

/-- The number of records that were read. -/
theorem recordNum_readBox (h : Complete ops template box rs es)
    (hw : Written ops template box written rs es) :
    (readBox written rs es).head.recordNum.toInt = rs.length := by
  have hnum : (readBox written rs es).head.recordNum = box.head.recordNum := by
    rw [readBox, waiting, hw.head]
  rw [hnum, h.recordNum]

/-- The records that were read are loaded from the first one on. -/
theorem loadRecord_readBox (h : Complete ops template box rs es)
    (hw : Written ops template box written rs es) (hrs : rs ≠ []) :
    messageLoadRecord ops.toStructOps Heap.ample stray (readBox written rs es) = (do
      let box ← loadRecords ops.toStructOps Heap.ample rs.length 0
        { readBox written rs es with recordTemplate := some template }
      .done (loadRecordEnd stray box)) := by
  obtain ⟨n, hn⟩ : ∃ n, rs.length = n + 1 :=
    Nat.exists_eq_succ_of_ne_zero fun h => hrs (List.length_eq_zero_iff.1 h)
  have hrecords : (readBox written rs es).records = List.replicate (n + 1) .empty := by
    rw [← hn]
    rfl
  have hnum := recordNum_readBox h hw
  have hempty : (readBox written rs es).records.isEmpty = false := by rw [hrecords]; rfl
  have hlen : ¬ (readBox written rs es).records.length < rs.length := by
    rw [hrecords, List.length_replicate, hn]
    exact Nat.lt_irrefl _
  have hfirst : ((readBox written rs es).records.take rs.length).findIdx? (·.record.isNone) =
      some 0 := by
    rw [hrecords, hn]
    rfl
  simp only [messageLoadRecord, templateOf_readBox h hw, hempty, Bool.false_eq_true, if_false,
    Outcome.done_bind, hnum, Int.toNat_natCast, hlen, hfirst, Nat.sub_zero]

/-- Without records, the value that is tested was never set. -/
theorem loadRecord_none (stray : Stray) (h : Complete ops template box [] es)
    (hw : Written ops template box written [] es) (hstray : stray.ret < 0) :
    ∃ box', messageLoadRecord ops.toStructOps Heap.ample stray (readBox written [] es) =
      .done (stray.ret, box') := by
  have hnum := recordNum_readBox h hw
  have hempty : (readBox written [] es).records.isEmpty = true := rfl
  have hsite : messageAllocRecordSite Heap.ample (readBox written [] es) =
      .done (readBox written [] es).records := by
    rw [messageAllocRecordSite, if_pos (by rw [hnum]; exact Int.le_refl 0)]
  have hzero : ((readBox written [] es).head.recordNum.toInt).toNat = 0 := by
    rw [hnum]
    rfl
  have hfirst : ((readBox written [] es).records.take 0).findIdx? (·.record.isNone) = none := rfl
  refine ⟨{ readBox written [] es with recordTemplate := some template }, ?_⟩
  simp only [messageLoadRecord, templateOf_readBox h hw, hempty, if_true, hsite, Outcome.done_bind,
    hzero, Nat.not_lt_zero, if_false, hfirst, ne_eq, not_true_eq_false, false_and, hstray]

/-- Where the loop over the records that were read starts. -/
theorem loadsFrom_readBox (h : Complete ops template box rs es)
    (hw : Written ops template box written rs es) :
    LoadsFrom template { readBox written rs es with recordTemplate := some template } 0 rs.length
      (recordBytes rs ++ expandBytes es) where
  recordTemplate := rfl
  recordNum := by rw [recordNum_readBox h hw, Nat.zero_add]
  blob := by
    change Block.bytesFrom (.bytes (recordBytes rs ++ expandBytes es)) 0 = _
    rw [Block.bytesFrom, if_pos ⟨Int.le_refl 0, Int.natCast_nonneg _⟩]
    rfl
  length := by rw [Nat.zero_add]; exact List.length_replicate
  empty i _ hi := by
    rw [Nat.zero_add] at hi
    exact List.getElem?_replicate_of_lt hi

end Load

/-! ## The message that comes back -/

section Same

variable {slot : RecordSlot V} {r : RecordPiece V} {e : ExpandPiece V}

theorem recordContent_filled (h : RecordFilled ops template slot r) :
    recordContent ops template slot = some r.value := by
  cases h.stands with
  | struct hprecord => rw [recordContent, hprecord]
  | both hprecord => rw [recordContent, hprecord]
  | blob hprecord hdecode =>
    simp only [recordContent, hprecord, h.record, Option.bind_some, hdecode]
    rfl

theorem expandContent_filled {slot : ExpandSlot V} (h : ExpandFilled ops slot e) :
    expandContent ops slot = some (e.type, e.subtype, e.value) := by
  cases h.stands with
  | struct hpexpand hcontent =>
    rw [expandContent, hpexpand]
    exact congrArg some hcontent
  | @blob template' hpexpand htemplate hdecode =>
    have hdrop : e.toBytes.drop MsgExpandHead.sizeof = e.bytes :=
      List.drop_left' (MsgExpandHead.length_toBytes _)
    have htemplate' : ops.getTemplate e.head.type e.head.subtype = some template' := htemplate
    simp only [expandContent, hpexpand, h.expand, Option.bind_some, e.ofBytes_toBytes, htemplate',
      hdrop, hdecode]
    rfl

/-- The records loaded are those written. -/
theorem records_same_iff {slots loaded : List (RecordSlot V)}
    (h : List.Forall₂ (RecordFilled ops template) slots rs) :
    loaded.map (·.precord) = slots.map (recordContent ops template) ∧
        loaded.map (·.size) = slots.map (·.size) ↔ List.Forall₂ RecordLoaded loaded rs := by
  induction h generalizing loaded with
  | nil =>
    cases loaded with
    | nil => exact iff_of_true ⟨rfl, rfl⟩ .nil
    | cons => exact iff_of_false (fun h => List.cons_ne_nil _ _ h.1) fun h => by cases h
  | @cons slot r slots rs hslot _ ih =>
    cases loaded with
    | nil => exact iff_of_false (fun h => List.cons_ne_nil _ _ h.1.symm) fun h => by cases h
    | cons first loaded =>
      simp only [List.map_cons, List.cons.injEq, List.forall₂_cons, ← ih,
        recordContent_filled hslot]
      constructor
      · rintro ⟨⟨hvalue, hvalues⟩, hsize, hsizes⟩
        exact ⟨⟨hvalue, by rw [hsize, hslot.size]⟩, hvalues, hsizes⟩
      · rintro ⟨⟨hvalue, hsize⟩, hvalues, hsizes⟩
        exact ⟨⟨hvalue, hvalues⟩, Int32.toInt_inj.1 (hsize.trans hslot.size.symm), hsizes⟩

/-- The expands loaded are those written. -/
theorem expands_same_iff {slots loaded : List (ExpandSlot V)}
    (h : List.Forall₂ (ExpandFilled ops) slots es) :
    loaded.map (·.pexpand.map MsgExpand.content) = slots.map (expandContent ops) ↔
      List.Forall₂ ExpandLoaded loaded es := by
  induction h generalizing loaded with
  | nil =>
    cases loaded with
    | nil => exact iff_of_true rfl .nil
    | cons => exact iff_of_false (List.cons_ne_nil _ _) fun h => by cases h
  | @cons slot e slots es hslot _ ih =>
    cases loaded with
    | nil => exact iff_of_false (fun h => List.cons_ne_nil _ _ h.symm) fun h => by cases h
    | cons first loaded =>
      simp only [List.map_cons, List.cons.injEq, List.forall₂_cons, ← ih,
        expandContent_filled hslot, ExpandLoaded]

end Same

/-- The expands of a message are of registered types. -/
theorem registered_of_stands {slots : List (ExpandSlot V)}
    (h : List.Forall₂ (ExpandStands ops) slots es) :
    ∀ e ∈ es, ∃ template, ops.getTemplate e.type e.subtype = some template := by
  induction h with
  | nil => simp
  | cons hslot _ ih =>
    rw [List.forall_mem_cons]
    refine ⟨?_, ih⟩
    cases hslot with
    | struct _ _ htemplate => exact ⟨_, htemplate⟩
    | blob _ htemplate => exact ⟨_, htemplate⟩

/-- Of what the end of `message_load_record` changes, nothing is looked at afterwards. -/
theorem loadRecordEnd_spec (stray : Stray) (box : MessageBox T V) :
    0 ≤ (loadRecordEnd stray box).1 ∧ (loadRecordEnd stray box).2.head = box.head ∧
      (loadRecordEnd stray box).2.records = box.records ∧
      (loadRecordEnd stray box).2.expands = box.expands := by
  rw [loadRecordEnd]
  split_ifs
  · exact ⟨Int.one_nonneg, rfl, rfl, rfl⟩
  · exact ⟨Int.one_nonneg, rfl, rfl, rfl⟩

section Back

variable {written withRecords loaded : MessageBox T V} (h : Complete ops template box rs es)
  (hw : Written ops template box written rs es)
  (hfit : (recordBytes rs).length + (expandBytes es).length < 2 ^ 31)
  (hhead : withRecords.head = written.head) (hexpands : withRecords.expands = es.map readSlot)

include h hw hfit hhead hexpands in
/-- The expands that were read are loaded by the loop over them. -/
theorem loadExpand_readBox {offset : Int} :
    messageLoadExpand ops.toStructOps Heap.ample withRecords = .done (offset, loaded) ↔
      ∃ slots, loadExpands ops.toStructOps Heap.ample (expandBytes es).length es.length 0
        (es.map readSlot) = .done (offset, slots) ∧ loaded = { withRecords with expands := slots } := by
  have hsize : withRecords.head.expandSize.toInt = (expandBytes es).length := by
    rw [hhead, hw.head]
    exact int32_ofNat_toInt (by omega)
  have hnum : withRecords.head.expandNum.toInt = es.length := by
    rw [hhead, hw.head]
    exact h.expandNum
  rw [messageLoadExpand, hsize, hnum, Int.toNat_natCast, hexpands, Outcome.bind_eq_done]
  constructor
  · rintro ⟨⟨offset', slots⟩, hloop, hdone⟩
    obtain ⟨rfl, rfl⟩ := Outcome.pair_inj hdone
    exact ⟨slots, hloop, rfl⟩
  · rintro ⟨slots, hloop, rfl⟩
    exact ⟨(offset, slots), hloop, rfl⟩

include h hfit in
/-- The loop over the expands that were read finds them exactly if each is decoded. -/
theorem loadExpands_readBox :
    (∃ slots', loadExpands ops.toStructOps Heap.ample (expandBytes es).length es.length 0
        (es.map readSlot) = .done (((expandBytes es).length : Int), slots') ∧
        List.Forall₂ ExpandLoaded slots' es) ↔ ∀ e ∈ es, ExpandDecodes ops.toStructOps e := by
  refine loadExpands_iff (registered_of_stands h.expands) (by omega) ?_ (Int.zero_add _).symm
  rw [List.forall₂_map_left_iff]
  exact List.forall₂_same.2 fun _ _ => rfl

end Back

/-- A message that is complete and not encrypted comes back exactly if it is readable. -/
theorem roundTrips_iff (h : Complete ops template box rs es) (htype : ¬ box.head.recordType < 0)
    (hflag : box.head.flag &&& MSG_FLAG_CRYPT = 0) :
    RoundTrips ops template box ↔ Readable ops template rs es := by
  have hbuf : outputBufsize < 2 ^ 31 := by decide
  have hout := output_complete hbuf h hflag
  by_cases hfit : MsgHead.sizeof + (recordBytes rs).length + (expandBytes es).length ≤ outputBufsize
  swap
  · rw [if_neg hfit] at hout
    rw [RoundTrips, hout]
    exact iff_of_false id fun hreadable => hfit hreadable.fits
  rw [if_pos hfit] at hout
  obtain ⟨written, hout, hw⟩ := hout
  have hsmall : (recordBytes rs).length + (expandBytes es).length < 2 ^ 31 := by
    rw [outputBufsize] at hfit
    omega
  rw [RoundTrips, hout]
  simp only
  by_cases hread : (es.length : Int) ≤ MAX_EXPAND_NUM ∧
      0 < (recordBytes rs).length + (expandBytes es).length
  swap
  · -- The bytes are refused.
    obtain ⟨e, herror⟩ := read_refused h hw htype hsmall hread
    refine iff_of_false ?_ fun hreadable => hread ⟨hreadable.few_expands, hreadable.some_byte⟩
    rintro ⟨_, hback⟩
    obtain ⟨read, _, _, _, hdone, _⟩ := hback ⟨0, 0⟩
    rw [herror] at hdone
    cases hdone
  rw [read_written h hw htype hsmall hread.1 hread.2]
  by_cases hrs : rs = []
  · -- There is no record to load.
    refine iff_of_false ?_ fun hreadable => hreadable.some_record hrs
    subst hrs
    rintro ⟨_, hback⟩
    obtain ⟨read, withRecords, loaded, ret, hdone, hload, hret, _⟩ := hback ⟨-1, 0⟩
    obtain ⟨_, rfl⟩ := Outcome.pair_inj hdone
    obtain ⟨box', hnone⟩ := loadRecord_none ⟨-1, 0⟩ h hw (by decide)
    rw [hnone] at hload
    obtain ⟨rfl, _⟩ := Outcome.pair_inj hload
    exact absurd hret (by decide)
  have hsize : written.head.expandSize.toInt = (expandBytes es).length := by
    rw [hw.head]
    exact int32_ofNat_toInt (by omega)
  have hloop : _ ↔ RecordsDecode ops.toStructOps template rs (expandBytes es) :=
    loadRecords_iff (loadsFrom_readBox h hw)
  constructor
  · rintro ⟨_, hback⟩
    obtain ⟨read, withRecords, loaded, ret, hdone, hload, _, hexpand, hsame⟩ := hback ⟨0, 0⟩
    obtain ⟨_, rfl⟩ := Outcome.pair_inj hdone
    rw [loadRecord_readBox h hw hrs] at hload
    obtain ⟨box₁, hrecords, hload⟩ := Outcome.bind_eq_done.1 hload
    have hwith := congrArg Prod.snd (Outcome.done.inj hload)
    obtain ⟨_, hhead, hrecs, hexps⟩ := loadRecordEnd_spec ⟨0, 0⟩ box₁
    rw [hwith] at hhead hrecs hexps
    obtain ⟨hhead₁, hexps₁, _⟩ := loadRecords_frame hrecords
    obtain ⟨slots, hslots, rfl⟩ :=
      (loadExpand_readBox h hw hsmall (hhead.trans hhead₁) (hexps.trans hexps₁)).1 hexpand
    rw [hsize] at hslots
    have hloaded := (records_same_iff hw.records).1 ⟨hsame.records, hsame.sizes⟩
    refine ⟨hrs, hread.2, hread.1, hfit, hloop.1 ⟨box₁, hrecords, ?_⟩, ?_⟩
    · rw [List.drop_zero, ← hrecs]
      exact hloaded
    · exact (loadExpands_readBox h hsmall).1
        ⟨slots, hslots, (expands_same_iff hw.expands).1 hsame.expands⟩
  · intro hreadable
    refine ⟨by rw [hw.head], fun stray => ?_⟩
    obtain ⟨box₁, hrecords, hloaded⟩ := hloop.2 hreadable.records
    obtain ⟨slots, hslots, hexpanded⟩ := (loadExpands_readBox h hsmall).2 hreadable.expands
    obtain ⟨hret, hhead, hrecs, hexps⟩ := loadRecordEnd_spec stray box₁
    obtain ⟨hhead₁, hexps₁, _⟩ := loadRecords_frame hrecords
    rw [List.drop_zero] at hloaded
    obtain ⟨hvalues, hsizes⟩ := (records_same_iff hw.records).2 hloaded
    refine ⟨readBox written rs es, (loadRecordEnd stray box₁).2,
      { (loadRecordEnd stray box₁).2 with expands := slots }, (loadRecordEnd stray box₁).1, rfl, ?_,
      hret, ?_, ?_⟩
    · rw [loadRecord_readBox h hw hrs, hrecords, Outcome.done_bind]
    · rw [hsize]
      exact (loadExpand_readBox h hw hsmall (hhead.trans hhead₁) (hexps.trans hexps₁)).2
        ⟨slots, hslots, rfl⟩
    · refine ⟨hhead.trans hhead₁, ?_, ?_, (expands_same_iff hw.expands).2 hexpanded⟩
      · change (loadRecordEnd stray box₁).2.records.map _ = _
        rw [hrecs, hvalues]
      · change (loadRecordEnd stray box₁).2.records.map _ = _
        rw [hrecs, hsizes]

/-- Of an encrypted message nothing is written. -/
theorem roundTrips_of_crypt (h : Complete ops template box rs es)
    (hflag : box.head.flag &&& MSG_FLAG_CRYPT ≠ 0) : RoundTrips ops template box := by
  rw [RoundTrips, messageOutputBlob, if_pos ⟨hflag, h.blob⟩]
  trivial

/-- A registered type is positive. -/
theorem Complete.recordType_nonneg (h : Complete ops template box rs es)
    (hdb : ∀ type subtype : Int32, type.toInt ≤ 0 → ops.getTemplate type subtype = none) :
    ¬ box.head.recordType < 0 := by
  intro hneg
  have hnone := hdb box.head.recordType box.head.recordSubtype
    (Int.le_of_lt (Int32.lt_iff_toInt_lt.1 hneg))
  rw [h.getTemplate] at hnone
  cases hnone

/-- A message that was built, of records of one registered type and expands of registered
    types, comes back exactly if it is encrypted, so that nothing is written, or
    readable. Only positive types are registered. -/
theorem wire_round_trip_iff {heap : Heap} {type subtype : Int32} {nonce : Vector UInt8 DIGEST_SIZE}
    {created : MessageBox T V} {calls : List (Call V)}
    (hdb : ∀ type subtype : Int32, type.toInt ≤ 0 → ops.getTemplate type subtype = none)
    (htemplate : ops.getTemplate type subtype = some template)
    (hcreate : messageCreate ops type subtype nonce = .done created)
    (hadds : AddsAll ops template calls rs es)
    (hcalls : messageCalls ops heap created calls = .done box) :
    RoundTrips ops template box ↔
      (box.head.flag &&& MSG_FLAG_CRYPT = 0 → Readable ops template rs es) := by
  have h := build_complete htemplate hcreate hadds hcalls
  by_cases hflag : box.head.flag &&& MSG_FLAG_CRYPT = 0
  · rw [roundTrips_iff h (h.recordType_nonneg hdb) hflag]
    simp only [hflag, true_imp_iff]
  · exact iff_of_true (roundTrips_of_crypt h hflag) fun h => absurd h hflag

/-- Structures of one field of two bytes, with a template for each positive type. -/
def wordOps : MessageOps Unit (List UInt8) where
  struct2Blob _ v := .done v
  blob2Struct _ data := if data.length < 2 then .fault else .done (2, data.take 2)
  getTemplate type _ := if type.toInt ≤ 0 then none else some ()
  structSize _ := 2
  cloneStruct v _ := some v
  structPartCompare _ _ _ _ := 0
  structClone _ v := .done v

theorem wordOps_getTemplate (type subtype : Int32) (h : type.toInt ≤ 0) :
    wordOps.getTemplate type subtype = none := if_pos h

/-- A message of a structure and bytes as records and of a structure as an expand comes
    back. -/
theorem wire_round_trip_words : ∃ created box,
    messageCreate wordOps 1 1 (.replicate _ 0) = .done created ∧
      messageCalls wordOps Heap.ample created
        [.addRecord [1, 2], .addRecordBlob 2 [3, 4], .addExpandData 1 1 [5, 6]] = .done box ∧
      RoundTrips wordOps () box := by
  have hadds : AddsAll wordOps ()
      [.addRecord [1, 2], .addRecordBlob 2 [3, 4], .addExpandData 1 1 [5, 6]]
      [⟨[1, 2], [1, 2]⟩, ⟨[3, 4], [3, 4]⟩] [⟨1, 1, [5, 6], [5, 6]⟩] :=
    .cons (.record (r := ⟨[1, 2], [1, 2]⟩) rfl rfl)
      (.cons (.recordBlob (r := ⟨[3, 4], [3, 4]⟩) (by decide) rfl)
        (.cons (.expandData (e := ⟨1, 1, [5, 6], [5, 6]⟩) rfl rfl rfl) .nil))
  obtain ⟨created, hcreate⟩ : ∃ created, messageCreate wordOps 1 1 (.replicate _ 0) =
      .done created := ⟨_, rfl⟩
  obtain ⟨box, hcalls⟩ : ∃ box, messageCalls wordOps Heap.ample created
      [.addRecord [1, 2], .addRecordBlob 2 [3, 4], .addExpandData 1 1 [5, 6]] = .done box := by
    obtain rfl := Outcome.done.inj hcreate
    exact ⟨_, rfl⟩
  refine ⟨created, box, hcreate, hcalls,
    (wire_round_trip_iff wordOps_getTemplate rfl hcreate hadds hcalls).2 fun _ => ?_⟩
  have hdecodes : ∀ (a b : UInt8) (rest : List UInt8),
      RecordDecodes wordOps.toStructOps () ([a, b] ++ rest) ⟨[a, b], [a, b]⟩ := fun a b rest =>
    ⟨by decide, ⟨2, rfl, rfl⟩, rfl⟩
  exact ⟨List.cons_ne_nil _ _, by decide, by decide, by decide,
    ⟨hdecodes 1 2 _, hdecodes 3 4 _, trivial⟩,
    List.forall_mem_singleton.2 ⟨(), rfl, by decide, rfl⟩⟩

/-- A message without records and expands does not come back: its bytes are refused. -/
theorem wire_round_trip_empty : ∃ created,
    messageCreate wordOps 1 1 (.replicate _ 0) = .done created ∧ ¬ RoundTrips wordOps () created := by
  obtain ⟨created, hcreate⟩ : ∃ created, messageCreate wordOps 1 1 (.replicate _ 0) =
      .done created := ⟨_, rfl⟩
  refine ⟨created, hcreate, fun hback => ?_⟩
  have h : Complete wordOps () created [] [] := messageCreate_complete rfl hcreate
  have hflag : created.head.flag &&& MSG_FLAG_CRYPT = 0 := by
    obtain rfl := Outcome.done.inj hcreate
    decide
  exact ((roundTrips_iff h (h.recordType_nonneg wordOps_getTemplate) hflag).1 hback).some_record rfl

end Cube.Message
