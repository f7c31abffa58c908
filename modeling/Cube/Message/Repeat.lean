import Cube.Message.Places

/-!
# Writing a message more than once

`message_output_blob` keeps the bytes of records and expands in the message, also where it
fails, and leaves the buffer, which it has freed, as the blob of the message. The next call
takes the bytes of the records from there.

* `messageOutputBlob_of_run`: runs that succeed are those of `message_output_blob`.
* `repeatable_iff`: which messages are written the same over and over, and stay what they are.
-/

namespace Cube.Message

open Lib

variable {T V S : Type}

section Run

variable (c : Codec T V) (heap : Heap)

/-- What `message_record_struct2blob` leaves of a record that it fails to turn into bytes: if there
    is no memory for them, their size is set. -/
def recordLeft (template : Option T) (slot : RecordSlot V) : RecordSlot V :=
  match slot.record, slot.precord, template with
  | none, some precord, some template =>
    match c.struct2Blob template precord with
    | .done blob => { slot with size := Int32.ofNat blob.length }
    | _ => slot
  | _, _, _ => slot

/-- What `message_expand_struct2blob` leaves of an expand that it fails to turn into bytes: if there
    is no memory for them, the bytes that were there are lost. -/
def expandLeft (slot : ExpandSlot V) : ExpandSlot V :=
  match slot.pexpand with
  | none => slot
  | some pexpand => match c.getTemplate pexpand.type pexpand.subtype with
    | none => slot
    | some template => match c.struct2Blob template pexpand.expand with
      | .done blob =>
        { slot with expand := none, size := Int32.ofNat (MsgExpandHead.sizeof + blob.length) }
      | _ => slot

/-- The bytes of the records of a message: those of its blob, as many as its head tells, or those
    of its records. Of a buffer that was freed nothing can be read. -/
def recordsPart (box : MessageBox T V) :
    Outcome (Option Int × List UInt8 × List (RecordSlot V) × Int32) :=
  match box.blob with
  | .freed =>
    if box.head.recordSize = 0 then .done (none, [], box.records, 0) else .fault
  | .bytes blob => do
    let bytes ← copyBlock (some blob) box.head.recordSize
    .done (none, bytes, box.records, box.head.recordSize)
  | .null => blobsRun (recordStruct2Blob c heap outputBufsize box.recordTemplate)
    (recordLeft c box.recordTemplate) (·.record) (·.size) box.head.recordNum.toInt.toNat
    box.records box.head.recordSize

/-- The bytes of the expands of a message. -/
def expandsPart (box : MessageBox T V) :
    Outcome (Option Int × List UInt8 × List (ExpandSlot V) × Int32) :=
  blobsRun (expandStruct2Blob c heap outputBufsize) (expandLeft c) (·.expand) (·.size)
    box.head.expandNum.toInt.toNat box.expands box.head.expandSize

/-- What `message_output_blob` refuses before it writes anything. -/
def OutputRefused (box : MessageBox T V) : Prop :=
  (box.head.flag &&& MSG_FLAG_CRYPT ≠ 0 ∧ box.blob = .null) ∨
    (box.recordTemplate.isNone ∧ box.blob = .null) ∨
    box.head.recordNum.toInt < 0 ∨ box.head.expandNum.toInt < 0

instance (box : MessageBox T V) : Decidable (OutputRefused box) :=
  inferInstanceAs (Decidable (_ ∨ _))

/-- The end of `message_output_blob`, with the bytes of records and expands in the buffer. The
    buffer is the blob of the message before it is known whether there is memory for its copy. -/
def outputEnd (bytes : List UInt8) (box : MessageBox T V) :
    Outcome (Except Int (List UInt8) × MessageBox T V) := do
  let buffer := (box.head.toBytes ++ bytes).rightpad outputBufsize 0
  let blobSize := (Int32.ofNat MsgHead.sizeof + box.head.recordSize + box.head.expandSize).toInt
  let mem ← dalloc0 heap blobSize
  if !mem then .done (.error (-ENOMEM), { box with blob := .bytes buffer })
  else if blobSize > outputBufsize then .fault
  else .done (.ok (buffer.take blobSize.toNat), { box with blob := .freed })

/-- `message_output_blob`: the bytes written or the error, and the message after the call, also
    where it fails. The buffers of the two functions that it calls are of the size of its own, for
    which there is memory then. -/
def messageOutputRun (box : MessageBox T V) : Outcome (Except Int (List UInt8) × MessageBox T V) :=
  if !talloc0 heap outputBufsize then .done (.error (-ENOMEM), box)
  else if OutputRefused box then .done (.error (-EINVAL), box)
  else do
    let (err, rbytes, records, recordSize) ← recordsPart c heap box
    let box := { box with records := records, head := { box.head with recordSize := recordSize } }
    match err with
    | some e => .done (.error e, box)
    | none =>
      if MsgHead.sizeof + rbytes.length > outputBufsize then .fault
      else do
        let (err, ebytes, expands, expandSize) ← expandsPart c heap box
        let box :=
          { box with expands := expands, head := { box.head with expandSize := expandSize } }
        match err with
        | some e => .done (.error e, box)
        | none =>
          if MsgHead.sizeof + rbytes.length + ebytes.length > outputBufsize then .fault
          else outputEnd heap (rbytes ++ ebytes) box

/-- Successive calls: what they return, and the message after the last one. -/
def messageOutputs : Nat → MessageBox T V →
    Outcome (List (Except Int (List UInt8)) × MessageBox T V)
  | 0, box => .done ([], box)
  | n + 1, box => do
    let (result, box) ← messageOutputRun c heap box
    let (results, box) ← messageOutputs n box
    .done (result :: results, box)

end Run

/-- Every call gives what the first one gives and changes nothing in the message but its blob, and
    not even that where the calls fail. -/
def Repeatable (c : Codec T V) (heap : Heap) (box : MessageBox T V) : Prop :=
  ∃ result, ∀ n, ∃ blob,
    messageOutputs c heap n box = .done (List.replicate n result, { box with blob := blob }) ∧
      (result.toOption.isNone → blob = box.blob)

/-! ## One call that changes nothing -/

section Calls

variable {c : Codec T V} {heap : Heap} {box box' : MessageBox T V} {err : Option Int}
  {bytes rbytes ebytes : List UInt8} {records : List (RecordSlot V)}
  {expands : List (ExpandSlot V)} {recordSize expandSize : Int32} {e : Int} {blob : Block}
  {result : Except Int (List UInt8)}

/-- The message with other records, expands and sizes of them. -/
def MessageBox.filled (box : MessageBox T V) (records : List (RecordSlot V)) (recordSize : Int32)
    (expands : List (ExpandSlot V)) (expandSize : Int32) : MessageBox T V :=
  { box with
    records := records
    expands := expands
    head := { box.head with recordSize := recordSize, expandSize := expandSize } }

/-- What a call comes to, in terms of the bytes of records and expands. -/
theorem messageOutputRun_eq (htalloc : talloc0 heap outputBufsize = true)
    (hrefused : ¬ OutputRefused box) : messageOutputRun c heap box = (do
      let (err, rbytes, records, recordSize) ← recordsPart c heap box
      match err with
      | some e => .done (.error e, box.filled records recordSize box.expands box.head.expandSize)
      | none =>
        if MsgHead.sizeof + rbytes.length > outputBufsize then .fault
        else do
          let (err, ebytes, expands, expandSize) ← expandsPart c heap box
          match err with
          | some e => .done (.error e, box.filled records recordSize expands expandSize)
          | none =>
            if MsgHead.sizeof + rbytes.length + ebytes.length > outputBufsize then .fault
            else
              outputEnd heap (rbytes ++ ebytes)
                (box.filled records recordSize expands expandSize)) := by
  rw [messageOutputRun, htalloc, if_neg (by decide), if_neg hrefused]
  rfl

/-- The records have the bytes that a call writes, and the head tells their size. -/
def RecordsAsIs (c : Codec T V) (heap : Heap) (box : MessageBox T V) (bytes : List UInt8) : Prop :=
  match box.blob with
  | .null => WritesAsIs (recordStruct2Blob c heap outputBufsize box.recordTemplate) (·.record)
      (·.size) box.head.recordNum.toInt.toNat box.records box.head.recordSize bytes
  | .bytes blob => copyBlock (some blob) box.head.recordSize = .done bytes
  | .freed => box.head.recordSize = 0 ∧ bytes = []

/-- The call fails for a record and leaves everything as it is. -/
def RecordsFail (c : Codec T V) (heap : Heap) (box : MessageBox T V) : Prop :=
  box.blob = .null ∧ FailsAsIs (recordStruct2Blob c heap outputBufsize box.recordTemplate)
    (recordLeft c box.recordTemplate) (·.size) box.head.recordNum.toInt.toNat box.records
    box.head.recordSize

/-- The expands have the bytes that a call writes, and the head tells their size. -/
def ExpandsAsIs (c : Codec T V) (heap : Heap) (box : MessageBox T V) (bytes : List UInt8) : Prop :=
  WritesAsIs (expandStruct2Blob c heap outputBufsize) (·.expand) (·.size)
    box.head.expandNum.toInt.toNat box.expands box.head.expandSize bytes

/-- The call fails for an expand and leaves everything as it is. -/
def ExpandsFail (c : Codec T V) (heap : Heap) (box : MessageBox T V) : Prop :=
  FailsAsIs (expandStruct2Blob c heap outputBufsize) (expandLeft c) (·.size)
    box.head.expandNum.toInt.toNat box.expands box.head.expandSize

/-- The buffer that a call fills. -/
def MessageBox.buffer (box : MessageBox T V) (bytes : List UInt8) : List UInt8 :=
  (box.head.toBytes ++ bytes).rightpad outputBufsize 0

/-- Nothing is left to be filled in: the call is refused or fails as it stands; or records and
    expands have their bytes and sizes and there is room for them, and either the records have no
    bytes and there is memory for the copy, or there is none and the buffer is the blob already. -/
def WritesAgain (c : Codec T V) (heap : Heap) (box : MessageBox T V) : Prop :=
  talloc0 heap outputBufsize = false ∨ OutputRefused box ∨ RecordsFail c heap box ∨
    ∃ rbytes, RecordsAsIs c heap box rbytes ∧ MsgHead.sizeof + rbytes.length ≤ outputBufsize ∧
      (ExpandsFail c heap box ∨ ∃ ebytes, ExpandsAsIs c heap box ebytes ∧
        MsgHead.sizeof + rbytes.length + ebytes.length ≤ outputBufsize ∧
        ((rbytes = [] ∧ dalloc0 heap (MsgHead.sizeof + ebytes.length) = .done true) ∨
          dalloc0 heap (MsgHead.sizeof + rbytes.length + ebytes.length) = .done false ∧
            box.blob = .bytes (box.buffer (rbytes ++ ebytes))))

/-- The bytes of the records are as many as the head tells. -/
theorem RecordsAsIs.told_eq (h : RecordsAsIs c heap box bytes) :
    box.head.recordSize = Int32.ofNat bytes.length := by
  rw [RecordsAsIs] at h
  split at h
  · exact h.told_eq
  · exact (int32_ofNat_of_copy h).symm
  · obtain ⟨hsize, rfl⟩ := h
    exact hsize

/-- What the records come to where they stay as they are. -/
theorem recordsPart_same :
    recordsPart c heap box = .done (err, bytes, box.records, box.head.recordSize) ↔
      (∃ e, err = some e ∧ recordsPart c heap box =
        .done (some e, bytes, box.records, box.head.recordSize) ∧ RecordsFail c heap box) ∨
      (err = none ∧ RecordsAsIs c heap box bytes) := by
  rw [RecordsFail, RecordsAsIs, recordsPart]
  rcases hblob : box.blob with _ | blob | _
  · constructor
    · intro h
      rcases err with _ | e
      · exact .inr ⟨rfl, writesAsIs_of_run h⟩
      · exact .inl ⟨e, rfl, h, rfl, failsAsIs_of_run h⟩
    · rintro (⟨e, rfl, h, -⟩ | ⟨rfl, h⟩)
      · exact h
      · exact blobsRun_same.2 (.inr ⟨rfl, h⟩)
  · constructor
    · intro h
      obtain ⟨bytes', hcopy, h⟩ := Outcome.bind_eq_done.1 h
      simp only [Outcome.done.injEq, Prod.mk.injEq] at h
      obtain ⟨rfl, rfl, -⟩ := h
      exact .inr ⟨rfl, hcopy⟩
    · rintro (⟨e, rfl, -, hnull, -⟩ | ⟨rfl, h⟩)
      · cases hnull
      · simp only [h, Outcome.done_bind]
  · constructor
    · intro h
      simp only at h
      split_ifs at h with hsize
      simp only [Outcome.done.injEq, Prod.mk.injEq] at h
      obtain ⟨rfl, rfl, -⟩ := h
      exact .inr ⟨rfl, hsize, rfl⟩
    · rintro (⟨e, rfl, -, hnull, -⟩ | ⟨rfl, hsize, rfl⟩)
      · cases hnull
      · simp only [hsize, if_true]

/-- The end of a call, with the sizes of its bytes in its head. -/
theorem outputEnd_eq (hrecord : box.head.recordSize = Int32.ofNat rbytes.length)
    (hexpand : box.head.expandSize = Int32.ofNat ebytes.length)
    (hfits : MsgHead.sizeof + rbytes.length + ebytes.length ≤ outputBufsize) :
    outputEnd heap (rbytes ++ ebytes) box =
      dalloc0 heap (MsgHead.sizeof + rbytes.length + ebytes.length) >>= fun mem =>
        .done (if mem then (.ok ((box.buffer (rbytes ++ ebytes)).take
            (MsgHead.sizeof + rbytes.length + ebytes.length)), { box with blob := .freed })
          else (.error (-ENOMEM), { box with blob := .bytes (box.buffer (rbytes ++ ebytes)) })) := by
  have hbound : MsgHead.sizeof + rbytes.length + ebytes.length < 2 ^ 31 :=
    Nat.lt_of_le_of_lt hfits (by decide)
  have hblobSize : (Int32.ofNat MsgHead.sizeof + box.head.recordSize + box.head.expandSize).toInt =
      (MsgHead.sizeof : Int) + rbytes.length + ebytes.length := by
    rw [hrecord, hexpand, ← Int32.ofNat_add, ← Int32.ofNat_add, int32_ofNat_toInt hbound]
    rfl
  have hnat : ((MsgHead.sizeof : Int) + rbytes.length + ebytes.length).toNat =
      MsgHead.sizeof + rbytes.length + ebytes.length := rfl
  have hroom : ¬ (MsgHead.sizeof : Int) + rbytes.length + ebytes.length > outputBufsize := by omega
  simp only [outputEnd, hblobSize, hnat, if_neg hroom, MessageBox.buffer]
  rcases dalloc0 heap (MsgHead.sizeof + rbytes.length + ebytes.length) with (_ | _) | e | _ <;> rfl

/-- The end of a call sets nothing but the blob. -/
theorem outputEnd_box (h : outputEnd heap bytes box = .done (result, box')) :
    ∃ blob, box' = { box with blob := blob } := by
  obtain ⟨mem, -, h⟩ := Outcome.bind_eq_done.1 h
  rcases mem with _ | _
  · exact ⟨_, (Outcome.pair_inj h).2.symm⟩
  · simp only [Bool.not_true, Bool.false_eq_true, if_false] at h
    split_ifs at h
    exact ⟨_, (Outcome.pair_inj h).2.symm⟩

/-- A message that stays the same but for its blob has the records, expands and sizes that it had. -/
theorem filled_eq {blob' : Block} (h : { box.filled records recordSize expands expandSize with
    blob := blob' } = { box with blob := blob }) :
    records = box.records ∧ recordSize = box.head.recordSize ∧ expands = box.expands ∧
      expandSize = box.head.expandSize :=
  ⟨congrArg MessageBox.records h, congrArg (·.head.recordSize) h, congrArg MessageBox.expands h,
    congrArg (·.head.expandSize) h⟩

/-- After a call that has written a message, the next one is not refused. -/
theorem not_refused_freed (h : ¬ OutputRefused box) :
    ¬ OutputRefused { box with blob := .freed } := by
  rintro (⟨-, hnull⟩ | ⟨-, hnull⟩ | hneg)
  · cases hnull
  · cases hnull
  · exact h (.inr (.inr hneg))

/-- From a buffer that was freed nothing is read but no bytes. -/
theorem recordSize_of_freed (box : MessageBox T V) (hblob : box.blob = .freed)
    (htalloc : talloc0 heap outputBufsize = true)
    (hrefused : ¬ OutputRefused box) (h : messageOutputRun c heap box = .done (result, box')) :
    box.head.recordSize = 0 := by
  rw [messageOutputRun_eq htalloc hrefused] at h
  obtain ⟨part, hpart, -⟩ := Outcome.bind_eq_done.1 h
  rw [recordsPart, hblob] at hpart
  by_contra hsize
  rw [if_neg hsize] at hpart
  cases hpart

/-- A call that has its bytes and sizes hands them out, if there is memory for the copy. -/
theorem messageOutputRun_written (box : MessageBox T V) (htalloc : talloc0 heap outputBufsize = true)
    (hrefused : ¬ OutputRefused box) (hrecords : RecordsAsIs c heap box rbytes)
    (hexpands : ExpandsAsIs c heap box ebytes)
    (hfits : MsgHead.sizeof + rbytes.length + ebytes.length ≤ outputBufsize) :
    messageOutputRun c heap box =
      dalloc0 heap (MsgHead.sizeof + rbytes.length + ebytes.length) >>= fun mem =>
        .done (if mem then (.ok ((box.buffer (rbytes ++ ebytes)).take
            (MsgHead.sizeof + rbytes.length + ebytes.length)), { box with blob := .freed })
          else (.error (-ENOMEM), { box with blob := .bytes (box.buffer (rbytes ++ ebytes)) })) := by
  have hshort : ¬ MsgHead.sizeof + rbytes.length > outputBufsize := by omega
  have hpart : expandsPart c heap box = .done (none, ebytes, box.expands, box.head.expandSize) :=
    blobsRun_same.2 (.inr ⟨rfl, hexpands⟩)
  rw [messageOutputRun_eq htalloc hrefused, recordsPart_same.2 (.inr ⟨rfl, hrecords⟩),
    Outcome.done_bind]
  simp only [if_neg hshort, hpart, Outcome.done_bind, if_neg (Nat.not_lt.2 hfits)]
  exact outputEnd_eq hrecords.told_eq hexpands.told_eq hfits

/-- Calls that fail and leave everything as it is. -/
theorem repeatable_of_failing (h : messageOutputRun c heap box = .done (.error e, box)) :
    Repeatable c heap box := by
  have hruns (n : Nat) : messageOutputs c heap n box = .done (List.replicate n (.error e), box) := by
    induction n with
    | zero => rfl
    | succ n ih => simp only [messageOutputs, h, ih, Outcome.done_bind, List.replicate_succ]
  exact ⟨.error e, fun n => ⟨box.blob, hruns n, fun _ => rfl⟩⟩

/-- Calls that write the same message, from its own blob and from the buffer that was freed. -/
theorem repeatable_of_written {freed : MessageBox T V} (hfreed : { box with blob := .freed } = freed)
    (hfirst : messageOutputRun c heap box = .done (.ok bytes, freed))
    (hagain : messageOutputRun c heap freed = .done (.ok bytes, freed)) :
    Repeatable c heap box := by
  have hruns (n : Nat) :
      messageOutputs c heap n freed = .done (List.replicate n (.ok bytes), freed) := by
    induction n with
    | zero => rfl
    | succ n ih => simp only [messageOutputs, hagain, ih, Outcome.done_bind, List.replicate_succ]
  refine ⟨.ok bytes, fun n => ?_⟩
  rcases n with _ | n
  · exact ⟨box.blob, rfl, fun _ => rfl⟩
  · refine ⟨.freed, ?_, nofun⟩
    simp only [messageOutputs, hfirst, hruns, Outcome.done_bind, List.replicate_succ, hfreed]

theorem WritesAgain.repeatable (h : WritesAgain c heap box) : Repeatable c heap box := by
  rcases htalloc : talloc0 heap outputBufsize with _ | _
  · refine repeatable_of_failing (e := -ENOMEM) ?_
    rw [messageOutputRun, htalloc]
    rfl
  by_cases hrefused : OutputRefused box
  · refine repeatable_of_failing (e := -EINVAL) ?_
    rw [messageOutputRun, htalloc, if_neg (by decide), if_pos hrefused]
  have hrun := messageOutputRun_eq (c := c) htalloc hrefused
  rcases h with hno | hyes | ⟨hnull, hfails⟩ | ⟨rbytes, hrecords, hshort, hexpands⟩
  · exact absurd (htalloc.symm.trans hno) (by decide)
  · exact absurd hyes hrefused
  · obtain ⟨e, hpart⟩ := hfails.run (·.record)
    have hpart : recordsPart c heap box = .done (some e, [], box.records, box.head.recordSize) := by
      rw [recordsPart, hnull]
      exact hpart
    rw [hpart] at hrun
    exact repeatable_of_failing hrun
  have hpart := recordsPart_same.2 (.inr ⟨rfl, hrecords⟩)
  rcases hexpands with hfails | ⟨ebytes, hexpands, hfits, hmem⟩
  · obtain ⟨e, hfail⟩ := hfails.run (·.expand)
    have hfail : expandsPart c heap box = .done (some e, [], box.expands, box.head.expandSize) := hfail
    rw [hpart, Outcome.done_bind] at hrun
    simp only [if_neg (Nat.not_lt.2 hshort), hfail, Outcome.done_bind] at hrun
    exact repeatable_of_failing hrun
  have hend := messageOutputRun_written box htalloc hrefused hrecords hexpands hfits
  rcases hmem with ⟨rfl, hmem⟩ | ⟨hmem, hbuffer⟩
  · -- The records of the second call are no bytes, from the buffer that was freed.
    have hsize : box.head.recordSize = 0 := hrecords.told_eq
    have hagain := messageOutputRun_written { box with blob := .freed } htalloc
      (not_refused_freed hrefused) ⟨hsize, rfl⟩ hexpands hfits
    rw [List.length_nil, Nat.cast_zero, Int.add_zero, hmem, Outcome.done_bind, if_pos rfl]
      at hend hagain
    exact repeatable_of_written rfl hend hagain
  · rw [hmem, Outcome.done_bind, if_neg (by decide), ← hbuffer] at hend
    exact repeatable_of_failing hend

theorem Repeatable.writesAgain (h : Repeatable c heap box) : WritesAgain c heap box := by
  obtain ⟨result, hruns⟩ := h
  obtain ⟨blob, hone, hblob⟩ := hruns 1
  obtain ⟨⟨result', box'⟩, hfirst, hone⟩ := Outcome.bind_eq_done.1 hone
  obtain ⟨rfl, rfl⟩ : result' = result ∧ box' = { box with blob := blob } := by
    simpa [messageOutputs] using hone
  rcases htalloc : talloc0 heap outputBufsize with _ | _
  · exact .inl htalloc
  by_cases hrefused : OutputRefused box
  · exact .inr (.inl hrefused)
  refine .inr (.inr ?_)
  have hrun := hfirst
  rw [messageOutputRun_eq htalloc hrefused] at hrun
  obtain ⟨⟨err, rbytes, records, recordSize⟩, hrecords, hrun⟩ := Outcome.bind_eq_done.1 hrun
  rcases err with _ | e
  swap
  · have hsame : { box.filled records recordSize box.expands box.head.expandSize with
        blob := box.blob } = { box with blob := blob } := (Outcome.pair_inj hrun).2
    obtain ⟨rfl, rfl, -⟩ := filled_eq hsame
    obtain ⟨_, -, -, hfails⟩ | ⟨he, -⟩ := recordsPart_same.1 hrecords
    · exact .inl hfails
    · cases he
  simp only at hrun
  split_ifs at hrun with hlong
  obtain ⟨⟨err, ebytes, expands, expandSize⟩, hexpands, hrun⟩ := Outcome.bind_eq_done.1 hrun
  rcases err with _ | e
  swap
  · have hsame : { box.filled records recordSize expands expandSize with blob := box.blob } =
        { box with blob := blob } := (Outcome.pair_inj hrun).2
    obtain ⟨rfl, rfl, rfl, rfl⟩ := filled_eq hsame
    obtain ⟨_, he, -⟩ | ⟨-, hrecords⟩ := recordsPart_same.1 hrecords
    · cases he
    · exact .inr ⟨rbytes, hrecords, Nat.not_lt.1 hlong, .inl (failsAsIs_of_run hexpands)⟩
  simp only at hrun
  split_ifs at hrun with hlonger
  obtain ⟨blob', hsame⟩ := outputEnd_box hrun
  obtain ⟨rfl, rfl, rfl, rfl⟩ := filled_eq hsame.symm
  obtain ⟨_, he, -⟩ | ⟨-, hrecords⟩ := recordsPart_same.1 hrecords
  · cases he
  have hexpands : ExpandsAsIs c heap box ebytes := writesAsIs_of_run hexpands
  have hfits := Nat.not_lt.1 hlonger
  obtain ⟨mem, hmem, hend⟩ := Outcome.bind_eq_done.1
    ((messageOutputRun_written box htalloc hrefused hrecords hexpands hfits).symm.trans hfirst)
  have hend := Outcome.pair_inj hend
  refine .inr ⟨rbytes, hrecords, Nat.not_lt.1 hlong, .inr ⟨ebytes, hexpands, hfits, ?_⟩⟩
  rcases mem with _ | _
  · -- The buffer that the failing call leaves was the blob before.
    obtain ⟨rfl, hbox⟩ := hend
    have hbuffer : .bytes (box.buffer (rbytes ++ ebytes)) = blob := congrArg MessageBox.blob hbox
    exact .inr ⟨hmem, (hblob rfl).symm.trans hbuffer.symm⟩
  · -- What was written is handed out, and the second call reads from the buffer that was freed.
    obtain ⟨rfl, hbox⟩ := hend
    obtain rfl : .freed = blob := congrArg MessageBox.blob hbox
    obtain ⟨_, htwo, -⟩ := hruns 2
    obtain ⟨⟨_, box₁⟩, hagain, htwo⟩ := Outcome.bind_eq_done.1 htwo
    obtain ⟨-, rfl⟩ := Outcome.pair_inj (hagain.symm.trans hfirst)
    obtain ⟨⟨_, box₂⟩, htwo, -⟩ := Outcome.bind_eq_done.1 htwo
    obtain ⟨⟨_, box₃⟩, hsecond, -⟩ := Outcome.bind_eq_done.1 htwo
    have hzero : box.head.recordSize = 0 :=
      recordSize_of_freed { box with blob := .freed } rfl htalloc (not_refused_freed hrefused) hsecond
    have hint := congrArg Int32.toInt (hrecords.told_eq.symm.trans hzero)
    rw [int32_ofNat_toInt (Nat.lt_of_le_of_lt (Nat.le_of_add_left_le (Nat.not_lt.1 hlong))
      (by decide)), Int32.toInt_zero] at hint
    obtain rfl := List.eq_nil_of_length_eq_zero (Int.natCast_eq_zero.1 hint)
    refine .inl ⟨rfl, ?_⟩
    rwa [List.length_nil, Nat.cast_zero, Int.add_zero] at hmem

end Calls

/-- A message is written the same over and over, and is not changed by it, if and only if nothing is
    left to be filled in and nothing is read from a buffer that was freed. -/
theorem repeatable_iff (c : Codec T V) (heap : Heap) (box : MessageBox T V) :
    Repeatable c heap box ↔ WritesAgain c heap box :=
  ⟨Repeatable.writesAgain, WritesAgain.repeatable⟩

/-! ## Runs that succeed -/

/-- A loop that passes all places is the loop of `message_output_blob`. -/
theorem structs2Blob_of_run {step : S → Outcome S} {left : S → S} {size : S → Int32} {n : Nat}
    {slots slots' : List S} (h : structs2BlobRun step left n slots = .done (none, slots')) :
    structs2Blob step size n slots = .done (slots', ((slots'.take n).map size).sum) := by
  induction n generalizing slots slots' with
  | zero =>
    obtain ⟨-, rfl⟩ := Outcome.pair_inj h
    rfl
  | succ n ih =>
    rcases slots with _ | ⟨slot, slots⟩
    · cases h
    rw [structs2BlobRun] at h
    rcases hslot : step slot with slot' | e | _
    · simp only [hslot] at h
      obtain ⟨⟨err, rest⟩, hrest, h⟩ := Outcome.bind_eq_done.1 h
      obtain ⟨rfl, rfl⟩ := Outcome.pair_inj h
      rw [structs2Blob, hslot, Outcome.done_bind]
      simp only [ih hrest, Outcome.done_bind, List.take_succ_cons, List.map_cons, List.sum_cons]
    · rw [hslot] at h
      cases (Outcome.pair_inj h).1
    · rw [hslot] at h
      cases h

/-- Bytes of places that are copied without an error. -/
theorem structs2Blob_of_blobsRun {step : S → Outcome S} {left : S → S}
    {block : S → Option (List UInt8)} {size : S → Int32} {n : Nat} {slots slots' : List S}
    {bytes : List UInt8} {told told' : Int32}
    (h : blobsRun step left block size n slots told = .done (none, bytes, slots', told')) :
    structs2Blob step size n slots = .done (slots', told') ∧
      copyBlocks n (slots'.map fun slot => (block slot, size slot)) = .done bytes := by
  obtain ⟨⟨err, slots''⟩, hloop, h⟩ := Outcome.bind_eq_done.1 h
  rcases err with _ | e
  · simp only at h
    split_ifs at h
    · cases (Outcome.pair_inj h).1
    · obtain ⟨bytes', hcopy, h⟩ := Outcome.bind_eq_done.1 h
      simp only [Outcome.done.injEq, Prod.mk.injEq] at h
      obtain ⟨-, rfl, rfl, rfl⟩ := h
      exact ⟨structs2Blob_of_run hloop, hcopy⟩
  · cases (Outcome.pair_inj h).1

/-- A run that succeeds is one of `message_output_blob`, unless it finds the buffer of an earlier one
    in the message. -/
theorem messageOutputBlob_of_run {c : Codec T V} {heap : Heap} {box box' : MessageBox T V}
    {bytes : List UInt8} (hblob : box.blob ≠ .freed)
    (h : messageOutputRun c heap box = .done (.ok bytes, box')) :
    messageOutputBlob c heap outputBufsize box = .done (bytes, box') := by
  rcases htalloc : talloc0 heap outputBufsize with _ | _
  · rw [messageOutputRun, htalloc] at h
    cases (Outcome.pair_inj h).1
  by_cases hrefused : OutputRefused box
  · rw [messageOutputRun, htalloc, if_neg (by decide), if_pos hrefused] at h
    cases (Outcome.pair_inj h).1
  rw [messageOutputRun_eq htalloc hrefused] at h
  obtain ⟨⟨err, rbytes, records, recordSize⟩, hrecords, h⟩ := Outcome.bind_eq_done.1 h
  rcases err with _ | e
  swap
  · cases (Outcome.pair_inj h).1
  simp only at h
  split_ifs at h with hlong
  obtain ⟨⟨err, ebytes, expands, expandSize⟩, hexpands, h⟩ := Outcome.bind_eq_done.1 h
  rcases err with _ | e
  swap
  · cases (Outcome.pair_inj h).1
  simp only at h
  split_ifs at h with hlonger
  have hout₁ : outputRecords c heap outputBufsize box = .done (rbytes,
      box.filled records recordSize box.expands box.head.expandSize) := by
    rw [outputRecords]
    rcases hcase : box.blob with _ | blob | _
    · rw [recordsPart, hcase] at hrecords
      obtain ⟨hloop, hcopy⟩ := structs2Blob_of_blobsRun hrecords
      simp only [messageRecordStruct2Blob, hloop, Outcome.done_bind]
      rw [hcopy]
      rfl
    · rw [recordsPart, hcase] at hrecords
      obtain ⟨bytes', hcopy, hrecords⟩ := Outcome.bind_eq_done.1 hrecords
      simp only [Outcome.done.injEq, Prod.mk.injEq] at hrecords
      obtain ⟨-, rfl, rfl, rfl⟩ := hrecords
      simp only [hcopy, Outcome.done_bind]
      rfl
    · exact absurd hcase hblob
  have hout₂ : outputExpands c heap outputBufsize (box.filled records recordSize box.expands
      box.head.expandSize) = .done (ebytes, box.filled records recordSize expands expandSize) := by
    obtain ⟨hloop, hcopy⟩ := structs2Blob_of_blobsRun hexpands
    rw [outputExpands, messageExpandStruct2Blob]
    simp only [MessageBox.filled, hloop, Outcome.done_bind, hcopy]
  rw [OutputRefused, not_or, not_or, not_or] at hrefused
  obtain ⟨hcrypt, htemplate, hrecordNum, hexpandNum⟩ := hrefused
  rw [messageOutputBlob, if_neg hcrypt, if_neg htemplate, if_neg hrecordNum, if_neg hexpandNum,
    hout₁, Outcome.done_bind]
  simp only [if_neg hlong, hout₂, Outcome.done_bind, if_neg hlonger]
  obtain ⟨mem, hmem, h⟩ := Outcome.bind_eq_done.1 h
  rw [hmem, Outcome.done_bind]
  rcases mem with _ | _
  · cases (Outcome.pair_inj h).1
  simp only [Bool.not_true, Bool.false_eq_true, if_false] at h ⊢
  split_ifs at h ⊢
  simp only [Outcome.done.injEq, Prod.mk.injEq, Except.ok.injEq] at h
  obtain ⟨rfl, rfl⟩ := h
  rw [List.append_assoc _ rbytes ebytes]
  rfl

/-- A message of one record of two bytes. -/
def oneRecord : MessageBox Unit (List UInt8) where
  head := { initHead with recordType := 1, recordSubtype := 1, recordNum := 1 }
  recordTemplate := some ()
  boxState := .add
  headSize := 0
  records := [⟨none, some [5, 6], 0⟩]
  expands := []
  blob := .null
  currentOffset := 0

/-- It is written, and the second call reads the bytes of the record from the buffer that was
    freed. -/
theorem repeatable_not : (∃ bytes box, messageOutputRun wordOps.toCodec Heap.ample oneRecord =
      .done (.ok bytes, box)) ∧
    messageOutputs wordOps.toCodec Heap.ample 2 oneRecord = .fault ∧
    ¬ Repeatable wordOps.toCodec Heap.ample oneRecord := by
  have htwo : messageOutputs wordOps.toCodec Heap.ample 2 oneRecord = .fault := rfl
  refine ⟨⟨_, _, rfl⟩, htwo, ?_⟩
  rintro ⟨result, hruns⟩
  obtain ⟨box, hdone, -⟩ := hruns 2
  cases htwo.symm.trans hdone

end Cube.Message
