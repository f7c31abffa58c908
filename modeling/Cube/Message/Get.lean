import Cube.Message.Output

/-!
# Getting the records and expands of a message

`message_get_record` returns a copy of a record as a structure, decoding it first
if the message only has its bytes; the decoded structure stays in the message.
`message_get_define_expand` looks for an expand of a type and subtype among those
the message has as structures.

* `getRecord_again`: a record got once is got again, from the message as it was
  left.
-/

namespace Cube.Message

open Lib

/-- What messages need of struct templates beyond the codec: the size of a
    structure, copying one, and comparing two in the elements with a flag. -/
structure StructOps (T V : Type) extends Codec T V where
  structSize : T → Int
  cloneStruct : V → T → Option V
  structPartCompare : V → V → T → Int32 → Int

variable {T V : Type} (ops : StructOps T V) (heap : Heap)

/-- The copy of a record by `clone_struct`. -/
def cloneRecord (template : Option T) (precord : V) : Outcome V :=
  match template with
  | none => .fault
  | some template =>
    match ops.cloneStruct precord template with
    | none => .error (-EINVAL)
    | some record => .done record

/-- The template of the records: the one the message has, or the one of its type. -/
def templateOf (box : MessageBox T V) : Option T :=
  match box.recordTemplate with
  | some template => some template
  | none => ops.getTemplate box.head.recordType box.head.recordSubtype

/-- `message_get_record`: the copy of the record, none if there are not so many,
    and the message after the call. -/
def messageGetRecord (box : MessageBox T V) (recordNo : Int) :
    Outcome (Option V × MessageBox T V) :=
  if recordNo < 0 then .error (-EINVAL)
  else if recordNo ≥ box.head.recordNum.toInt then .done (none, box)
  else
    match box.records[recordNo.toNat]? with
    | none => .fault
    | some slot =>
      match slot.precord with
      | some precord => do
        let record ← cloneRecord ops (templateOf ops box) precord
        .done (some record, { box with recordTemplate := templateOf ops box })
      | none =>
        match templateOf ops box with
        | none => .fault
        | some template => do
          let mem ← dalloc0 heap (ops.structSize template)
          if !mem then .error (-ENOMEM)
          else match slot.record with
          | none => .fault
          | some blob => do
            let (size, precord) ← ops.blob2Struct template blob
            let record ← cloneRecord ops (some template) precord
            let slot := { slot with precord := some precord, size := Int32.ofNat size }
            .done (some record, { box with
              recordTemplate := some template
              records := box.records.set recordNo.toNat slot })

/-- The loop of `message_get_define_expand` over the first `n` expands. -/
def defineExpand (type subtype : Int32) : Nat → List (ExpandSlot V) → Outcome (Option (MsgExpand V))
  | 0, _ => .done none
  | _ + 1, [] => .fault
  | n + 1, slot :: slots =>
    match slot.pexpand with
    | none => defineExpand type subtype n slots
    | some expand =>
      if expand.type ≠ type ∨ expand.subtype ≠ subtype then defineExpand type subtype n slots
      else .done (some expand)

/-- `message_get_define_expand`: the first expand of the type and subtype, if
    any. -/
def messageGetDefineExpand (box : MessageBox T V) (type subtype : Int32) :
    Outcome (Option (MsgExpand V)) :=
  defineExpand type subtype box.head.expandNum.toInt.toNat box.expands

/-! ## Getting a record twice -/

variable {ops heap} {box box' : MessageBox T V} {recordNo : Int} {record : Option V}

/-- A record the message has as a structure is got as a copy of it. -/
theorem getRecord_precord {slot : RecordSlot V} {precord : V} (hno : ¬ recordNo < 0)
    (hlt : ¬ recordNo ≥ box.head.recordNum.toInt) (hslot : box.records[recordNo.toNat]? = some slot)
    (hprecord : slot.precord = some precord) :
    messageGetRecord ops heap box recordNo = (do
      let record ← cloneRecord ops (templateOf ops box) precord
      .done (some record, { box with recordTemplate := templateOf ops box })) := by
  rw [messageGetRecord, if_neg hno, if_neg hlt, hslot]
  simp only [hprecord]

/-- What getting a record comes to: there is none, or it is a copy of a structure
    that the message then has, together with its template. -/
theorem getRecord_cases (h : messageGetRecord ops heap box recordNo = .done (record, box')) :
    (recordNo ≥ box.head.recordNum.toInt ∧ record = none ∧ box' = box) ∨
      (¬ recordNo ≥ box.head.recordNum.toInt ∧ box'.head = box.head ∧
        box'.expands = box.expands ∧ ∃ slot precord template value,
          box'.records[recordNo.toNat]? = some slot ∧ slot.precord = some precord ∧
          box'.recordTemplate = some template ∧ record = some value ∧
          cloneRecord ops (some template) precord = .done value) := by
  rw [messageGetRecord] at h
  split_ifs at h with hno hge
  · obtain ⟨rfl, rfl⟩ := Outcome.pair_inj h
    exact .inl ⟨hge, rfl, rfl⟩
  refine .inr ⟨hge, ?_⟩
  cases hslot : box.records[recordNo.toNat]? with
  | none => simp only [hslot, reduceCtorEq] at h
  | some slot =>
    simp only [hslot] at h
    cases hprecord : slot.precord with
    | some precord =>
      simp only [hprecord] at h
      obtain ⟨value, hvalue, h⟩ := Outcome.bind_eq_done.1 h
      obtain ⟨rfl, rfl⟩ := Outcome.pair_inj h
      cases htemplate : templateOf ops box with
      | none =>
        rw [htemplate] at hvalue
        cases hvalue
      | some template =>
        rw [htemplate] at hvalue
        exact ⟨rfl, rfl, slot, precord, template, value, hslot, hprecord, rfl, rfl, hvalue⟩
    | none =>
      simp only [hprecord] at h
      cases htemplate : templateOf ops box with
      | none => simp only [htemplate, reduceCtorEq] at h
      | some template =>
        simp only [htemplate] at h
        obtain ⟨mem, _, h⟩ := Outcome.bind_eq_done.1 h
        cases mem with
        | false => cases h
        | true =>
          cases hblob : slot.record with
          | none => simp [hblob] at h
          | some blob =>
            simp only [hblob, Bool.not_true, Bool.false_eq_true, if_false] at h
            obtain ⟨⟨size, precord⟩, _, h⟩ := Outcome.bind_eq_done.1 h
            obtain ⟨value, hvalue, h⟩ := Outcome.bind_eq_done.1 h
            obtain ⟨rfl, rfl⟩ := Outcome.pair_inj h
            have hlt := (List.getElem?_eq_some_iff.1 hslot).1
            exact ⟨rfl, rfl, _, precord, template, value, List.getElem?_set_self hlt, rfl, rfl,
              rfl, hvalue⟩

/-- Getting a record changes neither the head of the message nor its expands, and
    the record is got again from the message after it. -/
theorem getRecord_again (hno : ¬ recordNo < 0)
    (h : messageGetRecord ops heap box recordNo = .done (record, box')) :
    box'.head = box.head ∧ box'.expands = box.expands ∧
      messageGetRecord ops heap box' recordNo = .done (record, box') := by
  rcases getRecord_cases h with ⟨_, rfl, rfl⟩ |
    ⟨hge, hhead, hexpands, slot, precord, template, value, hslot, hprecord, htemplate, rfl, hvalue⟩
  · exact ⟨rfl, rfl, h⟩
  have htemplateOf : templateOf ops box' = some template := by rw [templateOf, htemplate]
  refine ⟨hhead, hexpands, ?_⟩
  rw [getRecord_precord hno (by rwa [hhead]) hslot hprecord, htemplateOf, hvalue,
    Outcome.done_bind, ← htemplate]

end Cube.Message
