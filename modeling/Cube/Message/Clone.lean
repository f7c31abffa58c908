import Cube.Message.Add
import Cube.Message.Expand

/-!
# Cloning a message

`message_clone` copies a message for the paths that are to have one of their own. The records
are copied as structures, one by one, or as the bytes in the blob where they are encrypted. The
expands are copied as structures, but for those that are about the path of a message. What is only
bytes is passed over, with a note that this is not finished.

A clone that fails is freed by `message_free`, and with it its templates. They are those that are
in the database, so that the message to be cloned has them as well.

* `cloneRecords_ok`, `cloneExpands_ok`: what the loops over the records and the expands copy;
* `clones_iff`: the messages that are cloned as they should, or refused and left as they are.
-/

namespace Cube.Message

open Lib

variable {T V : Type}

/-! ## The code -/

/-- The type of the expands that are about the path of a message. -/
def DTYPE_MSG_EXPAND : Int32 := 0x201

/-- The subtypes of these expands, of `enum subtypelist_msg_expand`. -/
def SUBTYPE_FLOW_TRACE : Int32 := 0x01
def SUBTYPE_ASPECT_POINT : Int32 := 0x02
def SUBTYPE_ROUTE_RECORD : Int32 := 0x03

/-- The type and subtype are those of an expand about the path of a message. -/
def isPathExpand (type subtype : Int32) : Bool :=
  type = DTYPE_MSG_EXPAND && (subtype = SUBTYPE_FLOW_TRACE || subtype = SUBTYPE_ASPECT_POINT ||
    subtype = SUBTYPE_ROUTE_RECORD)

/-- What `message_clone` returns: the error `-EINVAL` in place of a pointer, `NULL`, where the
    templates may have been freed, or the clone. -/
inductive CloneResult (T V : Type)
  | error
  | null (freed : Bool)
  | message (box : MessageBox T V)

/-- What a part of `message_clone` comes to: it returns, or goes on with the clone so far. -/
abbrev Cloning (T V : Type) := Except (CloneResult T V) (MessageBox T V)

/-- One part after another. -/
def andThen (x : Outcome (Cloning T V)) (f : MessageBox T V → Outcome (Cloning T V)) :
    Outcome (Cloning T V) := do
  match ← x with
  | .error result => .done (.error result)
  | .ok new => f new

/-- `message_free`, which frees the templates of the message last. The array of the records is
    freed without asking whether there is one. -/
def messageFree (box : MessageBox T V) : Outcome Unit :=
  if box.expands.length < box.head.expandNum.toInt.toNat then .fault
  else if box.records.length < box.head.recordNum.toInt.toNat then .fault
  else if box.records.isEmpty then .fault
  else if box.recordTemplate.isNone then .fault
  else .done ()

/-- The clone is freed and `NULL` is returned. -/
def giveUp (new : MessageBox T V) : Outcome (Cloning T V) := do
  messageFree new
  .done (.error (.null true))

section Code

variable (ops : CloneOps T V) (heap : Heap)

/-- `clone_struct`: the copy of the structure, or none. -/
def cloneStructRun (template : Option T) (addr : V) : Outcome (Option V) :=
  match template with
  | none => .fault
  | some template => do
    let mem ← dalloc0 heap (ops.structSize template)
    if !mem then .done none
    else match ops.structCloneRun template addr with
    | none => .fault
    | some (ret, newStruct) => .done (if ret < 0 then none else some newStruct)

/-- `message_add_expand_data`: what it returns and the message after the call. -/
def messageAddExpandDataRun (type subtype : Int32) (expand : V) (box : MessageBox T V) :
    Outcome (Int × MessageBox T V) := do
  let mem ← dalloc0 heap 20
  if !mem then .done (-ENOMEM, box)
  else messageAddExpandRun ops heap (some ⟨0, type, subtype, expand⟩) box

/-- The new message with the head, and the template of its records, which are none so far. -/
def cloneInit (box : MessageBox T V) : MessageBox T V where
  head := { box.head with
    recordNum := 0
    expandNum := 0
    expandSize := 0 }
  recordTemplate := ops.getTemplate box.head.recordType box.head.recordSubtype
  boxState := .init
  headSize := 0
  records := []
  expands := []
  blob := .null
  currentOffset := 0

/-- The records that are encrypted: the bytes of the blob are copied. -/
def cloneBlob (box new : MessageBox T V) : Outcome (Cloning T V) :=
  if box.blob = .null then .done (.error (.null false))
  else if !heap.ok box.head.recordSize.toInt then .done (.error (.null false))
  else match box.blob with
    | .bytes data => do
      let blob ← copyBlock (some data) box.head.recordSize
      .done (.ok { new with
        head := { new.head with recordNum := box.head.recordNum }
        blob := .bytes blob })
    | _ => .fault

/-- The loop over the first `n` records. -/
def cloneRecords (template : Option T) :
    Nat → List (RecordSlot V) → MessageBox T V → Outcome (Cloning T V)
  | 0, _, new => .done (.ok new)
  | _ + 1, [], _ => .fault
  | n + 1, slot :: slots, new =>
    match slot.precord with
    | none => giveUp new
    | some precord => do
      match ← cloneStructRun ops heap template precord with
      | none => giveUp new
      | some record => do
        -- What the call returns is not asked for.
        let (_, new) ← messageAddRecordRun ops heap (some record) new
        cloneRecords template n slots new

/-- The loop over the first `n` expands. -/
def cloneExpands : Nat → List (ExpandSlot V) → MessageBox T V → Outcome (Cloning T V)
  | 0, _, new => .done (.ok new)
  | _ + 1, [], _ => .fault
  | n + 1, slot :: slots, new =>
    match slot.pexpand, slot.expand with
    | some expand, _ =>
      if isPathExpand expand.type expand.subtype then cloneExpands n slots new
      else do
        let (ret, new) ← messageAddExpandDataRun ops heap expand.type expand.subtype expand.expand new
        if ret < 0 then giveUp new else cloneExpands n slots new
    -- An expand of bytes only: a note is printed.
    | none, some _ => cloneExpands n slots new
    | none, none => giveUp new

/-- The records of `message_clone`. -/
def cloneContents (box new : MessageBox T V) : Outcome (Cloning T V) :=
  if box.head.flag &&& MSG_FLAG_CRYPT ≠ 0 ∨ new.recordTemplate.isNone then cloneBlob heap box new
  else cloneRecords ops heap box.recordTemplate box.head.recordNum.toInt.toNat box.records
    { new with head := { new.head with
        recordNum := 0
        recordSize := 0 } }

/-- `message_clone` of a message, which is not `NULL`, given whether there is memory for a new
    one. -/
def messageClone (memory : Bool) (box : MessageBox T V) : Outcome (CloneResult T V) := do
  if !memory then .done .error
  else
    let new := cloneInit ops box
    let start : Outcome (Cloning T V) := if new.recordTemplate.isNone then giveUp new else .done (.ok new)
    match ← andThen (andThen start (cloneContents ops heap box))
      (cloneExpands ops heap box.head.expandNum.toInt.toNat box.expands) with
    | .error result => .done result
    | .ok new => .done (.message new)

end Code

/-! ## What a clone should be -/

/-- What is in the place of an expand: its type, subtype and structure, or else its bytes. -/
def ExpandSlot.holds (slot : ExpandSlot V) : Option (Int32 × Int32 × V) × Option (List UInt8) :=
  match slot.pexpand with
  | some expand => (some expand.content, none)
  | none => (none, slot.expand)

/-- The expand is about the path of the message. -/
def ExpandSlot.leftOut (slot : ExpandSlot V) : Bool :=
  match slot.kind with
  | some (type, subtype) => isPathExpand type subtype
  | none => false

/-- The expands that a clone has as well. -/
def keptExpands (box : MessageBox T V) : List (ExpandSlot V) := box.held.filter (!·.leftOut)

/-- The message without the expands that are left out. -/
def withoutPath (box : MessageBox T V) : MessageBox T V :=
  { box with
    expands := keptExpands box
    head := { box.head with
      expandNum := box.head.expandNum - Int32.ofNat (box.held.countP (·.leftOut)) } }

/-- The structures of the records that a message counts. -/
def recordValues (box : MessageBox T V) : List (Option V) :=
  (box.records.take box.head.recordNum.toInt.toNat).map (·.precord)

/-- The same records: the same bytes where they are encrypted, and the same structures where not. -/
def SameRecords (box new : MessageBox T V) : Prop :=
  if box.head.flag &&& MSG_FLAG_CRYPT ≠ 0 then
    ∃ data, box.blob = .bytes data ∧ new.head.recordNum = box.head.recordNum ∧
      new.head.recordSize = box.head.recordSize ∧
      copyBlock (some data) box.head.recordSize = .done (data.take box.head.recordSize.toInt.toNat) ∧
      new.blob = .bytes (data.take box.head.recordSize.toInt.toNat)
  else recordValues new = recordValues box

/-- The bytes of the message without the expands that are left out, if there are any, are those
    of the clone. -/
def SameBytes (ops : CloneOps T V) (box new : MessageBox T V) : Prop :=
  ∀ bytes box', messageOutputBlob ops.toCodec Heap.ample outputBufsize (withoutPath box) =
    .done (bytes, box') →
      ∃ new', messageOutputBlob ops.toCodec Heap.ample outputBufsize new = .done (bytes, new')

/-- The clone of a message. Its head tells the sizes and the numbers of what it has. -/
structure IsClone (ops : CloneOps T V) (box new : MessageBox T V) : Prop where
  head : new.head = { box.head with
    recordNum := new.head.recordNum
    recordSize := new.head.recordSize
    expandNum := new.head.expandNum
    expandSize := new.head.expandSize }
  records : SameRecords box new
  expands : new.held.map ExpandSlot.holds = (keptExpands box).map ExpandSlot.holds
  bytes : SameBytes ops box new

/-- The message is cloned, or the call fails and leaves the templates of the message. -/
def Clones (ops : CloneOps T V) (heap : Heap) (memory : Bool) (box : MessageBox T V) : Prop :=
  ∃ result, messageClone ops heap memory box = .done result ∧ match result with
    | .error => True
    | .null freed => freed = false
    | .message new => IsClone ops box new

/-! ## When a message is cloned -/

/-- There is memory for one place more than the number. -/
structure SiteOk (heap : Heap) (num : Nat) : Prop where
  below : num + 1 < 2 ^ 31
  fits : SiteFits (Int32.ofNat (num + 1))
  memory : heap.ok (siteSize (Int32.ofNat (num + 1)) + 12) = true

/-- A structure is copied twice, to the place of that number, and the copy is the other one. -/
def RecordCopies (ops : CloneOps T V) (heap : Heap) (source : Option T) (template : T) (num : Nat)
    (record value : V) : Prop :=
  ∃ copy, cloneStructRun ops heap source record = .done (some copy) ∧ SiteOk heap num ∧
    dalloc0 heap (ops.structSize template) = .done true ∧
    ∃ ret, ops.structCloneRun template copy = some (ret, value)

/-- All of the records are structures that are copied to the same ones. -/
def RecordsCopy (ops : CloneOps T V) (heap : Heap) (template : T) (box : MessageBox T V) : Prop :=
  ∀ i < box.head.recordNum.toInt.toNat, ∃ slot record, box.records[i]? = some slot ∧
    slot.precord = some record ∧
    RecordCopies ops heap box.recordTemplate template i record record

/-- A structure is copied to the place of that number, and the copy is the other one. -/
def ExpandCopies (ops : CloneOps T V) (heap : Heap) (num : Nat) (expand : MsgExpand V) (value : V) :
    Prop :=
  dalloc0 heap 20 = .done true ∧ SiteOk heap num ∧
    ∃ template ret, ops.getTemplate expand.type expand.subtype = some template ∧
      dalloc0 heap (ops.structSize template) = .done true ∧
      ops.structCloneRun template expand.expand = some (ret, value) ∧ 0 ≤ ret

/-- There are as many expands as are counted, and all but those left out are structures that are
    copied to the same ones. -/
def ExpandsCopy (ops : CloneOps T V) (heap : Heap) (box : MessageBox T V) : Prop :=
  box.head.expandNum.toInt.toNat ≤ box.expands.length ∧
  ∀ i slot, (keptExpands box)[i]? = some slot → ∃ expand, slot.pexpand = some expand ∧
    ExpandCopies ops heap i expand expand.expand

/-- The bytes of the structures one behind the other. -/
def encodings (ops : CloneOps T V) (template : T) : List V → Outcome (List UInt8)
  | [] => .done []
  | record :: records => do
    let bytes ← ops.struct2Blob template record
    let rest ← encodings ops template records
    .done (bytes ++ rest)

/-- If the message can be written, without the expands that are left out, what is written of its
    records is the bytes of their structures. -/
def RecordsEncode (ops : CloneOps T V) (template : T) (box : MessageBox T V) : Prop :=
  (∃ written, messageOutputBlob ops.toCodec Heap.ample outputBufsize (withoutPath box) = .done written) →
    ∀ bytes box', outputRecords ops.toCodec Heap.ample outputBufsize (withoutPath box) =
      .done (bytes, box') →
        encodings ops template ((recordValues box).filterMap id) = .done bytes

/-- The condition for a message: there is no memory for a new one; or there is a template for its
    type, and it is encrypted without bytes to copy or memory for them, or its records and expands
    can be copied. -/
def Cloneable (ops : CloneOps T V) (heap : Heap) (memory : Bool) (box : MessageBox T V) : Prop :=
  memory = false ∨ ∃ template,
    ops.getTemplate box.head.recordType box.head.recordSubtype = some template ∧
    if box.head.flag &&& MSG_FLAG_CRYPT ≠ 0 then
      box.blob = .null ∨ heap.ok box.head.recordSize.toInt = false ∨
        (∃ data, box.blob = .bytes data ∧ box.head.recordSize.toInt ≤ data.length) ∧
          ExpandsCopy ops heap box
    else RecordsCopy ops heap template box ∧ ExpandsCopy ops heap box ∧
      RecordsEncode ops template box

/-! ## Parts -/

section Parts

variable {box new new' base : MessageBox T V} {ops : CloneOps T V} {heap : Heap} {num : Nat}

theorem giveUp_ne_ok : giveUp new ≠ .done (.ok new') := by
  rw [giveUp]
  cases messageFree new <;> exact nofun

/-- A clone that is given up has its templates freed. -/
theorem giveUp_error {result : CloneResult T V} (h : giveUp new = .done (.error result)) :
    result = .null true := by
  rw [giveUp] at h
  obtain ⟨-, -, h⟩ := Outcome.bind_eq_done.1 h
  exact (Except.error.inj (Outcome.done.inj h)).symm

theorem andThen_ok {x : Outcome (Cloning T V)} {f : MessageBox T V → Outcome (Cloning T V)} :
    andThen x f = .done (.ok new') ↔ ∃ new, x = .done (.ok new) ∧ f new = .done (.ok new') := by
  cases x with
  | done r => cases r <;> simp [andThen]
  | error e => simp [andThen]
  | fault => simp [andThen]

theorem andThen_error {x : Outcome (Cloning T V)} {f : MessageBox T V → Outcome (Cloning T V)}
    {result : CloneResult T V} : andThen x f = .done (.error result) ↔
      x = .done (.error result) ∨ ∃ new, x = .done (.ok new) ∧ f new = .done (.error result) := by
  cases x with
  | done r => cases r <;> simp [andThen]
  | error e => simp [andThen]
  | fault => simp [andThen]

theorem toInt_ofNat_succ (h : num + 1 < 2 ^ 31) : (Int32.ofNat (num + 1)).toInt = (num : Int) + 1 := by
  rw [int32_ofNat_toInt h]
  rfl

/-- The places that are there grow by one if there is memory for as many. -/
theorem grows_iff {S : Type} {count : Int32} {slots : List S} (h : count.toInt = slots.length) :
    Grows heap count slots ↔ SiteOk heap slots.length := by
  have hnext (hlt : slots.length + 1 < 2 ^ 31) : count + 1 = Int32.ofNat (slots.length + 1) := by
    refine Int32.toInt_inj.1 ?_
    rw [toInt_ofNat_succ hlt, int32_add_one (by omega), h]
  constructor
  · intro hgrows
    have hlt : slots.length + 1 < 2 ^ 31 := by
      have := hgrows.below
      omega
    exact ⟨hlt, hnext hlt ▸ hgrows.fits, hnext hlt ▸ hgrows.memory⟩
  · intro hsite
    refine ⟨by omega, by omega, by have := hsite.below; omega, ?_, ?_⟩
    · rw [hnext hsite.below]
      exact hsite.fits
    · rw [hnext hsite.below]
      exact hsite.memory

/-! ## Records -/

/-- The place of a record that was copied. -/
def recordSlot (record : V) : RecordSlot V := ⟨none, some record, 0⟩

/-- The clone so far has the records, and all else as it had before. -/
structure RecordsAre (base new : MessageBox T V) (records : List V) : Prop where
  head : new.head = { base.head with recordNum := new.head.recordNum }
  num : new.head.recordNum.toInt = records.length
  records : new.records = records.map recordSlot
  recordTemplate : new.recordTemplate = base.recordTemplate
  expands : new.expands = base.expands
  blob : new.blob = base.blob

/-- One of the records that are counted is not there. -/
def Lost (new : MessageBox T V) : Prop :=
  new.records.length < new.head.recordNum.toInt.toNat ∨
    ∃ slot ∈ new.records.take new.head.recordNum.toInt.toNat, slot.taken = false

/-- As many records are counted, of which one is lost, and the expands are as they were. -/
structure LosesRecord (base new : MessageBox T V) (num : Nat) : Prop where
  lost : Lost new
  num : new.head.recordNum.toInt = num
  expandNum : new.head.expandNum = base.head.expandNum
  expands : new.expands = base.expands

variable {slots : List (ExpandSlot V)} {records : List V} {template : T} {source : Option T}
  {n : Nat} {slot : ExpandSlot V} {expand : MsgExpand V} {bytes : List UInt8}

theorem RecordsAre.values (h : RecordsAre base new records) :
    recordValues new = records.map some := by
  rw [recordValues, h.num, Int.toNat_natCast, h.records, List.take_of_length_le (by simp), List.map_map]
  rfl

/-- A record that is lost is not among those of the clone. -/
theorem Lost.values (h : Lost new) (hnum : new.head.recordNum.toInt = records.length) :
    recordValues new ≠ records.map some := by
  intro heq
  rw [recordValues, hnum, Int.toNat_natCast] at heq
  rw [Lost, hnum, Int.toNat_natCast] at h
  rcases h with hshort | ⟨slot, hslot, hfree⟩
  · have hlen := congrArg List.length heq
    rw [List.length_map, List.length_map, List.length_take] at hlen
    omega
  · have hsome : slot.precord ∈ records.map some := heq ▸ List.mem_map_of_mem hslot
    obtain ⟨record, -, hrecord⟩ := List.mem_map.1 hsome
    rw [RecordSlot.taken, ← hrecord] at hfree
    cases hfree

/-- Nothing is added where a record is lost. -/
theorem Lost.add (h : Lost new) (record : V) : messageAddRecordRun ops heap (some record) new = .fault := by
  have hsite : recordSiteRun heap new = .fault := by
    rw [recordSiteRun]
    rcases h with hshort | ⟨slot, hslot, hfree⟩
    · split_ifs
      · rfl
      · rfl
    · refine if_pos (List.any_eq_true.2 ⟨slot, hslot, ?_⟩)
      rw [hfree]
      rfl
  rw [messageAddRecordRun, hsite]
  rfl

theorem RecordsAre.length_eq (h : RecordsAre base new records) :
    new.records.length = records.length := by
  rw [h.records, List.length_map]

theorem RecordsAre.count (h : RecordsAre base new records) :
    new.head.recordNum.toInt = new.records.length := by
  rw [h.num, h.length_eq]

theorem RecordsAre.taken (h : RecordsAre base new records) :
    ∀ slot ∈ new.records.take new.head.recordNum.toInt.toNat, slot.taken = true := by
  intro slot hslot
  obtain ⟨record, -, rfl⟩ := List.mem_map.1 (h.records ▸ List.mem_of_mem_take hslot)
  rfl

theorem RecordsAre.moreRecords (h : RecordsAre base new records)
    (hgrows : Grows heap new.head.recordNum new.records) :
    new.moreRecords.records = new.records ++ [.empty] ∧
      new.moreRecords.head.recordNum.toInt = records.length + 1 := by
  have hcount := h.count
  refine ⟨?_, (int32_add_one (Int.not_le.2 hgrows.below)).trans (by rw [h.num])⟩
  rw [MessageBox.moreRecords, List.take_of_length_le (by omega)]

/-- A record is added behind those that were copied, whatever the copying returns. -/
theorem addRecord_done (h : RecordsAre base new records)
    (htemplate : base.recordTemplate = some template) (hsite : SiteOk heap records.length)
    (hmem : dalloc0 heap (ops.structSize template) = .done true) {copy value : V} {ret : Int}
    (hclone : ops.structCloneRun template copy = some (ret, value)) :
    ∃ new', messageAddRecordRun ops heap (some copy) new = .done (ret, new') ∧
      RecordsAre base new' (records ++ [value]) := by
  have hgrows := (grows_iff h.count).2 (h.length_eq ▸ hsite)
  have hsite' : RecordSite heap new := ⟨hgrows, h.taken⟩
  have hmore : new.moreRecords.recordTemplate = some template := h.recordTemplate.trans htemplate
  have hcount := h.count
  have hset : new.moreRecords.records.set new.head.recordNum.toInt.toNat ⟨none, some value, 0⟩ =
      (records ++ [value]).map recordSlot := by
    rw [hsite'.set, List.take_of_length_le (by omega), h.records, List.map_append]
    rfl
  have hare (boxState : BoxState) : RecordsAre base { new.moreRecords with
      records := new.moreRecords.records.set new.head.recordNum.toInt.toNat ⟨none, some value, 0⟩
      boxState := boxState } (records ++ [value]) := by
    refine ⟨?_, ?_, hset, h.recordTemplate, h.expands, h.blob⟩
    · rw [MessageBox.moreRecords, h.head]
    · rw [List.length_append, List.length_singleton]
      exact (h.moreRecords hgrows).2
  by_cases hret : ret < 0
  · refine ⟨_, ?_, hare new.moreRecords.boxState⟩
    simp only [messageAddRecordRun, recordSiteRun_done hsite', hmore, hmem, hclone,
      Outcome.done_bind, if_pos hret]
    rfl
  · refine ⟨_, ?_, hare .add⟩
    simp only [messageAddRecordRun, recordSiteRun_done hsite', hmore, hmem, hclone,
      Outcome.done_bind, if_neg hret]
    rfl

/-- Where there is no place for a record, the number is counted up and the array is lost. -/
theorem recordSite_lost (h : RecordsAre base new records)
    (hgrows : ¬ Grows heap new.head.recordNum new.records) :
    recordSiteRun heap new = .fault ∨ ∃ lost, recordSiteRun heap new = .done (-ENOMEM, lost) ∧
      LosesRecord base lost (records.length + 1) := by
  have hcount := h.count
  have hnum := h.num
  have hany : (new.records.take new.head.recordNum.toInt.toNat).any (fun slot => !slot.taken) =
      false := List.any_eq_false.2 fun slot hslot => by rw [h.taken slot hslot]; decide
  rw [recordSiteRun, if_neg (by rw [hany]; decide), if_neg (by omega), if_neg (by omega)]
  rcases addSiteRun_cases heap new.head.recordNum new.records .empty with
    hfault | ⟨-, hrun⟩ | ⟨-, -, -, hneg | hgrows'⟩
  · exact .inl (by rw [hfault]; rfl)
  · have hbelow : ¬ new.head.recordNum.toInt + 1 ≥ 2 ^ 31 := by
      intro hfull
      rw [addSiteRun, if_pos hfull] at hrun
      cases hrun
    have hnext := int32_add_one hbelow
    rw [hrun]
    refine .inr ⟨_, rfl, .inl ?_, ?_, ?_, h.expands⟩
    · simp only [List.length_nil, hnext]
      omega
    · simp only [hnext]
      omega
    · rw [h.head]
  · omega
  · exact absurd hgrows' hgrows

/-- What adding a record to those that were copied comes to, if it does not fault: a record is
    lost, or it is added. -/
theorem addRecord_cases (h : RecordsAre base new records)
    (htemplate : base.recordTemplate = some template) {copy : V} {ret : Int}
    (hrun : messageAddRecordRun ops heap (some copy) new = .done (ret, new')) :
    LosesRecord base new' (records.length + 1) ∨
    (SiteOk heap records.length ∧ dalloc0 heap (ops.structSize template) = .done true ∧
      ∃ value, ops.structCloneRun template copy = some (ret, value) ∧
        RecordsAre base new' (records ++ [value])) := by
  by_cases hgrows : Grows heap new.head.recordNum new.records
  swap
  · rcases recordSite_lost h hgrows with hfault | ⟨lost, hlost, hloses⟩
    · rw [messageAddRecordRun, hfault] at hrun
      cases hrun
    · have hneg : (-ENOMEM : Int) < 0 := by decide
      simp only [messageAddRecordRun, hlost, Outcome.done_bind, if_pos hneg] at hrun
      obtain ⟨-, rfl⟩ := Outcome.pair_inj hrun
      exact .inl hloses
  have hmore : new.moreRecords.recordTemplate = some template := h.recordTemplate.trans htemplate
  obtain ⟨hrecords, hnum⟩ := h.moreRecords hgrows
  have hsite := recordSiteRun_done ⟨hgrows, h.taken⟩
  rcases hmem : dalloc0 heap (ops.structSize template) with (_ | _) | e | _
  · -- The place that was added is left empty.
    simp only [messageAddRecordRun, hsite, hmore, hmem, Outcome.done_bind] at hrun
    obtain ⟨-, rfl⟩ := Outcome.pair_inj hrun
    refine .inl ⟨.inr ⟨.empty, ?_, rfl⟩, hnum, ?_, h.expands⟩
    · rw [hrecords, List.take_of_length_le (by simp [hnum, h.length_eq])]
      exact List.mem_append_right _ (List.mem_singleton_self _)
    · rw [MessageBox.moreRecords, h.head]
  · cases hclone : ops.structCloneRun template copy with
    | none =>
      simp only [messageAddRecordRun, hsite, hmore, hmem, hclone, Outcome.done_bind] at hrun
      cases hrun
    | some result =>
      have hok := h.length_eq ▸ (grows_iff h.count).1 hgrows
      obtain ⟨new₁, hdone, hare⟩ := addRecord_done h htemplate hok hmem hclone
      obtain ⟨rfl, rfl⟩ := Outcome.pair_inj (hdone.symm.trans hrun)
      exact .inr ⟨hok, rfl, result.2, rfl, hare⟩
  · exact absurd hmem dalloc0_ne_error
  · simp only [messageAddRecordRun, hsite, hmore, hmem, Outcome.done_bind] at hrun
    cases hrun

/-- A turn of the loop that does not return: the record is a structure that is copied. -/
theorem cloneRecords_cons {slot : RecordSlot V} {slots : List (RecordSlot V)}
    (hok : cloneRecords ops heap source (n + 1) (slot :: slots) new = .done (.ok new')) :
    ∃ record copy ret new₁, slot.precord = some record ∧
      cloneStructRun ops heap source record = .done (some copy) ∧
      messageAddRecordRun ops heap (some copy) new = .done (ret, new₁) ∧
      cloneRecords ops heap source n slots new₁ = .done (.ok new') := by
  rw [cloneRecords] at hok
  cases hrecord : slot.precord with
  | none =>
    rw [hrecord] at hok
    exact absurd hok giveUp_ne_ok
  | some record =>
    simp only [hrecord] at hok
    obtain ⟨_ | copy, hcopy, hok⟩ := Outcome.bind_eq_done.1 hok
    · exact absurd hok giveUp_ne_ok
    · obtain ⟨⟨ret, new₁⟩, hadd, hok⟩ := Outcome.bind_eq_done.1 hok
      exact ⟨record, copy, ret, new₁, rfl, hcopy, hadd, hok⟩

/-- Where a record is lost, the loop does not come to another one and go on. -/
theorem Lost.cloneRecords (h : Lost new) {source : Option T} {n : Nat} {slots : List (RecordSlot V)}
    (hok : cloneRecords ops heap source n slots new = .done (.ok new')) : n = 0 ∧ new' = new := by
  cases n with
  | zero => exact ⟨rfl, (Except.ok.inj (Outcome.done.inj hok)).symm⟩
  | succ n =>
    cases slots with
    | nil => cases hok
    | cons slot slots =>
      obtain ⟨record, copy, ret, new₁, -, -, hadd, -⟩ := cloneRecords_cons hok
      cases h.add copy |>.symm.trans hadd

/-- What the loop over the records copies, if it comes to its end: a record is lost, or each of
    them is a structure that was copied. -/
theorem cloneRecords_ok (h : RecordsAre base new records)
    (htemplate : base.recordTemplate = some template) {slots : List (RecordSlot V)}
    (hok : cloneRecords ops heap source n slots new = .done (.ok new')) :
    LosesRecord base new' (records.length + n) ∨ ∃ values : List V,
      values.length = n ∧ RecordsAre base new' (records ++ values) ∧
      ∀ i < n, ∃ slot record value, slots[i]? = some slot ∧ slot.precord = some record ∧
        values[i]? = some value ∧
        RecordCopies ops heap source template (records.length + i) record value := by
  induction n generalizing new records slots with
  | zero =>
    obtain rfl := Except.ok.inj (Outcome.done.inj hok)
    exact .inr ⟨[], rfl, by rwa [List.append_nil], fun i hi => absurd hi (Nat.not_lt_zero i)⟩
  | succ n ih =>
    cases slots with
    | nil => cases hok
    | cons slot slots =>
      obtain ⟨record, copy, ret, new₁, hrecord, hcopy, hadd, hok⟩ := cloneRecords_cons hok
      rcases addRecord_cases h htemplate hadd with hloses | ⟨hsite, hmem, value, hclone, hare⟩
      · obtain ⟨rfl, rfl⟩ := hloses.lost.cloneRecords hok
        exact .inl hloses
      · rcases ih hare hok with hloses | ⟨values, hlen, hare', hcopies⟩
        · rw [List.length_append, List.length_singleton, Nat.add_assoc, Nat.add_comm 1] at hloses
          exact .inl hloses
        · refine .inr ⟨value :: values, by rw [List.length_cons, hlen], ?_, fun i hi => ?_⟩
          · rwa [List.append_assoc] at hare'
          · cases i with
            | zero => exact ⟨slot, record, value, rfl, hrecord, rfl, copy, hcopy, hsite, hmem, ret, hclone⟩
            | succ i =>
              obtain ⟨slot', record', value', hslot', hrecord', hvalue', hcopies'⟩ :=
                hcopies i (Nat.lt_of_succ_lt_succ hi)
              refine ⟨slot', record', value', hslot', hrecord', hvalue', ?_⟩
              rw [List.length_append, List.length_singleton, Nat.add_assoc, Nat.add_comm 1] at hcopies'
              exact hcopies'

/-- Records that are structures which are copied to the same ones come to be in the clone. -/
theorem cloneRecords_done (h : RecordsAre base new records)
    (htemplate : base.recordTemplate = some template) {slots : List (RecordSlot V)}
    (hcopies : ∀ i < n, ∃ slot record, slots[i]? = some slot ∧ slot.precord = some record ∧
      RecordCopies ops heap source template (records.length + i) record record) :
    ∃ new' values, cloneRecords ops heap source n slots new = .done (.ok new') ∧
      values.map some = (slots.take n).map (·.precord) ∧ RecordsAre base new' (records ++ values) := by
  induction n generalizing new records slots with
  | zero => exact ⟨new, [], rfl, rfl, by rwa [List.append_nil]⟩
  | succ n ih =>
    obtain ⟨slot, record, hslot, hrecord, copy, hcopy, hsite, hmem, ret, hclone⟩ :=
      hcopies 0 (Nat.succ_pos n)
    cases slots with
    | nil => cases hslot
    | cons slot' slots =>
      obtain rfl := Option.some.inj hslot
      obtain ⟨new₁, hrun, hare⟩ := addRecord_done h htemplate hsite hmem hclone
      have hrest : ∀ i < n, ∃ slot record', slots[i]? = some slot ∧ slot.precord = some record' ∧
          RecordCopies ops heap source template ((records ++ [record]).length + i) record' record' := by
        intro i hi
        obtain ⟨slot, record', hslot, hrecord', hcopies'⟩ := hcopies (i + 1) (Nat.succ_lt_succ hi)
        refine ⟨slot, record', hslot, hrecord', ?_⟩
        rwa [List.length_append, List.length_singleton, Nat.add_assoc, Nat.add_comm 1]
      obtain ⟨new', values, hok, hvalues, hare'⟩ := ih hare hrest
      refine ⟨new', record :: values, ?_, ?_, ?_⟩
      · rw [cloneRecords, hrecord]
        simp only [hcopy, hrun, Outcome.done_bind, hok]
      · rw [List.map_cons, List.take_succ_cons, List.map_cons, hvalues, hrecord]
      · rwa [List.append_assoc] at hare'

/-! ## Expands -/

/-- The place of an expand that was copied. -/
def expandSlot (content : Int32 × Int32 × V) : ExpandSlot V :=
  ⟨none, some ⟨0, content.1, content.2.1, content.2.2⟩, 0⟩

/-- The clone so far has the expands, and all else as it had before. -/
structure ExpandsAre (base new : MessageBox T V) (expands : List (Int32 × Int32 × V)) : Prop where
  head : new.head = { base.head with expandNum := new.head.expandNum }
  num : new.head.expandNum.toInt = expands.length
  expands : new.expands = expands.map expandSlot
  recordTemplate : new.recordTemplate = base.recordTemplate
  records : new.records = base.records
  blob : new.blob = base.blob

variable {expands : List (Int32 × Int32 × V)}

theorem ExpandsAre.count (h : ExpandsAre base new expands) :
    new.head.expandNum.toInt = new.expands.length := by
  rw [h.num, h.expands, List.length_map]

theorem ExpandsAre.held (h : ExpandsAre base new expands) :
    new.held.map ExpandSlot.holds = expands.map fun content => (some content, none) := by
  rw [MessageBox.held, h.num, Int.toNat_natCast, h.expands, List.take_of_length_le (by simp), List.map_map]
  rfl

/-- An expand is added behind those that were copied. -/
theorem addExpand_done (h : ExpandsAre base new expands) {value : V}
    (hcopies : ExpandCopies ops heap expands.length expand value) :
    ∃ ret new', messageAddExpandDataRun ops heap expand.type expand.subtype expand.expand new =
      .done (ret, new') ∧ 0 ≤ ret ∧
      ExpandsAre base new' (expands ++ [(expand.type, expand.subtype, value)]) := by
  obtain ⟨hmem, hsite, template, ret, htemplate, hstruct, hclone, hret⟩ := hcopies
  have hlen : new.expands.length = expands.length := by rw [h.expands, List.length_map]
  have hcount := h.count
  have hgrows := (grows_iff hcount).2 (hlen ▸ hsite)
  have hset (slot : ExpandSlot V) := set_append_last
    (new.expands.take new.head.expandNum.toInt.toNat) .empty slot
    (List.length_take_of_le hgrows.there).symm
  refine ⟨ret, { new with
    expands := new.expands.take new.head.expandNum.toInt.toNat ++
      [⟨none, some ⟨0, expand.type, expand.subtype, value⟩, 0⟩]
    head := { new.head with expandNum := new.head.expandNum + 1 }
    boxState := .expand }, ?_, hret, ?_⟩
  · simp only [messageAddExpandDataRun, messageAddExpandRun, addSiteRun_done hgrows, hmem, htemplate,
      hstruct, hclone, Outcome.done_bind, if_neg (Int.not_lt.2 hret),
      if_neg (Int.not_lt.2 hgrows.nonneg), hset]
    rfl
  · refine ⟨?_, ?_, ?_, h.recordTemplate, h.records, h.blob⟩
    · rw [h.head]
    · rw [List.length_append, List.length_singleton]
      exact (int32_add_one (Int.not_le.2 hgrows.below)).trans (by rw [h.num]; rfl)
    · rw [List.take_of_length_le (by omega), h.expands, List.map_append]
      rfl

/-- An expand that is added without an error was copied. -/
theorem addExpand_cases (h : ExpandsAre base new expands) {ret : Int}
    (hrun : messageAddExpandDataRun ops heap expand.type expand.subtype expand.expand new =
      .done (ret, new')) (hret : 0 ≤ ret) :
    ∃ value, ExpandCopies ops heap expands.length expand value ∧
      ExpandsAre base new' (expands ++ [(expand.type, expand.subtype, value)]) := by
  rcases hmem : dalloc0 heap 20 with (_ | _) | e | _
  · simp only [messageAddExpandDataRun, hmem, Outcome.done_bind] at hrun
    obtain ⟨rfl, -⟩ := Outcome.pair_inj hrun
    exact absurd hret (by decide)
  · have hadd : messageAddExpandRun ops heap (some ⟨0, expand.type, expand.subtype, expand.expand⟩) new =
        .done (ret, new') := by
      simpa only [messageAddExpandDataRun, hmem, Outcome.done_bind, Bool.not_true, Bool.false_eq_true,
        if_false] using hrun
    have hcases : Spoils (·.head.expandNum) new (messageAddExpandRun ops heap
        (some ⟨0, expand.type, expand.subtype, expand.expand⟩) new) ∨ ExpandFits ops heap new _ :=
      messageAddExpandRun_cases _
    rcases hcases with (hfault | ⟨ret', new₁, hneg, hlt, -⟩) | hfits
    · cases hfault.symm.trans hadd
    · obtain ⟨rfl, -⟩ := Outcome.pair_inj (hneg.symm.trans hadd)
      omega
    · obtain ⟨hgrows, -, template, ret', value, htemplate, hstruct, hclone, hret'⟩ := hfits
      have hlen : new.expands.length = expands.length := by rw [h.expands, List.length_map]
      have hcopies : ExpandCopies ops heap expands.length expand value :=
        ⟨hmem, hlen ▸ (grows_iff h.count).1 hgrows, template, ret', htemplate, hstruct, hclone, hret'⟩
      obtain ⟨ret'', new₁, hdone, -, hare⟩ := addExpand_done h hcopies
      obtain ⟨-, rfl⟩ := Outcome.pair_inj (hdone.symm.trans hrun)
      exact ⟨value, hcopies, hare⟩
  · exact absurd hmem dalloc0_ne_error
  · simp only [messageAddExpandDataRun, hmem, Outcome.fault_bind] at hrun
    cases hrun

theorem leftOut_struct (h : slot.pexpand = some expand) :
    slot.leftOut = isPathExpand expand.type expand.subtype := by
  rw [ExpandSlot.leftOut, ExpandSlot.kind, h]

/-- The structures of the expands that are not left out. -/
def keptStructs (slots : List (ExpandSlot V)) : List (MsgExpand V) :=
  (slots.filter (!·.leftOut)).filterMap (·.pexpand)

theorem keptStructs_struct (hpexpand : slot.pexpand = some expand) (hkept : slot.leftOut = false) :
    keptStructs (slot :: slots) = expand :: keptStructs slots := by
  rw [keptStructs, List.filter_cons_of_pos (by rw [hkept]; rfl), List.filterMap_cons_some hpexpand,
    keptStructs]

/-- A place is passed over if it is left out, or there is no structure. -/
theorem keptStructs_pass (h : slot.leftOut = true ∨ slot.pexpand = none) :
    keptStructs (slot :: slots) = keptStructs slots := by
  rw [keptStructs, List.filter_cons]
  cases hleft : slot.leftOut with
  | true => rfl
  | false =>
    have hnone := h.resolve_left (by rw [hleft]; decide)
    exact List.filterMap_cons_none hnone

/-- What the loop over the expands copies, if it comes to its end: the structures, but for those
    that are left out. -/
theorem cloneExpands_ok (h : ExpandsAre base new expands)
    (hok : cloneExpands ops heap n slots new = .done (.ok new')) :
    n ≤ slots.length ∧ ∃ more : List (Int32 × Int32 × V), ExpandsAre base new' (expands ++ more) ∧
      more.length = (keptStructs (slots.take n)).length ∧
      ∀ i expand, (keptStructs (slots.take n))[i]? = some expand → ∃ value,
        more[i]? = some (expand.type, expand.subtype, value) ∧
        ExpandCopies ops heap (expands.length + i) expand value := by
  induction n generalizing new expands slots with
  | zero =>
    obtain rfl := Except.ok.inj (Outcome.done.inj hok)
    refine ⟨Nat.zero_le _, [], by rwa [List.append_nil], rfl, fun i expand hi => ?_⟩
    cases hi
  | succ n ih =>
    cases slots with
    | nil => cases hok
    | cons slot slots =>
      rw [List.take_succ_cons, List.length_cons]
      rw [cloneExpands] at hok
      cases hpexpand : slot.pexpand with
      | none =>
        cases hexpand : slot.expand with
        | none =>
          simp only [hpexpand, hexpand] at hok
          exact absurd hok giveUp_ne_ok
        | some data =>
          -- The bytes are passed over.
          simp only [hpexpand, hexpand] at hok
          rw [keptStructs_pass (.inr hpexpand)]
          obtain ⟨hle, more, hare, hlen, hcopies⟩ := ih h hok
          exact ⟨Nat.succ_le_succ hle, more, hare, hlen, hcopies⟩
      | some expand =>
        simp only [hpexpand] at hok
        by_cases hpath : isPathExpand expand.type expand.subtype = true
        · rw [if_pos hpath] at hok
          rw [keptStructs_pass (.inl ((leftOut_struct hpexpand).trans hpath))]
          obtain ⟨hle, more, hare, hlen, hcopies⟩ := ih h hok
          exact ⟨Nat.succ_le_succ hle, more, hare, hlen, hcopies⟩
        · rw [if_neg hpath] at hok
          obtain ⟨⟨ret, new₁⟩, hrun, hok⟩ := Outcome.bind_eq_done.1 hok
          simp only at hok
          by_cases hret : ret < 0
          · rw [if_pos hret] at hok
            exact absurd hok giveUp_ne_ok
          · rw [if_neg hret] at hok
            obtain ⟨value, hcopy, hare⟩ := addExpand_cases h hrun (Int.not_lt.1 hret)
            obtain ⟨hle, more, hare', hlen, hcopies⟩ := ih hare hok
            rw [keptStructs_struct hpexpand (by rw [leftOut_struct hpexpand, Bool.eq_false_iff.2 hpath])]
            refine ⟨Nat.succ_le_succ hle, (expand.type, expand.subtype, value) :: more, ?_, ?_, ?_⟩
            · rwa [List.append_assoc] at hare'
            · simp [hlen]
            · intro i expand' hi
              cases i with
              | zero =>
                obtain rfl := Option.some.inj hi
                exact ⟨value, rfl, hcopy⟩
              | succ i =>
                obtain ⟨value', hvalue', hcopy'⟩ := hcopies i expand' hi
                rw [List.length_append, List.length_singleton, Nat.add_assoc, Nat.add_comm 1] at hcopy'
                exact ⟨value', hvalue', hcopy'⟩

/-- Expands that are copied to the same ones come to be in the clone, but for those left out. -/
theorem cloneExpands_done (h : ExpandsAre base new expands) (hle : n ≤ slots.length)
    (hcopies : ∀ i slot, ((slots.take n).filter (!·.leftOut))[i]? = some slot → ∃ expand,
      slot.pexpand = some expand ∧ ExpandCopies ops heap (expands.length + i) expand expand.expand) :
    ∃ new' more, cloneExpands ops heap n slots new = .done (.ok new') ∧
      ExpandsAre base new' (expands ++ more) ∧
      more.map (fun content => (some content, none)) =
        ((slots.take n).filter (!·.leftOut)).map ExpandSlot.holds := by
  induction n generalizing new expands slots with
  | zero => exact ⟨new, [], rfl, by rwa [List.append_nil], rfl⟩
  | succ n ih =>
    cases slots with
    | nil => exact absurd hle (Nat.not_succ_le_zero n)
    | cons slot slots =>
      have hle' := Nat.le_of_succ_le_succ hle
      rw [List.take_succ_cons, List.filter_cons] at hcopies ⊢
      cases hleft : slot.leftOut with
      | true =>
        rw [hleft] at hcopies
        obtain ⟨new', more, hok, hare, hmore⟩ := ih h hle' hcopies
        refine ⟨new', more, ?_, hare, hmore⟩
        rw [cloneExpands]
        rcases hpexpand : slot.pexpand with _ | expand
        · rcases hexpand : slot.expand with _ | data
          · rw [ExpandSlot.leftOut, ExpandSlot.kind, hpexpand, hexpand] at hleft
            cases hleft
          · exact hok
        · rw [leftOut_struct hpexpand] at hleft
          exact (if_pos hleft).trans hok
      | false =>
        rw [hleft] at hcopies
        obtain ⟨expand, hpexpand, hcopy⟩ := hcopies 0 slot rfl
        obtain ⟨ret, new₁, hrun, hret, hare⟩ := addExpand_done h hcopy
        have hrest : ∀ i slot, ((slots.take n).filter (!·.leftOut))[i]? = some slot → ∃ expand',
            slot.pexpand = some expand' ∧ ExpandCopies ops heap
              ((expands ++ [(expand.type, expand.subtype, expand.expand)]).length + i) expand'
              expand'.expand := by
          intro i slot' hslot'
          rw [List.length_append, List.length_singleton, Nat.add_assoc, Nat.add_comm 1]
          exact hcopies (i + 1) slot' hslot'
        obtain ⟨new', more, hok, hare', hmore⟩ := ih hare hle' hrest
        refine ⟨new', expand.content :: more, ?_, ?_, ?_⟩
        · have hpath : ¬ isPathExpand expand.type expand.subtype = true := by
            rw [← leftOut_struct hpexpand, hleft]
            decide
          simp only [cloneExpands, hpexpand, if_neg hpath, hrun, Outcome.done_bind,
            if_neg (Int.not_lt.2 hret), hok]
        · rwa [List.append_assoc] at hare'
        · simp only [Bool.not_false, if_true, List.map_cons, hmore, ExpandSlot.holds, hpexpand]

end Parts

/-! ## Writing the message and its clone -/

section Writing

variable {c : Codec T V} {heap : Heap} {bufsize : Nat} {box box' new new' : MessageBox T V}

/-- Writing the records changes the size that the head tells, and leaves the expands. -/
theorem outputRecords_frame (h : outputRecords c heap bufsize box = .done (bytes, box')) :
    box'.head = { box.head with recordSize := Int32.ofNat bytes.length } ∧
      box'.expands = box.expands := by
  have hsize := outputRecords_size h
  rw [outputRecords] at h
  split at h
  · cases h
  · obtain ⟨_, -, h⟩ := Outcome.bind_eq_done.1 h
    obtain ⟨rfl, rfl⟩ := Outcome.pair_inj h
    rw [← hsize]
    exact ⟨rfl, rfl⟩
  · obtain ⟨box₁, hbox, h⟩ := Outcome.bind_eq_done.1 h
    obtain ⟨_, -, h⟩ := Outcome.bind_eq_done.1 h
    obtain ⟨rfl, rfl⟩ := Outcome.pair_inj h
    rw [messageRecordStruct2Blob] at hbox
    obtain ⟨⟨records, size⟩, -, hbox⟩ := Outcome.bind_eq_done.1 hbox
    obtain rfl := Outcome.done.inj hbox
    rw [← hsize]
    exact ⟨rfl, rfl⟩

/-- The places have the same structure of an expand. -/
def SameStruct (slot slot' : ExpandSlot V) : Prop :=
  ∃ expand expand', slot.pexpand = some expand ∧ slot'.pexpand = some expand' ∧
    expand.content = expand'.content

/-- Expands with the same structures are written alike. -/
theorem expandStruct2Blob_same {slot' filled : ExpandSlot V} (h : SameStruct slot slot')
    (hslot : expandStruct2Blob c heap bufsize slot = .done filled) :
    ∃ filled', expandStruct2Blob c heap bufsize slot' = .done filled' ∧
      (filled'.expand, filled'.size) = (filled.expand, filled.size) := by
  obtain ⟨expand, expand', hexpand, hexpand', hcontent⟩ := h
  obtain ⟨htype, hrest⟩ := Prod.mk.inj hcontent
  obtain ⟨hsubtype, hvalue⟩ := Prod.mk.inj hrest
  simp only [expandStruct2Blob, hexpand, htype, hsubtype, hvalue] at hslot
  simp only [expandStruct2Blob, hexpand']
  cases htemplate : c.getTemplate expand'.type expand'.subtype with
  | none =>
    rw [htemplate] at hslot
    cases hslot
  | some template =>
    rw [htemplate] at hslot
    obtain ⟨blob, hblob, hslot⟩ := Outcome.bind_eq_done.1 hslot
    simp only [hblob, Outcome.done_bind]
    split_ifs at hslot ⊢
    obtain ⟨mem, hmem, hslot⟩ := Outcome.bind_eq_done.1 hslot
    rw [hmem, Outcome.done_bind]
    cases mem with
    | false => cases hslot
    | true =>
      obtain rfl := Outcome.done.inj hslot
      exact ⟨_, rfl, rfl⟩

theorem structs2Blob_same {slots' filled : List (ExpandSlot V)} {total : Int32}
    (h : List.Forall₂ SameStruct slots slots')
    (hslots : structs2Blob (expandStruct2Blob c heap bufsize) (·.size) slots.length slots =
      .done (filled, total)) :
    ∃ filled', structs2Blob (expandStruct2Blob c heap bufsize) (·.size) slots'.length slots' =
      .done (filled', total) ∧ filled'.map (fun slot => (slot.expand, slot.size)) =
        filled.map fun slot => (slot.expand, slot.size) := by
  induction h generalizing filled total with
  | nil => exact ⟨filled, hslots, rfl⟩
  | @cons slot slot' slots slots' hsame _ ih =>
    rw [List.length_cons, structs2Blob] at hslots
    obtain ⟨first, hfirst, hslots⟩ := Outcome.bind_eq_done.1 hslots
    obtain ⟨⟨rest, sum⟩, hrest, hslots⟩ := Outcome.bind_eq_done.1 hslots
    obtain ⟨rfl, rfl⟩ := Outcome.pair_inj hslots
    obtain ⟨first', hfirst', heq⟩ := expandStruct2Blob_same hsame hfirst
    obtain ⟨rest', hrest', hmap⟩ := ih hrest
    refine ⟨first' :: rest', ?_, ?_⟩
    · rw [List.length_cons, structs2Blob, hfirst', Outcome.done_bind, hrest', Outcome.done_bind,
        (Prod.mk.inj heq).2]
    · rw [List.map_cons, List.map_cons, hmap, heq]

/-- Messages whose expands have the same structures write the same bytes of them. -/
theorem outputExpands_same (h : List.Forall₂ SameStruct box.expands new.expands)
    (hbox : box.head.expandNum.toInt.toNat = box.expands.length)
    (hnew : new.head.expandNum.toInt.toNat = new.expands.length)
    (hbytes : outputExpands c heap bufsize box = .done (bytes, box')) :
    ∃ new', outputExpands c heap bufsize new = .done (bytes, new') := by
  rw [outputExpands, messageExpandStruct2Blob, hbox] at hbytes
  obtain ⟨box₁, hbox₁, hbytes⟩ := Outcome.bind_eq_done.1 hbytes
  obtain ⟨⟨filled, total⟩, hfilled, hbox₁⟩ := Outcome.bind_eq_done.1 hbox₁
  obtain rfl := Outcome.done.inj hbox₁
  obtain ⟨copied, hcopied, hbytes⟩ := Outcome.bind_eq_done.1 hbytes
  obtain ⟨rfl, -⟩ := Outcome.pair_inj hbytes
  obtain ⟨filled', hfilled', hmap⟩ := structs2Blob_same h hfilled
  rw [outputExpands, messageExpandStruct2Blob, hnew, hfilled', Outcome.done_bind, Outcome.done_bind]
  simp only [hnew, hmap, ← h.length_eq]
  simp only [hbox] at hcopied
  rw [hcopied]
  exact ⟨_, rfl⟩

/-- Messages that have the same structures of expands, and heads that differ in their sizes alone,
    write the same bytes if they write the same bytes of their records. -/
theorem output_same (hbuf : bufsize < 2 ^ 31) (hhead : new.head = { box.head with
      recordSize := new.head.recordSize
      expandSize := new.head.expandSize })
    (hexpands : List.Forall₂ SameStruct box.expands new.expands)
    (hnum : box.head.expandNum.toInt.toNat = box.expands.length) (hready : OutputReady new)
    {records : List UInt8} {box₁ new₁ : MessageBox T V}
    (hbox : outputRecords c heap bufsize box = .done (records, box₁))
    (hnew : outputRecords c heap bufsize new = .done (records, new₁))
    (h : messageOutputBlob c heap bufsize box = .done (bytes, box')) :
    ∃ new', messageOutputBlob c heap bufsize new = .done (bytes, new') := by
  obtain ⟨-, records', expands, box₁', box₂, hrecords, hwritten, hfit, hmem, rfl, -⟩ :=
    (messageOutputBlob_done hbuf).1 h
  obtain ⟨rfl, rfl⟩ := Outcome.pair_inj (hbox.symm.trans hrecords)
  obtain ⟨hhead₁, hexpands₁⟩ := outputRecords_frame hbox
  obtain ⟨hhead₁', hexpands₁'⟩ := outputRecords_frame hnew
  obtain ⟨new₂, hwritten'⟩ : ∃ new₂, outputExpands c heap bufsize new₁ = .done (expands, new₂) :=
    outputExpands_same (by rw [hexpands₁, hexpands₁']; exact hexpands) (by rw [hhead₁, hexpands₁]; exact hnum)
      (by rw [hhead₁', hexpands₁', hhead, ← hexpands.length_eq]; exact hnum) hwritten
  have hhead₂ : new₂.head = box₂.head := by
    rw [outputExpands_size hwritten', outputExpands_size hwritten, hhead₁, hhead₁', hhead]
  refine ⟨_, (messageOutputBlob_done hbuf).2
    ⟨hready, records, expands, new₁, new₂, hnew, hwritten', hfit, hmem, ?_, rfl⟩⟩
  rw [hhead₂]

/-- Messages that write the same bytes write the same bytes of their records. -/
theorem outputRecords_same (hbuf : bufsize < 2 ^ 31) {records : List UInt8}
    {box₁ : MessageBox T V} (hbox : messageOutputBlob c heap bufsize box = .done (bytes, box'))
    (hnew : messageOutputBlob c heap bufsize new = .done (bytes, new'))
    (hrecords : outputRecords c heap bufsize box = .done (records, box₁)) :
    ∃ new₁, outputRecords c heap bufsize new = .done (records, new₁) := by
  obtain ⟨-, records₁, expands₁, box₁', box₂, hrecords₁, hexpands₁, hfit₁, -, hbytes₁, -⟩ :=
    (messageOutputBlob_done hbuf).1 hbox
  obtain ⟨-, records₂, expands₂, new₁, new₂, hrecords₂, hexpands₂, hfit₂, -, hbytes₂, -⟩ :=
    (messageOutputBlob_done hbuf).1 hnew
  obtain ⟨rfl, rfl⟩ := Outcome.pair_inj (hrecords₁.symm.trans hrecords)
  obtain ⟨hheads, hrest⟩ := List.append_inj (hbytes₁.symm.trans hbytes₂) (by simp)
  have hhead : box₂.head = new₂.head := by
    rw [← MsgHead.ofBytes_toBytes_nil box₂.head, hheads, MsgHead.ofBytes_toBytes_nil]
  have hsize : Int32.ofNat records₁.length = Int32.ofNat records₂.length := by
    rw [← outputRecords_size hrecords₁, ← outputRecords_size hrecords₂]
    have hbox₂ := outputExpands_size hexpands₁
    have hnew₂ := outputExpands_size hexpands₂
    rw [hhead, hnew₂] at hbox₂
    exact (congrArg MsgHead.recordSize hbox₂).symm
  have hlen : records₁.length = records₂.length := by
    have := congrArg Int32.toInt hsize
    rw [int32_ofNat_toInt (by omega), int32_ofNat_toInt (by omega)] at this
    omega
  obtain ⟨rfl, -⟩ := List.append_inj hrest hlen
  exact ⟨new₁, hrecords₂⟩

variable {ops : CloneOps T V} {template : T}

/-- A record that is only a structure is written as its bytes. -/
theorem recordStruct2Blob_ample {record : V} {slot : RecordSlot V} :
    recordStruct2Blob ops.toCodec Heap.ample bufsize (some template) (recordSlot record) = .done slot ↔
      ∃ bytes, ops.struct2Blob template record = .done bytes ∧ bytes.length ≤ bufsize ∧
        slot = ⟨some bytes, some record, Int32.ofNat bytes.length⟩ := by
  simp only [recordStruct2Blob, recordSlot]
  rw [Outcome.bind_eq_done]
  refine exists_congr fun bytes => and_congr_right fun _ => ?_
  by_cases hfit : bytes.length > bufsize
  · rw [if_pos hfit]
    refine iff_of_false (fun h => ?_) fun h => absurd h.1 (Nat.not_le.2 hfit)
    cases h
  · rw [if_neg hfit, dalloc0_ample.2 (Int.natCast_nonneg _), Outcome.done_bind]
    simp only [Bool.not_true, Bool.false_eq_true, if_false, Outcome.done.injEq, Nat.not_lt.1 hfit,
      true_and]
    exact eq_comm

/-- Records that are only structures are written as their bytes. -/
theorem structs2Blob_structs (ops : CloneOps T V) (template : T) (hbuf : bufsize < 2 ^ 31)
    (records : List V) :
    (∀ filled total bytes, structs2Blob (recordStruct2Blob ops.toCodec Heap.ample bufsize (some template))
        (·.size) records.length (records.map recordSlot) = .done (filled, total) →
      copyBlocks records.length (filled.map fun slot => (slot.record, slot.size)) = .done bytes →
        encodings ops template records = .done bytes) ∧
    ∀ bytes, encodings ops template records = .done bytes → bytes.length ≤ bufsize →
      ∃ filled total, structs2Blob (recordStruct2Blob ops.toCodec Heap.ample bufsize (some template))
        (·.size) records.length (records.map recordSlot) = .done (filled, total) ∧
        copyBlocks records.length (filled.map fun slot => (slot.record, slot.size)) = .done bytes := by
  induction records with
  | nil =>
    refine ⟨fun filled total bytes _ hbytes => ?_, fun bytes hbytes _ => ⟨[], 0, rfl, ?_⟩⟩
    · exact hbytes
    · exact hbytes
  | cons record records ih =>
    constructor
    · intro filled total bytes hfilled hbytes
      rw [List.length_cons, List.map_cons, structs2Blob] at hfilled
      obtain ⟨slot, hslot, hfilled⟩ := Outcome.bind_eq_done.1 hfilled
      obtain ⟨⟨rest, sum⟩, hrest, hfilled⟩ := Outcome.bind_eq_done.1 hfilled
      obtain ⟨rfl, rfl⟩ := Outcome.pair_inj hfilled
      obtain ⟨blob, hblob, hfit, rfl⟩ := recordStruct2Blob_ample.1 hslot
      rw [List.length_cons, List.map_cons, copyBlocks,
        copyBlock_whole (int32_ofNat_toInt (by omega)), Outcome.done_bind] at hbytes
      obtain ⟨tail, htail, hbytes⟩ := Outcome.bind_eq_done.1 hbytes
      rw [encodings, hblob, Outcome.done_bind, ih.1 rest sum tail hrest htail]
      exact hbytes
    · intro bytes hbytes hfit
      rw [encodings] at hbytes
      obtain ⟨blob, hblob, hbytes⟩ := Outcome.bind_eq_done.1 hbytes
      obtain ⟨tail, htail, hbytes⟩ := Outcome.bind_eq_done.1 hbytes
      obtain rfl := Outcome.done.inj hbytes
      rw [List.length_append] at hfit
      obtain ⟨rest, sum, hrest, hcopied⟩ := ih.2 tail htail (by omega)
      have hslot : recordStruct2Blob ops.toCodec Heap.ample bufsize (some template) (recordSlot record) =
          .done ⟨some blob, some record, Int32.ofNat blob.length⟩ :=
        recordStruct2Blob_ample.2 ⟨blob, hblob, by omega, rfl⟩
      refine ⟨⟨some blob, some record, Int32.ofNat blob.length⟩ :: rest, Int32.ofNat blob.length + sum,
        ?_, ?_⟩
      · rw [List.length_cons, List.map_cons, structs2Blob, hslot, Outcome.done_bind, hrest]
        rfl
      · rw [List.length_cons, List.map_cons, copyBlocks,
          copyBlock_whole (int32_ofNat_toInt (by omega)), Outcome.done_bind, hcopied]
        rfl

/-- A message with records that are only structures writes their bytes. -/
theorem outputRecords_structs (hbuf : bufsize < 2 ^ 31)
    (hrecords : new.records = records.map recordSlot)
    (hnum : new.head.recordNum.toInt = records.length) (htemplate : new.recordTemplate = some template)
    (hblob : new.blob = .null) (bytes : List UInt8) :
    ((∃ new', outputRecords ops.toCodec Heap.ample bufsize new = .done (bytes, new')) →
      encodings ops template records = .done bytes) ∧
    (encodings ops template records = .done bytes → bytes.length ≤ bufsize →
      ∃ new', outputRecords ops.toCodec Heap.ample bufsize new = .done (bytes, new')) := by
  obtain ⟨hwritten, hencoded⟩ := structs2Blob_structs ops template hbuf records
  constructor
  · rintro ⟨new', h⟩
    simp only [outputRecords, hblob, messageRecordStruct2Blob, htemplate, hnum, Int.toNat_natCast,
      hrecords] at h
    obtain ⟨new₁, hnew₁, h⟩ := Outcome.bind_eq_done.1 h
    obtain ⟨⟨filled, total⟩, hfilled, hnew₁⟩ := Outcome.bind_eq_done.1 hnew₁
    obtain rfl := Outcome.done.inj hnew₁
    obtain ⟨copied, hcopied, h⟩ := Outcome.bind_eq_done.1 h
    obtain ⟨rfl, -⟩ := Outcome.pair_inj h
    simp only [hnum, Int.toNat_natCast] at hcopied
    exact hwritten filled total copied hfilled hcopied
  · intro hbytes hfit
    obtain ⟨filled, total, hfilled, hcopied⟩ := hencoded bytes hbytes hfit
    simp only [outputRecords, hblob, messageRecordStruct2Blob, htemplate, hnum, Int.toNat_natCast,
      hrecords, hfilled, Outcome.done_bind, hcopied]
    exact ⟨_, rfl⟩

end Writing

/-! ## What a call comes to -/

section Call

variable {ops : CloneOps T V} {heap : Heap} {memory : Bool} {template : T}
  {box base new new' : MessageBox T V} {result : CloneResult T V}

theorem cloneRecords_error {slots : List (RecordSlot V)}
    (h : cloneRecords ops heap source n slots new = .done (.error result)) : result = .null true := by
  induction n generalizing new slots with
  | zero => cases h
  | succ n ih =>
    cases slots with
    | nil => cases h
    | cons slot slots =>
      rw [cloneRecords] at h
      cases hrecord : slot.precord with
      | none =>
        rw [hrecord] at h
        exact giveUp_error h
      | some record =>
        simp only [hrecord] at h
        obtain ⟨_ | copy, -, h⟩ := Outcome.bind_eq_done.1 h
        · exact giveUp_error h
        · obtain ⟨⟨ret, new₁⟩, -, h⟩ := Outcome.bind_eq_done.1 h
          exact ih h

theorem cloneExpands_error
    (h : cloneExpands ops heap n slots new = .done (.error result)) : result = .null true := by
  induction n generalizing new slots with
  | zero => cases h
  | succ n ih =>
    cases slots with
    | nil => cases h
    | cons slot slots =>
      rw [cloneExpands] at h
      rcases hpexpand : slot.pexpand with _ | expand
      · rcases hexpand : slot.expand with _ | data
        · simp only [hpexpand, hexpand] at h
          exact giveUp_error h
        · simp only [hpexpand, hexpand] at h
          exact ih h
      · simp only [hpexpand] at h
        split_ifs at h
        · exact ih h
        · obtain ⟨⟨ret, new₁⟩, -, h⟩ := Outcome.bind_eq_done.1 h
          simp only at h
          split_ifs at h
          · exact giveUp_error h
          · exact ih h

/-- The clone before its records are copied. -/
def cloneBase (ops : CloneOps T V) (box : MessageBox T V) : MessageBox T V :=
  { cloneInit ops box with head := { (cloneInit ops box).head with
      recordNum := 0
      recordSize := 0 } }

theorem recordsAre_base : RecordsAre (cloneBase ops box) (cloneBase ops box) [] :=
  ⟨rfl, rfl, rfl, rfl, rfl, rfl⟩

/-- The bytes of the records that are encrypted are copied. -/
theorem cloneBlob_ok : cloneBlob heap box new = .done (.ok new') ↔
    ∃ data, box.blob = .bytes data ∧ heap.ok box.head.recordSize.toInt = true ∧
      box.head.recordSize.toInt ≤ data.length ∧
      copyBlock (some data) box.head.recordSize = .done (data.take box.head.recordSize.toInt.toNat) ∧
      new' = { new with
        head := { new.head with recordNum := box.head.recordNum }
        blob := .bytes (data.take box.head.recordSize.toInt.toNat) } := by
  rw [cloneBlob]
  cases hblob : box.blob with
  | null => simp
  | freed =>
    simp only [reduceCtorEq, if_false]
    split_ifs <;> simp
  | bytes data =>
    simp only [reduceCtorEq, if_false, Block.bytes.injEq]
    cases hok : heap.ok box.head.recordSize.toInt with
    | false => simp
    | true =>
      have hsize : 0 ≤ box.head.recordSize.toInt := by
        by_contra hneg
        rw [heap.not_ok _ (Int.not_le.1 hneg)] at hok
        cases hok
      simp only [Bool.not_true, Bool.false_eq_true, if_false, exists_eq_left', true_and]
      by_cases hle : box.head.recordSize.toInt ≤ data.length
      · have hcopy : copyBlock (some data) box.head.recordSize =
            .done (data.take box.head.recordSize.toInt.toNat) := by
          rw [copyBlock]
          exact if_neg (by omega)
        simp only [hcopy, Outcome.done_bind, hle, true_and, Outcome.done.injEq, Except.ok.injEq]
        exact eq_comm
      · have hcopy : copyBlock (some data) box.head.recordSize = .fault := by
          rw [copyBlock]
          exact if_pos (by omega)
        simp [hcopy, hle]

theorem cloneBlob_error : cloneBlob heap box new = .done (.error result) ↔
    result = .null false ∧ (box.blob = .null ∨ heap.ok box.head.recordSize.toInt = false) := by
  rw [cloneBlob]
  by_cases hnull : box.blob = .null
  · rw [if_pos hnull]
    exact ⟨fun h => ⟨(Except.error.inj (Outcome.done.inj h)).symm, .inl hnull⟩, fun h => by rw [h.1]⟩
  rw [if_neg hnull]
  cases hok : heap.ok box.head.recordSize.toInt with
  | false =>
    exact ⟨fun h => ⟨(Except.error.inj (Outcome.done.inj h)).symm, .inr rfl⟩, fun h => by rw [h.1]; rfl⟩
  | true =>
    refine iff_of_false (fun h => ?_) fun h => h.2.elim hnull nofun
    cases hblob : box.blob with
    | null => exact hnull hblob
    | freed =>
      rw [hblob] at h
      cases h
    | bytes data =>
      rw [hblob] at h
      obtain ⟨_, -, h⟩ := Outcome.bind_eq_done.1 h
      cases h

/-- Without a template there is no array of records yet when the clone is freed. -/
theorem messageClone_none (h : ops.getTemplate box.head.recordType box.head.recordSubtype = none) :
    messageClone ops heap true box = .fault := by
  have hgiveUp : giveUp (cloneInit ops box) = .fault := rfl
  have hnone : (cloneInit ops box).recordTemplate.isNone = true := by
    rw [cloneInit, h]
    rfl
  simp only [messageClone, hnone, if_true, hgiveUp, andThen, Outcome.fault_bind]
  rfl

/-- With a template, the records are copied and then the expands. -/
theorem messageClone_eq
    (h : ops.getTemplate box.head.recordType box.head.recordSubtype = some template) :
    messageClone ops heap true box = (do
      match ← andThen (cloneContents ops heap box (cloneInit ops box))
        (cloneExpands ops heap box.head.expandNum.toInt.toNat box.expands) with
      | .error result => .done result
      | .ok new => .done (.message new)) := by
  have hsome : (cloneInit ops box).recordTemplate.isNone = false := by
    rw [cloneInit, h]
    rfl
  simp only [messageClone, hsome]
  rfl

theorem finish_done {x : Outcome (Cloning T V)} : (do
      match ← x with
      | .error result => .done result
      | .ok new => .done (.message new)) = .done result ↔
    x = .done (.error result) ∨ ∃ new, x = .done (.ok new) ∧ result = .message new := by
  cases x with
  | done r =>
    cases r with
    | error result' => simp
    | ok new => simp [eq_comm]
  | error e => simp
  | fault => simp

theorem cloneContents_error (h : cloneContents ops heap box new = .done (.error result)) :
    ∃ freed, result = .null freed := by
  rw [cloneContents] at h
  split_ifs at h
  · exact ⟨false, (cloneBlob_error.1 h).1⟩
  · exact ⟨true, cloneRecords_error h⟩

/-- The clone that is returned is the one that the loops come to. -/
theorem messageClone_message : messageClone ops heap memory box = .done (.message new') ↔
    memory = true ∧ (∃ template,
      ops.getTemplate box.head.recordType box.head.recordSubtype = some template) ∧
    ∃ new, cloneContents ops heap box (cloneInit ops box) = .done (.ok new) ∧
      cloneExpands ops heap box.head.expandNum.toInt.toNat box.expands new = .done (.ok new') := by
  cases memory with
  | false => exact iff_of_false nofun fun h => nomatch h.1
  | true =>
    cases htemplate : ops.getTemplate box.head.recordType box.head.recordSubtype with
    | none =>
      rw [messageClone_none htemplate]
      exact iff_of_false nofun fun ⟨_, ⟨_, h⟩, _⟩ => nomatch h
    | some template =>
      rw [messageClone_eq htemplate, finish_done, ← andThen_ok]
      constructor
      · rintro (herror | ⟨new, hok, heq⟩)
        · rcases andThen_error.1 herror with hcontents | ⟨new, -, hexpands⟩
          · obtain ⟨freed, hfreed⟩ := cloneContents_error hcontents
            cases hfreed
          · cases cloneExpands_error hexpands
        · cases heq
          exact ⟨rfl, ⟨template, rfl⟩, hok⟩
      · exact fun h => .inr ⟨new', h.2.2, rfl⟩

/-- A call that returns no clone and leaves the templates. -/
theorem messageClone_fails : messageClone ops heap memory box = .done .error ∨
      messageClone ops heap memory box = .done (.null false) ↔
    memory = false ∨ (∃ template,
      ops.getTemplate box.head.recordType box.head.recordSubtype = some template) ∧
      cloneContents ops heap box (cloneInit ops box) = .done (.error (.null false)) := by
  cases memory with
  | false => exact iff_of_true (.inl rfl) (.inl rfl)
  | true =>
    cases htemplate : ops.getTemplate box.head.recordType box.head.recordSubtype with
    | none =>
      rw [messageClone_none htemplate]
      refine iff_of_false (by rintro (h | h) <;> cases h) ?_
      rintro (h | ⟨⟨_, h⟩, -⟩) <;> cases h
    | some template =>
      rw [messageClone_eq htemplate, finish_done, finish_done]
      simp only [reduceCtorEq, and_false, exists_false, or_false, false_or, Option.some.injEq,
        exists_eq', true_and]
      constructor
      · -- The loops do not return without freeing the clone.
        rintro (h | h) <;> rcases andThen_error.1 h with hcontents | ⟨new, -, hexpands⟩
        · obtain ⟨freed, hfreed⟩ := cloneContents_error hcontents
          cases hfreed
        · cases cloneExpands_error hexpands
        · exact hcontents
        · cases cloneExpands_error hexpands
      · exact fun h => .inr (andThen_error.2 (.inl h))

/-! ## Which messages are cloned -/

variable {contents : List (Int32 × Int32 × V)}

/-- The expands of a clone are those that are kept. -/
theorem sameStruct_of_holds
    (h : contents.map (fun content => (some content, none)) = slots.map ExpandSlot.holds) :
    List.Forall₂ SameStruct slots (contents.map expandSlot) := by
  induction contents generalizing slots with
  | nil =>
    rw [List.map_nil, eq_comm, List.map_eq_nil_iff] at h
    rw [h]
    exact .nil
  | cons content contents ih =>
    cases slots with
    | nil => cases h
    | cons slot slots =>
      rw [List.map_cons, List.map_cons] at h
      obtain ⟨hslot, hrest⟩ := List.cons.inj h
      refine .cons ?_ (ih hrest)
      rw [ExpandSlot.holds] at hslot
      cases hpexpand : slot.pexpand with
      | none =>
        rw [hpexpand] at hslot
        cases hslot
      | some expand =>
        rw [hpexpand] at hslot
        exact ⟨expand, _, hpexpand, rfl, (Option.some.inj (Prod.mk.inj hslot).1).symm⟩

/-- The number of the expands that are not left out, where the message can be written. -/
theorem withoutPath_expandNum (hle : box.head.expandNum.toInt.toNat ≤ box.expands.length)
    (h : ¬ (withoutPath box).head.expandNum.toInt < 0) :
    (withoutPath box).head.expandNum.toInt = (keptExpands box).length := by
  have hparts : box.held.countP (·.leftOut) + (keptExpands box).length = box.held.length := by
    rw [keptExpands, ← List.countP_eq_length_filter]
    have hnot : (fun slot : ExpandSlot V => !slot.leftOut) = fun slot => decide ¬ slot.leftOut = true := by
      funext slot
      cases slot.leftOut <;> rfl
    rw [hnot, ← List.length_eq_countP_add_countP]
  have hheld : box.held.length = box.head.expandNum.toInt.toNat := List.length_take_of_le hle
  have hlt := box.head.expandNum.toInt_lt
  have hge := box.head.expandNum.le_toInt
  have hsub : (withoutPath box).head.expandNum.toInt =
      (box.head.expandNum.toInt - (box.held.countP (·.leftOut) : Int)).bmod (2 ^ 32) := by
    rw [withoutPath, Int32.toInt_sub, int32_ofNat_toInt (by omega)]
  rw [hsub] at h ⊢
  rw [Int.bmod_def] at h ⊢
  split_ifs at h ⊢ <;> omega

/-- A clone with the expands that are kept writes the same bytes if it writes the same bytes of its
    records. -/
theorem sameBytes_of_records (hhead : new.head = { box.head with
      recordNum := new.head.recordNum
      recordSize := new.head.recordSize
      expandNum := new.head.expandNum
      expandSize := new.head.expandSize })
    (hrecordNum : ¬ box.head.recordNum.toInt < 0 → new.head.recordNum = box.head.recordNum)
    (hblob : new.blob = .null → box.head.flag &&& MSG_FLAG_CRYPT = 0 ∧ new.recordTemplate.isNone = false)
    (hle : box.head.expandNum.toInt.toNat ≤ box.expands.length)
    (hare : ExpandsAre base new contents)
    (hkept : contents.map (fun content => (some content, none)) = (keptExpands box).map ExpandSlot.holds)
    (hrecords : ∀ bytes written records box₁,
      messageOutputBlob ops.toCodec Heap.ample outputBufsize (withoutPath box) = .done (bytes, written) →
      outputRecords ops.toCodec Heap.ample outputBufsize (withoutPath box) = .done (records, box₁) →
      ∃ new₁, outputRecords ops.toCodec Heap.ample outputBufsize new = .done (records, new₁)) :
    SameBytes ops box new := by
  have hbuf : outputBufsize < 2 ^ 31 := by decide
  intro bytes written h
  obtain ⟨hready, records, -, box₁, -, hbox, -⟩ := (messageOutputBlob_done hbuf).1 h
  obtain ⟨new₁, hnew⟩ := hrecords bytes written records box₁ h hbox
  have hlen : contents.length = (keptExpands box).length := by
    simpa using congrArg List.length hkept
  have hexpandNum := withoutPath_expandNum hle hready.expandNum
  have hsame : new.head.expandNum = (withoutPath box).head.expandNum := by
    rw [← Int32.toInt_inj, hexpandNum, hare.num, hlen]
  have hrecordNum' : new.head.recordNum = (withoutPath box).head.recordNum :=
    hrecordNum hready.recordNum
  refine output_same hbuf ?_ ?_ ?_ ⟨?_, ?_, ?_, ?_⟩ hbox hnew h
  · rw [hhead, hsame, hrecordNum']
    rfl
  · rw [hare.expands]
    exact sameStruct_of_holds hkept
  · rw [hexpandNum]
    rfl
  · rintro ⟨hcrypt, hnull⟩
    rw [hhead] at hcrypt
    exact hcrypt (hblob hnull).1
  · rintro ⟨hnone, hnull⟩
    rw [(hblob hnull).2] at hnone
    cases hnone
  · rw [hrecordNum']
    exact hready.recordNum
  · rw [hsame]
    exact hready.expandNum

/-- If the expands of the clone are those that are kept, they are structures that were copied. -/
theorem expandsCopy_of_clone (h : ExpandsAre base new [])
    (hok : cloneExpands ops heap box.head.expandNum.toInt.toNat box.expands new = .done (.ok new'))
    (hkept : new'.held.map ExpandSlot.holds = (keptExpands box).map ExpandSlot.holds) :
    ExpandsCopy ops heap box := by
  obtain ⟨hle, more, hare, -, hcopies⟩ := cloneExpands_ok h hok
  rw [List.nil_append] at hare
  have hholds := hare.held.symm.trans hkept
  refine ⟨hle, fun i slot hslot => ?_⟩
  have hstruct : ∀ slot ∈ keptExpands box, slot.pexpand.isSome = true := by
    intro slot hmem
    obtain ⟨content, -, hcontent⟩ := List.mem_map.1 (hholds ▸ List.mem_map_of_mem hmem)
    rw [ExpandSlot.holds] at hcontent
    cases hpexpand : slot.pexpand with
    | none =>
      rw [hpexpand] at hcontent
      cases hcontent
    | some expand => rfl
  have hstructs : (keptStructs box.held).map some = (keptExpands box).map (·.pexpand) := by
    rw [keptStructs, List.map_filterMap_some_eq_filter_map_isSome]
    refine List.filter_eq_self.2 fun pexpand hpexpand => ?_
    obtain ⟨slot, hmem, rfl⟩ := List.mem_map.1 hpexpand
    exact hstruct slot hmem
  obtain ⟨expand, hexpand⟩ := Option.isSome_iff_exists.1 (hstruct slot (List.mem_of_getElem? hslot))
  have hget : (keptStructs box.held)[i]? = some expand := by
    have := congrArg (fun pexpands => pexpands[i]?) hstructs
    simpa only [List.getElem?_map, hslot, Option.map_some, hexpand, Option.map_eq_some_iff,
      Option.some.injEq, exists_eq_right] using this
  obtain ⟨value, hvalue, hcopy⟩ := hcopies i expand hget
  have hsame : (some (expand.type, expand.subtype, value), none) = slot.holds := by
    have := congrArg (fun slots => slots[i]?) hholds
    simpa only [List.getElem?_map, hvalue, hslot, Option.map_some, Option.some.injEq] using this
  rw [ExpandSlot.holds, hexpand] at hsame
  have hcontent := Option.some.inj (Prod.mk.inj hsame).1
  obtain rfl : value = expand.expand := congrArg (fun content => content.2.2) hcontent
  rw [List.length_nil, Nat.zero_add] at hcopy
  exact ⟨expand, hexpand, hcopy⟩

/-- Expands that can be copied come to be in the clone. -/
theorem clone_of_expandsCopy (h : ExpandsAre base new []) (hcopy : ExpandsCopy ops heap box) :
    ∃ new' contents,
      cloneExpands ops heap box.head.expandNum.toInt.toNat box.expands new = .done (.ok new') ∧
      ExpandsAre base new' contents ∧
      contents.map (fun content => (some content, none)) = (keptExpands box).map ExpandSlot.holds := by
  refine cloneExpands_done h hcopy.1 fun i slot hslot => ?_
  rw [List.length_nil, Nat.zero_add]
  exact hcopy.2 i slot hslot

/-- A message that is encrypted is cloned if its bytes and its expands can be copied. -/
theorem cloneBlob_clone (hcrypt : box.head.flag &&& MSG_FLAG_CRYPT ≠ 0) :
    (∃ new new', cloneBlob heap box (cloneInit ops box) = .done (.ok new) ∧
      cloneExpands ops heap box.head.expandNum.toInt.toNat box.expands new = .done (.ok new') ∧
      IsClone ops box new') ↔
    heap.ok box.head.recordSize.toInt = true ∧
      (∃ data, box.blob = .bytes data ∧ box.head.recordSize.toInt ≤ data.length) ∧
        ExpandsCopy ops heap box := by
  constructor
  · rintro ⟨new, new', hblob, hexpands, hclone⟩
    obtain ⟨data, hdata, hmem, hle, -, rfl⟩ := cloneBlob_ok.1 hblob
    exact ⟨hmem, ⟨data, hdata, hle⟩,
      expandsCopy_of_clone ⟨rfl, rfl, rfl, rfl, rfl, rfl⟩ hexpands hclone.expands⟩
  · rintro ⟨hmem, ⟨data, hdata, hle⟩, hcopy⟩
    have hsize : 0 ≤ box.head.recordSize.toInt := by
      by_contra hneg
      rw [heap.not_ok _ (Int.not_le.1 hneg)] at hmem
      cases hmem
    have hblock : copyBlock (some data) box.head.recordSize =
        .done (data.take box.head.recordSize.toInt.toNat) := by
      rw [copyBlock]
      exact if_neg (by omega)
    obtain ⟨new, hblob⟩ : ∃ new, cloneBlob heap box (cloneInit ops box) = .done (.ok new) :=
      ⟨_, cloneBlob_ok.2 ⟨data, hdata, hmem, hle, hblock, rfl⟩⟩
    have hnew : new = { cloneInit ops box with
        head := { (cloneInit ops box).head with recordNum := box.head.recordNum }
        blob := .bytes (data.take box.head.recordSize.toInt.toNat) } := by
      obtain ⟨data', hdata', -, -, -, hnew⟩ := cloneBlob_ok.1 hblob
      obtain rfl := Block.bytes.inj (hdata.symm.trans hdata')
      exact hnew
    have hstart : ExpandsAre new new [] := by
      rw [hnew]
      exact ⟨rfl, rfl, rfl, rfl, rfl, rfl⟩
    obtain ⟨new', contents, hexpands, hare, hkept⟩ := clone_of_expandsCopy hstart hcopy
    have hblob' : new'.blob = .bytes (data.take box.head.recordSize.toInt.toNat) := by
      rw [hare.blob, hnew]
    have hhead : new'.head = { box.head with
        recordNum := new'.head.recordNum
        recordSize := new'.head.recordSize
        expandNum := new'.head.expandNum
        expandSize := new'.head.expandSize } := by
      rw [hare.head, hnew]
      rfl
    have hrecordSize : new'.head.recordSize = box.head.recordSize := by
      rw [hare.head, hnew]
      rfl
    have hrecordNum : new'.head.recordNum = box.head.recordNum := by rw [hare.head, hnew]
    refine ⟨_, new', hblob, hexpands, hhead, ?_, hare.held.trans hkept, ?_⟩
    · rw [SameRecords, if_pos hcrypt]
      exact ⟨data, hdata, hrecordNum, hrecordSize, hblock, hblob'⟩
    · refine sameBytes_of_records hhead (fun _ => hrecordNum) (fun hnull => ?_) hcopy.1 hare hkept ?_
      · rw [hblob'] at hnull
        cases hnull
      · intro bytes written records box₁ _ hrecords
        have hdata' : (withoutPath box).blob = .bytes data := hdata
        have hsize' : (withoutPath box).head.recordSize = box.head.recordSize := rfl
        rw [outputRecords, hdata'] at hrecords
        simp only [hsize', hblock, Outcome.done_bind] at hrecords
        obtain ⟨rfl, -⟩ := Outcome.pair_inj hrecords
        have hagain : copyBlock (some (data.take box.head.recordSize.toInt.toNat)) box.head.recordSize =
            .done (data.take box.head.recordSize.toInt.toNat) := by
          rw [copyBlock, List.take_take, Nat.min_self]
          refine if_neg ?_
          rw [List.length_take]
          omega
        rw [outputRecords, hblob']
        simp only [hrecordSize, hagain, Outcome.done_bind]
        exact ⟨_, rfl⟩

/-- All of the records were structures if the loop comes to its end. -/
theorem cloneRecords_structs {slots : List (RecordSlot V)}
    (hok : cloneRecords ops heap source n slots new = .done (.ok new')) :
    ∃ records : List V, records.length = n ∧ (slots.take n).map (·.precord) = records.map some := by
  induction n generalizing new slots with
  | zero => exact ⟨[], rfl, rfl⟩
  | succ n ih =>
    cases slots with
    | nil => cases hok
    | cons slot slots =>
      obtain ⟨record, -, -, new₁, hrecord, -, -, hok⟩ := cloneRecords_cons hok
      obtain ⟨records, hlen, hrecords⟩ := ih hok
      refine ⟨record :: records, by rw [List.length_cons, hlen], ?_⟩
      rw [List.take_succ_cons, List.map_cons, List.map_cons, hrecord, hrecords]

/-- A message whose records are structures is cloned if they and its expands can be copied, and
    its records are written as their structures are. -/
theorem cloneRecords_clone (hplain : box.head.flag &&& MSG_FLAG_CRYPT = 0)
    (htemplate : ops.getTemplate box.head.recordType box.head.recordSubtype = some template) :
    (∃ new new', cloneRecords ops heap box.recordTemplate box.head.recordNum.toInt.toNat box.records
        (cloneBase ops box) = .done (.ok new) ∧
      cloneExpands ops heap box.head.expandNum.toInt.toNat box.expands new = .done (.ok new') ∧
      IsClone ops box new') ↔
    RecordsCopy ops heap template box ∧ ExpandsCopy ops heap box ∧ RecordsEncode ops template box := by
  have hbuf : outputBufsize < 2 ^ 31 := by decide
  have hrecords (new' : MessageBox T V) :
      SameRecords box new' ↔ recordValues new' = recordValues box := by
    rw [SameRecords, if_neg (not_not.2 hplain)]
  have hall (records : List V) (h : recordValues box = records.map some) :
      (recordValues box).filterMap id = records := by
    rw [h, List.filterMap_map]
    exact List.filterMap_some
  have hwritten {new new' : MessageBox T V} {values : List V} {contents : List (Int32 × Int32 × V)}
      (hare : RecordsAre (cloneBase ops box) new values) (hare' : ExpandsAre new new' contents)
      (bytes : List UInt8) :
      ((∃ written, outputRecords ops.toCodec Heap.ample outputBufsize new' = .done (bytes, written)) →
        encodings ops template values = .done bytes) ∧
      (encodings ops template values = .done bytes → bytes.length ≤ outputBufsize →
        ∃ written, outputRecords ops.toCodec Heap.ample outputBufsize new' = .done (bytes, written)) :=
    outputRecords_structs hbuf (hare'.records.trans hare.records) (by rw [hare'.head]; exact hare.num)
      (hare'.recordTemplate.trans (hare.recordTemplate.trans htemplate))
      (hare'.blob.trans hare.blob) bytes
  constructor
  · rintro ⟨new, new', hok, hexpands, hclone⟩
    obtain ⟨records, hlen, hstructs⟩ := cloneRecords_structs hok
    have hsame := (hrecords new').1 hclone.records
    have hrest : new.head.expandNum.toInt = ([] : List (Int32 × Int32 × V)).length → new.expands = [] →
        recordValues new = recordValues box ∧ ExpandsCopy ops heap box := by
      intro hnum hnone
      have hstart : ExpandsAre new new [] := ⟨rfl, hnum, hnone, rfl, rfl, rfl⟩
      refine ⟨?_, expandsCopy_of_clone hstart hexpands hclone.expands⟩
      obtain ⟨-, contents, hare', -⟩ := cloneExpands_ok hstart hexpands
      rw [← hsame, recordValues, recordValues, hare'.records, hare'.head]
    rcases cloneRecords_ok recordsAre_base htemplate hok with hloses | ⟨values, hlen', hare, hcopies⟩
    · -- A record that is lost is not in the clone.
      have hvalues : recordValues new = records.map some :=
        (hrest (by rw [hloses.expandNum]; rfl) hloses.expands).1.trans hstructs
      refine absurd hvalues (hloses.lost.values ?_)
      rw [hloses.num, hlen, List.length_nil, Nat.zero_add]
    · rw [List.nil_append] at hare
      have hstart : ExpandsAre new new [] := ⟨rfl, by rw [hare.head]; rfl, hare.expands, rfl, rfl, rfl⟩
      obtain ⟨hvalues, hcopy⟩ := hrest hstart.num hare.expands
      rw [hare.values] at hvalues
      refine ⟨fun i hi => ?_, hcopy, fun hcan bytes box₁ hbytes => ?_⟩
      · obtain ⟨slot, record, value, hslot, hrecord, hvalue, hcopies'⟩ := hcopies i hi
        -- The copy is the record, as it is what the clone has.
        have hsame' : some (some value) = some (some record) := by
          have := congrArg (fun values => values[i]?) hvalues
          rw [recordValues, List.map_take] at this
          simpa only [List.getElem?_map, hvalue, List.getElem?_take_of_lt hi, hslot, hrecord,
            Option.map_some] using this
        obtain rfl := Option.some.inj (Option.some.inj hsame')
        rw [List.length_nil, Nat.zero_add] at hcopies'
        exact ⟨slot, value, hslot, hrecord, hcopies'⟩
      · obtain ⟨⟨out, written⟩, hout⟩ := hcan
        obtain ⟨written', hout'⟩ := hclone.bytes out written hout
        obtain ⟨-, contents, hare', -⟩ := cloneExpands_ok hstart hexpands
        rw [hall values hvalues.symm]
        exact (hwritten hare hare' bytes).1 (outputRecords_same hbuf hout hout' hbytes)
  · rintro ⟨hcopies, hcopy, hencode⟩
    obtain ⟨new, values, hok, hvalues, hare⟩ := cloneRecords_done recordsAre_base htemplate
      fun i hi => by
        obtain ⟨slot, record, hslot, hrecord, hcopies'⟩ := hcopies i hi
        rw [List.length_nil, Nat.zero_add]
        exact ⟨slot, record, hslot, hrecord, hcopies'⟩
    rw [List.nil_append] at hare
    have hstart : ExpandsAre new new [] := ⟨rfl, by rw [hare.head]; rfl, hare.expands, rfl, rfl, rfl⟩
    obtain ⟨new', contents, hexpands, hare', hkept⟩ := clone_of_expandsCopy hstart hcopy
    have hhead : new'.head = { box.head with
        recordNum := new'.head.recordNum
        recordSize := new'.head.recordSize
        expandNum := new'.head.expandNum
        expandSize := new'.head.expandSize } := by
      rw [hare'.head, hare.head]
      rfl
    have hnum : new'.head.recordNum = new.head.recordNum := by rw [hare'.head]
    have hlen : values.length = box.head.recordNum.toInt.toNat := by
      obtain ⟨records, hlen, hrecords⟩ := cloneRecords_structs hok
      have := congrArg List.length (hvalues.trans hrecords)
      rwa [List.length_map, List.length_map, hlen] at this
    refine ⟨new, new', hok, hexpands, hhead, (hrecords new').2 ?_, hare'.held.trans hkept, ?_⟩
    · rw [recordValues, hare'.records, hnum]
      exact hare.values.trans hvalues
    · refine sameBytes_of_records hhead (fun hnonneg => ?_) (fun _ => ⟨hplain, ?_⟩) hcopy.1 hare' hkept ?_
      · refine Int32.toInt_inj.1 ?_
        rw [hnum, hare.num, hlen]
        omega
      · rw [hare'.recordTemplate, hare.recordTemplate]
        exact congrArg Option.isNone htemplate
      · intro bytes written records box₁ hout hrecords'
        have hencoded := hencode ⟨_, hout⟩ records box₁ hrecords'
        rw [hall values hvalues.symm] at hencoded
        obtain ⟨-, records', expands, box₂, _, hbox₂, -, hfit, -⟩ := (messageOutputBlob_done hbuf).1 hout
        obtain ⟨rfl, rfl⟩ := Outcome.pair_inj (hrecords'.symm.trans hbox₂)
        exact (hwritten hare hare' records).2 hencoded (by omega)

/-- With a template, the records are refused without freeing it, or they are copied, and then the
    expands. -/
theorem contents_clone
    (htemplate : ops.getTemplate box.head.recordType box.head.recordSubtype = some template) :
    (cloneContents ops heap box (cloneInit ops box) = .done (.error (.null false)) ∨
      ∃ new new', cloneContents ops heap box (cloneInit ops box) = .done (.ok new) ∧
        cloneExpands ops heap box.head.expandNum.toInt.toNat box.expands new = .done (.ok new') ∧
        IsClone ops box new') ↔
    if box.head.flag &&& MSG_FLAG_CRYPT ≠ 0 then
      box.blob = .null ∨ heap.ok box.head.recordSize.toInt = false ∨
        (∃ data, box.blob = .bytes data ∧ box.head.recordSize.toInt ≤ data.length) ∧
          ExpandsCopy ops heap box
    else RecordsCopy ops heap template box ∧ ExpandsCopy ops heap box ∧
      RecordsEncode ops template box := by
  by_cases hcrypt : box.head.flag &&& MSG_FLAG_CRYPT ≠ 0
  · have hcontents : cloneContents ops heap box (cloneInit ops box) =
        cloneBlob heap box (cloneInit ops box) := if_pos (.inl hcrypt)
    rw [hcontents, cloneBlob_error, cloneBlob_clone hcrypt, if_pos hcrypt]
    cases heap.ok box.head.recordSize.toInt <;> simp
  · have hsome : ¬ (cloneInit ops box).recordTemplate.isNone = true := by
      rw [cloneInit, htemplate]
      exact nofun
    have hcontents : cloneContents ops heap box (cloneInit ops box) =
        cloneRecords ops heap box.recordTemplate box.head.recordNum.toInt.toNat box.records
          (cloneBase ops box) := if_neg (not_or.2 ⟨hcrypt, hsome⟩)
    have hfreed : cloneRecords ops heap box.recordTemplate box.head.recordNum.toInt.toNat box.records
        (cloneBase ops box) ≠ .done (.error (.null false)) := fun h => nomatch cloneRecords_error h
    rw [hcontents, cloneRecords_clone (not_not.1 hcrypt) htemplate, if_neg hcrypt]
    exact or_iff_right hfreed

/-- Which messages are cloned as they should, or refused and left as they are. -/
theorem clones_iff (ops : CloneOps T V) (heap : Heap) (memory : Bool) (box : MessageBox T V) :
    Clones ops heap memory box ↔ Cloneable ops heap memory box := by
  have hresult : Clones ops heap memory box ↔
      (messageClone ops heap memory box = .done .error ∨
        messageClone ops heap memory box = .done (.null false)) ∨
      ∃ new', messageClone ops heap memory box = .done (.message new') ∧ IsClone ops box new' := by
    constructor
    · rintro ⟨result, hrun, hresult⟩
      cases result with
      | error => exact .inl (.inl hrun)
      | null freed =>
        obtain rfl : freed = false := hresult
        exact .inl (.inr hrun)
      | message new => exact .inr ⟨new, hrun, hresult⟩
    · rintro ((hrun | hrun) | ⟨new, hrun, hclone⟩)
      · exact ⟨_, hrun, trivial⟩
      · exact ⟨_, hrun, rfl⟩
      · exact ⟨_, hrun, hclone⟩
  rw [hresult, messageClone_fails, or_assoc]
  simp only [messageClone_message]
  cases memory with
  | false => exact iff_of_true (.inl rfl) (.inl rfl)
  | true =>
    refine or_congr_right ?_
    constructor
    · rintro (⟨⟨template, htemplate⟩, herror⟩ | ⟨new', ⟨-, ⟨template, htemplate⟩, new, hok⟩, hclone⟩)
      · exact ⟨template, htemplate, (contents_clone htemplate).1 (.inl herror)⟩
      · exact ⟨template, htemplate, (contents_clone htemplate).1 (.inr ⟨new, new', hok.1, hok.2, hclone⟩)⟩
    · rintro ⟨template, htemplate, hcond⟩
      rcases (contents_clone htemplate).2 hcond with herror | ⟨new, new', hok, hexpands, hclone⟩
      · exact .inl ⟨⟨template, htemplate⟩, herror⟩
      · exact .inr ⟨new', ⟨rfl, ⟨template, htemplate⟩, new, hok, hexpands⟩, hclone⟩

end Call

/-- A message with an expand that is only bytes, and of none of the types that are left out, is
    cloned without it. -/
theorem not_clones_bytes : ∃ (ops : CloneOps Unit Unit) (box new : MessageBox Unit Unit),
    box.held.map ExpandSlot.kind = [some (0x300, 1)] ∧
    messageClone ops Heap.ample true box = .done (.message new) ∧ new.expands = [] ∧
    ¬ Clones ops Heap.ample true box := by
  refine ⟨⟨⟨⟨fun _ _ => .done [], fun _ _ => .done (0, ()), fun _ _ => some ()⟩, fun _ => 0,
    fun _ _ => some (), fun _ _ _ _ => 0⟩, fun _ _ => some (0, ())⟩, {
      head := { initHead with expandNum := 1 }
      recordTemplate := some ()
      boxState := .init
      headSize := 0
      records := []
      expands := [⟨some (MsgExpandHead.toBytes ⟨0, 0x300, 1⟩), none, 0⟩]
      blob := .null
      currentOffset := 0 }, _, by decide, rfl, rfl, ?_⟩
  rintro ⟨result, hrun, hclone⟩
  obtain rfl := Outcome.done.inj hrun
  exact absurd (congrArg List.length hclone.expands) (by decide)

end Cube.Message
