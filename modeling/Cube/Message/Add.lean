import Cube.Message.Build

/-!
# Adding to a message, with what is left behind by a call that fails

The functions that add a record or an expand to a message make its array longer and
count one more before they know that there is something to put there. A run of one is
what it returns and the message it leaves, also where it fails.

* `messageAddRecord_of_run`, `messageAddExpand_of_run`: runs that succeed are those
  that messages are built with.
* `add_iff`: which of the calls add what is given or leave the message as it was.
-/

namespace Cube.Message

open Lib

/-- What adding to a message needs of struct templates: `struct_clone` returns a number
    and leaves something in the structure that it copies to, also where it fails, unless it
    faults. -/
structure CloneOps (T V : Type) extends StructOps T V where
  structCloneRun : T → V → Option (Int × V)

variable {T V S : Type}

/-- Copying a structure, if that does not fail. -/
def CloneOps.toMessageOps (ops : CloneOps T V) : MessageOps T V where
  toStructOps := ops.toStructOps
  structClone template v :=
    match ops.structCloneRun template v with
    | none => .fault
    | some (ret, w) => if ret < 0 then .error ret else .done w

/-- The size of an array of slots, as it is passed to `Dalloc0`. -/
def siteSize (num : Int32) : Int := (Int32.ofInt (20 * num.toInt)).toInt

/-- `__message_add_record_site` and `__message_add_expand_site` with an increment of 1: what
    is returned, and the number of slots and the slots after the call. The number is counted up
    and the pointer to the slots overwritten before it is known whether there is memory. -/
def addSiteRun (heap : Heap) (num : Int32) (slots : List S) (empty : S) :
    Outcome (Int × Int32 × List S) :=
  if num.toInt + 1 ≥ 2 ^ 31 then .fault
  else do
    let mem ← dalloc0 heap (siteSize (num + 1))
    if !mem then .done (-ENOMEM, num + 1, [])
    else if siteSize (num + 1) < 20 * (num + 1).toInt then .fault
    else if slots.length < num.toInt.toNat then .fault
    else
      let more := (num + 1).toInt.toNat - num.toInt.toNat
      .done (0, num + 1, slots.take num.toInt.toNat ++ List.replicate more empty)

/-- Something is in the place of a record. -/
def RecordSlot.taken (slot : RecordSlot V) : Bool := slot.precord.isSome || slot.record.isSome

/-- Something is in the place of an expand. -/
def ExpandSlot.taken (slot : ExpandSlot V) : Bool := slot.pexpand.isSome || slot.expand.isSome

section Runs

variable (ops : CloneOps T V) (heap : Heap)

/-- How the functions that add a record find its place. If there is a free place among those
    counted, or the number of records is negative, they go on with a `ret` that was never
    set. -/
def recordSiteRun (box : MessageBox T V) : Outcome (Int × MessageBox T V) :=
  let num := box.head.recordNum.toInt
  if (box.records.take num.toNat).any (fun slot => !slot.taken) then .fault
  else if box.records.length < num.toNat then .fault
  else if num < 0 then .fault
  else do
    let (ret, num, records) ← addSiteRun heap box.head.recordNum box.records .empty
    .done (ret, { box with records := records, head := { box.head with recordNum := num } })

/-- `message_add_record`. -/
def messageAddRecordRun (record : Option V) (box : MessageBox T V) :
    Outcome (Int × MessageBox T V) :=
  match record with
  | none => .done (-EINVAL, box)
  | some record => do
    let no := box.head.recordNum.toInt.toNat
    let (ret, box) ← recordSiteRun heap box
    if ret < 0 then .done (ret, box)
    else match box.recordTemplate with
    | none => .done (-EINVAL, box)
    | some template => do
      let mem ← dalloc0 heap (ops.structSize template)
      if !mem then .done (-ENOMEM, box)
      else match ops.structCloneRun template record with
      | none => .fault
      | some (ret, precord) =>
        let box := { box with records := box.records.set no ⟨none, some precord, 0⟩ }
        if ret < 0 then .done (ret, box) else .done (ret, { box with boxState := .add })

/-- `message_add_record_blob`. -/
def messageAddRecordBlobRun (recordSize : Int32) (record : Option (List UInt8))
    (box : MessageBox T V) : Outcome (Int × MessageBox T V) :=
  match record with
  | none => .done (-EINVAL, box)
  | some record => do
    let no := box.head.recordNum.toInt.toNat
    let (ret, box) ← recordSiteRun heap box
    if ret < 0 then .done (ret, box)
    else if !heap.ok (recordSize.toInt + 12) then .done (-ENOMEM, box)
    else do
      let data ← copyBlock (some record) recordSize
      .done (ret, { box with
        records := box.records.set no ⟨some data, none, recordSize⟩
        head := { box.head with recordSize := box.head.recordSize + recordSize }
        boxState := .add })

/-- `message_add_expand`. It looks for no free place, and writes behind the array, or before
    it, where the number of expands is negative. -/
def messageAddExpandRun (expand : Option (MsgExpand V)) (box : MessageBox T V) :
    Outcome (Int × MessageBox T V) :=
  match expand with
  | none => .done (-EINVAL, box)
  | some expand => do
    let no := box.head.expandNum.toInt
    let (ret, num, expands) ← addSiteRun heap box.head.expandNum box.expands .empty
    let box := { box with expands := expands, head := { box.head with expandNum := num } }
    if ret < 0 then .done (-EINVAL, box)
    else do
      let mem ← dalloc0 heap 20
      if !mem then .done (-ENOMEM, box)
      else match ops.getTemplate expand.type expand.subtype with
      | none => .done (-ENOMEM, box)
      | some template => do
        let mem ← dalloc0 heap (ops.structSize template)
        if !mem then .fault
        else match ops.structCloneRun template expand.expand with
        | none => .fault
        | some (ret, value) =>
          if ret < 0 then .done (ret, box)
          else if no < 0 then .fault
          else .done (ret, { box with
            expands := box.expands.set no.toNat
              ⟨none, some ⟨0, expand.type, expand.subtype, value⟩, 0⟩
            boxState := .expand })

end Runs

/-! ## What a call promises -/

/-- One more slot than there were: in the first place that was free, or at the end. -/
def placed (taken : S → Bool) (slots : List S) (slot : S) : List S :=
  match slots.findIdx? (fun s => !taken s) with
  | some i => slots.set i slot
  | none => slots ++ [slot]

/-- A call adds what is given, or fails and changes neither the number of slots nor a slot. Here
    `num` and `slots` are those before the call, `result` what it returns and those after it. -/
def Atomic (taken : S → Bool) (valid : Prop) (content : S → Prop) (num : Int32) (slots : List S)
    (result : Outcome (Int × Int32 × List S)) : Prop :=
  ∃ ret num' slots', result = .done (ret, num', slots') ∧ (valid → 0 ≤ ret) ∧
    (0 ≤ ret → (∃ slot, content slot ∧ slots'.take num'.toInt.toNat =
        placed taken (slots.take num.toInt.toNat) slot) ∧
      num'.toInt = (slots'.take num'.toInt.toNat).countP taken) ∧
    (ret < 0 → num' = num ∧ slots' = slots)

/-- The slots that are counted are there, and there is memory for an array of one more. -/
structure Grows (heap : Heap) (num : Int32) (slots : List S) : Prop where
  nonneg : 0 ≤ num.toInt
  there : num.toInt.toNat ≤ slots.length
  below : num.toInt + 1 < 2 ^ 31
  fits : SiteFits (num + 1)
  memory : heap.ok (siteSize (num + 1) + 12) = true

section Promises

variable (ops : CloneOps T V) (heap : Heap) (box : MessageBox T V)

/-- The record is there and `struct_clone` copies it by the template of the message. -/
def CopiedRecord (record : Option V) (v : V) : Prop :=
  ∃ r template ret, record = some r ∧ box.recordTemplate = some template ∧
    ops.structCloneRun template r = some (ret, v) ∧ 0 ≤ ret

/-- The bytes of the record are there. -/
def CopiedRecordBlob (size : Int32) (record : Option (List UInt8)) (data : List UInt8) : Prop :=
  ∃ r, record = some r ∧ copyBlock (some r) size = .done data

/-- The expand is there, of a type that has a template by which it can be copied. -/
def CopiedExpand (expand : Option (MsgExpand V)) (pexpand : MsgExpand V) : Prop :=
  ∃ e template ret value, expand = some e ∧ ops.getTemplate e.type e.subtype = some template ∧
    ops.structCloneRun template e.expand = some (ret, value) ∧ 0 ≤ ret ∧
    pexpand = ⟨0, e.type, e.subtype, value⟩

/-- What a run does to the slots of a message. -/
def onSlots (count : MessageBox T V → Int32) (slots : MessageBox T V → List S)
    (run : Outcome (Int × MessageBox T V)) : Outcome (Int × Int32 × List S) :=
  (fun result => (result.1, count result.2, slots result.2)) <$> run

/-- `message_add_record` adds the record or changes nothing. -/
def AddsRecord (record : Option V) : Prop :=
  Atomic RecordSlot.taken (∃ v, CopiedRecord ops box record v)
    (fun slot => ∃ v, CopiedRecord ops box record v ∧ slot = ⟨none, some v, 0⟩)
    box.head.recordNum box.records
    (onSlots (·.head.recordNum) (·.records) (messageAddRecordRun ops heap record box))

/-- `message_add_record_blob` adds the bytes or changes nothing. -/
def AddsRecordBlob (size : Int32) (record : Option (List UInt8)) : Prop :=
  Atomic RecordSlot.taken (∃ data, CopiedRecordBlob size record data)
    (fun slot => ∃ data, CopiedRecordBlob size record data ∧ slot = ⟨some data, none, size⟩)
    box.head.recordNum box.records
    (onSlots (·.head.recordNum) (·.records) (messageAddRecordBlobRun heap size record box))

/-- `message_add_expand` adds the expand or changes nothing. -/
def AddsExpand (expand : Option (MsgExpand V)) : Prop :=
  Atomic ExpandSlot.taken (∃ pexpand, CopiedExpand ops expand pexpand)
    (fun slot => ∃ pexpand, CopiedExpand ops expand pexpand ∧ slot = ⟨none, some pexpand, 0⟩)
    box.head.expandNum box.expands
    (onSlots (·.head.expandNum) (·.expands) (messageAddExpandRun ops heap expand box))

end Promises

/-! ## One more slot -/

section Site

variable {heap : Heap} {num : Int32} {slots : List S} {empty slot : S} {taken : S → Bool}
  {valid : Prop} {content : S → Prop} {result : Outcome (Int × Int32 × List S)}

theorem add_one_ne (h : ¬ num.toInt + 1 ≥ 2 ^ 31) : num + 1 ≠ num := by
  intro hsame
  have hnext := int32_add_one h
  rw [hsame] at hnext
  omega

theorem addSiteRun_done (h : Grows heap num slots) : addSiteRun heap num slots empty =
    .done (0, num + 1, slots.take num.toInt.toNat ++ [empty]) := by
  have hbelow := h.below
  have hnonneg := h.nonneg
  have hnext := int32_add_one (n := num) (by omega)
  have hsize : siteSize (num + 1) = 20 * (num + 1).toInt := h.fits
  have hmem := dalloc0_done h.memory (by omega)
  have hmore : (num + 1).toInt.toNat - num.toInt.toNat = 1 := by omega
  rw [addSiteRun, if_neg (by omega), hmem, Outcome.done_bind, hmore]
  simp only [Bool.not_true, Bool.false_eq_true, if_false, hsize, Int.lt_irrefl,
    Nat.not_lt.2 h.there, List.replicate_one]

/-- The array grows, or there is no memory for it and none is left, or something is read or
    written behind one. -/
theorem addSiteRun_cases (heap : Heap) (num : Int32) (slots : List S) (empty : S) :
    addSiteRun heap num slots empty = .fault ∨
      (num + 1 ≠ num ∧ addSiteRun heap num slots empty = .done (-ENOMEM, num + 1, [])) ∨
      (num + 1 ≠ num ∧ ∃ slots', addSiteRun heap num slots empty = .done (0, num + 1, slots') ∧
        (num.toInt < 0 ∨ Grows heap num slots)) := by
  by_cases hbelow : num.toInt + 1 ≥ 2 ^ 31
  · exact .inl (if_pos hbelow)
  have hne := add_one_ne hbelow
  have hrun : addSiteRun heap num slots empty = _ := if_neg hbelow
  -- The count is one more before it is known whether there is memory.
  rcases hmem : dalloc0 heap (siteSize (num + 1)) with mem | e | _
  · rw [hmem, Outcome.done_bind] at hrun
    rcases mem with _ | _
    · exact .inr (.inl ⟨hne, hrun⟩)
    by_cases hsize : siteSize (num + 1) < 20 * (num + 1).toInt
    · exact .inl (by rw [hrun]; exact if_pos hsize)
    by_cases hlen : slots.length < num.toInt.toNat
    · exact .inl (by simp only [hrun, hsize, hlen]; rfl)
    refine .inr (.inr ⟨hne, slots.take num.toInt.toNat ++
      List.replicate ((num + 1).toInt.toNat - num.toInt.toNat) empty, ?_, ?_⟩)
    · simp only [hrun, hsize, hlen]
      rfl
    · refine (Int.lt_or_le num.toInt 0).imp_right fun hnonneg => ?_
      have hle := int32_ofInt_le (show 0 ≤ 20 * (num + 1).toInt by rw [int32_add_one hbelow]; omega)
      refine ⟨hnonneg, Nat.not_lt.1 hlen, by omega, Int.le_antisymm hle (Int.not_lt.1 hsize), ?_⟩
      by_contra hok
      rw [dalloc0, if_neg hok] at hmem
      exact absurd hmem (by decide)
  · rw [dalloc0] at hmem
    split_ifs at hmem
  · rw [hmem, Outcome.fault_bind] at hrun
    exact .inl hrun

/-- A call that faults, or that fails with another number of slots, is not atomic. -/
theorem not_atomic_of_num (h : result = .fault ∨ ∃ ret num' slots',
      result = .done (ret, num', slots') ∧ ret < 0 ∧ num' ≠ num) :
    ¬ Atomic taken valid content num slots result := by
  rintro ⟨ret, num', slots', hdone, -, -, hfails⟩
  rcases h with hfault | ⟨ret', num'', slots'', hresult, hneg, hne⟩
  · cases hfault.symm.trans hdone
  · obtain ⟨rfl, hrest⟩ := Outcome.pair_inj (hresult.symm.trans hdone)
    obtain ⟨rfl, rfl⟩ := Prod.mk.inj hrest
    exact hne (hfails hneg).1

/-- A call that refuses what is not valid is atomic. -/
theorem atomic_of_refused (hvalid : ¬ valid) (h : result = .done (-EINVAL, num, slots)) :
    Atomic taken valid content num slots result :=
  ⟨_, _, _, h, fun hv => absurd hv hvalid, fun hret => absurd hret (by decide), fun _ => ⟨rfl, rfl⟩⟩

/-- A call that puts what is given behind the slots is atomic if none of them was free. -/
theorem atomic_iff_taken {ret : Int} (hgrows : Grows heap num slots) (hret : 0 ≤ ret)
    (hcontent : content slot) (htaken : taken slot = true)
    (h : result = .done (ret, num + 1, slots.take num.toInt.toNat ++ [slot])) :
    Atomic taken valid content num slots result ↔
      ∀ s ∈ slots.take num.toInt.toNat, taken s = true := by
  have hbelow := hgrows.below
  have hnonneg := hgrows.nonneg
  have hnext := int32_add_one (n := num) (by omega)
  have hlen : (slots.take num.toInt.toNat ++ [slot]).length = (num + 1).toInt.toNat := by
    rw [List.length_append, List.length_take_of_le hgrows.there, List.length_singleton]
    omega
  have hwhole : (slots.take num.toInt.toNat ++ [slot]).take (num + 1).toInt.toNat =
      slots.take num.toInt.toNat ++ [slot] := by rw [← hlen, List.take_length]
  constructor
  · rintro ⟨ret', num', slots', hdone, -, hsucceeds, -⟩
    obtain ⟨rfl, hrest⟩ := Outcome.pair_inj (h.symm.trans hdone)
    obtain ⟨rfl, rfl⟩ := Prod.mk.inj hrest
    obtain ⟨-, hcount⟩ := hsucceeds hret
    -- As many of the slots are taken as there are.
    rw [hwhole] at hcount
    have hall := List.countP_eq_length.1 (show (slots.take num.toInt.toNat ++ [slot]).countP taken =
      (slots.take num.toInt.toNat ++ [slot]).length by omega)
    exact fun s hs => hall s (List.mem_append_left _ hs)
  · intro hall
    refine ⟨_, _, _, h, fun _ => hret, fun _ => ⟨⟨slot, hcontent, ?_⟩, ?_⟩, fun hneg => by omega⟩
    -- No place is free, so that what is given belongs behind all of them.
    · have hnone : (slots.take num.toInt.toNat).findIdx? (fun s => !taken s) = none :=
        List.findIdx?_eq_none_iff.2 fun s hs => by rw [hall s hs]; rfl
      rw [hwhole, placed, hnone]
    · have hcount : (slots.take num.toInt.toNat ++ [slot]).countP taken =
          (slots.take num.toInt.toNat ++ [slot]).length :=
        List.countP_eq_length.2 fun s hs => (List.mem_append.1 hs).elim (hall s)
          fun hlast => by rw [List.mem_singleton.1 hlast]; exact htaken
      rw [hwhole, hcount, hlen]
      omega

end Site

/-! ## The calls -/

section Calls

variable {ops : CloneOps T V} {heap : Heap} {box : MessageBox T V} {template : T}

/-- The run faults, or fails when it has counted up already. -/
def Spoils (count : MessageBox T V → Int32) (box : MessageBox T V)
    (run : Outcome (Int × MessageBox T V)) : Prop :=
  run = .fault ∨ ∃ ret box', run = .done (ret, box') ∧ ret < 0 ∧ count box' ≠ count box

theorem Spoils.onSlots {count : MessageBox T V → Int32} {run : Outcome (Int × MessageBox T V)}
    (h : Spoils count box run) (slots : MessageBox T V → List S) :
    onSlots count slots run = .fault ∨ ∃ ret num' slots',
      onSlots count slots run = .done (ret, num', slots') ∧ ret < 0 ∧ num' ≠ count box := by
  rcases h with rfl | ⟨ret, box', rfl, hneg, hne⟩
  · exact .inl rfl
  · exact .inr ⟨ret, _, _, rfl, hneg, hne⟩

/-- The records can grow by one, and no place among them is free. -/
def RecordSite (heap : Heap) (box : MessageBox T V) : Prop :=
  Grows heap box.head.recordNum box.records ∧
    ∀ slot ∈ box.records.take box.head.recordNum.toInt.toNat, slot.taken = true

/-- The message with one more place for a record. -/
def MessageBox.moreRecords (box : MessageBox T V) : MessageBox T V :=
  { box with
    records := box.records.take box.head.recordNum.toInt.toNat ++ [.empty]
    head := { box.head with recordNum := box.head.recordNum + 1 } }

theorem recordSiteRun_done (h : RecordSite heap box) :
    recordSiteRun heap box = .done (0, box.moreRecords) := by
  obtain ⟨hgrows, htaken⟩ := h
  have hany : (box.records.take box.head.recordNum.toInt.toNat).any (fun slot => !slot.taken) =
      false := List.any_eq_false.2 fun slot hslot => by rw [htaken slot hslot]; decide
  have hnonneg := hgrows.nonneg
  have hrun : recordSiteRun heap box = _ := if_neg (by rw [hany]; decide)
  rw [hrun, if_neg (Nat.not_lt.2 hgrows.there), if_neg (by omega), addSiteRun_done hgrows,
    Outcome.done_bind, MessageBox.moreRecords]

theorem recordSiteRun_cases (heap : Heap) (box : MessageBox T V) :
    Spoils (·.head.recordNum) box (recordSiteRun heap box) ∨ RecordSite heap box := by
  -- Only where no place is free does the array grow; what is read behind it is a fault.
  rw [recordSiteRun]
  split_ifs with hany hlen hneg
  iterate 3 exact .inl (.inl rfl)
  rcases addSiteRun_cases heap box.head.recordNum box.records .empty with
    hfault | ⟨hne, hrun⟩ | ⟨-, -, -, hneg' | hgrows⟩
  · rw [hfault]
    exact .inl (.inl rfl)
  · rw [hrun]
    exact .inl (.inr ⟨_, _, rfl, by decide, hne⟩)
  · exact absurd hneg' hneg
  · refine .inr ⟨hgrows, fun slot hslot => ?_⟩
    by_contra hfree
    exact hany (List.any_eq_true.2 ⟨slot, hslot, by rw [Bool.eq_false_iff.2 hfree]; rfl⟩)

/-- The number of records of a message with one more place is another one. -/
theorem RecordSite.ne (h : RecordSite heap box) :
    box.moreRecords.head.recordNum ≠ box.head.recordNum :=
  add_one_ne (Int.not_le.2 h.1.below)

/-- Filling the place that was added. -/
theorem RecordSite.set (h : RecordSite heap box) (slot : RecordSlot V) :
    box.moreRecords.records.set box.head.recordNum.toInt.toNat slot =
      box.records.take box.head.recordNum.toInt.toNat ++ [slot] :=
  set_append_last _ _ _ (List.length_take_of_le h.1.there).symm

/-- `message_add_record` has a place for the record, a template, memory and a copy. -/
def RecordFits (ops : CloneOps T V) (heap : Heap) (box : MessageBox T V) (record : V) : Prop :=
  RecordSite heap box ∧ ∃ template ret v, box.recordTemplate = some template ∧
    dalloc0 heap (ops.structSize template) = .done true ∧
    ops.structCloneRun template record = some (ret, v) ∧ 0 ≤ ret

theorem dalloc0_ne_error {size e : Int} : dalloc0 heap size ≠ .error e := by
  intro h
  rw [dalloc0] at h
  split_ifs at h

theorem messageAddRecordRun_cases (record : V) :
    Spoils (·.head.recordNum) box (messageAddRecordRun ops heap (some record) box) ∨
      RecordFits ops heap box record := by
  rw [messageAddRecordRun]
  rcases recordSiteRun_cases heap box with (hfault | ⟨ret, box', hrun, hneg, hne⟩) | hsite
  · rw [hfault]
    exact .inl (.inl rfl)
  · rw [hrun]
    exact .inl (.inr ⟨ret, box', if_pos hneg, hneg, hne⟩)
  have hmore : box.moreRecords.recordTemplate = box.recordTemplate := rfl
  -- Whatever is not found from here on, the message counts a record more already.
  rcases htemplate : box.recordTemplate with _ | template
  · simp only [recordSiteRun_done hsite, hmore, htemplate, Outcome.done_bind]
    exact .inl (.inr ⟨_, _, rfl, by decide, hsite.ne⟩)
  rcases hmem : dalloc0 heap (ops.structSize template) with (_ | _) | e | _
  · simp only [recordSiteRun_done hsite, hmore, htemplate, hmem, Outcome.done_bind]
    exact .inl (.inr ⟨_, _, rfl, by decide, hsite.ne⟩)
  · rcases hclone : ops.structCloneRun template record with _ | ⟨ret, v⟩
    · simp only [recordSiteRun_done hsite, hmore, htemplate, hmem, hclone, Outcome.done_bind]
      exact .inl (.inl rfl)
    by_cases hret : ret < 0
    · simp only [recordSiteRun_done hsite, hmore, htemplate, hmem, hclone, Outcome.done_bind,
        if_pos hret]
      exact .inl (.inr ⟨_, _, rfl, hret, hsite.ne⟩)
    · exact .inr ⟨hsite, template, ret, v, htemplate, hmem, hclone, Int.not_lt.1 hret⟩
  · exact absurd hmem dalloc0_ne_error
  · simp only [recordSiteRun_done hsite, hmore, htemplate, hmem, Outcome.done_bind]
    exact .inl (.inl rfl)

theorem messageAddRecordRun_done {record v : V} {ret : Int} (hsite : RecordSite heap box)
    (htemplate : box.recordTemplate = some template)
    (hmem : dalloc0 heap (ops.structSize template) = .done true)
    (hclone : ops.structCloneRun template record = some (ret, v)) (hret : 0 ≤ ret) :
    messageAddRecordRun ops heap (some record) box = .done (ret, { box.moreRecords with
      records := box.records.take box.head.recordNum.toInt.toNat ++ [⟨none, some v, 0⟩]
      boxState := .add }) := by
  have hmore : box.moreRecords.recordTemplate = some template := htemplate
  simp only [messageAddRecordRun, recordSiteRun_done hsite, hmore, hmem, hclone, Outcome.done_bind,
    if_neg (Int.not_lt.2 hret), hsite.set]
  rfl

/-- Which records are added by `message_add_record`. -/
theorem addsRecord_iff (record : Option V) : AddsRecord ops heap box record ↔
    ∀ r, record = some r → RecordFits ops heap box r := by
  rcases record with _ | r
  · refine iff_of_true (atomic_of_refused ?_ rfl) nofun
    rintro ⟨v, r, template, ret, hnone, -⟩
    cases hnone
  constructor
  · rintro hatomic _ ⟨⟩
    exact (messageAddRecordRun_cases r).resolve_left fun hspoils =>
      not_atomic_of_num (hspoils.onSlots _) hatomic
  · intro hfits
    obtain ⟨hsite, template, ret, v, htemplate, hmem, hclone, hret⟩ := hfits r rfl
    refine (atomic_iff_taken hsite.1 hret ⟨v, ⟨r, template, ret, rfl, htemplate, hclone, hret⟩, rfl⟩
      rfl ?_).2 hsite.2
    rw [messageAddRecordRun_done hsite htemplate hmem hclone hret]
    rfl

/-- `message_add_record_blob` has a place for the record, as many bytes as it is told, and memory
    for them. -/
def RecordBlobFits (heap : Heap) (box : MessageBox T V) (size : Int32) (record : List UInt8) :
    Prop :=
  RecordSite heap box ∧ heap.ok (size.toInt + 12) = true ∧ 0 ≤ size.toInt ∧
    size.toInt ≤ record.length

theorem copyBlock_done {size : Int32} {record : List UInt8} (h : 0 ≤ size.toInt)
    (hle : size.toInt ≤ record.length) :
    copyBlock (some record) size = .done (record.take size.toInt.toNat) :=
  if_neg (by omega)

theorem messageAddRecordBlobRun_cases (size : Int32) (record : List UInt8) :
    Spoils (·.head.recordNum) box (messageAddRecordBlobRun heap size (some record) box) ∨
      RecordBlobFits heap box size record := by
  rw [messageAddRecordBlobRun]
  rcases recordSiteRun_cases heap box with (hfault | ⟨ret, box', hrun, hneg, hne⟩) | hsite
  · rw [hfault]
    exact .inl (.inl rfl)
  · rw [hrun]
    exact .inl (.inr ⟨ret, box', if_pos hneg, hneg, hne⟩)
  rcases hok : heap.ok (size.toInt + 12) with _ | _
  · simp only [recordSiteRun_done hsite, Outcome.done_bind]
    exact .inl (.inr ⟨_, _, rfl, by decide, hsite.ne⟩)
  by_cases hsize : size.toInt < 0 ∨ size.toInt > record.length
  · have hcopy : copyBlock (some record) size = .fault := if_pos hsize
    simp only [recordSiteRun_done hsite, hcopy, Outcome.done_bind]
    exact .inl (.inl rfl)
  · exact .inr ⟨hsite, hok, by omega, by omega⟩

/-- Which records are added by `message_add_record_blob`. -/
theorem addsRecordBlob_iff (size : Int32) (record : Option (List UInt8)) :
    AddsRecordBlob heap box size record ↔ ∀ r, record = some r → RecordBlobFits heap box size r := by
  rcases record with _ | r
  · refine iff_of_true (atomic_of_refused ?_ rfl) nofun
    rintro ⟨data, r, hnone, -⟩
    cases hnone
  constructor
  · rintro hatomic _ ⟨⟩
    exact (messageAddRecordBlobRun_cases size r).resolve_left fun hspoils =>
      not_atomic_of_num (hspoils.onSlots _) hatomic
  · intro hfits
    obtain ⟨hsite, hok, hnonneg, hle⟩ := hfits r rfl
    have hcopy := copyBlock_done hnonneg hle
    refine (atomic_iff_taken hsite.1 (Int.le_refl 0) ⟨_, ⟨r, rfl, hcopy⟩, rfl⟩ rfl ?_).2 hsite.2
    simp only [messageAddRecordBlobRun, recordSiteRun_done hsite, hok, hcopy, Outcome.done_bind,
      hsite.set]
    rfl

/-- `message_add_expand` has room for one more slot, a template of the type of the expand, memory
    and a copy. -/
def ExpandFits (ops : CloneOps T V) (heap : Heap) (box : MessageBox T V) (expand : MsgExpand V) :
    Prop :=
  Grows heap box.head.expandNum box.expands ∧ dalloc0 heap 20 = .done true ∧
    ∃ template ret value, ops.getTemplate expand.type expand.subtype = some template ∧
      dalloc0 heap (ops.structSize template) = .done true ∧
      ops.structCloneRun template expand.expand = some (ret, value) ∧ 0 ≤ ret

theorem messageAddExpandRun_cases (expand : MsgExpand V) :
    Spoils (·.head.expandNum) box (messageAddExpandRun ops heap (some expand) box) ∨
      ExpandFits ops heap box expand := by
  rw [messageAddExpandRun]
  rcases addSiteRun_cases heap box.head.expandNum box.expands .empty with
    hfault | ⟨hne, hrun⟩ | ⟨hne, slots', hrun, hsite⟩
  · rw [hfault]
    exact .inl (.inl rfl)
  · rw [hrun]
    exact .inl (.inr ⟨_, _, rfl, by decide, hne⟩)
  -- The message counts an expand more already, whatever comes out from here on.
  rcases hmem : dalloc0 heap 20 with (_ | _) | e | _
  · simp only [hrun, Outcome.done_bind]
    exact .inl (.inr ⟨_, _, rfl, by decide, hne⟩)
  · rcases htemplate : ops.getTemplate expand.type expand.subtype with _ | template
    · simp only [hrun, Outcome.done_bind]
      exact .inl (.inr ⟨_, _, rfl, by decide, hne⟩)
    rcases hstruct : dalloc0 heap (ops.structSize template) with (_ | _) | e | _
    · simp only [hrun, hstruct, Outcome.done_bind]
      exact .inl (.inl rfl)
    · rcases hclone : ops.structCloneRun template expand.expand with _ | ⟨ret, value⟩
      · simp only [hrun, hstruct, hclone, Outcome.done_bind]
        exact .inl (.inl rfl)
      by_cases hret : ret < 0
      · simp only [hrun, hstruct, hclone, Outcome.done_bind, if_pos hret]
        exact .inl (.inr ⟨_, _, rfl, hret, hne⟩)
      rcases hsite with hneg | hgrows
      · simp only [hrun, hstruct, hclone, Outcome.done_bind, if_neg hret, if_pos hneg]
        exact .inl (.inl rfl)
      · exact .inr ⟨hgrows, hmem, template, ret, value, htemplate, hstruct, hclone,
          Int.not_lt.1 hret⟩
    · exact absurd hstruct dalloc0_ne_error
    · simp only [hrun, hstruct, Outcome.done_bind]
      exact .inl (.inl rfl)
  · exact absurd hmem dalloc0_ne_error
  · simp only [hrun, Outcome.done_bind]
    exact .inl (.inl rfl)

/-- Behind the slots that are there, `message_add_expand` adds what is given. -/
theorem ExpandFits.atomic_iff {e : MsgExpand V} (h : ExpandFits ops heap box e) :
    AddsExpand ops heap box (some e) ↔
      ∀ slot ∈ box.expands.take box.head.expandNum.toInt.toNat, slot.taken = true := by
  obtain ⟨hgrows, hmem, template, ret, value, htemplate, hstruct, hclone, hret⟩ := h
  have hnonneg := Int.not_lt.2 hgrows.nonneg
  have hset (slot : ExpandSlot V) := set_append_last
    (box.expands.take box.head.expandNum.toInt.toNat) .empty slot
    (List.length_take_of_le hgrows.there).symm
  refine atomic_iff_taken hgrows hret
    ⟨_, ⟨e, template, ret, value, rfl, htemplate, hclone, hret, rfl⟩, rfl⟩ rfl ?_
  simp only [messageAddExpandRun, addSiteRun_done hgrows, hmem, htemplate, hstruct, hclone,
    Outcome.done_bind, if_neg (Int.not_lt.2 hret), if_neg hnonneg, hset]
  rfl

/-- Which expands are added by `message_add_expand`: there, a free place is not looked for. -/
theorem addsExpand_iff (expand : Option (MsgExpand V)) : AddsExpand ops heap box expand ↔
    ∀ e, expand = some e → ExpandFits ops heap box e ∧
      ∀ slot ∈ box.expands.take box.head.expandNum.toInt.toNat, slot.taken = true := by
  rcases expand with _ | e
  · refine iff_of_true (atomic_of_refused ?_ rfl) nofun
    rintro ⟨pexpand, e, template, ret, value, hnone, -⟩
    cases hnone
  constructor
  · rintro hatomic _ ⟨⟩
    have hfits := (messageAddExpandRun_cases e).resolve_left fun hspoils =>
      not_atomic_of_num (hspoils.onSlots _) hatomic
    exact ⟨hfits, hfits.atomic_iff.1 hatomic⟩
  · intro hfits
    obtain ⟨hfits, htaken⟩ := hfits e rfl
    exact hfits.atomic_iff.2 htaken

/-- Records and expands are added where there is an array with a place for each of those that are
    counted, none of them free, and everything else is found that the call looks for after it has
    counted one more. -/
theorem add_iff (ops : CloneOps T V) (heap : Heap) (box : MessageBox T V) :
    (∀ record, AddsRecord ops heap box record ↔
      ∀ r, record = some r → RecordFits ops heap box r) ∧
    (∀ size record, AddsRecordBlob heap box size record ↔
      ∀ r, record = some r → RecordBlobFits heap box size r) ∧
    ∀ expand, AddsExpand ops heap box expand ↔
      ∀ e, expand = some e → ExpandFits ops heap box e ∧
        ∀ slot ∈ box.expands.take box.head.expandNum.toInt.toNat, slot.taken = true :=
  ⟨addsRecord_iff, addsRecordBlob_iff, addsExpand_iff⟩

end Calls

/-! ## Runs that succeed -/

section Succeed

variable {ops : CloneOps T V} {heap : Heap} {box box' : MessageBox T V} {ret : Int}

theorem addSite_grows {num : Int32} {slots : List S} {empty : S} (h : Grows heap num slots) :
    addSite heap num slots empty = .done (num + 1, slots ++ [empty]) := by
  have hbelow := h.below
  have hnonneg := h.nonneg
  have hnext := int32_add_one (n := num) (by omega)
  have hsize : (Int32.ofInt (20 * (num + 1).toInt)).toInt = 20 * (num + 1).toInt := h.fits
  have hmem : dalloc0 heap (20 * (num + 1).toInt) = .done true := by
    rw [← hsize]
    exact dalloc0_done h.memory (by omega)
  rw [addSite, if_neg (by omega)]
  simp only [hsize, hmem, Outcome.done_bind, Bool.not_true, Bool.false_eq_true, if_false,
    Int.lt_irrefl]

/-- A run that succeeds does not spoil anything. -/
theorem not_spoils {count : MessageBox T V → Int32} {run : Outcome (Int × MessageBox T V)}
    (h : run = .done (ret, box')) (hret : 0 ≤ ret) : ¬ Spoils count box run := by
  rintro (hfault | ⟨ret', box'', hrun, hneg, -⟩)
  · cases hfault.symm.trans h
  · have hsame := (Outcome.pair_inj (hrun.symm.trans h)).1
    omega

/-- The place for a record in a message that has no more places than it counts. -/
theorem messageRecordSite_grows (hlen : box.records.length = box.head.recordNum.toInt.toNat)
    (h : RecordSite heap box) : messageRecordSite heap box = .done box.moreRecords := by
  obtain ⟨hgrows, htaken⟩ := h
  have hwhole : box.records.take box.head.recordNum.toInt.toNat = box.records :=
    List.take_of_length_le (Nat.le_of_eq hlen)
  have hany : (box.records.take box.head.recordNum.toInt.toNat).any
      (fun slot => slot.precord.isNone && slot.record.isNone) = false := by
    refine List.any_eq_false.2 fun slot hslot hfree => ?_
    have htaken := htaken slot hslot
    rw [Bool.and_eq_true, Option.isNone_iff_eq_none, Option.isNone_iff_eq_none] at hfree
    rw [RecordSlot.taken, hfree.1, hfree.2] at htaken
    cases htaken
  rw [messageRecordSite, hany, addSite_grows hgrows, MessageBox.moreRecords, hwhole]
  rfl

/-- A run of `message_add_record` that succeeds. -/
theorem messageAddRecord_of_run {record : V}
    (hlen : box.records.length = box.head.recordNum.toInt.toNat)
    (h : messageAddRecordRun ops heap (some record) box = .done (ret, box')) (hret : 0 ≤ ret) :
    messageAddRecord ops.toMessageOps heap record box = .done box' := by
  obtain ⟨hsite, template, ret', v, htemplate, hmem, hclone, hret'⟩ :=
    (messageAddRecordRun_cases record).resolve_left (not_spoils h hret)
  rw [messageAddRecordRun_done hsite htemplate hmem hclone hret'] at h
  have hmore : box.moreRecords.recordTemplate = some template := htemplate
  have hcopy : ops.toMessageOps.structClone template record = .done v := by
    simp only [CloneOps.toMessageOps, hclone, if_neg (Int.not_lt.2 hret')]
  rw [← (Outcome.pair_inj h).2]
  simp only [messageAddRecord, messageRecordSite_grows hlen hsite, hmore, hcopy, hsite.set,
    Outcome.done_bind]
  rw [show ops.toMessageOps.structSize = ops.structSize from rfl, hmem]
  rfl

/-- A run of `message_add_record_blob` that succeeds. -/
theorem messageAddRecordBlob_of_run {size : Int32} {record : List UInt8}
    (hlen : box.records.length = box.head.recordNum.toInt.toNat)
    (h : messageAddRecordBlobRun heap size (some record) box = .done (ret, box'))
    (hret : 0 ≤ ret) : messageAddRecordBlob heap size record box = .done box' := by
  obtain ⟨hsite, hok, hnonneg, hle⟩ :=
    (messageAddRecordBlobRun_cases size record).resolve_left (not_spoils h hret)
  have hcopy := copyBlock_done hnonneg hle
  simp only [messageAddRecordBlobRun, recordSiteRun_done hsite, hok, hcopy, Outcome.done_bind] at h
  rw [← (Outcome.pair_inj h).2]
  simp only [messageAddRecordBlob, messageRecordSite_grows hlen hsite, hok, hcopy,
    Outcome.done_bind]
  rfl

/-- A run of `message_add_expand` that succeeds. -/
theorem messageAddExpand_of_run {expand : MsgExpand V}
    (hlen : box.expands.length = box.head.expandNum.toInt.toNat)
    (h : messageAddExpandRun ops heap (some expand) box = .done (ret, box')) (hret : 0 ≤ ret) :
    messageAddExpand ops.toMessageOps heap expand box = .done box' := by
  obtain ⟨hgrows, hmem, template, ret', value, htemplate, hstruct, hclone, hret'⟩ :=
    (messageAddExpandRun_cases expand).resolve_left (not_spoils h hret)
  have hwhole : box.expands.take box.head.expandNum.toInt.toNat = box.expands :=
    List.take_of_length_le (Nat.le_of_eq hlen)
  have hcopy : ops.toMessageOps.structClone template expand.expand = .done value := by
    simp only [CloneOps.toMessageOps, hclone, if_neg (Int.not_lt.2 hret')]
  simp only [messageAddExpandRun, addSiteRun_done hgrows, hmem, htemplate, hstruct, hclone,
    Outcome.done_bind, if_neg (Int.not_lt.2 hret'), if_neg (Int.not_lt.2 hgrows.nonneg),
    hwhole] at h
  have htemplate' : ops.toMessageOps.getTemplate expand.type expand.subtype = some template :=
    htemplate
  have hstruct' : dalloc0 heap (ops.toMessageOps.structSize template) = .done true := hstruct
  rw [← (Outcome.pair_inj h).2]
  simp only [messageAddExpand, messageExpandSite, addSite_grows hgrows, hmem, htemplate', hstruct',
    hcopy, Outcome.done_bind]
  rfl

end Succeed

/-- An expand of a type without a template is refused, and the message then counts an expand more,
    with nothing in its place. -/
theorem add_not : ∃ (ops : CloneOps Unit Unit) (box box' : MessageBox Unit Unit),
    messageAddExpandRun ops Heap.ample (some ⟨0, 1, 1, ()⟩) box = .done (-ENOMEM, box') ∧
    box.head.expandNum = 0 ∧ box'.head.expandNum = 1 ∧ box'.expands = [.empty] ∧
    ¬ AddsExpand ops Heap.ample box (some ⟨0, 1, 1, ()⟩) := by
  refine ⟨⟨⟨⟨fun _ _ => .fault, fun _ _ => .fault, fun _ _ => none⟩, fun _ => 0,
    fun _ _ => none, fun _ _ _ _ => 0⟩, fun _ _ => none⟩, {
      head := initHead, recordTemplate := none, boxState := .init, headSize := 0, records := [],
      blob := .null, expands := [], currentOffset := 0 }, _, rfl, rfl, rfl, rfl, fun hatomic => ?_⟩
  obtain ⟨⟨-, -, template, -, -, hnone, -⟩, -⟩ := (addsExpand_iff _).1 hatomic _ rfl
  cases hnone

end Cube.Message
