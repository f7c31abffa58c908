import Cube.Message.Box

/-!
# Reading messages

A message is read from bytes in two steps (`message.c`): its head, which says how
long its records and expands are (`message_read_head`), and the bytes of these
(`message_read_data`), which are copied as they come and, once all are there, cut
into expands by the length each one starts with.

* `read_from_blob_safe_iff`: reading stays within the bytes given, and within
  the parts of the message, exactly for the bytes whose lengths say so. None of
  the lengths but the counts is checked.
-/

namespace Cube.Message

open Lib

variable {T V : Type}

/-- The most expands a message is read with, `MAX_EXPAND_NUM`. -/
def MAX_EXPAND_NUM : Int := 10

/-- The checks `message_read_head` makes on the head. -/
def headChecked (head : MsgHead) : Bool :=
  !(decide (head.recordNum.toInt < 0)) && !(decide (head.expandNum.toInt < 0)) &&
    !(decide (head.expandNum.toInt > MAX_EXPAND_NUM)) && head.tag == mesgTag &&
    head.version == mesgVersion

/-- `message_read_head`: the message that waits for the rest of its bytes. The
    value returned is the size of a head. -/
def messageReadHead (heap : Heap) (blob : List UInt8) : Outcome (MessageBox T V) :=
  if blob.length < MsgHead.sizeof then .error (-EINVAL)
  else do
    let head ← blob2Head blob
    if !headChecked head then .error (-EINVAL)
    else
      let totalSize := head.recordSize + head.expandSize
      if !heap.ok totalSize.toInt then .error (-ENOMEM)
      else .done {
        head := head
        recordTemplate := none
        boxState := .loaddata
        headSize := MsgHead.sizeof
        records := []
        expands := []
        blob := .bytes []
        currentOffset := 0 }

/-- The length of the expand at the offset: the one it starts with and that of
    its head. -/
def sizeAt (data : List UInt8) (offset : Int) : Int32 :=
  bytesInt32 (data.drop offset.toNat) + 12

/-- The expand cut out of `data` at the offset: `0` or the error, its place after
    the cut, and the offset after it. -/
def readExpand (heap : Heap) (data : List UInt8) (offset : Int) :
    Outcome (Int × ExpandSlot V × Int) :=
  if offset < 0 ∨ offset + 4 > data.length then .fault
  else do
    let size := (sizeAt data offset).toInt
    let mem ← dalloc0 heap size
    if !mem then .done (-ENOMEM, ⟨none, none, sizeAt data offset⟩, offset)
    else if offset + size > data.length then .fault
    else
      let bytes := slice data offset.toNat (offset + size).toNat
      .done (0, ⟨some bytes, none, sizeAt data offset⟩, offset + size)

/-- The loop of `message_read_data` over the expands, from the offset on: `0` or
    the error, and the places of the expands after it. -/
def readExpands (heap : Heap) (data : List UInt8) :
    Nat → Int → Outcome (Int × List (ExpandSlot V))
  | 0, _ => .done (0, [])
  | n + 1, offset => do
    let (ret, slot, offset) ← readExpand heap data offset
    if ret < 0 then .done (ret, slot :: List.replicate n .empty)
    else do
      let (ret, slots) ← readExpands heap data n offset
      .done (ret, slot :: slots)

/-- `message_read_data`: the value returned, and the message after the call with
    the next bytes. -/
def messageReadData (heap : Heap) (box : MessageBox T V) (data : List UInt8) :
    Outcome (Int × MessageBox T V) :=
  if box.boxState ≠ .loaddata then .done (-EINVAL, box)
  else match box.blob with
  | .null => .fault
  | .freed => .fault
  | .bytes blob =>
    if data.length = 0 then .done (-EINVAL, box)
    else
      let totalSize := (box.head.recordSize + box.head.expandSize).toInt
      if data.length + box.currentOffset ≥ totalSize then
        let newSize := totalSize - box.currentOffset
        if newSize < 0 then .fault
        else do
          let blob := blob.take box.currentOffset.toNat ++ data.take newSize.toNat
          let records ← messageAllocRecordSite heap box
          let expands ← messageAllocExpandSite heap box
          if expands.length < box.head.expandNum.toInt then .fault
          else do
            let (ret, expands) ← readExpands heap blob box.head.expandNum.toInt.toNat
              box.head.recordSize.toInt
            let box := { box with
              blob := .bytes blob
              records := records
              expands := expands
              currentOffset := 0 }
            if ret < 0 then .done (ret, box)
            else .done (newSize, { box with boxState := .rebuilding })
      else
        .done (0, { box with
          blob := .bytes (blob.take box.currentOffset.toNat ++ data)
          currentOffset := box.currentOffset + data.length })

/-- `message_read_from_blob`: the value returned and the message read. -/
def messageReadFromBlob (heap : Heap) (blob : List UInt8) : Outcome (Int × MessageBox T V) := do
  let box ← messageReadHead heap blob
  let (retval, box) ← messageReadData heap box (blob.drop MsgHead.sizeof)
  if retval < 0 then .error retval
  else .done (retval + MsgHead.sizeof, box)

/-! ## The head -/

/-- The bytes start with a head that `message_read_head` takes: the checks pass
    and there is memory for the rest. -/
structure HeadAccepted (heap : Heap) (blob : List UInt8) : Prop where
  length_ge : MsgHead.sizeof ≤ blob.length
  recordType_nonneg : ¬ (MsgHead.ofBytes blob).recordType < 0
  headChecked : headChecked (MsgHead.ofBytes blob)
  ok_total : heap.ok ((MsgHead.ofBytes blob).recordSize +
    (MsgHead.ofBytes blob).expandSize).toInt

/-- The message that waits for the bytes after the head. -/
def waiting (head : MsgHead) : MessageBox T V where
  head := head
  recordTemplate := none
  boxState := .loaddata
  headSize := MsgHead.sizeof
  records := []
  expands := []
  blob := .bytes []
  currentOffset := 0

theorem readHead_of_accepted {heap : Heap} {blob : List UInt8} (h : HeadAccepted heap blob) :
    messageReadHead heap blob = .done (waiting (MsgHead.ofBytes blob) : MessageBox T V) := by
  have hlen := h.length_ge
  rw [messageReadHead, if_neg (by omega), blob2Head]
  simp only [if_neg h.recordType_nonneg, Outcome.done_bind, h.headChecked, h.ok_total]
  rfl

theorem readHead_of_not_accepted {heap : Heap} {blob : List UInt8} (h : ¬ HeadAccepted heap blob) :
    ∃ e < 0, (messageReadHead heap blob : Outcome (MessageBox T V)) = .error e := by
  rw [messageReadHead, blob2Head]
  split_ifs with h₁ h₂
  · exact ⟨-EINVAL, by decide, rfl⟩
  · exact ⟨-EINVAL, by decide, rfl⟩
  simp only [Outcome.done_bind]
  split_ifs with h₃ h₄
  · exact ⟨-EINVAL, by decide, rfl⟩
  · exact ⟨-ENOMEM, by decide, rfl⟩
  · refine absurd ⟨by omega, h₂, by simpa using h₃, by simpa using h₄⟩ h

variable {head : MsgHead} {p q : Int} {slots : List (ExpandSlot V)}

theorem headChecked_iff : headChecked head ↔
    0 ≤ head.recordNum.toInt ∧ 0 ≤ head.expandNum.toInt ∧ head.expandNum.toInt ≤ MAX_EXPAND_NUM ∧
      head.tag = mesgTag ∧ head.version = mesgVersion := by
  simp [headChecked, and_assoc]

/-! ## The expands -/

/-- The lengths of `n` expands from the offset on lead from one to the next,
    each at least that of a head, up to `stop`. -/
def Tiled (heap : Heap) (data : List UInt8) (stop : Int) : Nat → Int → Prop
  | 0, offset => offset = stop
  | n + 1, offset =>
    let size := (sizeAt data offset).toInt
    0 ≤ offset ∧ offset + 4 ≤ data.length ∧ heap.ok (size + 12) ∧ 12 ≤ size ∧
      offset + size ≤ data.length ∧ Tiled heap data stop n (offset + size)

/-- Of the lengths of `n` expands from the offset on, one is refused by the heap,
    and those before it lead there. -/
def Refused (heap : Heap) (data : List UInt8) : Nat → Int → Prop
  | 0, _ => False
  | n + 1, offset =>
    let size := (sizeAt data offset).toInt
    0 ≤ offset ∧ offset + 4 ≤ data.length ∧ (heap.ok (size + 12) = false ∨
      0 ≤ size ∧ offset + size ≤ data.length ∧ Refused heap data n (offset + size))

/-- The expands are consecutive stretches of the data, from `p` to `q`, each with
    room for its head. -/
def Cut (data : List UInt8) : Int → List (ExpandSlot V) → Int → Prop
  | p, [], q => p = q
  | p, slot :: slots, q => 12 ≤ slot.size.toInt ∧
      slot.expand = some (slice data p.toNat (p + slot.size.toInt).toNat) ∧
      Cut data (p + slot.size.toInt) slots q

/-- The expand cut out at the offset. -/
def slotAt (data : List UInt8) (offset : Int) : ExpandSlot V :=
  ⟨some (slice data offset.toNat (offset + (sizeAt data offset).toInt).toNat), none,
    sizeAt data offset⟩

variable {heap : Heap} {data : List UInt8} {offset : Int} {n : Nat}

/-- The four bytes of the length at the offset are within the data. -/
abbrev LengthInside (data : List UInt8) (offset : Int) : Prop :=
  0 ≤ offset ∧ offset + 4 ≤ data.length

theorem readExpand_fault (h : ¬ LengthInside data offset) :
    (readExpand heap data offset : Outcome (Int × ExpandSlot V × Int)) = .fault := by
  rw [readExpand, if_pos (by rw [LengthInside] at h; omega)]

theorem readExpand_refused (h : LengthInside data offset)
    (hok : heap.ok ((sizeAt data offset).toInt + 12) = false) :
    (readExpand heap data offset : Outcome (Int × ExpandSlot V × Int)) =
      .done (-ENOMEM, ⟨none, none, sizeAt data offset⟩, offset) := by
  rw [readExpand, if_neg (by omega)]
  simp only [dalloc0_none hok]
  rfl

theorem readExpand_outside (h : LengthInside data offset)
    (hok : heap.ok ((sizeAt data offset).toInt + 12) = true)
    (hfit : ¬ (0 ≤ (sizeAt data offset).toInt ∧ offset + (sizeAt data offset).toInt ≤ data.length)) :
    (readExpand heap data offset : Outcome (Int × ExpandSlot V × Int)) = .fault := by
  rw [readExpand, if_neg (by omega)]
  by_cases hneg : (sizeAt data offset).toInt < 0
  · simp only [dalloc0_fault hok hneg]
    rfl
  · simp only [dalloc0_done hok (show 0 ≤ (sizeAt data offset).toInt by omega)]
    exact if_pos (by omega)

theorem readExpand_done (h : LengthInside data offset)
    (hok : heap.ok ((sizeAt data offset).toInt + 12) = true)
    (hfit : 0 ≤ (sizeAt data offset).toInt ∧ offset + (sizeAt data offset).toInt ≤ data.length) :
    (readExpand heap data offset : Outcome (Int × ExpandSlot V × Int)) =
      .done (0, slotAt data offset, offset + (sizeAt data offset).toInt) := by
  rw [readExpand, if_neg (by omega)]
  simp only [dalloc0_done hok hfit.1]
  exact if_neg (by omega)

/-- How the loop comes out: it ends, and has cut the expands out up to `stop`
    exactly when their lengths lead there; or it is refused a length; or it is led
    outside the data. -/
theorem readExpands_cases (heap : Heap) (data : List UInt8) (n : Nat) (offset stop : Int) :
    (∃ slots : List (ExpandSlot V), readExpands heap data n offset = .done (0, slots) ∧
      slots.length = n ∧ ¬ Refused heap data n offset ∧
      (Cut data offset slots stop ↔ Tiled heap data stop n offset)) ∨
    (∃ e < 0, ∃ slots : List (ExpandSlot V),
      readExpands heap data n offset = .done (e, slots) ∧
      Refused heap data n offset ∧ ¬ Tiled heap data stop n offset) ∨
    ((readExpands heap data n offset : Outcome (Int × List (ExpandSlot V))) = .fault ∧
      ¬ Refused heap data n offset ∧ ¬ Tiled heap data stop n offset) := by
  induction n generalizing offset with
  | zero => exact .inl ⟨[], rfl, rfl, id, Iff.rfl⟩
  | succ n ih =>
    simp only [readExpands, Refused, Tiled]
    by_cases h : LengthInside data offset
    swap
    · rw [readExpand_fault h]
      exact .inr (.inr ⟨rfl, fun hr => h ⟨hr.1, hr.2.1⟩, fun ht => h ⟨ht.1, ht.2.1⟩⟩)
    cases hok : heap.ok ((sizeAt data offset).toInt + 12) with
    | false =>
      rw [readExpand_refused h hok]
      refine .inr (.inl ⟨-ENOMEM, by decide, _, rfl, ⟨h.1, h.2, .inl rfl⟩, fun ht => ?_⟩)
      exact absurd ht.2.2.1 (by decide)
    | true =>
      by_cases hfit : 0 ≤ (sizeAt data offset).toInt ∧
          offset + (sizeAt data offset).toInt ≤ data.length
      swap
      · rw [readExpand_outside h hok hfit]
        refine .inr (.inr ⟨rfl, fun hr => ?_, fun ht => hfit ⟨?_, ht.2.2.2.2.1⟩⟩)
        · rcases hr.2.2 with hr | hr
          · cases hr
          · exact hfit ⟨hr.1, hr.2.1⟩
        · have := ht.2.2.2.1
          omega
      -- The expand is cut out, and the loop goes on after it.
      rw [readExpand_done h hok hfit]
      simp only [Outcome.done_bind, h.1, h.2, hfit.1, hfit.2, true_and, reduceCtorEq, false_or,
        Int.lt_irrefl, if_false]
      rcases ih (offset + (sizeAt data offset).toInt) with
        ⟨slots, hr, hlen, hrefused, hcut⟩ | ⟨e, he, slots, hr, hrefused, htiled⟩ |
        ⟨hr, hrefused, htiled⟩
      · simp only [hr, Outcome.done_bind]
        refine .inl ⟨slotAt data offset :: slots, rfl, by rw [List.length_cons, hlen], hrefused, ?_⟩
        simp only [Cut, slotAt, hcut, true_and]
      · simp only [hr, Outcome.done_bind]
        exact .inr (.inl ⟨e, he, _, rfl, hrefused, fun ht => htiled ht.2⟩)
      · simp only [hr, Outcome.fault_bind]
        exact .inr (.inr ⟨trivial, hrefused, fun ht => htiled ht.2⟩)

/-! ## The parts of a message -/

/-- The stretches of the data the expands are cut from, the first from `p` on. -/
def parts : Int → List (ExpandSlot V) → List (Int × Int)
  | _, [] => []
  | p, slot :: slots => (p, p + slot.size.toInt) :: parts (p + slot.size.toInt) slots

/-- Expands are cut from `p` to `q` exactly when their lengths, none of them less
    than that of a head, sum to the distance. -/
theorem cut_iff :
    Cut data p slots q ↔
      List.Forall₂ (fun part slot => slot.expand = some (slice data part.1.toNat part.2.toNat))
        (parts p slots) slots ∧
      (∀ part ∈ parts p slots, part.1 + 12 ≤ part.2) ∧
      p + (slots.map (·.size.toInt)).sum = q := by
  induction slots generalizing p with
  | nil => simp [Cut, parts]
  | cons slot slots ih =>
    rw [Cut, ih, parts, List.forall₂_cons, List.forall_mem_cons, List.map_cons, List.sum_cons]
    constructor
    · rintro ⟨h₁₂, hbytes, hrest, hheader, hsum⟩
      exact ⟨⟨hbytes, hrest⟩, ⟨by simp only; omega, hheader⟩, by omega⟩
    · rintro ⟨⟨hbytes, hrest⟩, ⟨h₁₂, hheader⟩, hsum⟩
      exact ⟨by simp only at h₁₂; omega, hbytes, hrest, hheader, by omega⟩

/-- Expands cut from `p` to `q` lie between the two. -/
theorem Cut.inside (h : Cut data p slots q) :
    p ≤ q ∧ ∀ part ∈ parts p slots, p ≤ part.1 ∧ part.2 ≤ q := by
  induction slots generalizing p with
  | nil => exact ⟨Int.le_of_eq h, fun part hpart => by cases hpart⟩
  | cons slot slots ih =>
    obtain ⟨h₁₂, _, h⟩ := h
    obtain ⟨hle, hinside⟩ := ih h
    refine ⟨by omega, ?_⟩
    rw [parts, List.forall_mem_cons]
    refine ⟨⟨Int.le_refl p, hle⟩, fun part hpart => ?_⟩
    have := hinside part hpart
    omega

/-- Expands that are cut one after the other do not overlap. -/
theorem Cut.disjoint (h : Cut data p slots q) :
    (parts p slots).Pairwise fun a b => a.2 ≤ b.1 := by
  induction slots generalizing p with
  | nil => exact .nil
  | cons slot slots ih =>
    obtain ⟨_, _, h⟩ := h
    exact .cons (fun part hpart => (h.inside.2 part hpart).1) (ih h)

/-- Expands cut from the first part of the data are cut from the data. -/
theorem cut_take {k : Nat} (hq : q ≤ k) :
    Cut (data.take k) p slots q ↔ Cut data p slots q := by
  induction slots generalizing p with
  | nil => exact Iff.rfl
  | cons slot slots ih =>
    rw [Cut, Cut, ih]
    refine and_congr_right fun _ => and_congr_left fun h => ?_
    have hle := h.inside.1
    rw [slice_take (by omega)]

/-- The message read from the bytes lies within them: its sizes are not negative,
    its records and expands come after the head within the bytes, and the
    expands are cut one after the other from their part, filling it. -/
structure Bounded (blob : List UInt8) (box : MessageBox T V) : Prop where
  nums_nonneg : 0 ≤ box.head.recordNum.toInt ∧ 0 ≤ box.head.expandNum.toInt
  sizes_nonneg : 0 ≤ box.head.recordSize.toInt ∧ 0 ≤ box.head.expandSize.toInt
  record_inside : MsgHead.sizeof + box.head.recordSize.toInt ≤ blob.length
  expand_inside : MsgHead.sizeof + box.head.recordSize.toInt + box.head.expandSize.toInt ≤
    blob.length
  expands_length : box.expands.length = box.head.expandNum.toInt
  expands_cut : List.Forall₂ (fun part slot =>
    slot.expand = some (slice (blob.drop MsgHead.sizeof) part.1.toNat part.2.toNat))
      (parts box.head.recordSize.toInt box.expands) box.expands
  expands_disjoint : (parts box.head.recordSize.toInt box.expands).Pairwise
    fun a b => a.2 ≤ b.1
  expands_header : ∀ part ∈ parts box.head.recordSize.toInt box.expands,
    part.1 + MsgExpandHead.sizeof ≤ part.2
  expands_inside : ∀ part ∈ parts box.head.recordSize.toInt box.expands,
    box.head.recordSize.toInt ≤ part.1 ∧
      part.2 ≤ box.head.recordSize.toInt + box.head.expandSize.toInt
  expands_total : (box.expands.map (·.size.toInt)).sum = box.head.expandSize.toInt

theorem bounded_iff {blob : List UInt8} {box : MessageBox T V} :
    Bounded blob box ↔
      (0 ≤ box.head.recordNum.toInt ∧ 0 ≤ box.head.expandNum.toInt) ∧
      (0 ≤ box.head.recordSize.toInt ∧ 0 ≤ box.head.expandSize.toInt) ∧
      MsgHead.sizeof + box.head.recordSize.toInt + box.head.expandSize.toInt ≤ blob.length ∧
      box.expands.length = box.head.expandNum.toInt ∧
      Cut (blob.drop MsgHead.sizeof) box.head.recordSize.toInt box.expands
        (box.head.recordSize.toInt + box.head.expandSize.toInt) := by
  constructor
  · intro h
    have htotal := h.expands_total
    exact ⟨h.nums_nonneg, h.sizes_nonneg, h.expand_inside, h.expands_length,
      cut_iff.2 ⟨h.expands_cut, h.expands_header, by omega⟩⟩
  · rintro ⟨hnums, hsizes, hinside, hlen, hcut⟩
    obtain ⟨hbytes, hheader, hsum⟩ := cut_iff.1 hcut
    exact {
      nums_nonneg := hnums
      sizes_nonneg := hsizes
      record_inside := by omega
      expand_inside := hinside
      expands_length := hlen
      expands_cut := hbytes
      expands_disjoint := hcut.disjoint
      expands_header := hheader
      expands_inside := hcut.inside.2
      expands_total := by omega }

/-- The bytes are read safely: either they are rejected with an error, or the
    message read lies within them. A fault is a read outside the bytes (or a
    write outside the memory allocated). -/
def ReadSafely (T V : Type) (heap : Heap) (blob : List UInt8) : Prop :=
  match (messageReadFromBlob heap blob : Outcome (Int × MessageBox T V)) with
  | .done (ret, box) => 0 ≤ ret ∧ Bounded blob box
  | .error e => e < 0
  | .fault => False

/-- There is the memory for the arrays of a message with this head: for the
    expands, and for the records unless the array is refused. -/
structure SitesFit (heap : Heap) (head : MsgHead) : Prop where
  record : 0 < head.recordNum.toInt →
    heap.ok ((Int32.ofInt (20 * head.recordNum.toInt)).toInt + 12) = true → SiteFits head.recordNum
  expand : 0 < head.expandNum.toInt → heap.ok (20 * head.expandNum.toInt + 12) = true

/-- The lengths in the bytes say where the parts of the message are: the bytes
    are as many as the head says and, as soon as there are any after the head, the
    lengths of the expands fill their part, unless the heap refuses one before
    any leads outside. -/
def LengthsFit (heap : Heap) (blob : List UInt8) : Prop :=
  let head := MsgHead.ofBytes blob
  let body := blob.drop MsgHead.sizeof
  let total := (head.recordSize + head.expandSize).toInt
  total ≤ body.length ∧ SitesFit heap head ∧
    (Refused heap (body.take total.toNat) head.expandNum.toInt.toNat head.recordSize.toInt ∨
      0 ≤ head.recordSize.toInt ∧ 0 ≤ head.expandSize.toInt ∧
        Tiled heap (body.take total.toNat) (head.recordSize.toInt + head.expandSize.toInt)
          head.expandNum.toInt.toNat head.recordSize.toInt)

/-! ## Reading from a blob -/

variable {blob : List UInt8}

theorem total_eq (hr : 0 ≤ head.recordSize.toInt)
    (he : 0 ≤ head.expandSize.toInt) (ht : 0 ≤ (head.recordSize + head.expandSize).toInt) :
    (head.recordSize + head.expandSize).toInt = head.recordSize.toInt + head.expandSize.toInt := by
  have hr' := head.recordSize.toInt_lt
  have he' := head.expandSize.toInt_lt
  rw [Int32.toInt_add] at ht ⊢
  simp only [Int.bmod_def] at ht ⊢
  split at ht <;> split <;> omega

theorem readFromBlob_eq (h : HeadAccepted heap blob) :
    (messageReadFromBlob heap blob : Outcome (Int × MessageBox T V)) =
      messageReadData heap (waiting (MsgHead.ofBytes blob)) (blob.drop MsgHead.sizeof) >>=
        fun r => if r.1 < 0 then .error r.1 else .done (r.1 + MsgHead.sizeof, r.2) := by
  rw [messageReadFromBlob, readHead_of_accepted h, Outcome.done_bind]

/-- Bytes after the head that are fewer than it says are kept to be read on. -/
theorem readData_short (hne : data.length ≠ 0)
    (hlt : ¬ (head.recordSize + head.expandSize).toInt ≤ data.length) :
    (messageReadData heap (waiting head) data : Outcome (Int × MessageBox T V)) =
      .done (0, { waiting head with blob := .bytes data, currentOffset := data.length }) := by
  have hoffset : ¬ (data.length : Int) + (waiting head : MessageBox T V).currentOffset ≥
      ((waiting head : MessageBox T V).head.recordSize +
        (waiting head : MessageBox T V).head.expandSize).toInt := by
    simp only [waiting]
    omega
  rw [messageReadData, if_neg (by simp [waiting])]
  simp only [show (waiting head : MessageBox T V).blob = .bytes [] from rfl]
  rw [if_neg hne, if_neg hoffset]
  simp [waiting]

/-- Bytes after the head that are as many as it says are cut into the parts of
    the message. -/
theorem readData_whole (hne : data.length ≠ 0) (h₀ : 0 ≤ (head.recordSize + head.expandSize).toInt)
    (hle : (head.recordSize + head.expandSize).toInt ≤ data.length) :
    (messageReadData heap (waiting head) data : Outcome (Int × MessageBox T V)) = (do
      let total := (head.recordSize + head.expandSize).toInt
      let records ← allocSite heap head.recordNum .empty
      let expands ← allocSite heap head.expandNum (.empty : ExpandSlot V)
      if expands.length < head.expandNum.toInt then .fault
      else do
        let (ret, expands) ← readExpands heap (data.take total.toNat) head.expandNum.toInt.toNat
          head.recordSize.toInt
        let box := { (waiting head : MessageBox T V) with
          blob := .bytes (data.take total.toNat)
          records := records
          expands := expands }
        if ret < 0 then .done (ret, box)
        else .done (total, { box with boxState := .rebuilding })) := by
  have hrec : messageAllocRecordSite heap (waiting head : MessageBox T V) =
      allocSite heap head.recordNum .empty := messageAllocRecordSite_eq rfl
  have hexp : messageAllocExpandSite heap (waiting head : MessageBox T V) =
      allocSite heap head.expandNum .empty := messageAllocExpandSite_eq rfl
  have hoffset : (data.length : Int) + (waiting head : MessageBox T V).currentOffset ≥
      ((waiting head : MessageBox T V).head.recordSize +
        (waiting head : MessageBox T V).head.expandSize).toInt := by
    simp only [waiting]
    omega
  have hsize : ¬ ((waiting head : MessageBox T V).head.recordSize +
      (waiting head : MessageBox T V).head.expandSize).toInt -
        (waiting head : MessageBox T V).currentOffset < 0 := by
    simp only [waiting]
    omega
  rw [messageReadData, if_neg (by simp [waiting])]
  simp only [show (waiting head : MessageBox T V).blob = .bytes [] from rfl, hrec, hexp]
  rw [if_neg hne, if_pos hoffset, if_neg hsize]
  simp [waiting]

/-- The array of the most expands a message is read with fits in an `int`. -/
theorem siteFits_of_le {k : Int32} (h₀ : 0 ≤ k.toInt) (h : k.toInt ≤ MAX_EXPAND_NUM) :
    SiteFits k := by
  rw [MAX_EXPAND_NUM] at h
  rw [SiteFits, Int32.toInt_ofInt]
  simp only [Int.bmod_def, Int32.size]
  split <;> omega

/-- The array of the expands has a place for each of them exactly if there is the
    memory for it. -/
theorem expandSite_fits (heap : Heap) {k : Int32} (h₀ : 0 ≤ k.toInt)
    (h : k.toInt ≤ MAX_EXPAND_NUM) :
    ∃ expands, allocSite heap k (ExpandSlot.empty : ExpandSlot V) = .done expands ∧
      ((expands.length : Int) < k.toInt ↔
        ¬ (0 < k.toInt → heap.ok (20 * k.toInt + 12) = true)) := by
  have hsize := siteFits_of_le h₀ h
  by_cases hpos : 0 < k.toInt
  swap
  · refine ⟨[], allocSite_nil (.inl (by omega)), iff_of_false ?_ fun h => h fun h => absurd h hpos⟩
    exact Int.not_lt.2 (Int.not_lt.1 hpos)
  simp only [hpos, true_imp_iff]
  have hsize' := hsize
  rw [SiteFits] at hsize'
  cases hok : heap.ok (20 * k.toInt + 12) with
  | true =>
    refine ⟨_, allocSite_done (by omega) (by rw [hsize', hok]) hsize, iff_of_false ?_ (by simp)⟩
    rw [List.length_replicate]
    omega
  | false =>
    exact ⟨[], allocSite_nil (.inr (by rw [hsize', hok])), iff_of_true hpos (by simp)⟩

/-- The bytes are read safely exactly if their head is refused, or nothing comes
    after it, or the lengths in them fit. -/
theorem read_from_blob_safe_iff (T V : Type) (heap : Heap) (blob : List UInt8) :
    ReadSafely T V heap blob ↔
      (HeadAccepted heap blob → MsgHead.sizeof < blob.length → LengthsFit heap blob) := by
  by_cases hacc : HeadAccepted heap blob
  swap
  · obtain ⟨e, he, hread⟩ := readHead_of_not_accepted (T := T) (V := V) hacc
    rw [ReadSafely, messageReadFromBlob, hread]
    exact iff_of_true he fun h => absurd h hacc
  have hlen := hacc.length_ge
  simp only [hacc, true_imp_iff]
  rw [ReadSafely, readFromBlob_eq hacc]
  by_cases hne : (blob.drop MsgHead.sizeof).length = 0
  · -- Nothing comes after the head: the data is refused.
    rw [List.length_drop] at hne
    have hnil : blob.drop MsgHead.sizeof = [] := List.drop_eq_nil_of_le (by omega)
    rw [hnil]
    exact iff_of_true (show -EINVAL < 0 by decide) fun h => by omega
  have hlt : MsgHead.sizeof < blob.length := by
    rw [List.length_drop] at hne
    omega
  simp only [hlt, true_imp_iff]
  have h₀ : 0 ≤ ((MsgHead.ofBytes blob).recordSize + (MsgHead.ofBytes blob).expandSize).toInt := by
    by_contra hneg
    have hok := hacc.ok_total
    rw [heap.not_ok _ (by omega)] at hok
    cases hok
  by_cases hle : ((MsgHead.ofBytes blob).recordSize + (MsgHead.ofBytes blob).expandSize).toInt ≤
      (blob.drop MsgHead.sizeof).length
  swap
  · -- The bytes end before the parts the head tells of.
    rw [readData_short hne hle]
    refine iff_of_false ?_ fun h => hle h.1
    rintro ⟨_, hb⟩
    have htotal := total_eq hb.sizes_nonneg.1 hb.sizes_nonneg.2 h₀
    have := hb.expand_inside
    simp only [waiting] at htotal this
    rw [List.length_drop] at hle
    omega
  rw [readData_whole hne h₀ hle]
  rw [LengthsFit]
  generalize hhead : MsgHead.ofBytes blob = head at *
  have hnums := headChecked_iff.1 (hhead ▸ hacc.headChecked)
  rcases allocSite_cases heap head.recordNum (RecordSlot.empty : RecordSlot V) with
    ⟨⟨records, hrecords⟩, hfits⟩ | ⟨hfault, hfits⟩
  swap
  · simp only [hfault]
    exact iff_of_false id fun h => hfits h.2.1.record
  simp only [hrecords, Outcome.done_bind]
  obtain ⟨expands, hexpands, hcount⟩ := expandSite_fits (V := V) heap hnums.2.1 hnums.2.2.1
  simp only [hexpands, Outcome.done_bind]
  by_cases hok : 0 < head.expandNum.toInt → heap.ok (20 * head.expandNum.toInt + 12) = true
  swap
  · -- Without the memory for the expands, the loop writes to no array.
    rw [if_pos (hcount.2 hok)]
    exact iff_of_false id fun h => hok h.2.1.expand
  rw [if_neg fun h => hcount.1 h hok]
  have hsites : SitesFit heap head := ⟨hfits, hok⟩
  simp only [hle, hsites, true_and]
  rcases readExpands_cases (V := V) heap ((blob.drop MsgHead.sizeof).take
      (head.recordSize + head.expandSize).toInt.toNat) head.expandNum.toInt.toNat
      head.recordSize.toInt (head.recordSize.toInt + head.expandSize.toInt) with
    ⟨slots, hr, hslots, hrefused, hcut⟩ | ⟨e, he, slots, hr, hrefused, htiled⟩ |
    ⟨hr, hrefused, htiled⟩
  · simp only [hr, hrefused, false_or, Outcome.done_bind, Int.lt_irrefl, if_false,
      if_neg (Int.not_lt.2 h₀)]
    rw [bounded_iff]
    simp only [waiting]
    rw [List.length_drop] at hle
    constructor
    · rintro ⟨_, _, ⟨hr₀, he₀⟩, hinside, _, h⟩
      have htotal := total_eq hr₀ he₀ h₀
      refine ⟨hr₀, he₀, hcut.1 ((cut_take ?_).2 h)⟩
      omega
    · rintro ⟨hr₀, he₀, htiled⟩
      have htotal := total_eq hr₀ he₀ h₀
      refine ⟨by omega, ⟨hnums.1, hnums.2.1⟩, ⟨hr₀, he₀⟩, by omega, by omega, ?_⟩
      exact (cut_take (by omega)).1 (hcut.2 htiled)
  · simp only [hr, Outcome.done_bind, if_pos he]
    exact iff_of_true he (.inl hrefused)
  · simp only [hr, Outcome.fault_bind]
    exact iff_of_false id fun h => h.elim hrefused fun h => htiled h.2.2

/-- The head of a message that tells of two bytes of records. -/
def twoBytesHead : MsgHead := { initHead with recordSize := 2 }

/-- A head that tells of two bytes, followed by one, is read as a message: its
    records do not lie within the bytes. -/
theorem read_from_blob_truncated :
    ¬ ReadSafely Unit Unit Heap.ample (twoBytesHead.toBytes ++ [0]) := by
  have hhead : MsgHead.ofBytes (twoBytesHead.toBytes ++ [0]) = twoBytesHead :=
    MsgHead.ofBytes_toBytes ..
  have hacc : HeadAccepted Heap.ample (twoBytesHead.toBytes ++ [0]) := by
    refine ⟨by simp, ?_, ?_, ?_⟩ <;> rw [hhead] <;> decide
  have hdrop : (twoBytesHead.toBytes ++ [0]).drop MsgHead.sizeof = [0] :=
    List.drop_left' (MsgHead.length_toBytes _)
  rw [ReadSafely, readFromBlob_eq hacc, hhead, hdrop,
    readData_short (by decide) (by decide)]
  rintro ⟨_, hb⟩
  have hinside := hb.record_inside
  rw [List.length_append, MsgHead.length_toBytes] at hinside
  revert hinside
  decide

end Cube.Message
