import Cube.Lib.Window
import Cube.Message.Head

/-!
# Message boxes

A message in memory (`struct message_box`): its head, its records and expands,
each as a structure, as bytes or as both, and the bytes it is read from.

Structures are of a type `V`, laid out by templates of a type `T`; what a message
needs of the two is a parameter of the functions that use it.
-/

namespace Cube.Message

open Lib

/-- The memory `malloc` finds: whether a block of the size is to be had. A
    negative size, taken as unsigned, never is. -/
structure Heap where
  ok : Int → Bool
  not_ok : ∀ n, n < 0 → ok n = false

/-- A heap that is never exhausted. -/
def Heap.ample : Heap where
  ok n := decide (0 ≤ n)
  not_ok n h := by simpa using h

/-- `Dalloc0`: a zeroed block of `size` bytes, with 12 bytes before it. A size
    that is negative but for those 12 bytes is allocated, and then zeroed over
    nearly all of the address space. -/
def dalloc0 (heap : Heap) (size : Int) : Outcome Bool :=
  if heap.ok (size + 12) then
    if size < 0 then .fault else .done true
  else .done false

theorem dalloc0_none {heap : Heap} {size : Int} (h : heap.ok (size + 12) = false) :
    dalloc0 heap size = .done false := by simp [dalloc0, h]

theorem dalloc0_fault {heap : Heap} {size : Int} (h : heap.ok (size + 12) = true)
    (hneg : size < 0) : dalloc0 heap size = .fault := by simp [dalloc0, h, hneg]

theorem dalloc0_done {heap : Heap} {size : Int} (h : heap.ok (size + 12) = true)
    (hnn : 0 ≤ size) : dalloc0 heap size = .done true := by
  simp [dalloc0, h, hnn]

/-- The states of a message box, `enum message_box_state`. -/
inductive BoxState
  | init
  | add
  | expand
  | deal
  | loaddata
  | rebuilding
  | recover
  deriving DecidableEq, Repr

/-- The place of a record in a message: its bytes and its structure, each if
    present, and the size of the bytes. -/
structure RecordSlot (V : Type) where
  record : Option (List UInt8)
  precord : Option V
  size : Int32
  deriving DecidableEq, Repr

/-- An expand as a structure, `MSG_EXPAND`. -/
structure MsgExpand (V : Type) where
  dataSize : Int32
  type : Int32
  subtype : Int32
  expand : V
  deriving DecidableEq, Repr

/-- The place of an expand in a message. -/
structure ExpandSlot (V : Type) where
  expand : Option (List UInt8)
  pexpand : Option (MsgExpand V)
  size : Int32
  deriving DecidableEq, Repr

/-- The place of a record before anything is put there. -/
def RecordSlot.empty {V : Type} : RecordSlot V := ⟨none, none, 0⟩

/-- The place of an expand before anything is put there. -/
def ExpandSlot.empty {V : Type} : ExpandSlot V := ⟨none, none, 0⟩

/-- The bytes a pointer leads to: none, those of a block, or those of a block that
    was freed. -/
inductive Block
  | null
  | bytes (data : List UInt8)
  | freed
  deriving DecidableEq, Repr

/-- A message, `struct message_box`. The arrays of its records and expands are
    lists, empty when the array is not allocated. The bytes a message is read
    from, `blob`, are those copied so far. -/
structure MessageBox (T V : Type) where
  head : MsgHead
  recordTemplate : Option T
  boxState : BoxState
  headSize : Int
  records : List (RecordSlot V)
  expands : List (ExpandSlot V)
  blob : Block
  currentOffset : Int
  deriving DecidableEq, Repr

variable {T V : Type}

/-- An array of `n` slots of 20 bytes, as `__message_alloc_record_site` and
    `__message_alloc_expand_site` allocate it: the size passed to `Dalloc0` is
    an `int`, the size zeroed after it is not. The result is empty if there is no
    memory, an error which no caller looks at. -/
def allocSite {S : Type} (heap : Heap) (n : Int32) (empty : S) : Outcome (List S) :=
  if n.toInt ≤ 0 then .done []
  else do
    let size := (Int32.ofInt (20 * n.toInt)).toInt
    let mem ← dalloc0 heap size
    if !mem then .done []
    else if size < 20 * n.toInt then .fault
    else .done (List.replicate n.toInt.toNat empty)

/-- The size of the array of slots fits in an `int`. -/
def SiteFits (n : Int32) : Prop := (Int32.ofInt (20 * n.toInt)).toInt = 20 * n.toInt

instance (n : Int32) : Decidable (SiteFits n) := inferInstanceAs (Decidable (_ = _))

/-- A number that does not fit in an `int` becomes a smaller one. -/
theorem int32_ofInt_le {x : Int} (h : 0 ≤ x) : (Int32.ofInt x).toInt ≤ x := by
  rw [Int32.toInt_ofInt]
  simp only [Int.bmod_def, Int32.size]
  split <;> omega

section AllocSite

variable {S : Type} {heap : Heap} {n : Int32} {empty : S}

theorem allocSite_nil (h : n.toInt ≤ 0 ∨
    heap.ok ((Int32.ofInt (20 * n.toInt)).toInt + 12) = false) :
    allocSite heap n empty = .done [] := by
  rw [allocSite]
  split_ifs with hn
  · rfl
  · simp only [dalloc0_none (h.resolve_left hn)]
    rfl

theorem allocSite_fault (hn : ¬ n.toInt ≤ 0)
    (hok : heap.ok ((Int32.ofInt (20 * n.toInt)).toInt + 12) = true) (h : ¬ SiteFits n) :
    allocSite heap n empty = .fault := by
  rw [allocSite, if_neg hn]
  by_cases hneg : (Int32.ofInt (20 * n.toInt)).toInt < 0
  · simp only [dalloc0_fault hok hneg]
    rfl
  · have hlt : (Int32.ofInt (20 * n.toInt)).toInt < 20 * n.toInt := by
      have hle := int32_ofInt_le (show 0 ≤ 20 * n.toInt by omega)
      rw [SiteFits] at h
      omega
    simp only [dalloc0_done hok (Int.not_lt.1 hneg)]
    exact if_pos hlt

theorem allocSite_done (hn : ¬ n.toInt ≤ 0)
    (hok : heap.ok ((Int32.ofInt (20 * n.toInt)).toInt + 12) = true) (h : SiteFits n) :
    allocSite heap n empty = .done (List.replicate n.toInt.toNat empty) := by
  rw [SiteFits] at h
  have hsize : 0 ≤ (Int32.ofInt (20 * n.toInt)).toInt := by omega
  rw [allocSite, if_neg hn]
  simp only [dalloc0_done hok hsize]
  exact if_neg (by omega)

/-- The array of slots is allocated, or refused, or zeroed past its end. -/
theorem allocSite_cases (heap : Heap) (n : Int32) (empty : S) :
    (∃ slots, allocSite heap n empty = .done slots) ∧
        (0 < n.toInt → heap.ok ((Int32.ofInt (20 * n.toInt)).toInt + 12) = true → SiteFits n) ∨
      allocSite heap n empty = .fault ∧
        ¬ (0 < n.toInt → heap.ok ((Int32.ofInt (20 * n.toInt)).toInt + 12) = true →
          SiteFits n) := by
  by_cases hn : n.toInt ≤ 0
  · exact .inl ⟨⟨_, allocSite_nil (.inl hn)⟩, fun hpos => by omega⟩
  cases hok : heap.ok ((Int32.ofInt (20 * n.toInt)).toInt + 12) with
  | false => exact .inl ⟨⟨_, allocSite_nil (.inr hok)⟩, fun _ h => by cases h⟩
  | true =>
    by_cases hfits : SiteFits n
    · exact .inl ⟨⟨_, allocSite_done hn hok hfits⟩, fun _ _ => hfits⟩
    · exact .inr ⟨allocSite_fault hn hok hfits, fun h => hfits (h (by omega) rfl)⟩

end AllocSite

/-- `__message_alloc_record_site`: the records of the message after the call. -/
def messageAllocRecordSite (heap : Heap) (box : MessageBox T V) : Outcome (List (RecordSlot V)) :=
  if box.head.recordNum.toInt ≤ 0 then .done box.records
  else allocSite heap box.head.recordNum .empty

/-- `__message_alloc_expand_site`: the expands of the message after the call. -/
def messageAllocExpandSite (heap : Heap) (box : MessageBox T V) : Outcome (List (ExpandSlot V)) :=
  if box.head.expandNum.toInt ≤ 0 then .done box.expands
  else allocSite heap box.head.expandNum .empty

theorem messageAllocRecordSite_eq {heap : Heap} {box : MessageBox T V} (h : box.records = []) :
    messageAllocRecordSite heap box = allocSite heap box.head.recordNum .empty := by
  rw [messageAllocRecordSite, h]
  split_ifs with hn
  · rw [allocSite_nil (.inl hn)]
  · rfl

theorem messageAllocExpandSite_eq {heap : Heap} {box : MessageBox T V} (h : box.expands = []) :
    messageAllocExpandSite heap box = allocSite heap box.head.expandNum .empty := by
  rw [messageAllocExpandSite, h]
  split_ifs with hn
  · rw [allocSite_nil (.inl hn)]
  · rfl

end Cube.Message
