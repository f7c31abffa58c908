import Cube.Lib.Flag
import Cube.Lib.Outcome
import Cube.Lib.Run
import Cube.Message.Head

/-!
# Slot sockets

A port has pins for records and messages of given types, and a socket of the port has a place
for an entity at each of its pins (`ex_module_slot.c`). The places that are occupied are kept
twice, in the array of the entities and in the bits of a word, and the socket is active when
these are the bits of a mask. The bits are shifted in an `int`: the mask is right for less than
32 pins.

* `addentity_cases`, `removeentity_cases`: what adding and removing an entity do;
* `socketsRight_iff`: the ports whose sockets are right in every run.
-/

namespace Cube.Slot

open Lib

/-! ## Ports -/

/-- The kinds of entities, `enum entity_type`. -/
inductive EntityType
  | record
  | message
  deriving DecidableEq, Repr

/-- A pin, `SLOT_PIN`. The kind is none before one is set. -/
structure SlotPin where
  pinNum : Int
  entityType : Option EntityType
  type : Int32
  subtype : Int32
  deriving DecidableEq, Repr

/-- A pin of the zeros that the memory is set to. -/
def SlotPin.zero : SlotPin := ⟨0, none, 0, 0⟩

/-- A port, `SLOT_PORT`, without its name. -/
structure SlotPort where
  pins : List SlotPin
  deriving DecidableEq, Repr

/-- The field `slot_size`, a `char`, which counts the pins. -/
def SlotPort.slotSize (port : SlotPort) : Nat := port.pins.length

/-- `slot_port_init`, given whether there is memory for the port and for its pins. -/
def slotPortInit (portMemory pinsMemory : Bool) (pinNum : Int) : Option SlotPort :=
  if pinNum < 0 then none
  else if pinNum > 64 then none
  else if !portMemory then none
  else if pinNum > 0 ∧ !pinsMemory then none
  else some ⟨.replicate pinNum.toNat SlotPin.zero⟩

/-- The kind of the last pin is set, or there is none. -/
def lastIsSet (port : SlotPort) : Bool :=
  match port.pins.getLast? with
  | none => true
  | some pin => pin.entityType.isSome

/-- `slot_port_addpin`: the value returned and the port after the call. -/
def slotPortAddpin (memory : Bool) (port : SlotPort) (entityType : EntityType)
    (type subtype : Int32) : Int × SlotPort :=
  if port.slotSize > 64 then (-EINVAL, port)
  else if lastIsSet port then
    if port.slotSize ≥ 64 then (-EINVAL, port)
    else if !memory then (-ENOMEM, port)
    else (port.slotSize, ⟨port.pins ++ [⟨port.slotSize, some entityType, type, subtype⟩]⟩)
  else
    -- The pin looked for is one whose type is zero, and the last one if there is none.
    let i := port.pins.findIdx (·.type = 0)
    let site := if i < port.slotSize then i else port.slotSize - 1
    (i, ⟨port.pins.set site ⟨i, some entityType, type, subtype⟩⟩)

/-- The ports that are built. -/
inductive Built : SlotPort → Prop
  | init (portMemory pinsMemory : Bool) (pinNum : Int) {port : SlotPort}
      (h : slotPortInit portMemory pinsMemory pinNum = some port) : Built port
  | addpin {port : SlotPort} (h : Built port) (memory : Bool) (entityType : EntityType)
      (type subtype : Int32) : Built (slotPortAddpin memory port entityType type subtype).2

/-! ## Sockets -/

variable {E : Type*}

/-- A socket, `SLOT_SOCK`. It has as many places for entities as its port has pins. -/
structure SlotSock (E : Type*) where
  uuid : Vector UInt8 DIGEST_SIZE
  slotPort : SlotPort
  entityNum : Nat
  slotMask : Int64
  slotFlags : Int64
  entitys : List (Option E)
  sized : entitys.length = slotPort.slotSize

/-- The flag `1<<i`, an `int` that is then a `long long`. The number of bits that it is shifted
    by counts modulo its 32 bits, as it does for the machine. -/
def slotFlag (i : Nat) : Int64 := ((1 : Int32) <<< Int32.ofNat i).toInt64

/-- The mask `(1<<n)-1`. -/
def slotMask (n : Nat) : Int64 := ((1 : Int32) <<< Int32.ofNat n - 1).toInt64

/-- `slot_create_sock`, given whether there is memory for the socket and for its entities. The
    second is not asked for. -/
def slotCreateSock (sockMemory entitysMemory : Bool) (port : SlotPort)
    (uuid : Vector UInt8 DIGEST_SIZE) : Outcome (Option (SlotSock E)) :=
  if !sockMemory then .done none
  else if !entitysMemory ∧ port.slotSize > 0 then .fault
  else .done (some {
    uuid := uuid
    slotPort := port
    entityNum := port.slotSize
    slotMask := slotMask port.slotSize
    slotFlags := 0
    entitys := .replicate port.slotSize none
    sized := List.length_replicate })

/-- The loop of `_slot_sock_addentity` and `_slot_sock_removeentity` over the pins from a number
    on: the number of the pin where it is left. -/
def pinLoop (entityType : EntityType) (type subtype : Int32) (skips : Int64 → Bool) :
    List SlotPin → Nat → Option Nat
  | [], _ => none
  | pin :: pins, i =>
    if pin.entityType = some entityType then
      if pin.type = type ∧ pin.subtype = subtype then
        if skips (slotFlag i) then pinLoop entityType type subtype skips pins (i + 1)
        else some i
      else pinLoop entityType type subtype skips pins (i + 1)
    else pinLoop entityType type subtype skips pins (i + 1)

/-- The flags and the entity at a place are set. -/
def SlotSock.put (sock : SlotSock E) (i : Nat) (entity : Option E) (flags : Int64) : SlotSock E :=
  { sock with
    slotFlags := flags
    entitys := sock.entitys.set i entity
    sized := by rw [List.length_set, sock.sized] }

/-- `slot_sock_isactive`. -/
def slotSockIsactive (sock : SlotSock E) : Int :=
  if sock.slotMask = sock.slotFlags then 1 else 0

/-- `_slot_sock_addentity`: the value returned and the socket after the call. -/
def slotSockAddentity (sock : SlotSock E) (entityType : EntityType) (type subtype : Int32)
    (entity : Option E) : Int × SlotSock E :=
  let site := pinLoop entityType type subtype (· &&& sock.slotFlags ≠ 0) sock.slotPort.pins 0
  let sock := match site with
    | none => sock
    | some i => sock.put i entity (sock.slotFlags ||| slotFlag i)
  (if sock.slotMask = sock.slotFlags then 1 else 0, sock)

/-- `_slot_sock_removeentity`: the entity returned and the socket after the call. -/
def slotSockRemoveentity (sock : SlotSock E) (entityType : EntityType) (type subtype : Int32) :
    Option E × SlotSock E :=
  match pinLoop entityType type subtype (· &&& sock.slotFlags = 0) sock.slotPort.pins 0 with
  | none => (none, sock)
  | some i => ((sock.entitys[i]?).join, sock.put i none (sock.slotFlags &&& ~~~slotFlag i))

/-- The calls of a run. The entities added are not `NULL`. -/
inductive Call (E : Type*)
  | addentity (entityType : EntityType) (type subtype : Int32) (entity : E)
  | removeentity (entityType : EntityType) (type subtype : Int32)

/-- The socket after a call. -/
def step (sock : SlotSock E) : Call E → SlotSock E
  | .addentity entityType type subtype entity =>
    (slotSockAddentity sock entityType type subtype (some entity)).2
  | .removeentity entityType type subtype => (slotSockRemoveentity sock entityType type subtype).2

/-! ## What a socket should do -/

/-- A pin of the port is of the kind, the type and the subtype. -/
def Fits (port : SlotPort) (entityType : EntityType) (type subtype : Int32) (i : Nat) : Prop :=
  ∃ pin, port.pins[i]? = some pin ∧ pin.entityType = some entityType ∧ pin.type = type ∧
    pin.subtype = subtype

/-- There is an entity at a pin. -/
def Occupied (sock : SlotSock E) (i : Nat) : Prop :=
  ∃ entity, sock.entitys[i]? = some (some entity)

/-- There is no entity at a pin. -/
def Free (sock : SlotSock E) (i : Nat) : Prop := sock.entitys[i]? = some none

/-- An entity is added at the first free pin that it fits, and nowhere else. -/
def Adds (sock : SlotSock E) (entityType : EntityType) (type subtype : Int32) (entity : E)
    (sock' : SlotSock E) : Prop :=
  (∃ i, Fits sock.slotPort entityType type subtype i ∧ Free sock i ∧
    (∀ j < i, Fits sock.slotPort entityType type subtype j → Occupied sock j) ∧
    sock'.entitys = sock.entitys.set i (some entity)) ∨
  ((∀ i, Fits sock.slotPort entityType type subtype i → Occupied sock i) ∧
    sock'.entitys = sock.entitys)

/-- The entity at one of the pins is removed and returned, if there is one. -/
def Removes (sock : SlotSock E) (entityType : EntityType) (type subtype : Int32)
    (result : Option E) (sock' : SlotSock E) : Prop :=
  (∃ i entity, Fits sock.slotPort entityType type subtype i ∧
    sock.entitys[i]? = some (some entity) ∧ result = some entity ∧
    sock'.entitys = sock.entitys.set i none) ∨
  ((∀ i, Fits sock.slotPort entityType type subtype i → Free sock i) ∧ result = none ∧
    sock'.entitys = sock.entitys)

/-- A socket is right: its flags are those of the pins that are occupied, it is active when they
    all are, and entities are added and removed as they should. -/
structure Right (sock : SlotSock E) : Prop where
  flags : ∀ i, HasBit sock.slotFlags i ↔ Occupied sock i
  active : slotSockIsactive sock = 1 ↔ ∀ i < sock.slotPort.slotSize, Occupied sock i
  adds : ∀ entityType type subtype entity, Adds sock entityType type subtype entity
    (slotSockAddentity sock entityType type subtype (some entity)).2
  removes : ∀ entityType type subtype, Removes sock entityType type subtype
    (slotSockRemoveentity sock entityType type subtype).1
    (slotSockRemoveentity sock entityType type subtype).2

/-- Every socket of a port is right in every run. -/
def SocketsRight (E : Type*) (port : SlotPort) : Prop :=
  ∀ (sockMemory entitysMemory : Bool) (uuid : Vector UInt8 DIGEST_SIZE) (sock : SlotSock E),
    slotCreateSock sockMemory entitysMemory port uuid = .done (some sock) →
    ∀ calls, Right (run step sock calls)

/-- The number of the pins that are set. -/
def setPins (port : SlotPort) : Nat := port.pins.countP (·.entityType.isSome)

/-! ## The pins of a port -/

variable {port : SlotPort} {entityType : EntityType} {type subtype : Int32} {i : Nat}

/-- The pins that are set are in front of those that are not. -/
structure Filled (port : SlotPort) (set : List SlotPin) (unset : Nat) : Prop where
  pins : port.pins = set ++ List.replicate unset SlotPin.zero
  isSet : ∀ pin ∈ set, pin.entityType.isSome
  le : port.slotSize ≤ 64

variable {unset : Nat}

theorem Filled.slotSize_eq {set : List SlotPin} (h : Filled port set unset) :
    port.slotSize = set.length + unset := by
  rw [SlotPort.slotSize, h.pins, List.length_append, List.length_replicate]

theorem Filled.setPins_eq {set : List SlotPin} (h : Filled port set unset) :
    setPins port = set.length := by
  rw [setPins, h.pins, List.countP_append, List.countP_eq_length.2 h.isSet,
    List.countP_eq_zero.2 fun pin hpin => ?_, Nat.add_zero]
  rw [List.eq_of_mem_replicate hpin]
  exact Bool.false_ne_true

theorem Filled.lastIsSet {set : List SlotPin} {unset : Nat} (h : Filled port set unset) :
    lastIsSet port = true ↔ unset = 0 := by
  rw [Slot.lastIsSet, h.pins]
  cases unset with
  | zero =>
    rw [List.replicate_zero, List.append_nil]
    cases hlast : set.getLast? with
    | none => exact iff_of_true rfl rfl
    | some pin => exact iff_of_true (h.isSet pin (List.mem_of_getLast? hlast)) rfl
  | succ unset =>
    rw [List.replicate_succ', ← List.append_assoc, List.getLast?_append]
    exact iff_of_false Bool.false_ne_true (Nat.succ_ne_zero unset)

/-- The first pin of type zero is one that is set, or the first that is not. -/
theorem Filled.findIdx_le {set : List SlotPin} (h : Filled port set (unset + 1)) :
    port.pins.findIdx (·.type = 0) ≤ set.length := by
  rw [h.pins, List.findIdx_append]
  split_ifs
  · exact List.findIdx_le_length
  · rw [List.replicate_succ, List.findIdx_cons]
    simp [SlotPin.zero]

/-- A pin is set in place of one that was, or of the first that was not. -/
theorem Filled.set {set : List SlotPin} (h : Filled port set (unset + 1))
    (hi : i ≤ set.length) {pin : SlotPin} (hpin : pin.entityType.isSome) :
    ∃ set' unset', Filled ⟨port.pins.set i pin⟩ set' unset' := by
  have hle : SlotPort.slotSize ⟨port.pins.set i pin⟩ ≤ 64 := by
    rw [SlotPort.slotSize, List.length_set]
    exact h.le
  rcases Nat.lt_or_eq_of_le hi with hlt | rfl
  · refine ⟨set.set i pin, unset + 1, ?_, fun pin' hpin' => ?_, hle⟩
    · rw [h.pins, List.set_append_left _ _ hlt]
    · rcases List.mem_or_eq_of_mem_set hpin' with hold | rfl
      · exact h.isSet pin' hold
      · exact hpin
  · refine ⟨set ++ [pin], unset, ?_, fun pin' hpin' => ?_, hle⟩
    · simp [h.pins, List.set_append_right, List.replicate_succ]
    · rcases List.mem_append.1 hpin' with hold | hnew
      · exact h.isSet pin' hold
      · rw [List.mem_singleton.1 hnew]
        exact hpin

/-- Every port that is built has the pins that are set in front. -/
theorem Built.filled (h : Built port) : ∃ set unset, Filled port set unset := by
  induction h with
  | init portMemory pinsMemory pinNum h =>
    rw [slotPortInit] at h
    split_ifs at h with hneg hlarge
    obtain rfl := Option.some.inj h
    refine ⟨[], pinNum.toNat, rfl, fun pin hpin => absurd hpin List.not_mem_nil, ?_⟩
    rw [SlotPort.slotSize, List.length_replicate]
    omega
  | @addpin port _ memory entityType type subtype ih =>
    obtain ⟨set, unset, hfilled⟩ := ih
    rw [slotPortAddpin]
    split_ifs with hmany hlast hfull hmemory
    · exact ⟨set, unset, hfilled⟩
    · exact ⟨set, unset, hfilled⟩
    · exact ⟨set, unset, hfilled⟩
    · -- The pins are all set, and one is added behind them.
      obtain rfl := hfilled.lastIsSet.1 hlast
      refine ⟨set ++ [⟨port.slotSize, some entityType, type, subtype⟩], 0, ?_, fun pin hpin => ?_, ?_⟩
      · rw [hfilled.pins, List.replicate_zero, List.append_nil, List.append_nil]
      · rcases List.mem_append.1 hpin with hold | hnew
        · exact hfilled.isSet pin hold
        · rw [List.mem_singleton.1 hnew]
          rfl
      · rw [SlotPort.slotSize, List.length_append, List.length_singleton]
        exact Nat.lt_of_not_le hfull
    · cases unset with
      | zero => exact absurd (hfilled.lastIsSet.2 rfl) hlast
      | succ unset =>
        have hle := hfilled.findIdx_le
        have hlt : port.pins.findIdx (·.type = 0) < port.slotSize := by
          rw [hfilled.slotSize_eq]
          omega
        simp only [if_pos hlt]
        exact hfilled.set hle rfl

/-- A pin that fits is one of those that are set. -/
theorem Filled.lt_of_fits {set : List SlotPin} (h : Filled port set unset)
    (hfits : Fits port entityType type subtype i) : i < set.length := by
  obtain ⟨pin, hpin, hkind, -, -⟩ := hfits
  by_contra hle
  rw [h.pins, List.getElem?_append_right (Nat.le_of_not_lt hle)] at hpin
  rw [List.eq_of_mem_replicate (List.mem_of_getElem? hpin)] at hkind
  cases hkind

/-- Every pin that is set fits some kind and type. -/
theorem Filled.exists_fits {set : List SlotPin} (h : Filled port set unset)
    (hi : i < set.length) : ∃ entityType type subtype, Fits port entityType type subtype i := by
  obtain ⟨kind, hkind⟩ := Option.isSome_iff_exists.1 (h.isSet _ (List.getElem_mem hi))
  refine ⟨kind, _, _, set[i], ?_, hkind, rfl, rfl⟩
  rw [h.pins, List.getElem?_append_left hi, List.getElem?_eq_getElem hi]

/-! ## Flags -/

/-- The flag of a pin is its bit, if it has one in an `int` that is not the sign. -/
theorem hasBit_slotFlag (hi : i < 31) (j : Nat) : HasBit (slotFlag i) j ↔ j = i := by
  have hall : ∀ k : Fin 31, (slotFlag k).toBitVec = BitVec.twoPow 64 k := by decide
  rw [HasBit, hall ⟨i, hi⟩, BitVec.getLsbD_twoPow]
  simp only [Bool.and_eq_true, decide_eq_true_eq]
  omega

/-- The mask has the bits of as many pins as the number leaves modulo 32. -/
theorem hasBit_slotMask {n : Nat} (hn : n ≤ 64) (j : Nat) : HasBit (slotMask n) j ↔ j < n % 32 := by
  have hall : ∀ k : Fin 65, (slotMask k).toBitVec = BitVec.ofNat 64 (2 ^ (k.val % 32) - 1) := by
    decide
  rw [HasBit, hall ⟨n, Nat.lt_succ_of_le hn⟩, BitVec.getLsbD_ofNat, Nat.testBit_two_pow_sub_one]
  simp only [Bool.and_eq_true, decide_eq_true_eq]
  omega

/-- The flag of a pin is set in a word exactly if its bit is. -/
theorem slotFlag_and_iff (hi : i < 31) (flags : Int64) :
    slotFlag i &&& flags ≠ 0 ↔ HasBit flags i := by
  rw [and_ne_zero_iff]
  constructor
  · rintro ⟨j, hj, hflags⟩
    rwa [← (hasBit_slotFlag hi j).1 hj]
  · exact fun h => ⟨i, (hasBit_slotFlag hi i).2 rfl, h⟩

/-! ## The loop over the pins -/

variable {skips : Int64 → Bool} {pin : SlotPin} {pins : List SlotPin} {start : Nat}

theorem fits_zero : Fits ⟨pin :: pins⟩ entityType type subtype 0 ↔
    pin.entityType = some entityType ∧ pin.type = type ∧ pin.subtype = subtype := by
  simp [Fits]

/-- The loop is left at a pin that fits and is not skipped. -/
theorem pinLoop_leave (hfits : Fits ⟨pin :: pins⟩ entityType type subtype 0)
    (hskips : skips (slotFlag start) = false) :
    pinLoop entityType type subtype skips (pin :: pins) start = some start := by
  obtain ⟨hkind, htype⟩ := fits_zero.1 hfits
  rw [pinLoop, if_pos hkind, if_pos htype, hskips, if_neg Bool.false_ne_true]

/-- The loop goes on behind the other pins. -/
theorem pinLoop_pass (h : Fits ⟨pin :: pins⟩ entityType type subtype 0 →
      skips (slotFlag start) = true) :
    pinLoop entityType type subtype skips (pin :: pins) start =
      pinLoop entityType type subtype skips pins (start + 1) := by
  rw [pinLoop]
  split_ifs with hkind htype hskips
  · rfl
  · exact absurd (h (fits_zero.2 ⟨hkind, htype⟩)) hskips
  · rfl
  · rfl

/-- The loop is left at the first pin that fits and is not skipped, if there is one. -/
theorem pinLoop_cases (entityType : EntityType) (type subtype : Int32) (skips : Int64 → Bool)
    (pins : List SlotPin) (start : Nat) :
    (∃ i, pinLoop entityType type subtype skips pins start = some (start + i) ∧
      Fits ⟨pins⟩ entityType type subtype i ∧ skips (slotFlag (start + i)) = false ∧
      ∀ j < i, Fits ⟨pins⟩ entityType type subtype j → skips (slotFlag (start + j)) = true) ∨
    (pinLoop entityType type subtype skips pins start = none ∧
      ∀ j, Fits ⟨pins⟩ entityType type subtype j → skips (slotFlag (start + j)) = true) := by
  induction pins generalizing start with
  | nil =>
    refine .inr ⟨rfl, ?_⟩
    rintro j ⟨pin, hpin, -⟩
    cases hpin
  | cons pin pins ih =>
    by_cases hfirst : Fits ⟨pin :: pins⟩ entityType type subtype 0 → skips (slotFlag start) = true
    swap
    · rw [Classical.not_imp, Bool.not_eq_true] at hfirst
      exact .inl ⟨0, pinLoop_leave hfirst.1 hfirst.2, hfirst.1, hfirst.2,
        fun j hj => absurd hj (Nat.not_lt_zero j)⟩
    · -- The first pin is passed, and the loop goes on with the others.
      have hshift (j : Nat) : start + 1 + j = start + (j + 1) := by omega
      rw [pinLoop_pass hfirst]
      rcases ih (start + 1) with ⟨i, hi, hfits, hleft, hrest⟩ | ⟨hnone, hrest⟩
      · refine .inl ⟨i + 1, hi.trans (congrArg some (hshift i)), hfits, hshift i ▸ hleft, ?_⟩
        intro j hj hfits'
        cases j with
        | zero => exact hfirst hfits'
        | succ j => exact hshift j ▸ hrest j (Nat.lt_of_succ_lt_succ hj) hfits'
      · refine .inr ⟨hnone, fun j hfits' => ?_⟩
        cases j with
        | zero => exact hfirst hfits'
        | succ j => exact hshift j ▸ hrest j hfits'

/-! ## Adding and removing an entity -/

variable {sock sock' : SlotSock E} {set : List SlotPin} {unset : Nat} {flags : Int64}

/-- At a pin there is an entity or none. -/
theorem free_iff (hi : i < sock.slotPort.slotSize) : Free sock i ↔ ¬ Occupied sock i := by
  rw [← sock.sized] at hi
  rw [Free, Occupied, List.getElem?_eq_getElem hi]
  cases sock.entitys[i] <;> simp

/-- An entity is put at one pin, and the others are as before. -/
theorem occupied_put {entity : Option E} (hi : i < sock.slotPort.slotSize) (j : Nat) :
    Occupied (sock.put i entity flags) j ↔ if j = i then entity.isSome = true else Occupied sock j := by
  rw [← sock.sized] at hi
  rw [Occupied, SlotSock.put, List.getElem?_set]
  split_ifs with hij hji hji
  · cases entity <;> simp
  · exact absurd hij.symm hji
  · exact absurd hji.symm hij
  · rfl

/-- The flags of a socket of the port are those of the pins that are occupied, which are set. -/
structure InStep (port : SlotPort) (set : List SlotPin) (sock : SlotSock E) : Prop where
  slotPort_eq : sock.slotPort = port
  slotMask_eq : sock.slotMask = slotMask port.slotSize
  flags : ∀ i, HasBit sock.slotFlags i ↔ Occupied sock i
  isSet : ∀ i, Occupied sock i → i < set.length

/-- A pin that fits is in the port, and has a bit in an `int`. -/
theorem InStep.fits (h : InStep port set sock) (hfilled : Filled port set unset)
    (hset : set.length ≤ 31) (hfits : Fits sock.slotPort entityType type subtype i) :
    i < sock.slotPort.slotSize ∧ (slotFlag i &&& sock.slotFlags ≠ 0 ↔ Occupied sock i) := by
  rw [h.slotPort_eq] at hfits ⊢
  have hi := hfilled.lt_of_fits hfits
  rw [hfilled.slotSize_eq, slotFlag_and_iff (Nat.lt_of_lt_of_le hi hset), h.flags i]
  exact ⟨by omega, Iff.rfl⟩

/-- Adding an entity puts it at the first free pin that it fits, if there is one. -/
theorem addentity_cases (h : InStep port set sock) (hfilled : Filled port set unset)
    (hset : set.length ≤ 31) (entityType : EntityType) (type subtype : Int32) (entity : E) :
    (∃ i, Fits sock.slotPort entityType type subtype i ∧ Free sock i ∧
      (∀ j < i, Fits sock.slotPort entityType type subtype j → Occupied sock j) ∧
      (slotSockAddentity sock entityType type subtype (some entity)).2 =
        sock.put i (some entity) (sock.slotFlags ||| slotFlag i)) ∨
    ((∀ i, Fits sock.slotPort entityType type subtype i → Occupied sock i) ∧
      (slotSockAddentity sock entityType type subtype (some entity)).2 = sock) := by
  have hfit {i : Nat} := @InStep.fits E port entityType type subtype i sock set unset h hfilled hset
  rcases pinLoop_cases entityType type subtype (· &&& sock.slotFlags ≠ 0) sock.slotPort.pins 0 with
    ⟨i, hloop, hfits, hfree, hbefore⟩ | ⟨hloop, hall⟩
  · simp only [Nat.zero_add, decide_eq_true_eq, decide_eq_false_iff_not] at hloop hfree hbefore
    obtain ⟨hi, hocc⟩ := hfit hfits
    refine .inl ⟨i, hfits, (free_iff hi).2 (hocc.not.1 hfree), fun j hj hfits' => ?_, ?_⟩
    · exact (hfit hfits').2.1 (hbefore j hj hfits')
    · simp only [slotSockAddentity, hloop]
  · simp only [Nat.zero_add, decide_eq_true_eq] at hloop hall
    refine .inr ⟨fun j hfits => (hfit hfits).2.1 (hall j hfits), ?_⟩
    simp only [slotSockAddentity, hloop]

/-- Removing an entity takes it from a pin that it fits, if there is one. -/
theorem removeentity_cases (h : InStep port set sock) (hfilled : Filled port set unset)
    (hset : set.length ≤ 31) (entityType : EntityType) (type subtype : Int32) :
    (∃ i entity, Fits sock.slotPort entityType type subtype i ∧
      sock.entitys[i]? = some (some entity) ∧ slotSockRemoveentity sock entityType type subtype =
        (some entity, sock.put i none (sock.slotFlags &&& ~~~slotFlag i))) ∨
    ((∀ i, Fits sock.slotPort entityType type subtype i → Free sock i) ∧
      slotSockRemoveentity sock entityType type subtype = (none, sock)) := by
  have hfit {i : Nat} := @InStep.fits E port entityType type subtype i sock set unset h hfilled hset
  rcases pinLoop_cases entityType type subtype (· &&& sock.slotFlags = 0) sock.slotPort.pins 0 with
    ⟨i, hloop, hfits, hfree, -⟩ | ⟨hloop, hall⟩
  · simp only [Nat.zero_add, decide_eq_false_iff_not] at hloop hfree
    obtain ⟨entity, hentity⟩ := (hfit hfits).2.1 hfree
    refine .inl ⟨i, entity, hfits, hentity, ?_⟩
    simp only [slotSockRemoveentity, hloop, hentity, Option.join_some]
  · simp only [Nat.zero_add, decide_eq_true_eq] at hloop hall
    refine .inr ⟨fun j hfits => ?_, ?_⟩
    · obtain ⟨hj, hocc⟩ := hfit hfits
      exact (free_iff hj).2 fun hoccupied => hocc.2 hoccupied (hall j hfits)
    · simp only [slotSockRemoveentity, hloop]

/-! ## Runs -/

/-- An entity that is put, or removed, where the flag is. -/
theorem InStep.put (h : InStep port set sock) (hfilled : Filled port set unset)
    (hset : set.length ≤ 31) (hfits : Fits sock.slotPort entityType type subtype i)
    {entity : Option E} (hflags : ∀ j, HasBit flags j ↔
      if j = i then entity.isSome = true else HasBit sock.slotFlags j) :
    InStep port set (sock.put i entity flags) := by
  obtain ⟨hi, -⟩ := h.fits hfilled hset hfits
  refine ⟨h.slotPort_eq, h.slotMask_eq, fun j => ?_, fun j hj => ?_⟩
  · rw [occupied_put hi, ← h.flags j]
    exact hflags j
  · rw [occupied_put hi] at hj
    split_ifs at hj with hji
    · rw [hji]
      exact hfilled.lt_of_fits (h.slotPort_eq ▸ hfits)
    · exact h.isSet j hj

/-- A call keeps the flags and the entities in step. -/
theorem InStep.step (h : InStep port set sock) (hfilled : Filled port set unset)
    (hset : set.length ≤ 31) (call : Call E) : InStep port set (step sock call) := by
  have hbit {entityType : EntityType} {type subtype : Int32} {i : Nat}
      (hfits : Fits sock.slotPort entityType type subtype i) (j : Nat) :
      HasBit (slotFlag i) j ↔ j = i :=
    hasBit_slotFlag (Nat.lt_of_lt_of_le (hfilled.lt_of_fits (h.slotPort_eq ▸ hfits)) hset) j
  cases call with
  | addentity entityType type subtype entity =>
    rw [Slot.step]
    rcases addentity_cases h hfilled hset entityType type subtype entity with
      ⟨i, hfits, -, -, hadd⟩ | ⟨-, hadd⟩
    · rw [hadd]
      refine h.put hfilled hset hfits fun j => ?_
      rw [hasBit_or, hbit hfits]
      split_ifs with hji <;> simp [hji]
    · rwa [hadd]
  | removeentity entityType type subtype =>
    rw [Slot.step]
    rcases removeentity_cases h hfilled hset entityType type subtype with
      ⟨i, entity, hfits, -, hremove⟩ | ⟨-, hremove⟩
    · rw [hremove]
      refine h.put hfilled hset hfits fun j => ?_
      rw [hasBit_and_not, hbit hfits]
      split_ifs with hji <;> simp [hji]
    · rwa [hremove]

/-- A new socket is in step. -/
theorem inStep_new {sockMemory entitysMemory : Bool} {uuid : Vector UInt8 DIGEST_SIZE}
    (h : slotCreateSock sockMemory entitysMemory port uuid = .done (some sock)) :
    InStep port set sock := by
  rw [slotCreateSock] at h
  split_ifs at h
  · cases h
  obtain rfl := Option.some.inj (Outcome.done.inj h)
  have hnone (i : Nat) : ¬ ∃ entity : E, (List.replicate port.slotSize none)[i]? = some (some entity) := by
    rintro ⟨entity, hentity⟩
    cases List.eq_of_mem_replicate (List.mem_of_getElem? hentity)
  exact ⟨rfl, rfl, fun i => iff_of_false not_hasBit_zero (hnone i), fun i hi => absurd hi (hnone i)⟩

/-- A socket in step is active exactly if all of its pins are occupied, where the mask is right or
    has the bit of a pin that is not set. -/
theorem InStep.active_iff (h : InStep port set sock) (hfilled : Filled port set unset)
    (hmask : port.slotSize < 32 ∨ set.length < port.slotSize % 32) :
    slotSockIsactive sock = 1 ↔ ∀ i < sock.slotPort.slotSize, Occupied sock i := by
  have hactive : slotSockIsactive sock = 1 ↔ ∀ i, i < port.slotSize % 32 ↔ Occupied sock i := by
    have heq : slotSockIsactive sock = 1 ↔ sock.slotMask = sock.slotFlags := by
      rw [slotSockIsactive]
      split_ifs with heq <;> simp [heq]
    rw [heq, h.slotMask_eq]
    constructor
    · intro heq i
      rw [← h.flags, ← heq, hasBit_slotMask hfilled.le]
    · intro hall
      refine hasBit_ext fun i => ?_
      rw [hasBit_slotMask hfilled.le, hall, h.flags]
  rw [hactive, h.slotPort_eq]
  rcases hmask with hsmall | hunset
  · rw [Nat.mod_eq_of_lt hsmall]
    refine ⟨fun hall i => (hall i).1, fun hall i => ⟨hall i, fun hocc => ?_⟩⟩
    have := h.isSet i hocc
    rw [hfilled.slotSize_eq]
    omega
  · -- The first pin that is not set is in the mask, and in the port.
    have hlt : set.length < port.slotSize := Nat.lt_of_lt_of_le hunset (Nat.mod_le _ _)
    have hnot : ¬ Occupied sock set.length := fun hocc => Nat.lt_irrefl _ (h.isSet _ hocc)
    exact iff_of_false (fun hall => hnot ((hall _).1 hunset)) fun hall => hnot (hall _ hlt)

/-- A socket in step is right. -/
theorem InStep.right (h : InStep port set sock) (hfilled : Filled port set unset)
    (hmask : port.slotSize < 32 ∨ set.length < port.slotSize % 32) : Right sock := by
  have hset : set.length ≤ 31 := by
    have := hfilled.slotSize_eq
    omega
  refine ⟨h.flags, h.active_iff hfilled hmask, ?_, ?_⟩
  · intro entityType type subtype entity
    rcases addentity_cases h hfilled hset entityType type subtype entity with
      ⟨i, hfits, hfree, hbefore, hadd⟩ | ⟨hall, hadd⟩
    · exact .inl ⟨i, hfits, hfree, hbefore, by rw [hadd, SlotSock.put]⟩
    · exact .inr ⟨hall, by rw [hadd]⟩
  · intro entityType type subtype
    rcases removeentity_cases h hfilled hset entityType type subtype with
      ⟨i, entity, hfits, hentity, hremove⟩ | ⟨hall, hremove⟩
    · exact .inl ⟨i, entity, hfits, hentity, by rw [hremove], by rw [hremove, SlotSock.put]⟩
    · exact .inr ⟨hall, by rw [hremove], by rw [hremove]⟩

/-- The port and the mask of a socket stay. -/
theorem step_keeps (sock : SlotSock E) (call : Call E) :
    (step sock call).slotPort = sock.slotPort ∧ (step sock call).slotMask = sock.slotMask := by
  cases call with
  | addentity entityType type subtype entity =>
    simp only [step, slotSockAddentity]
    split <;> exact ⟨rfl, rfl⟩
  | removeentity entityType type subtype =>
    simp only [step, slotSockRemoveentity]
    split <;> exact ⟨rfl, rfl⟩

/-- A port whose sockets are right has runs that occupy the pins that are set one by one. -/
theorem exists_calls [Inhabited E] (hfilled : Filled port set unset)
    (hright : ∀ calls, Right (run step sock calls)) (hnew : InStep port [] sock) {n : Nat}
    (hn : n ≤ set.length) :
    ∃ calls, (run step sock calls).slotPort = port ∧
      (run step sock calls).slotMask = slotMask port.slotSize ∧
      ∀ i, Occupied (run step sock calls) i ↔ i < n := by
  induction n with
  | zero =>
    refine ⟨[], hnew.slotPort_eq, hnew.slotMask_eq, fun i => ?_⟩
    exact iff_of_false (fun hocc => Nat.not_lt_zero i (hnew.isSet i hocc)) (Nat.not_lt_zero i)
  | succ n ih =>
    obtain ⟨calls, hport', hmask, hocc⟩ := ih (Nat.le_of_succ_le hn)
    obtain ⟨entityType, type, subtype, hfits⟩ := hfilled.exists_fits hn
    refine ⟨calls ++ [.addentity entityType type subtype default], ?_, ?_, fun j => ?_⟩
    · rw [run_append, run_cons, run_nil, (step_keeps _ _).1, hport']
    · rw [run_append, run_cons, run_nil, (step_keeps _ _).2, hmask]
    have hadds := (hright calls).adds entityType type subtype default
    rw [run_append, run_cons, run_nil, step]
    rcases hadds with ⟨i, hfits', hfree, hbefore, hadd⟩ | ⟨hall, -⟩
    · -- The first pin that is free is the next one.
      have hin : n < (run step sock calls).slotPort.slotSize := by
        rw [hport', hfilled.slotSize_eq]
        omega
      have hi : i = n := by
        rcases Nat.lt_trichotomy i n with hlt | heq | hgt
        · obtain ⟨entity, hentity⟩ := (hocc i).2 hlt
          cases hfree.symm.trans hentity
        · exact heq
        · exact absurd ((hocc n).1 (hbefore n hgt (hport' ▸ hfits))) (Nat.lt_irrefl n)
      have hput : Occupied ((run step sock calls).put n (some default) 0) j ↔ _ :=
        occupied_put hin j
      rw [Occupied, hadd, hi]
      rw [Occupied, SlotSock.put] at hput
      rw [hput, hocc]
      split_ifs with hj
      · simp [hj]
      · omega
    · exact absurd ((hocc n).1 (hall n (hport' ▸ hfits))) (Nat.lt_irrefl n)

/-- The sockets of a port that is built are right in every run if and only if it has less than
    32 pins, or so few of its pins are set that the mask, which has the bits of the number of
    pins modulo 32, has the bit of another one. -/
theorem socketsRight_iff [Inhabited E] (h : Built port) :
    SocketsRight E port ↔ port.slotSize < 32 ∨ setPins port < port.slotSize % 32 := by
  obtain ⟨set, unset, hfilled⟩ := h.filled
  rw [hfilled.setPins_eq]
  constructor
  · intro hright
    by_contra hmask
    rw [not_or, Nat.not_lt, Nat.not_lt] at hmask
    obtain ⟨sock, hcreate⟩ : ∃ sock : SlotSock E,
        slotCreateSock true true port (.replicate _ 0) = .done (some sock) := ⟨_, rfl⟩
    have hruns := hright true true (.replicate _ 0) sock hcreate
    -- The pins of the mask are occupied, and there are others.
    obtain ⟨calls, hport, hsockMask, hocc⟩ :=
      exists_calls hfilled hruns (inStep_new hcreate) hmask.2
    have hactive : slotSockIsactive (run step sock calls) = 1 := by
      refine if_pos (hasBit_ext fun i => ?_)
      rw [hsockMask, hasBit_slotMask hfilled.le, (hruns calls).flags, hocc]
    have hall := (hruns calls).active.1 hactive
    rw [hport] at hall
    exact Nat.lt_irrefl _ ((hocc _).1 (hall (port.slotSize % 32) (by omega)))
  · intro hmask sockMemory entitysMemory uuid sock hcreate calls
    have hset : set.length ≤ 31 := by
      have := hfilled.slotSize_eq
      omega
    have hnew : InStep port set sock := inStep_new hcreate
    have hrun : Throughout step (InStep port set) sock calls :=
      run_invariant (fun _ call h _ => h.step hfilled hset call) hnew
        (steps_of_forall fun _ _ => trivial)
    exact (hrun calls (List.prefix_refl calls)).right hfilled hmask

/-- A port with that many pins for records of one type. -/
def recordPort : Nat → SlotPort
  | 0 => ⟨[]⟩
  | n + 1 => (slotPortAddpin true (recordPort n) .record 1 1).2

theorem built_recordPort (n : Nat) : Built (recordPort n) := by
  induction n with
  | zero => exact .init true true 0 rfl
  | succ n ih => exact ih.addpin true .record 1 1

/-- The sockets of a port with two pins are right. -/
theorem socketsRight_two : SocketsRight Unit (recordPort 2) :=
  (socketsRight_iff (built_recordPort 2)).2 (.inl (by decide))

/-- The sockets of a port with 32 pins are active when nothing has been added. -/
theorem not_socketsRight_many : Built (recordPort 32) ∧
    (∀ sock : SlotSock Unit, slotCreateSock true true (recordPort 32) (.replicate _ 0) =
      .done (some sock) → slotSockIsactive sock = 1) ∧
    ¬ SocketsRight Unit (recordPort 32) := by
  have hsize : (recordPort 32).slotSize = 32 := by decide +kernel
  have hactive : ∀ sock : SlotSock Unit, slotCreateSock true true (recordPort 32) (.replicate _ 0) =
      .done (some sock) → slotSockIsactive sock = 1 := by
    intro sock hcreate
    have hnew : InStep (recordPort 32) [] sock := inStep_new hcreate
    refine if_pos (hasBit_ext fun i => ?_)
    rw [hnew.slotMask_eq, hsize, hnew.flags]
    exact iff_of_false not_hasBit_zero fun hocc => Nat.not_lt_zero i (hnew.isSet i hocc)
  refine ⟨built_recordPort 32, hactive, fun h => ?_⟩
  obtain ⟨sock, hcreate⟩ : ∃ sock : SlotSock Unit,
      slotCreateSock true true (recordPort 32) (.replicate _ 0) = .done (some sock) := ⟨_, rfl⟩
  have hnew : InStep (recordPort 32) [] sock := inStep_new hcreate
  have hall := (h true true (.replicate _ 0) sock hcreate []).active.1 (hactive sock hcreate)
  refine Nat.not_lt_zero 0 (hnew.isSet 0 (hall 0 ?_))
  rw [run_nil, hnew.slotPort_eq, hsize]
  decide

end Cube.Slot
