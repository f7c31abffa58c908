import Cube.Dispatch.RouteTree
import Cube.Message.Get
import Cube.Message.SetUuid
import Cube.Message.Typestr

/-!
# The target of a route rule

`rule_get_target` sends a message to the target of a rule: it sets the receiver in the head of
the message, and the flag that the message is for this machine. The target is a name, a digest,
a connection, or a value in the first record or in an expand of the message, which is the one
or the other. What is a name is told from what is a digest by the zeros behind a name, so that
32 bytes are looked at.

* `receiveTarget_eq`, `receiveTarget_short`: what a value read from the message sets;
* `takesEffect_iff`: the rules that set what they describe, and nothing when they fail.
-/

namespace Cube.RuleTarget

open Lib Message
open Message.Address
open Message.Typestr (TypeNames messageReadTypestr)
open Text (strlen strnlen strncpy uuidToDigest nameSize)
open Route (MSG_FLAG_LOCAL ROUTE_TARGET_FINISH)

variable {T V : Type}

/-! ## The code -/

/-- A target on this machine, of `enum route_target_type`. -/
def ROUTE_TARGET_LOCAL : Int32 := 0x01
/-- A target by its name. -/
def ROUTE_TARGET_NAME : Int32 := 0x02
/-- A target by the digits of its digest. -/
def ROUTE_TARGET_UUID : Int32 := 0x04
/-- A connection. -/
def ROUTE_TARGET_CONN : Int32 := 0x08
/-- A target in an element of the first record. -/
def ROUTE_TARGET_RECORD : Int32 := 0x10
/-- A target in an element of an expand. -/
def ROUTE_TARGET_EXPAND : Int32 := 0x20
/-- A port on this machine. -/
def ROUTE_TARGET_PORT : Int32 := 0x80

/-- Operations on structures, with `struct_read_elem`: the bytes of the element of a name, or a
    negative error. -/
structure ReadOps (T V : Type) extends StructOps T V where
  structReadElem : List UInt8 → V → T → Except Int (List UInt8)
  read_neg : ∀ name value template e, structReadElem name value template = .error e → e < 0

/-- A rule with its name, which `rule_get_target` takes to be there. -/
structure NamedRule where
  targetType : Int32
  targetName : List UInt8
  deriving DecidableEq, Repr

/-- The memory found: whether there is any for the target, the byte behind the value in the
    buffer it is read to, what is in the memory for the target before it is set, and the
    variable `target` where it is never set. -/
structure TargetMemory where
  target : Bool
  behind : UInt8
  stale : List UInt8
  unset : Option (List UInt8)

/-- The size of the buffer of `message_read_elem`. -/
def elemBufferSize : Nat := 128

/-- The size of the memory for the value of an expand. -/
def expandTargetSize : Nat := DIGEST_SIZE * 2 + 1

/-- `message_read_elem`: an error, or the block with the value that is stored in `*value`, and
    the message after the call. The byte behind the value is copied too. -/
def messageReadElem (ops : ReadOps T V) (mem : TargetMemory) (box : MessageBox T V)
    (itemName : List UInt8) (index : Int) : Outcome (Except Int (List UInt8) × MessageBox T V) :=
  match templateOf ops.toStructOps box with
  | none => .done (.error (-EINVAL), box)
  | some template =>
    let box := { box with recordTemplate := some template }
    if index ≥ box.head.recordNum.toInt then .done (.error (-EINVAL), box)
    else if index < 0 then .done (.error (-EINVAL), box)
    else match box.records[index.toNat]? with
      | none => .fault
      | some slot => match slot.precord with
        | none => .done (.error (-EINVAL), box)
        | some precord => match ops.structReadElem itemName precord template with
          | .error e => .done (.error e, box)
          | .ok value =>
            if elemBufferSize < value.length then .fault
            else if elemBufferSize ≤ value.length then .done (.error (-EINVAL), box)
            else if !mem.target then .fault
            else .done (.ok (value ++ [mem.behind]), box)

/-- `Memcmp` with as many zeros. The bytes are looked at up to the first one that is not. -/
def isZeros : Nat → List UInt8 → Outcome Bool
  | 0, _ => .done true
  | _ + 1, [] => .fault
  | n + 1, c :: block => if c = 0 then isZeros n block else .done false

/-- `Isstrinuuid` of the bytes in a block, which may be too short. -/
def isstrinuuid (uuid : List UInt8) : Outcome Bool := do
  let len ← strnlen uuid DIGEST_SIZE
  if len > nameSize then .done false
  else isZeros (DIGEST_SIZE - len) (uuid.drop len)

/-- `message_set_receiver_uuid` of a message, which is not `NULL`. -/
def messageSetReceiverUuid (box : MessageBox T V) (receiverUuid : List UInt8) :
    Outcome (Int × MessageBox T V) := do
  let isname ← isstrinuuid receiverUuid
  if isname then
    let uuid ← strncpy (.replicate DIGEST_SIZE 0) receiverUuid nameSize
    .done (0, withReceiver box (uuidOf uuid))
  else if receiverUuid.length < DIGEST_SIZE then .fault
  else .done (0, withReceiver box (uuidOf receiverUuid))

/-- `message_set_flag`. -/
def messageSetFlag (box : MessageBox T V) (flag : Int32) : MessageBox T V :=
  { box with head := { box.head with flag := flag } }

/-- What `rule_get_target` comes to: what is returned, the target, and the message after the
    call. -/
abbrev Result (T V : Type) := Int × Option (List UInt8) × MessageBox T V

/-- The cases of `rule_get_target` for a name. The memory for the target is not asked for. -/
def nameTarget (mem : TargetMemory) (flag : Int32 → Int32) (rule : NamedRule)
    (box : MessageBox T V) : Outcome (Result T V) :=
  if !mem.target then .fault
  else do
    let target ← strncpy (.replicate DIGEST_SIZE 0) (rule.targetName ++ [0]) DIGEST_SIZE
    -- What the call returns is not asked for.
    let (_, box) ← messageSetReceiver box target
    .done (rule.targetType.toInt, some target, messageSetFlag box (flag box.head.flag))

/-- The case of `rule_get_target` for a digest. -/
def uuidTarget (mem : TargetMemory) (rule : NamedRule) (box : MessageBox T V) :
    Outcome (Result T V) := do
  let ret ← strnlen (rule.targetName ++ [0]) (DIGEST_SIZE * 2)
  let target := List.replicate DIGEST_SIZE (0 : UInt8)
  if ret = DIGEST_SIZE * 2 then
    if !mem.target then .done (-ENOMEM, none, box)
    else do
      let (ret, target) ← uuidToDigest target (rule.targetName ++ [0])
      if ret < 0 then .done (ret, none, box)
      else .done (rule.targetType.toInt, some target, box)
  else if ret < nameSize then
    if !mem.target then
      -- Nothing is copied of an empty name.
      if ret = 0 then .done (rule.targetType.toInt, none, box) else .fault
    else .done (rule.targetType.toInt, some (rule.targetName.take ret ++ target.drop ret), box)
  else .done (-EINVAL, none, box)

/-- The case of `rule_get_target` for a connection. -/
def connTarget (mem : TargetMemory) (rule : NamedRule) (box : MessageBox T V) :
    Outcome (Result T V) :=
  if !mem.target then .done (-ENOMEM, none, box)
  else do
    let ret ← strnlen (rule.targetName ++ [0]) (DIGEST_SIZE * 2)
    if ret > nameSize - 1 then .done (-EINVAL, none, box)
    else do
      let target := ':'.toUInt8 :: (rule.targetName.take ret ++ .replicate (DIGEST_SIZE - 1 - ret) 0)
      let (_, box) ← messageSetReceiver box target
      .done (rule.targetType.toInt, some target,
        messageSetFlag box (box.head.flag &&& ~~~MSG_FLAG_LOCAL))

/-- What is done with a target that was read from the message. -/
def receiveTarget (rule : NamedRule) (target : List UInt8) (box : MessageBox T V) :
    Outcome (Result T V) := do
  let isname ← isstrinuuid target
  let (_, box) ← if isname then messageSetReceiver box target else messageSetReceiverUuid box target
  .done (rule.targetType.toInt, some target, messageSetFlag box (box.head.flag &&& ~~~MSG_FLAG_LOCAL))

/-- The case of `rule_get_target` for the first record. -/
def recordTarget (ops : ReadOps T V) (mem : TargetMemory) (rule : NamedRule)
    (box : MessageBox T V) : Outcome (Result T V) := do
  let (ret, box) ← messageReadElem ops mem box rule.targetName 0
  match ret with
  | .error _ => .done (-EINVAL, none, box)
  | .ok target => receiveTarget rule target box

/-- The loop to the colon, in the memory from an offset on: what is behind it, if it comes to
    one. -/
def findColon (len : Nat) : List UInt8 → Nat → Outcome (Option (List UInt8))
  | [], _ => .fault
  | c :: str, offset =>
    if c = ':'.toUInt8 then .done (some str)
    else if len ≤ offset + 1 then .done none
    else findColon len str (offset + 1)

/-- The case of `rule_get_target` for an expand. -/
def expandTarget (ops : ReadOps T V) (names : TypeNames) (mem : TargetMemory) (rule : NamedRule)
    (box : MessageBox T V) : Outcome (Result T V) := do
  let len ← strlen (rule.targetName ++ [0])
  if len > DIGEST_SIZE * 3 then .done (-EINVAL, none, box)
  else match messageReadTypestr names (rule.targetName ++ [0]) with
    | .fault => .fault
    | .error e => .done (e, none, box)
    | .done (offset, expandType, expandSubtype) => do
      let elem ← findColon len ((rule.targetName ++ [0]).drop offset.toNat) offset.toNat
      match elem with
      | none => .done (-EINVAL, none, box)
      | some elem => do
        let expand ← messageGetDefineExpand box (.ofInt expandType) (.ofInt expandSubtype)
        match expand, ops.getTemplate (.ofInt expandType) (.ofInt expandSubtype) with
        | some expand, some template =>
          match ops.structReadElem (elem.takeWhile (· ≠ 0)) expand.expand template with
          | .error e => .done (e, none, box)
          | .ok value =>
            -- Nothing is written for a value of no bytes, and the memory is looked at behind it.
            if !mem.target then if value = [] then .done (-EINVAL, none, box) else .fault
            else if expandTargetSize < value.length then .fault
            else receiveTarget rule (value ++ mem.stale.drop value.length) box
        | _, _ => .done (-EINVAL, none, box)

/-- `rule_get_target`. -/
def ruleGetTarget (ops : ReadOps T V) (names : TypeNames) (mem : TargetMemory) (rule : NamedRule)
    (box : MessageBox T V) : Outcome (Result T V) :=
  if rule.targetType = ROUTE_TARGET_NAME then nameTarget mem (· &&& ~~~MSG_FLAG_LOCAL) rule box
  else if rule.targetType = ROUTE_TARGET_PORT ∨ rule.targetType = ROUTE_TARGET_LOCAL then
    nameTarget mem (· ||| MSG_FLAG_LOCAL) rule box
  else if rule.targetType = ROUTE_TARGET_UUID then uuidTarget mem rule box
  else if rule.targetType = ROUTE_TARGET_CONN then connTarget mem rule box
  else if rule.targetType = ROUTE_TARGET_RECORD then recordTarget ops mem rule box
  else if rule.targetType = ROUTE_TARGET_EXPAND then expandTarget ops names mem rule box
  else if rule.targetType = ROUTE_TARGET_FINISH then .done (rule.targetType.toInt, mem.unset, box)
  else .done (-EINVAL, none, box)

/-! ## What a rule describes -/

/-- The receiver in a value of the message: 32 bytes are one, and others are the name or the
    digits of the digest in them. -/
def ValueField (value : List UInt8) (uuid : Uuid) : Prop :=
  if value.length = DIGEST_SIZE then uuid = uuidOf value
  else Accepted (cString value) ∧ uuid = fieldOf (cString value)

/-- The element of the name in the first record has the value. -/
def RecordValue (ops : ReadOps T V) (name : List UInt8) (box : MessageBox T V)
    (value : List UInt8) : Prop :=
  ∃ template slot precord, templateOf ops.toStructOps box = some template ∧
    0 < box.head.recordNum.toInt ∧ box.records[0]? = some slot ∧ slot.precord = some precord ∧
    ops.structReadElem name precord template = .ok value

/-- The name of an element is behind the first colon behind the type that the text is read as. -/
def NamesElem (names : TypeNames) (name : List UInt8) (type subtype : Int32) (elem : List UInt8) :
    Prop :=
  ∃ (close : Nat) (t u : Int) (between : List UInt8),
    messageReadTypestr names (name ++ [0]) = .done ((close : Int), t, u) ∧
    name.drop close = between ++ ':'.toUInt8 :: elem ∧ ':'.toUInt8 ∉ between ∧
    type = .ofInt t ∧ subtype = .ofInt u

/-- The element that the text names in the first expand of the type that it is read as has the
    value. -/
def ExpandValue (ops : ReadOps T V) (names : TypeNames) (name : List UInt8) (box : MessageBox T V)
    (value : List UInt8) : Prop :=
  ∃ type subtype elem expand template, NamesElem names name type subtype elem ∧
    messageGetDefineExpand box type subtype = .done (some expand) ∧
    ops.getTemplate type subtype = some template ∧
    ops.structReadElem elem expand.expand template = .ok value

/-- The types of rules that are about a name. -/
def IsNameType (type : Int32) : Prop :=
  type = ROUTE_TARGET_NAME ∨ type = ROUTE_TARGET_PORT ∨ type = ROUTE_TARGET_LOCAL

/-- The types of rules that set a target. -/
def IsTargetType (type : Int32) : Prop :=
  IsNameType type ∨ type = ROUTE_TARGET_UUID ∨ type = ROUTE_TARGET_CONN ∨
    type = ROUTE_TARGET_RECORD ∨ type = ROUTE_TARGET_EXPAND

/-- The receiver that a rule describes for a message. -/
def Describes (ops : ReadOps T V) (names : TypeNames) (rule : NamedRule) (box : MessageBox T V)
    (uuid : Uuid) : Prop :=
  (IsNameType rule.targetType ∧ rule.targetName.length ≤ nameSize ∧
    uuid = uuidOf rule.targetName) ∨
  (rule.targetType = ROUTE_TARGET_UUID ∧ Accepted rule.targetName ∧
    uuid = fieldOf rule.targetName) ∨
  (rule.targetType = ROUTE_TARGET_CONN ∧ rule.targetName.length < nameSize ∧
    uuid = uuidOf (':'.toUInt8 :: rule.targetName)) ∨
  (rule.targetType = ROUTE_TARGET_RECORD ∧
    ∃ value, RecordValue ops rule.targetName box value ∧ ValueField value uuid) ∨
  (rule.targetType = ROUTE_TARGET_EXPAND ∧
    ∃ value, ExpandValue ops names rule.targetName box value ∧ ValueField value uuid)

/-- The flags after a rule: the flag of this machine is set for its names and ports, and cleared
    for all others. -/
def flagAfter (type flag : Int32) : Int32 :=
  if type = ROUTE_TARGET_PORT ∨ type = ROUTE_TARGET_LOCAL then flag ||| MSG_FLAG_LOCAL
  else flag &&& ~~~MSG_FLAG_LOCAL

/-- A call has its effect: when it succeeds the head has the receiver described and the flags,
    and nothing else has changed in it, and when it fails the head is as before. -/
def Effect (describes : Uuid → Prop) (flag : Int32) (box : MessageBox T V)
    (x : Outcome (Result T V)) : Prop :=
  ∃ ret result box', x = .done (ret, result, box') ∧
    (0 ≤ ret → ∃ uuid, describes uuid ∧
      box'.head = { box.head with
        receiverUuid := uuid
        flag := flag }) ∧
    (ret < 0 → box'.head = box.head)

/-- A rule takes effect on a message, whatever is in the memory that is not set. -/
def TakesEffect (ops : ReadOps T V) (names : TypeNames) (target : Bool) (rule : NamedRule)
    (box : MessageBox T V) : Prop :=
  ∀ (behind : UInt8) (stale : List UInt8) (unset : Option (List UInt8)),
    stale.length = expandTargetSize →
    Effect (Describes ops names rule box) (flagAfter rule.targetType box.head.flag) box
      (ruleGetTarget ops names ⟨target, behind, stale, unset⟩ rule box)

/-- The bytes of a value that are looked at are a name with zeros behind it. -/
def NameInFront (value : List UInt8) : Prop :=
  (cString (value.take DIGEST_SIZE)).length ≤ nameSize ∧
    ∀ c ∈ (value.take DIGEST_SIZE).drop (cString (value.take DIGEST_SIZE)).length, c = 0

/-- A value is what its first bytes set: it has 32 bytes, or more of which those looked at are a
    name, or digits that are their own digest. -/
def IsOwnField (value : List UInt8) : Prop :=
  value.length = DIGEST_SIZE ∨ (DIGEST_SIZE < value.length ∧ NameInFront value) ∨
    cString value = .replicate (DIGEST_SIZE * 2) '3'.toUInt8

/-- A value that is set right: there is memory that it fits, and it is what its first bytes
    set. -/
def ValueFits (size : Nat) (target : Bool) (value : List UInt8) : Prop :=
  value.length ≤ size ∧ target = true ∧ IsOwnField value

/-- A rule of a digest has nothing to set, or fails. -/
def UuidRight (target : Bool) (name : List UInt8) (head : MsgHead) : Prop :=
  (nameSize ≤ name.length ∧ name.length < DIGEST_SIZE * 2) ∨
  (DIGEST_SIZE * 2 ≤ name.length ∧
    (target = false ∨ ∃ c ∈ name.take (DIGEST_SIZE * 2), ¬ IsHex c)) ∨
  ((name.length < nameSize ∧ (target = true ∨ name = []) ∨ IsDigest name ∧ target = true) ∧
    head.receiverUuid = fieldOf name ∧ head.flag &&& ~~~MSG_FLAG_LOCAL = head.flag)

/-- The first record can be looked at, and the value in it is set right or too long. -/
def RecordRight (ops : ReadOps T V) (target : Bool) (name : List UInt8) (box : MessageBox T V) :
    Prop :=
  (∀ template, templateOf ops.toStructOps box = some template → 0 < box.head.recordNum.toInt →
    ∃ slot, box.records[0]? = some slot) ∧
  ∀ value, RecordValue ops name box value →
    value.length = elemBufferSize ∨ ValueFits (elemBufferSize - 1) target value

/-- The expands can be looked at, and the value in one is set right, or has no bytes and no
    memory. -/
def ExpandRight (ops : ReadOps T V) (names : TypeNames) (target : Bool) (name : List UInt8)
    (box : MessageBox T V) : Prop :=
  (∀ type subtype elem, NamesElem names name type subtype elem →
    ∃ expand, messageGetDefineExpand box type subtype = .done expand) ∧
  ∀ value, ExpandValue ops names name box value →
    (target = false ∧ value = []) ∨ ValueFits expandTargetSize target value

/-- A rule does what it should: there is memory for a name, which is not too long; a digest has
    been set already; a value of the message is set right. -/
def RuleRight (ops : ReadOps T V) (names : TypeNames) (target : Bool) (rule : NamedRule)
    (box : MessageBox T V) : Prop :=
  (IsNameType rule.targetType → target = true ∧ rule.targetName.length ≤ nameSize) ∧
  (rule.targetType = ROUTE_TARGET_UUID → UuidRight target rule.targetName box.head) ∧
  (rule.targetType = ROUTE_TARGET_RECORD → RecordRight ops target rule.targetName box) ∧
  (rule.targetType = ROUTE_TARGET_EXPAND → ExpandRight ops names target rule.targetName box)

/-! ## Effects -/

variable {describes : Uuid → Prop} {flag : Int32} {box box' : MessageBox T V} {ret : Int}
  {result : Option (List UInt8)}

theorem not_effect_fault : ¬ Effect describes flag box .fault := by
  rintro ⟨_, _, _, heq, -⟩
  cases heq

theorem not_effect_error {e : Int} : ¬ Effect describes flag box (.error e) := by
  rintro ⟨_, _, _, heq, -⟩
  cases heq

/-- A call that fails and has not changed the head. -/
theorem effect_fail (hret : ret < 0) (hbox : box'.head = box.head) :
    Effect describes flag box (.done (ret, result, box')) :=
  ⟨ret, result, box', rfl, fun h => absurd hret (Int.not_lt.2 h), fun _ => hbox⟩

/-- A call that succeeds. -/
theorem effect_success (hret : 0 ≤ ret) :
    Effect describes flag box (.done (ret, result, box')) ↔
      ∃ uuid, describes uuid ∧ box'.head = { box.head with
        receiverUuid := uuid
        flag := flag } := by
  constructor
  · rintro ⟨_, _, _, heq, hsuccess, -⟩
    obtain ⟨rfl, rfl, rfl⟩ : _ ∧ _ ∧ _ := by simpa using heq
    exact hsuccess hret
  · exact fun h => ⟨ret, result, box', rfl, fun _ => h, fun hneg => absurd hneg (Int.not_lt.2 hret)⟩

variable {uuid : Uuid} {block : List UInt8} {n : Nat}

/-- A call that succeeds and sets the receiver and the flags. -/
theorem effect_set (hret : 0 ≤ ret) (hbox : box'.head = { box.head with
      receiverUuid := uuid
      flag := flag }) :
    Effect describes flag box (.done (ret, result, box')) ↔ describes uuid := by
  rw [effect_success hret, hbox]
  constructor
  · rintro ⟨uuid', h, heq⟩
    obtain rfl : uuid = uuid' := congrArg MsgHead.receiverUuid heq
    exact h
  · exact fun h => ⟨uuid, h, rfl⟩

@[simp] theorem withReceiver_flag (uuid : Uuid) :
    (withReceiver box uuid).head.flag = box.head.flag := rfl

/-- The receiver and the flags are set. -/
theorem effect_withReceiver (hret : 0 ≤ ret) :
    Effect describes flag box (.done (ret, result, messageSetFlag (withReceiver box uuid) flag)) ↔
      describes uuid := by
  refine effect_set hret ?_
  rw [messageSetFlag, withReceiver]

/-! ## Bytes that are looked at -/

theorem cString_cons (c : UInt8) (l : List UInt8) :
    cString (c :: l) = if c = 0 then [] else c :: cString l := by
  by_cases hc : c = 0 <;> simp [cString, hc]

theorem cString_take (l : List UInt8) (n : Nat) : cString (l.take n) = (cString l).take n := by
  induction l generalizing n with
  | nil => simp [cString]
  | cons c l ih =>
    cases n with
    | zero => simp [cString]
    | succ n =>
      rw [List.take_succ_cons, cString_cons, cString_cons, ih n]
      split_ifs <;> simp

theorem take_cString (l : List UInt8) : l.take (cString l).length = cString l :=
  (List.prefix_iff_eq_take.1 (List.takeWhile_prefix _)).symm

theorem notMem_cString (l : List UInt8) : 0 ∉ cString l :=
  fun h => by simpa using List.mem_takeWhile_imp h

theorem cString_eq {text : List UInt8} (h : 0 ∉ text) (rest : List UInt8) :
    cString (text ++ 0 :: rest) = text :=
  takeWhile_terminator h rest

theorem strnlen_eq (h : n ≤ block.length) :
    strnlen block n = .done (cString (block.take n)).length := by
  induction block generalizing n with
  | nil =>
    obtain rfl := Nat.le_zero.1 h
    rfl
  | cons c block ih =>
    cases n with
    | zero => rfl
    | succ n =>
      rw [strnlen, List.take_succ_cons, ih (Nat.le_of_succ_le_succ h)]
      rw [cString_cons]
      split_ifs <;> simp

theorem isZeros_eq (h : n ≤ block.length) :
    isZeros n block = .done (decide (∀ c ∈ block.take n, c = 0)) := by
  induction block generalizing n with
  | nil =>
    obtain rfl := Nat.le_zero.1 h
    simp [isZeros]
  | cons c block ih =>
    cases n with
    | zero => simp [isZeros]
    | succ n =>
      rw [isZeros, List.take_succ_cons, ih (Nat.le_of_succ_le_succ h)]
      by_cases hc : c = 0
      · simp [hc]
      · simp [hc]

/-- As many zeros are in a block that has as many bytes. -/
theorem isZeros_length (h : isZeros n block = .done true) :
    n ≤ block.length := by
  induction block generalizing n with
  | nil =>
    cases n with
    | zero => exact Nat.le_refl 0
    | succ n => cases h
  | cons c block ih =>
    cases n with
    | zero => exact Nat.zero_le _
    | succ n =>
      rw [isZeros] at h
      split_ifs at h with hc
      · exact Nat.succ_le_succ (ih h)
      · cases h

instance (value : List UInt8) : Decidable (NameInFront value) := inferInstanceAs (Decidable (_ ∧ _))

theorem isstrinuuid_eq (h : DIGEST_SIZE ≤ block.length) :
    isstrinuuid block = .done (decide (NameInFront block)) := by
  rw [isstrinuuid, strnlen_eq h, Outcome.done_bind]
  by_cases hname : (cString (block.take DIGEST_SIZE)).length ≤ nameSize
  · rw [if_neg (by omega), isZeros_eq (by rw [List.length_drop]; omega), ← List.drop_take]
    simp [NameInFront, hname]
  · rw [if_pos (by omega)]
    simp [NameInFront, hname]

/-- A block that is too short is not taken for a name. -/
theorem isstrinuuid_short (h : block.length < DIGEST_SIZE) :
    isstrinuuid block ≠ .done true := by
  intro htrue
  rw [isstrinuuid] at htrue
  obtain ⟨len, hlen, htrue⟩ := Outcome.bind_eq_done.1 htrue
  have hle := Text.strnlen_le hlen
  split_ifs at htrue
  · cases htrue
  · have hzeros := isZeros_length htrue
    rw [List.length_drop] at hzeros
    have hnameSize : nameSize = 24 := rfl
    have hdigest : DIGEST_SIZE = 32 := rfl
    omega

theorem getD_take {l : List UInt8} {i : Nat} (hi : i < n) : (l.take n).getD i 0 = l.getD i 0 := by
  simp [List.getD_eq_getElem?_getD, hi]

theorem uuidOf_take (l : List UInt8) : uuidOf (l.take DIGEST_SIZE) = uuidOf l :=
  uuidOf_eq_iff.2 fun _ hi => getD_take hi

/-- A name in front of a block is what is in the field with the bytes of the block. -/
theorem NameInFront.uuidOf_eq (h : NameInFront block) :
    uuidOf block = uuidOf (cString (block.take DIGEST_SIZE)) := by
  generalize hfront : block.take DIGEST_SIZE = front at *
  have hsplit : front = cString front ++ List.replicate (front.length - (cString front).length) 0 := by
    have hzeros : front.drop (cString front).length =
        List.replicate (front.length - (cString front).length) 0 := by
      refine List.eq_replicate_iff.2 ⟨List.length_drop, ?_⟩
      rw [← hfront]
      exact h.2
    rw [← hzeros]
    conv_lhs => rw [← List.take_append_drop (cString front).length front, take_cString]
  rw [← uuidOf_take, hfront]
  conv_lhs => rw [hsplit, uuidOf_append_zeros]

/-! ## A value read from the message -/

variable {rule : NamedRule} {block value : List UInt8}

/-- The string in a block, and what is behind it. -/
theorem exists_rest (h : (cString block).length < block.length) :
    ∃ rest, block = cString block ++ 0 :: rest := by
  rcases Text.exists_cstr block with hnone | ⟨str, rest, hstr, rfl⟩
  · have hall : ∀ c ∈ block, decide (c ≠ 0) = true := by
      intro c hc
      rw [decide_eq_true_eq]
      rintro rfl
      exact hnone hc
    rw [cString, List.takeWhile_eq_self_iff.2 hall] at h
    exact absurd h (Nat.lt_irrefl _)
  · exact ⟨rest, by rw [cString_eq hstr]⟩

/-- A block that is long enough sets the receiver to its bytes. -/
theorem receiveTarget_eq (h : DIGEST_SIZE ≤ block.length) :
    receiveTarget rule block box = .done (rule.targetType.toInt, some block,
      messageSetFlag (withReceiver box (uuidOf block)) (box.head.flag &&& ~~~MSG_FLAG_LOCAL)) := by
  have hnameSize : nameSize = 24 := rfl
  have hdigest : DIGEST_SIZE = 32 := rfl
  rw [receiveTarget, isstrinuuid_eq h, Outcome.done_bind]
  by_cases hname : NameInFront block
  · have hlen : (block.take DIGEST_SIZE).length = DIGEST_SIZE := List.length_take_of_le h
    have hset : messageSetReceiver box block = .done (0, withReceiver box (uuidOf block)) := by
      have hshort : (cString (block.take DIGEST_SIZE)).length < (block.take DIGEST_SIZE).length := by
        have := hname.1
        omega
      obtain ⟨rest, hrest⟩ := exists_rest hshort
      have hblock : block = cString (block.take DIGEST_SIZE) ++ 0 :: (rest ++ block.drop DIGEST_SIZE) := by
        conv_lhs => rw [← List.take_append_drop DIGEST_SIZE block, hrest]
        rw [List.append_assoc, List.cons_append]
      rw [hname.uuidOf_eq, messageSetReceiver]
      conv_lhs => rw [hblock]
      rw [setName_name (notMem_cString _) hname.1, Outcome.map_done]
    simp only [decide_eq_true hname, if_true, hset, Outcome.done_bind, withReceiver_flag]
  · have hset : messageSetReceiverUuid box block = .done (0, withReceiver box (uuidOf block)) := by
      rw [messageSetReceiverUuid, isstrinuuid_eq h, Outcome.done_bind, decide_eq_false hname,
        if_neg (by decide), if_neg (by omega)]
    simp only [decide_eq_false hname, Bool.false_eq_true, if_false, hset, Outcome.done_bind,
      withReceiver_flag]

/-- A block that is too short is read beyond its end. -/
theorem receiveTarget_short (h : block.length < DIGEST_SIZE) :
    ¬ Effect describes flag box (receiveTarget rule block box') := by
  have htrue := isstrinuuid_short h
  rw [receiveTarget]
  cases hname : isstrinuuid block with
  | done isname =>
    cases isname with
    | true => exact absurd hname htrue
    | false =>
      have hset : messageSetReceiverUuid box' block = .fault := by
        rw [messageSetReceiverUuid, hname, Outcome.done_bind, if_neg (by decide), if_pos h]
      simp only [Outcome.done_bind, Bool.false_eq_true, if_false, hset, Outcome.fault_bind]
      exact not_effect_fault
  | error e => exact not_effect_error
  | fault => exact not_effect_fault

theorem cString_take_of_short (h : (cString value).length ≤ nameSize) :
    cString (value.take DIGEST_SIZE) = cString value := by
  have hnameSize : nameSize = 24 := rfl
  have hdigest : DIGEST_SIZE = 32 := rfl
  rw [cString_take, List.take_of_length_le (by omega)]

/-- A name in front of a value is in the field exactly where zeros are behind it. -/
theorem uuidOf_eq_name_iff (h : (cString value).length ≤ nameSize) :
    uuidOf value = uuidOf (cString value) ↔ NameInFront value := by
  have htake := cString_take_of_short h
  constructor
  · intro heq
    refine ⟨htake ▸ h, fun c hc => ?_⟩
    obtain ⟨i, hi, rfl⟩ := List.mem_iff_getElem.1 hc
    rw [List.length_drop, List.length_take, htake] at hi
    have hbyte := uuidOf_eq_iff.1 heq ((cString value).length + i) (by omega)
    rw [List.getD_eq_default (cString value) _ (by omega), List.getD_eq_getElem _ _ (by omega)] at hbyte
    rw [List.getElem_drop, List.getElem_take]
    simpa only [htake] using hbyte
  · intro hname
    rw [hname.uuidOf_eq, htake]

/-- A value that is long enough is what the first bytes set exactly if it has 32 bytes, or is a
    name, or is digits that are their own digest. -/
theorem valueField_long (h : DIGEST_SIZE ≤ value.length) : ValueField value (uuidOf value) ↔
    IsOwnField value := by
  have hnameSize : nameSize = 24 := rfl
  have hdigest : DIGEST_SIZE = 32 := rfl
  rw [ValueField, IsOwnField]
  split_ifs with hlen
  · exact iff_of_true rfl (.inl hlen)
  have hlong : DIGEST_SIZE < value.length := by omega
  rcases Nat.lt_or_ge nameSize (cString value).length with hstr | hstr
  · -- The string is no name.
    have hname : ¬ NameInFront value := by
      rintro ⟨hname, -⟩
      rw [cString_take, List.length_take] at hname
      omega
    have hfield : fieldOf (cString value) = uuidOf (bytesOf (digits (cString value))) :=
      if_neg (by omega)
    have hdigits (hdig : IsDigest (cString value)) :
        uuidOf value = uuidOf (bytesOf (digits (cString value))) ↔
          ∀ i < 2 * DIGEST_SIZE, (cString value).getD i 0 = '3'.toUInt8 := by
      rw [← text_eq_digest_iff hdig (Nat.le_refl _), uuidOf_eq_iff]
      have hfront : ∀ i < DIGEST_SIZE, value.getD i 0 = (cString value).getD i 0 := by
        intro i hi
        have hlen : (cString value).length = 64 := hdig.1
        rw [← take_cString value, getD_take (by omega)]
      exact forall₂_congr fun i hi => by rw [hfront i hi]
    simp only [hlen, hname, and_false, false_or, hfield]
    constructor
    · rintro ⟨hacc, heq⟩
      have hdig : IsDigest (cString value) := hacc.resolve_left (by omega)
      refine List.ext_getElem (by rw [hdig.1, List.length_replicate]) fun i hi hi' => ?_
      have hbyte := (hdigits hdig).1 heq i (by have := hdig.1; omega)
      rw [List.getD_eq_getElem _ _ hi] at hbyte
      rw [hbyte, List.getElem_replicate]
    · intro heq
      have hdig : IsDigest (cString value) := by
        rw [heq]
        refine ⟨List.length_replicate, fun c hc => ?_⟩
        rw [List.eq_of_mem_replicate hc]
        decide
      refine ⟨.inr hdig, (hdigits hdig).2 fun i hi => ?_⟩
      rw [heq, List.getD_eq_getElem _ _ (by rw [List.length_replicate]; omega),
        List.getElem_replicate]
  · -- A name.
    have hfield : fieldOf (cString value) = uuidOf (cString value) := if_pos hstr
    have hthree : cString value ≠ .replicate (DIGEST_SIZE * 2) '3'.toUInt8 := by
      intro heq
      have := congrArg List.length heq
      rw [List.length_replicate] at this
      omega
    have hacc : Accepted (cString value) := .inl hstr
    simp only [hlen, hthree, hlong, hacc, true_and, false_or, or_false, hfield]
    exact uuidOf_eq_name_iff hstr

/-- A value that is too short is not what a block with another last byte sets. -/
theorem valueField_short (h : value.length < DIGEST_SIZE) (hblock : block.getD (DIGEST_SIZE - 1) 0 ≠ 0) :
    ¬ ValueField value (uuidOf block) := by
  have hnameSize : nameSize = 24 := rfl
  have hdigest : DIGEST_SIZE = 32 := rfl
  rw [ValueField, if_neg (by omega)]
  rintro ⟨hacc, heq⟩
  have hle : (cString value).length ≤ value.length := (List.takeWhile_prefix _).length_le
  have hname : (cString value).length ≤ nameSize := by
    rcases hacc with hname | hdig
    · exact hname
    · have := hdig.1
      omega
  rw [fieldOf, if_pos hname] at heq
  have hbyte := uuidOf_eq_iff.1 heq (DIGEST_SIZE - 1) (by omega)
  rw [List.getD_eq_default (cString value) _ (by omega)] at hbyte
  exact hblock hbyte

/-- A call that sets the receiver to the bytes of a block. -/
theorem effect_receive {box₁ : MessageBox T V} (hbox : box₁.head = box.head)
    (hret : 0 ≤ rule.targetType.toInt) (hblock : DIGEST_SIZE ≤ block.length) :
    Effect describes (box.head.flag &&& ~~~MSG_FLAG_LOCAL) box (receiveTarget rule block box₁) ↔
      describes (uuidOf block) := by
  rw [receiveTarget_eq hblock]
  refine effect_set hret ?_
  simp only [messageSetFlag, withReceiver, hbox]

/-- A value with other bytes behind it sets what it should, whatever those are, exactly if it
    is long enough and is what its first bytes set. -/
theorem effect_value {box₁ : MessageBox T V} (hbox : box₁.head = box.head)
    (hret : 0 ≤ rule.targetType.toInt) (hvalue : DIGEST_SIZE ≤ value.length) (tail : List UInt8) :
    Effect (ValueField value) (box.head.flag &&& ~~~MSG_FLAG_LOCAL) box
        (receiveTarget rule (value ++ tail) box₁) ↔ IsOwnField value := by
  have hblock : uuidOf (value ++ tail) = uuidOf value := by
    rw [← uuidOf_take, List.take_append_of_le_length hvalue, uuidOf_take]
  rw [effect_receive hbox hret (by rw [List.length_append]; omega), hblock, valueField_long hvalue]

/-! ## The first record -/

variable {ops : ReadOps T V} {names : TypeNames} {name : List UInt8}

theorem RecordValue.unique {value' : List UInt8} (h : RecordValue ops name box value)
    (h' : RecordValue ops name box value') : value = value' := by
  obtain ⟨template, slot, precord, htemplate, -, hslot, hprecord, hvalue⟩ := h
  obtain ⟨template', slot', precord', htemplate', -, hslot', hprecord', hvalue'⟩ := h'
  obtain rfl := Option.some.inj (htemplate.symm.trans htemplate')
  obtain rfl := Option.some.inj (hslot.symm.trans hslot')
  obtain rfl := Option.some.inj (hprecord.symm.trans hprecord')
  exact Except.ok.inj (hvalue.symm.trans hvalue')

/-- The value of the first record is read if it is not too long and there is memory for it. -/
theorem messageReadElem_value (h : RecordValue ops name box value) (mem : TargetMemory) :
    ∃ box₁ : MessageBox T V, box₁.head = box.head ∧ messageReadElem ops mem box name 0 =
      if elemBufferSize < value.length then .fault
      else if elemBufferSize ≤ value.length then .done (.error (-EINVAL), box₁)
      else if !mem.target then .fault
      else .done (.ok (value ++ [mem.behind]), box₁) := by
  obtain ⟨template, slot, precord, htemplate, hnum, hslot, hprecord, hvalue⟩ := h
  refine ⟨{ box with recordTemplate := some template }, rfl, ?_⟩
  have hzero : (0 : Int).toNat = 0 := rfl
  simp only [messageReadElem, htemplate, ge_iff_le, Int.not_le.2 hnum, Int.lt_irrefl, if_false, hzero,
    hslot, hprecord, hvalue]

/-- If there is no value an error is returned, unless there is no place to look at. -/
theorem messageReadElem_none (h : ∀ value, ¬ RecordValue ops name box value)
    (hsite : ∀ template, templateOf ops.toStructOps box = some template →
      0 < box.head.recordNum.toInt → ∃ slot, box.records[0]? = some slot) (mem : TargetMemory) :
    ∃ (e : Int) (box₁ : MessageBox T V), box₁.head = box.head ∧
      messageReadElem ops mem box name 0 = .done (.error e, box₁) := by
  rw [messageReadElem]
  cases htemplate : templateOf ops.toStructOps box with
  | none => exact ⟨_, box, rfl, rfl⟩
  | some template =>
    have hhead : { box with recordTemplate := some template }.head = box.head := rfl
    simp only [ge_iff_le, Int.lt_irrefl, if_false]
    by_cases hnum : box.head.recordNum.toInt ≤ 0
    · exact ⟨_, _, hhead, if_pos hnum⟩
    · rw [if_neg hnum]
      obtain ⟨slot, hslot⟩ := hsite template htemplate (Int.not_le.1 hnum)
      have hzero : (0 : Int).toNat = 0 := rfl
      simp only [hzero, hslot]
      cases hprecord : slot.precord with
      | none => exact ⟨_, _, hhead, rfl⟩
      | some precord =>
        simp only
        cases hread : ops.structReadElem name precord template with
        | error e => exact ⟨_, _, hhead, rfl⟩
        | ok value =>
          exact absurd ⟨template, slot, precord, htemplate, Int.not_le.1 hnum, hslot, hprecord, hread⟩
            (h value)

/-- A value that is too short does not fit. -/
theorem not_valueFits_short {size : Nat} {target : Bool} (h : value.length < DIGEST_SIZE) :
    ¬ ValueFits size target value := by
  rintro ⟨-, -, hlen | ⟨hlen, -⟩ | hthree⟩
  · omega
  · omega
  · have hle : (cString value).length ≤ value.length := (List.takeWhile_prefix _).length_le
    rw [hthree, List.length_replicate] at hle
    omega

/-- The receiver that the only value describes. -/
theorem describes_value {values : List UInt8 → Prop} (hvalue : values value)
    (hunique : ∀ {value'}, values value' → value = value') :
    (fun uuid => ∃ value, values value ∧ ValueField value uuid) = ValueField value := by
  funext uuid
  exact propext ⟨fun ⟨_, h, hfield⟩ => hunique h ▸ hfield, fun hfield => ⟨value, hvalue, hfield⟩⟩

/-- A rule about the first record takes effect exactly if the record can be looked at and its
    value is set right. -/
theorem record_iff (hret : 0 ≤ rule.targetType.toInt) (target : Bool) :
    (∀ (behind : UInt8) (stale : List UInt8) (unset : Option (List UInt8)),
      stale.length = expandTargetSize →
      Effect (fun uuid => ∃ value, RecordValue ops rule.targetName box value ∧ ValueField value uuid)
        (box.head.flag &&& ~~~MSG_FLAG_LOCAL) box
        (recordTarget ops ⟨target, behind, stale, unset⟩ rule box)) ↔
      RecordRight ops target rule.targetName box := by
  have hdigest : DIGEST_SIZE = 32 := rfl
  have hsize : elemBufferSize = 128 := rfl
  have hneg : (-EINVAL : Int) < 0 := by decide
  have hzeros : (List.replicate expandTargetSize (0 : UInt8)).length = expandTargetSize :=
    List.length_replicate
  by_cases hsite : ∀ template, templateOf ops.toStructOps box = some template →
      0 < box.head.recordNum.toInt → ∃ slot, box.records[0]? = some slot
  swap
  · -- There is no place for the record.
    refine iff_of_false (fun h => ?_) fun h => hsite h.1
    push Not at hsite
    obtain ⟨template, htemplate, hnum, hslot⟩ := hsite
    have hnone : box.records[0]? = none := Option.eq_none_iff_forall_ne_some.2 hslot
    have hread : recordTarget ops ⟨target, 0, .replicate expandTargetSize 0, none⟩ rule box = .fault := by
      have hzero : (0 : Int).toNat = 0 := rfl
      simp only [recordTarget, messageReadElem, htemplate, ge_iff_le, Int.not_le.2 hnum, if_false,
        Int.lt_irrefl, hzero, hnone, Outcome.fault_bind]
    exact not_effect_fault (hread ▸ h 0 _ none hzeros)
  by_cases hvalue : ∃ value, RecordValue ops rule.targetName box value
  swap
  · -- There is no value.
    push Not at hvalue
    refine iff_of_true (fun behind stale unset _ => ?_) ⟨hsite, fun value h => absurd h (hvalue value)⟩
    obtain ⟨e, box₁, hhead, hread⟩ :=
      messageReadElem_none hvalue hsite ⟨target, behind, stale, unset⟩
    rw [recordTarget, hread, Outcome.done_bind]
    exact effect_fail hneg hhead
  obtain ⟨value, hvalue⟩ := hvalue
  have hright : RecordRight ops target rule.targetName box ↔
      value.length = elemBufferSize ∨ ValueFits (elemBufferSize - 1) target value :=
    ⟨fun h => h.2 value hvalue, fun h => ⟨hsite, fun _ h' => hvalue.unique h' ▸ h⟩⟩
  have hread (mem : TargetMemory) : ∃ box₁ : MessageBox T V, box₁.head = box.head ∧
      recordTarget ops mem rule box =
        if elemBufferSize < value.length then .fault
        else if elemBufferSize ≤ value.length then .done (-EINVAL, none, box₁)
        else if !mem.target then .fault
        else receiveTarget rule (value ++ [mem.behind]) box₁ := by
    obtain ⟨box₁, hhead, hread⟩ := messageReadElem_value hvalue mem
    refine ⟨box₁, hhead, ?_⟩
    rw [recordTarget, hread]
    split_ifs <;> rfl
  rw [hright, describes_value hvalue fun h => hvalue.unique h]
  rcases Nat.lt_trichotomy value.length elemBufferSize with hlen | hlen | hlen
  · cases target with
    | false =>
      refine iff_of_false (fun h => ?_) ?_
      · obtain ⟨box₁, -, hread⟩ := hread ⟨false, 0, .replicate expandTargetSize 0, none⟩
        rw [if_neg (by omega), if_neg (by omega), if_pos (by decide)] at hread
        exact not_effect_fault (hread ▸ h 0 _ none hzeros)
      · rintro (h | ⟨-, h, -⟩)
        · omega
        · cases h
    | true =>
      rw [or_iff_right (by omega)]
      rcases Nat.lt_or_ge value.length DIGEST_SIZE with hshort | hlong
      · -- The byte behind the value may be another one, and there may be none behind that.
        refine iff_of_false (fun h => ?_) (not_valueFits_short hshort)
        obtain ⟨box₁, hhead, hread⟩ := hread ⟨true, 1, .replicate expandTargetSize 0, none⟩
        rw [if_neg (by omega), if_neg (by omega), if_neg (by decide)] at hread
        have heffect := h 1 _ none hzeros
        rw [hread] at heffect
        rcases Nat.lt_or_ge (value ++ [(1 : UInt8)]).length DIGEST_SIZE with hblock | hblock
        · exact receiveTarget_short hblock heffect
        · rw [effect_receive hhead hret hblock] at heffect
          refine valueField_short hshort ?_ heffect
          rw [List.length_append, List.length_singleton] at hblock
          rw [List.getD_append_right _ _ _ _ (by omega), show DIGEST_SIZE - 1 - value.length = 0 by omega]
          decide
      · have hfits : ValueFits (elemBufferSize - 1) true value ↔ IsOwnField value :=
          ⟨fun h => h.2.2, fun h => ⟨by omega, rfl, h⟩⟩
        rw [hfits]
        have heach (behind : UInt8) (stale : List UInt8) (unset : Option (List UInt8)) :
            Effect (ValueField value) (box.head.flag &&& ~~~MSG_FLAG_LOCAL) box
              (recordTarget ops ⟨true, behind, stale, unset⟩ rule box) ↔ IsOwnField value := by
          obtain ⟨box₁, hhead, hread⟩ := hread ⟨true, behind, stale, unset⟩
          rw [hread, if_neg (by omega), if_neg (by omega), if_neg (by simp)]
          exact effect_value hhead hret hlong [behind]
        simp only [heach]
        exact ⟨fun h => h 0 _ none hzeros, fun h _ _ _ _ => h⟩
  · -- The value fills the buffer.
    refine iff_of_true (fun behind stale unset _ => ?_) (.inl hlen)
    obtain ⟨box₁, hhead, hread⟩ := hread ⟨target, behind, stale, unset⟩
    rw [hread, if_neg (by omega), if_pos (by omega)]
    exact effect_fail hneg hhead
  · -- The value does not fit the buffer.
    refine iff_of_false (fun h => ?_) ?_
    · obtain ⟨box₁, -, hread⟩ := hread ⟨target, 0, .replicate expandTargetSize 0, none⟩
      rw [if_pos hlen] at hread
      exact not_effect_fault (hread ▸ h 0 _ none hzeros)
    · rintro (h | ⟨h, -⟩) <;> omega

/-! ## An expand -/

theorem findColon_some {between : List UInt8} (h : ':'.toUInt8 ∉ between) {len offset : Nat}
    (hlen : offset + between.length < len) (str : List UInt8) :
    findColon len (between ++ ':'.toUInt8 :: str) offset = .done (some str) := by
  induction between generalizing offset with
  | nil => rw [List.nil_append, findColon, if_pos rfl]
  | cons c between ih =>
    rw [List.mem_cons, not_or] at h
    rw [List.length_cons] at hlen
    rw [List.cons_append, findColon, if_neg (Ne.symm h.1), if_neg (by omega), ih h.2 (by omega)]

theorem findColon_none {text : List UInt8} (h : ':'.toUInt8 ∉ text) (hne : text ≠ [])
    (offset : Nat) (rest : List UInt8) :
    findColon (offset + text.length) (text ++ rest) offset = .done none := by
  induction text generalizing offset with
  | nil => exact absurd rfl hne
  | cons c text ih =>
    rw [List.mem_cons, not_or] at h
    rw [List.cons_append, findColon, if_neg (Ne.symm h.1), List.length_cons]
    rcases text with _ | ⟨c', text⟩
    · rw [if_pos (by simp)]
    · rw [if_neg (by simp), ← ih h.2 (List.cons_ne_nil c' text) (offset + 1)]
      congr 1
      simp only [List.length_cons]
      omega

theorem NamesElem.unique {type subtype type' subtype' : Int32} {elem elem' : List UInt8}
    (h : NamesElem names name type subtype elem) (h' : NamesElem names name type' subtype' elem') :
    type = type' ∧ subtype = subtype' ∧ elem = elem' := by
  obtain ⟨close, t, u, between, hread, hdrop, hbetween, rfl, rfl⟩ := h
  obtain ⟨close', t', u', between', hread', hdrop', hbetween', rfl, rfl⟩ := h'
  have heq := hread.symm.trans hread'
  simp only [Outcome.done.injEq, Prod.mk.injEq, Int.natCast_inj] at heq
  obtain ⟨rfl, rfl, rfl⟩ := heq
  have hcolon {between : List UInt8} (h : ':'.toUInt8 ∉ between) :
      ∀ c ∈ between, decide (c = ':'.toUInt8) = false := by
    intro c hc
    rw [decide_eq_false_iff_not]
    rintro rfl
    exact h hc
  obtain ⟨-, -, rfl⟩ := Message.Typestr.end_unique (hcolon hbetween) (hcolon hbetween') (by simp)
    (by simp) (hdrop.symm.trans hdrop')
  exact ⟨rfl, rfl, rfl⟩

theorem ExpandValue.unique {value' : List UInt8} (h : ExpandValue ops names name box value)
    (h' : ExpandValue ops names name box value') : value = value' := by
  obtain ⟨type, subtype, elem, expand, template, helem, hexpand, htemplate, hvalue⟩ := h
  obtain ⟨type', subtype', elem', expand', template', helem', hexpand', htemplate', hvalue'⟩ := h'
  obtain ⟨rfl, rfl, rfl⟩ := helem.unique helem'
  obtain rfl := Option.some.inj (Outcome.done.inj (hexpand.symm.trans hexpand'))
  obtain rfl := Option.some.inj (htemplate.symm.trans htemplate')
  exact Except.ok.inj (hvalue.symm.trans hvalue')

/-- A text that names no element is an error. -/
theorem expandTarget_none (hname : 0 ∉ rule.targetName)
    (h : ∀ type subtype elem, ¬ NamesElem names rule.targetName type subtype elem)
    (mem : TargetMemory) :
    ∃ e < 0, expandTarget ops names mem rule box = .done (e, none, box) := by
  have hneg : (-EINVAL : Int) < 0 := by decide
  rw [expandTarget, Text.strlen_cstr hname, Outcome.done_bind]
  by_cases hlong : rule.targetName.length > DIGEST_SIZE * 3
  · exact ⟨_, hneg, by rw [if_pos hlong]⟩
  rw [if_neg hlong]
  rcases Message.Typestr.messageReadTypestr_cases names hname [] with
    ⟨close, t, u, hclose, -, hread⟩ | ⟨e, he, hread⟩
  · have hne : rule.targetName.drop close ≠ [] := by
      rw [Ne, List.drop_eq_nil_iff]
      omega
    have hcolon : ':'.toUInt8 ∉ rule.targetName.drop close := by
      intro hmem
      obtain ⟨between, elem, heq, hbetween⟩ := List.eq_append_cons_of_mem hmem
      exact h _ _ elem ⟨close, t, u, between, hread, heq, hbetween, rfl, rfl⟩
    have hfind := findColon_none hcolon hne close [0]
    rw [List.length_drop, Nat.add_sub_cancel' hclose.le] at hfind
    refine ⟨_, hneg, ?_⟩
    simp only [hread, Int.toNat_natCast, List.drop_append_of_le_length hclose.le, hfind,
      Outcome.done_bind]
  · exact ⟨e, he, by simp only [hread]⟩

/-- What is done with the element that a text names. -/
theorem expandTarget_elem (hname : 0 ∉ rule.targetName) {type subtype : Int32} {elem : List UInt8}
    (h : NamesElem names rule.targetName type subtype elem) (mem : TargetMemory) :
    expandTarget ops names mem rule box = (do
      let expand ← messageGetDefineExpand box type subtype
      match expand, ops.getTemplate type subtype with
      | some expand, some template =>
        match ops.structReadElem elem expand.expand template with
        | .error e => .done (e, none, box)
        | .ok value =>
          if !mem.target then if value = [] then .done (-EINVAL, none, box) else .fault
          else if expandTargetSize < value.length then .fault
          else receiveTarget rule (value ++ mem.stale.drop value.length) box
      | _, _ => .done (-EINVAL, none, box)) := by
  obtain ⟨close, t, u, between, hread, hdrop, hbetween, rfl, rfl⟩ := h
  rcases Message.Typestr.messageReadTypestr_cases names hname [] with
    ⟨close', t', u', hclose, hlen, hread'⟩ | ⟨e, he, hread'⟩
  swap
  · cases hread.symm.trans hread'
  have heq := hread.symm.trans hread'
  simp only [Outcome.done.injEq, Prod.mk.injEq, Int.natCast_inj] at heq
  obtain ⟨rfl, rfl, rfl⟩ := heq
  have helem : 0 ∉ elem := by
    intro hmem
    have hdropped : 0 ∈ rule.targetName.drop close := by
      rw [hdrop]
      simp [hmem]
    exact hname (List.mem_of_mem_drop hdropped)
  have hlen' : close + between.length < rule.targetName.length := by
    have := congrArg List.length hdrop
    rw [List.length_drop, List.length_append, List.length_cons] at this
    omega
  have hstring : (elem ++ [0]).takeWhile (fun c => decide (c ≠ 0)) = elem := cString_eq helem []
  rw [expandTarget, Text.strlen_cstr hname, Outcome.done_bind, if_neg (by omega)]
  simp only [hread, Int.toNat_natCast, List.drop_append_of_le_length hclose.le, hdrop,
    List.append_assoc, List.cons_append, findColon_some hbetween hlen', Outcome.done_bind, hstring]

/-- A rule about an expand takes effect exactly if the expands can be looked at and the value
    in one is set right. -/
theorem expand_iff (hret : 0 ≤ rule.targetType.toInt) (hname : 0 ∉ rule.targetName)
    (target : Bool) :
    (∀ (behind : UInt8) (stale : List UInt8) (unset : Option (List UInt8)),
      stale.length = expandTargetSize →
      Effect (fun uuid => ∃ value, ExpandValue ops names rule.targetName box value ∧
          ValueField value uuid)
        (box.head.flag &&& ~~~MSG_FLAG_LOCAL) box
        (expandTarget ops names ⟨target, behind, stale, unset⟩ rule box)) ↔
      ExpandRight ops names target rule.targetName box := by
  have hdigest : DIGEST_SIZE = 32 := rfl
  have hsize : expandTargetSize = 65 := rfl
  have hneg : (-EINVAL : Int) < 0 := by decide
  have hones : (List.replicate expandTargetSize (1 : UInt8)).length = expandTargetSize :=
    List.length_replicate
  by_cases helem : ∃ type subtype elem, NamesElem names rule.targetName type subtype elem
  swap
  · -- The text names no element.
    push Not at helem
    refine iff_of_true (fun behind stale unset _ => ?_)
      ⟨fun type subtype elem h => absurd h (helem type subtype elem),
        fun value ⟨type, subtype, elem, _, _, h, _⟩ => absurd h (helem type subtype elem)⟩
    obtain ⟨e, he, hread⟩ := expandTarget_none hname helem ⟨target, behind, stale, unset⟩
    rw [hread]
    exact effect_fail he rfl
  obtain ⟨type, subtype, elem, helem⟩ := helem
  simp only [expandTarget_elem hname helem]
  by_cases hexpand : ∃ expand, messageGetDefineExpand box type subtype = .done expand
  swap
  · -- The expands cannot be looked at.
    refine iff_of_false (fun h => ?_) fun h => hexpand (h.1 type subtype elem helem)
    have heffect := h 0 _ none hones
    cases hfind : messageGetDefineExpand box type subtype with
    | done expand => exact hexpand ⟨expand, hfind⟩
    | error e =>
      rw [hfind] at heffect
      exact not_effect_error heffect
    | fault =>
      rw [hfind] at heffect
      exact not_effect_fault heffect
  have hsite : ∀ type' subtype' elem', NamesElem names rule.targetName type' subtype' elem' →
      ∃ expand, messageGetDefineExpand box type' subtype' = .done expand := by
    intro type' subtype' elem' helem'
    obtain ⟨rfl, rfl, rfl⟩ := helem.unique helem'
    exact hexpand
  obtain ⟨expand, hexpand⟩ := hexpand
  simp only [hexpand, Outcome.done_bind]
  by_cases hvalue : ∃ value, ExpandValue ops names rule.targetName box value
  swap
  · -- There is no value.
    push Not at hvalue
    refine iff_of_true (fun behind stale unset _ => ?_) ⟨hsite, fun value h => absurd h (hvalue value)⟩
    cases expand with
    | none => exact effect_fail hneg rfl
    | some expand =>
      cases htemplate : ops.getTemplate type subtype with
      | none => exact effect_fail hneg rfl
      | some template =>
        simp only
        cases hread : ops.structReadElem elem expand.expand template with
        | error e => exact effect_fail (ops.read_neg _ _ _ _ hread) rfl
        | ok value =>
          exact absurd ⟨type, subtype, elem, expand, template, helem, hexpand, htemplate, hread⟩
            (hvalue value)
  obtain ⟨value, hvalue⟩ := hvalue
  have hright : ExpandRight ops names target rule.targetName box ↔
      (target = false ∧ value = []) ∨ ValueFits expandTargetSize target value :=
    ⟨fun h => h.2 value hvalue, fun h => ⟨hsite, fun _ h' => hvalue.unique h' ▸ h⟩⟩
  rw [hright, describes_value hvalue fun h => hvalue.unique h]
  obtain ⟨type', subtype', elem', expand', template, helem', hexpand', htemplate, hread⟩ := hvalue
  obtain ⟨rfl, rfl, rfl⟩ := helem.unique helem'
  obtain rfl := Outcome.done.inj (hexpand.symm.trans hexpand')
  simp only [htemplate, hread]
  cases target with
  | false =>
    cases value with
    | nil => exact iff_of_true (fun _ _ _ _ => effect_fail hneg rfl) (.inl ⟨rfl, rfl⟩)
    | cons c value =>
      refine iff_of_false (fun h => not_effect_fault (h 0 _ none hones)) ?_
      rintro (⟨-, h⟩ | ⟨-, h, -⟩) <;> cases h
  | true =>
    simp only [Bool.not_true, Bool.false_eq_true, Bool.true_eq_false, if_false, false_and, false_or]
    rcases Nat.lt_or_ge expandTargetSize value.length with hlen | hlen
    · -- The value does not fit the memory for it.
      simp only [if_pos hlen]
      exact iff_of_false (fun h => not_effect_fault (h 0 _ none hones)) fun h => by
        have := h.1
        omega
    simp only [if_neg (Nat.not_lt.2 hlen)]
    rcases Nat.lt_or_ge value.length DIGEST_SIZE with hshort | hlong
    · -- The bytes behind the value may be others than zeros.
      refine iff_of_false (fun h => ?_) (not_valueFits_short hshort)
      have heffect := h 0 _ none hones
      have hblock : DIGEST_SIZE ≤
          (value ++ (List.replicate expandTargetSize (1 : UInt8)).drop value.length).length := by
        rw [List.length_append, List.length_drop, hones]
        omega
      rw [effect_receive rfl hret hblock] at heffect
      refine valueField_short hshort ?_ heffect
      rw [List.getD_append_right _ _ _ _ (by omega), List.drop_replicate,
        List.getD_eq_getElem _ _ (by rw [List.length_replicate]; omega), List.getElem_replicate]
      decide
    · have heach (stale : List UInt8) :
          Effect (ValueField value) (box.head.flag &&& ~~~MSG_FLAG_LOCAL) box
            (receiveTarget rule (value ++ stale.drop value.length) box) ↔ IsOwnField value :=
        effect_value rfl hret hlong _
      simp only [heach]
      exact ⟨fun h => ⟨hlen, rfl, h 0 _ none hones⟩, fun h _ _ _ _ => h.2.2⟩

/-! ## Names, digests and connections -/

theorem strlen_none (h : 0 ∉ block) : strlen block = .fault := by
  induction block with
  | nil => rfl
  | cons c block ih =>
    rw [List.mem_cons, not_or] at h
    rw [strlen, if_neg (Ne.symm h.1), ih h.2]
    rfl

/-- A name sets the receiver if there is memory for it and it is not too long. -/
theorem name_iff (hret : 0 ≤ rule.targetType.toInt) (hname : 0 ∉ rule.targetName)
    (mem : TargetMemory) (setFlag : Int32 → Int32) :
    Effect (fun uuid => rule.targetName.length ≤ nameSize ∧ uuid = uuidOf rule.targetName)
        (setFlag box.head.flag) box (nameTarget mem setFlag rule box) ↔
      mem.target = true ∧ rule.targetName.length ≤ nameSize := by
  have hnameSize : nameSize = 24 := rfl
  have hdigest : DIGEST_SIZE = 32 := rfl
  rw [nameTarget]
  cases mem.target with
  | false => exact iff_of_false not_effect_fault fun h => nomatch h.1
  | true =>
    have hcopy : strncpy (.replicate DIGEST_SIZE 0) (rule.targetName ++ [0]) DIGEST_SIZE = .done _ :=
      Text.strncpy_string hname List.length_replicate.ge
    simp only [Bool.not_true, Bool.false_eq_true, if_false, true_and, hcopy, Outcome.done_bind]
    rcases Nat.lt_or_ge rule.targetName.length DIGEST_SIZE with hlen | hlen
    · rw [if_pos hlen, messageSetReceiver]
      rcases Nat.lt_or_ge nameSize rule.targetName.length with hlong | hshort
      · -- The name is refused, which is not asked for.
        rw [setName_between hname hlong (by omega), Outcome.map_done, Outcome.done_bind]
        refine iff_of_false (fun h => ?_) (by omega)
        obtain ⟨uuid, hdescribed, -⟩ := (effect_success hret).1 h
        omega
      · rw [setName_name hname hshort, Outcome.map_done, Outcome.done_bind]
        rw [withReceiver_flag, effect_withReceiver hret]
        exact and_iff_left rfl
    · -- The name is copied without its end.
      have hfull : 0 ∉ rule.targetName.take DIGEST_SIZE ++
          (List.replicate DIGEST_SIZE (0 : UInt8)).drop DIGEST_SIZE := by
        simp only [List.drop_replicate, Nat.sub_self, List.replicate_zero, List.append_nil]
        exact fun hmem => hname (List.mem_of_mem_take hmem)
      rw [if_neg (Nat.not_lt.2 hlen), messageSetReceiver, setName, strlen_none hfull]
      exact iff_of_false not_effect_fault (by omega)

/-- A connection sets the receiver if it does not fail. -/
theorem conn_effect (hret : 0 ≤ rule.targetType.toInt) (hname : 0 ∉ rule.targetName)
    (mem : TargetMemory) :
    Effect (fun uuid => rule.targetName.length < nameSize ∧
        uuid = uuidOf (':'.toUInt8 :: rule.targetName))
      (box.head.flag &&& ~~~MSG_FLAG_LOCAL) box (connTarget mem rule box) := by
  have hnameSize : nameSize = 24 := rfl
  have hdigest : DIGEST_SIZE = 32 := rfl
  rw [connTarget]
  split_ifs
  · exact effect_fail (by decide) rfl
  rcases Nat.lt_or_ge (DIGEST_SIZE * 2) rule.targetName.length with hlong | hlen
  · rw [Text.strnlen_long hname hlong.le, Outcome.done_bind, if_pos (by omega)]
    exact effect_fail (by decide) rfl
  · rw [Text.strnlen_cstr hname hlen, Outcome.done_bind]
    split_ifs with hrefused
    · exact effect_fail (by decide) rfl
    · have hzero : 0 ∉ ':'.toUInt8 :: rule.targetName := by
        rw [List.mem_cons, not_or]
        exact ⟨by decide, hname⟩
      have htarget : ':'.toUInt8 :: (rule.targetName.take rule.targetName.length ++
          .replicate (DIGEST_SIZE - 1 - rule.targetName.length) 0) =
            ':'.toUInt8 :: rule.targetName ++
              0 :: .replicate (DIGEST_SIZE - 2 - rule.targetName.length) 0 := by
        rw [List.take_length, ← List.replicate_succ, List.cons_append]
        congr 3
        omega
      have hset : messageSetReceiver box (':'.toUInt8 :: (rule.targetName.take rule.targetName.length ++
          .replicate (DIGEST_SIZE - 1 - rule.targetName.length) 0)) =
            .done (0, withReceiver box (uuidOf (':'.toUInt8 :: rule.targetName))) := by
        rw [htarget, messageSetReceiver, setName_name hzero (by rw [List.length_cons]; omega),
          Outcome.map_done]
      simp only [hset, Outcome.done_bind, withReceiver_flag]
      exact (effect_withReceiver hret).2 ⟨by omega, rfl⟩

/-- A head that has the receiver and the flags already. -/
theorem head_eq_iff {head : MsgHead} : head = { head with
      receiverUuid := uuid
      flag := flag } ↔ head.receiverUuid = uuid ∧ head.flag = flag := by
  constructor
  · intro h
    exact ⟨congrArg MsgHead.receiverUuid h, congrArg MsgHead.flag h⟩
  · rintro ⟨rfl, rfl⟩
    rfl

/-- A call that succeeds and changes nothing. -/
theorem effect_nothing {P : Prop} (hret : 0 ≤ ret) :
    Effect (fun uuid' => P ∧ uuid' = uuid) flag box (.done (ret, result, box)) ↔
      P ∧ box.head.receiverUuid = uuid ∧ flag = box.head.flag := by
  rw [effect_success hret, eq_comm (a := flag)]
  constructor
  · rintro ⟨_, ⟨hP, rfl⟩, heq⟩
    exact ⟨hP, head_eq_iff.1 heq⟩
  · exact fun h => ⟨uuid, ⟨h.1, rfl⟩, head_eq_iff.2 h.2⟩

/-- A rule of a digest sets nothing: it takes effect where it fails, or the receiver and the
    flags are those already. -/
theorem uuid_iff (hret : 0 ≤ rule.targetType.toInt) (hname : 0 ∉ rule.targetName)
    (mem : TargetMemory) :
    Effect (fun uuid => Accepted rule.targetName ∧ uuid = fieldOf rule.targetName)
        (box.head.flag &&& ~~~MSG_FLAG_LOCAL) box (uuidTarget mem rule box) ↔
      UuidRight mem.target rule.targetName box.head := by
  have hnameSize : nameSize = 24 := rfl
  have hdigest : DIGEST_SIZE = 32 := rfl
  have hneg : (-EINVAL : Int) < 0 := by decide
  rw [uuidTarget, UuidRight]
  rcases Nat.lt_or_ge rule.targetName.length (DIGEST_SIZE * 2) with hlen | hlen
  · rw [Text.strnlen_cstr hname hlen.le, Outcome.done_bind, if_neg (by omega)]
    split_ifs with hshort htarget hempty
    · -- Nothing is copied of an empty name.
      have hnil : rule.targetName = [] := List.length_eq_zero_iff.1 hempty
      rw [effect_nothing hret]
      simp [hnil, Accepted, hnameSize, hdigest, IsDigest]
    · refine iff_of_false not_effect_fault ?_
      rintro (h | h | ⟨⟨-, h | h⟩ | ⟨h, -⟩, -⟩)
      · omega
      · omega
      · simp [h] at htarget
      · exact hempty (by rw [h]; rfl)
      · have := h.1
        omega
    · have htarget' : mem.target = true := by simpa using htarget
      rw [effect_nothing hret]
      constructor
      · exact fun h => .inr (.inr ⟨.inl ⟨hshort, .inl htarget'⟩, h.2⟩)
      · rintro (h | h | ⟨-, h⟩)
        · omega
        · omega
        · exact ⟨.inl hshort.le, h⟩
    · exact iff_of_true (effect_fail hneg rfl) (.inl ⟨by omega, hlen⟩)
  · rw [Text.strnlen_long hname hlen, Outcome.done_bind, if_pos rfl]
    cases htarget : mem.target with
    | false => exact iff_of_true (effect_fail (by decide) rfl) (.inr (.inl ⟨hlen, .inl rfl⟩))
    | true =>
      simp only [Bool.not_true, Bool.false_eq_true, if_false]
      rw [uuidToDigest_eq, Nat.mul_comm, Outcome.done_bind]
      by_cases hdigits : (digits rule.targetName).length < DIGEST_SIZE * 2
      · -- Not all of the characters are digits.
        rw [if_pos hdigits]
        refine iff_of_true (effect_fail hneg rfl) (.inr (.inl ⟨hlen, .inr ?_⟩))
        exact (length_digits_lt_iff hlen).1 hdigits
      · rw [if_neg hdigits]
        refine (effect_nothing hret).trans ?_
        have hhex : ¬ ∃ c ∈ rule.targetName.take (DIGEST_SIZE * 2), ¬ IsHex c :=
          fun h => hdigits ((length_digits_lt_iff hlen).2 h)
        constructor
        · rintro ⟨hacc, h⟩
          exact .inr (.inr ⟨.inr ⟨hacc.resolve_left (by omega), trivial⟩, h⟩)
        · rintro (h | ⟨-, h | h⟩ | ⟨h, h'⟩)
          · omega
          · cases h
          · exact absurd h hhex
          · rcases h with ⟨h, -⟩ | ⟨h, -⟩
            · omega
            · exact ⟨.inr h, h'⟩

/-! ## Rules -/

/-- The types of rules are different. -/
theorem types_pairwise_ne : [ROUTE_TARGET_NAME, ROUTE_TARGET_PORT, ROUTE_TARGET_LOCAL,
    ROUTE_TARGET_UUID, ROUTE_TARGET_CONN, ROUTE_TARGET_RECORD, ROUTE_TARGET_EXPAND].Pairwise
      (fun a b => a ≠ b ∧ b ≠ a) := by
  decide

/-- All of the types of rules return no error. -/
theorem IsTargetType.toInt_nonneg {type : Int32} (h : IsTargetType type) : 0 ≤ type.toInt := by
  rcases h with (rfl | rfl | rfl) | rfl | rfl | rfl | rfl <;> decide

/-- Structures that are the bytes of their only element. -/
def elemOps : ReadOps Unit (List UInt8) where
  struct2Blob _ value := .done value
  blob2Struct _ data := .done (data.length, data)
  getTemplate _ _ := some ()
  structSize _ := DIGEST_SIZE
  cloneStruct value _ := some value
  structPartCompare _ _ _ _ := 0
  structReadElem name value _ := if name = [97] then .ok value else .error (-EINVAL)
  read_neg name value _ e h := by
    split_ifs at h
    rw [← Except.error.inj h]
    decide

/-- A new message with one record, the element of which has the value. -/
def elemBox (value : List UInt8) : MessageBox Unit (List UInt8) where
  head := { initHead with recordType := 1, recordSubtype := 1, recordNum := 1 }
  recordTemplate := some ()
  boxState := .add
  headSize := 0
  records := [⟨none, some value, 0⟩]
  expands := []
  blob := .null
  currentOffset := 0

end Cube.RuleTarget
