import Cube.Lib.Digest
import Cube.Lib.Wire

/-!
# Message heads

The packed structures a message carries on the wire: its head (`MSG_HEAD`, 180
bytes) and the head of each expand (`MSG_EXPAND_HEAD`, 12 bytes), with the
decoding of a head by `blob_2_struct`.
-/

namespace Cube.Message

open Lib

/-- The flag of a message whose records are encrypted. -/
def MSG_FLAG_CRYPT : Int32 := 0x10

/-- The head of a message, `MSG_HEAD`. -/
structure MsgHead where
  tag : Vector UInt8 4
  version : Int32
  senderUuid : Vector UInt8 DIGEST_SIZE
  receiverUuid : Vector UInt8 DIGEST_SIZE
  route : Vector UInt8 DIGEST_SIZE
  flow : Int32
  state : Int32
  flag : Int32
  ljump : Int32
  rjump : Int32
  recordType : Int32
  recordSubtype : Int32
  recordNum : Int32
  recordSize : Int32
  expandNum : Int32
  expandSize : Int32
  nonce : Vector UInt8 DIGEST_SIZE
  deriving DecidableEq, Repr

namespace MsgHead

open Layout in
/-- The layout of a head: its fields in order, without padding. -/
def field : Layout MsgHead :=
  ((bytes 4).pair <| int32.pair <| (bytes DIGEST_SIZE).pair <| (bytes DIGEST_SIZE).pair <|
    (bytes DIGEST_SIZE).pair <| int32.pair <| int32.pair <| int32.pair <| int32.pair <|
    int32.pair <| int32.pair <| int32.pair <| int32.pair <| int32.pair <| int32.pair <|
    int32.pair (bytes DIGEST_SIZE)).map
  (fun (tag, version, sender, receiver, route, flow, state, flag, ljump, rjump, recordType,
      recordSubtype, recordNum, recordSize, expandNum, expandSize, nonce) =>
    ⟨tag, version, sender, receiver, route, flow, state, flag, ljump, rjump, recordType,
      recordSubtype, recordNum, recordSize, expandNum, expandSize, nonce⟩)
  (fun h => (h.tag, h.version, h.senderUuid, h.receiverUuid, h.route, h.flow, h.state, h.flag,
    h.ljump, h.rjump, h.recordType, h.recordSubtype, h.recordNum, h.recordSize, h.expandNum,
    h.expandSize, h.nonce))
  (fun _ => rfl)

/-- The bytes of a head in memory, which are also those sent. -/
def toBytes (h : MsgHead) : List UInt8 := field.put h

/-- The head at the start of the bytes. -/
def ofBytes (l : List UInt8) : MsgHead := field.get l

/-- The size of a head, `sizeof(MSG_HEAD)`. -/
def sizeof : Nat := 180

@[simp] theorem length_toBytes (h : MsgHead) : h.toBytes.length = sizeof := field.length_put h

theorem ofBytes_toBytes (h : MsgHead) (rest : List UInt8) :
    ofBytes (h.toBytes ++ rest) = h := field.get_put h rest

theorem ofBytes_toBytes_nil (h : MsgHead) : ofBytes h.toBytes = h := by
  simpa using ofBytes_toBytes h []

end MsgHead

/-- The tag of every message, `"MESG"`. -/
def mesgTag : Vector UInt8 4 := #v[77, 69, 83, 71]

/-- The version of every message. -/
def mesgVersion : Int32 := 0x00010001

/-- The head of a new message, as `message_init` makes it. -/
def initHead : MsgHead where
  tag := mesgTag
  version := mesgVersion
  senderUuid := .replicate _ 0
  receiverUuid := .replicate _ 0
  route := .replicate _ 0
  flow := 0
  state := 0
  flag := 0
  ljump := 0
  rjump := 0
  recordType := 0
  recordSubtype := 0
  recordNum := 0
  recordSize := 0
  expandNum := 0
  expandSize := 0
  nonce := .replicate _ 0

/-- `blob_2_struct` under the template of a head: the fields have the same bytes
    in the blob and in the structure. The subtype counts on the record type
    before it (`"def":"record_type"`), so a negative record type is an error. -/
def blob2Head (blob : List UInt8) : Outcome MsgHead :=
  let head := MsgHead.ofBytes blob
  if head.recordType < 0 then .error (-EINVAL) else .done head

/-- The head of an expand, `MSG_EXPAND_HEAD`. -/
structure MsgExpandHead where
  dataSize : Int32
  type : Int32
  subtype : Int32
  deriving DecidableEq, Repr

namespace MsgExpandHead

open Layout in
/-- The layout of an expand head. -/
def field : Layout MsgExpandHead :=
  (int32.pair <| int32.pair int32).map
    (fun (dataSize, type, subtype) => ⟨dataSize, type, subtype⟩)
    (fun h => (h.dataSize, h.type, h.subtype)) (fun _ => rfl)

/-- The bytes of an expand head. -/
def toBytes (h : MsgExpandHead) : List UInt8 := field.put h

/-- The expand head at the start of the bytes. -/
def ofBytes (l : List UInt8) : MsgExpandHead := field.get l

/-- The size of an expand head, `sizeof(MSG_EXPAND_HEAD)`. -/
def sizeof : Nat := 12

@[simp] theorem length_toBytes (h : MsgExpandHead) : h.toBytes.length = sizeof :=
  field.length_put h

theorem ofBytes_toBytes (h : MsgExpandHead) (rest : List UInt8) :
    ofBytes (h.toBytes ++ rest) = h := field.get_put h rest

end MsgExpandHead

end Cube.Message
