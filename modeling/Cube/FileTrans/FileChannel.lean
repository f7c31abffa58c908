import Cube.FileTrans.Dealer
import Cube.FileTrans.Package

/-!
# The file channel

The module `file_channel.c` writes the blocks of a file to a connection, one
package after the other, and reads them at the other end into a buffer of fixed
size. What a read brings beyond the package decoded is to be kept in the buffer for
the next read.

* `sendAll`: the packages that a file is sent in;
* `receiveFile`: those that are decoded of the reads at the other end.
-/

namespace Cube.FileTrans.FileChannel

open Lib

/-- The size of the buffer `Blob`. -/
def blobSize : Nat := 2048

/-! ## Sending -/

/-- The sending end: what `proc_file_send_start` has set in `pfdata`, the number of
    packages sent, and what is still to be read from the file. -/
structure Sender where
  uuid : Uuid
  filename : CString
  totalSize : Int32
  fileCount : Nat
  rest : List UInt8

/-- `proc_file_send_start`, for the file of a request. -/
def procFileSendStart (sm3 : List UInt8 → Uuid) (files : Files) (filename : CString) :
    Outcome Sender :=
  match files filename with
  | none => .error 1
  | some content => .done ⟨sm3 content, filename, Int32.ofNat content.length, 0, content⟩

namespace Sender

variable (sender : Sender)

/-- The `offset` of the next package. -/
def offset : Int := sender.fileCount * blockSize.toInt

/-- More packages are to follow the next one. -/
def Isend : Prop := blockSize.toInt < sender.totalSize.toInt - sender.offset

instance : Decidable sender.Isend := inferInstanceAs (Decidable (_ < _))

/-- The `data_size` of the next package. -/
def dataSize : Int :=
  if sender.Isend then blockSize.toInt else sender.totalSize.toInt - sender.offset

/-- The data read for the next package. -/
def fileData : List UInt8 := sender.rest.take sender.dataSize.toNat

/-- The next package, if as much has been read as it is to have. -/
def package (h : (Int32.ofInt sender.dataSize).toInt = sender.fileData.length) :
    PolicyfileData where
  uuid := sender.uuid
  filename := sender.filename
  totalSize := sender.totalSize
  recordNo := Int32.ofNat sender.fileCount
  offset := Int32.ofInt sender.offset
  dataSize := Int32.ofInt sender.dataSize
  fileData := sender.fileData
  dataSize_eq := h

/-- The sending end after the next package. -/
def next : Sender :=
  { sender with
    fileCount := sender.fileCount + 1
    rest := sender.rest.drop sender.dataSize.toNat }

end Sender

/-- What a call of `proc_file_send` comes to. -/
structure SendCall where
  ret : Int
  package : PolicyfileData
  sender : Sender

/-- `proc_file_send`, where the connection takes the whole package. The package is
    printed to `Blob`. -/
def procFileSend (sender : Sender) : Outcome SendCall :=
  if sender.dataSize < -4 then .error (-EINVAL) -- No memory, and `read` fails for such a size.
  else if sender.dataSize < 0 then .fault -- `Talloc0` marks memory it did not get.
  else if h : (Int32.ofInt sender.dataSize).toInt = sender.fileData.length then
    if blobSize < (struct2Blob (sender.package h)).length then .fault
    else .done ⟨if sender.Isend then 1 else 0, sender.package h, sender.next⟩
  else .error (-EINVAL)

/-- The packages sent in at most `n` calls, of which the last one returns 0. After an
    error the next call is the same one. -/
def sendAll : Nat → Sender → List PolicyfileData
  | 0, _ => []
  | n + 1, sender =>
    match procFileSend sender with
    | .done call => call.package :: if call.ret = 0 then [] else sendAll n call.sender
    | .error _ => []
    | .fault => []

/-- The bytes of packages, one after the other. -/
def stream (packages : List PolicyfileData) : List UInt8 := (packages.map struct2Blob).flatten

/-! ## Receiving -/

/-- The buffer `Blob`. -/
structure Blob where
  bytes : List UInt8
  length_bytes : bytes.length = blobSize

/-- Bytes put at a place of the buffer. -/
def Blob.put (blob : Blob) (offset : Nat) (data : List UInt8)
    (h : offset + data.length ≤ blobSize) : Blob where
  bytes := blob.bytes.take offset ++ data ++ blob.bytes.drop (offset + data.length)
  length_bytes := by
    have := blob.length_bytes
    rw [List.length_append, List.length_append, List.length_take, List.length_drop]
    omega

/-- The receiving end: the files, the file open at a place, if any, the buffer and the
    number of bytes kept in it. -/
structure Channel where
  files : Files
  fd : Option (CString × Nat)
  blob : Blob
  leftSize : Nat

/-- The bytes kept in the buffer. -/
def Channel.left (channel : Channel) : List UInt8 := channel.blob.bytes.take channel.leftSize

/-- What a call of `proc_file_receive_start` or `proc_file_receive` comes to. -/
structure ReceiveCall where
  ret : Int
  decoded : Option PolicyfileData
  channel : Channel

/-- The data of a package written to the open file. To seek a place before the start
    of the file fails, and to a closed file nothing is written. -/
def Channel.write (channel : Channel) (pfdata : PolicyfileData) : Channel :=
  match channel.fd with
  | none => channel
  | some (filename, place) =>
    let place := if 0 ≤ pfdata.offset.toInt then pfdata.offset.toInt.toNat else place
    { channel with
      files := channel.files.writeAt filename place pfdata.fileData
      fd := some (filename, place + pfdata.fileData.length) }

/-- The end of both functions: the data written, and the file closed behind its end. A
    place that is no `int` is an undefined sum. -/
def finishReceive (channel : Channel) (pfdata : PolicyfileData) : Outcome ReceiveCall :=
  let channel := channel.write pfdata
  let sum := pfdata.offset.toInt + pfdata.dataSize.toInt
  if 2 ^ 31 ≤ sum then .fault
  else if pfdata.totalSize.toInt ≤ sum then
    .done ⟨0, some pfdata, { channel with fd := none }⟩
  else .done ⟨1, some pfdata, channel⟩

/-- `proc_file_receive_start`, when `read` returns `data`. -/
def procFileReceiveStart (channel : Channel) (data : List UInt8) : Outcome ReceiveCall :=
  if h : 0 + data.length ≤ blobSize then
    let blob := channel.blob.put 0 data h
    match blob2Struct blob.bytes with
    | .fault => .fault
    | .error e => .done ⟨e, none, { channel with blob := blob }⟩
    | .done (pfdata, _) =>
      finishReceive
        { channel with
          files := Function.update channel.files pfdata.filename (some [])
          fd := some (pfdata.filename, 0)
          blob := blob } pfdata
  else .fault

/-- `proc_file_receive`, when `read` returns `data`. `left_size` is unsigned, and the
    test that it is at most the size of the buffer is that the package is complete. -/
def procFileReceive (channel : Channel) (data : List UInt8) : Outcome ReceiveCall :=
  if h : channel.leftSize + data.length ≤ blobSize then
    let blob := channel.blob.put channel.leftSize data h
    let currSize := channel.leftSize + data.length
    match blob2Struct blob.bytes with
    | .fault => .fault
    | .error e => .done ⟨e, none, { channel with blob := blob, leftSize := 0 }⟩
    | .done (pfdata, size) =>
      if size ≤ currSize then
        let left := (blob.bytes.drop size).take (currSize - size)
        finishReceive
          { channel with
            blob := blob.put 0 left (by
              rw [Nat.zero_add]
              exact (List.length_take_le ..).trans ((Nat.sub_le ..).trans h))
            leftSize := currSize - size } pfdata
      else
        .done ⟨-EINVAL, some pfdata,
          { channel with blob := blob, leftSize := 2 ^ 32 + currSize - size }⟩
  else .fault

/-- The number of bytes that `proc_file_receive` asks `read` for, an unsigned number. -/
def Channel.request (channel : Channel) : Nat := (2 ^ 32 + blobSize - channel.leftSize) % 2 ^ 32

/-- The calls of `proc_file_receive` for the reads to come, until one of them returns
    0: the packages decoded, whether the end is reached, and the channel. -/
def receiveRest : Channel → List (List UInt8) → Outcome (List PolicyfileData × Bool × Channel)
  | channel, [] => .done ([], false, channel)
  | channel, data :: reads => do
    let call ← procFileReceive channel data
    if call.ret = 0 then return (call.decoded.toList, true, call.channel)
    else
      let (decoded, ended, channel) ← receiveRest call.channel reads
      return (call.decoded.toList ++ decoded, ended, channel)

/-- The calls for all the reads of a file: one of `proc_file_receive_start`, and those
    of `proc_file_receive`. -/
def receiveFile (channel : Channel) :
    List (List UInt8) → Outcome (List PolicyfileData × Bool × Channel)
  | [] => .done ([], false, channel)
  | data :: reads => do
    let call ← procFileReceiveStart channel data
    if call.ret = 0 then return (call.decoded.toList, true, call.channel)
    else
      let (decoded, ended, channel) ← receiveRest call.channel reads
      return (call.decoded.toList ++ decoded, ended, channel)

end Cube.FileTrans.FileChannel
