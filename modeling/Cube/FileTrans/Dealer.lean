import Cube.FileTrans.Bitmap
import Cube.FileTrans.FileData

/-!
# The file dealer

The module `file_dealer.c` sends a file as blocks of data, each in a message, and
puts the file together from the messages in any order. It keeps a bitmap of the
blocks received in a record of the database, and sends a notice when all are there.

* `sendFile_eq`: the blocks sent of a file shorter than `2 ^ 31` are its pieces.
-/

namespace Cube.FileTrans

open Lib

/-- The block size of the file dealer. -/
def blockSize : Int32 := 512

/-! ## Sending -/

/-- What the sending of a file comes to: the records sent, each in a message of its
    own, and then either the next request or the end of the function. -/
structure Sending where
  sent : List PolicyfileData
  result : Except (Outcome Int) Unit

namespace Sending

/-- Go on with the next request. -/
def next : Sending := ⟨[], .ok ()⟩

/-- The end of the function. -/
def stop (ret : Outcome Int) : Sending := ⟨[], .error ret⟩

/-- A record sent first. -/
def send (pfdata : PolicyfileData) (sending : Sending) : Sending :=
  { sending with sent := pfdata :: sending.sent }

end Sending

/-- The block after the full ones, of the bytes that remain of the total size. -/
def sendLast (digest : Uuid) (filename : CString) (totalSize : Int32) (i : Nat)
    (rest : List UInt8) : Sending :=
  let dataSize := totalSize.toInt.tmod blockSize.toInt
  if dataSize = 0 then .next
  else if dataSize < -4 then .stop (.done 0) -- No memory, and `read` fails for such a size.
  else if dataSize < 0 then .stop .fault -- `Talloc` marks memory it did not get.
  else
    let fileData := rest.take dataSize.toNat
    if h : (Int32.ofInt dataSize).toInt = fileData.length then
      .send
        { uuid := digest
          filename := filename
          totalSize := totalSize
          recordNo := Int32.ofNat i
          offset := Int32.ofInt (i * blockSize.toInt)
          dataSize := Int32.ofInt dataSize
          fileData := fileData
          dataSize_eq := h } .next
    else .stop (.done 0)

/-- The loop over the full blocks, of which `n` remain, at block `i` of the file. -/
def sendBlocks (digest : Uuid) (filename : CString) (totalSize : Int32) :
    Nat → Nat → List UInt8 → Sending
  | 0, i, rest => sendLast digest filename totalSize i rest
  | n + 1, i, rest =>
    let fileData := rest.take blockSize.toInt.toNat
    if h : blockSize.toInt = fileData.length then
      .send
        { uuid := digest
          filename := filename
          totalSize := totalSize
          recordNo := Int32.ofNat i
          offset := Int32.ofInt (i * blockSize.toInt)
          dataSize := blockSize
          fileData := fileData
          dataSize_eq := h }
        (sendBlocks digest filename totalSize n (i + 1) (rest.drop blockSize.toInt.toNat))
    else .stop (.error (-EINVAL))

/-- The sending of one file. `total_size` is an `int`, set from the size of the file. -/
def sendFile (sm3 : List UInt8 → Uuid) (files : Files) (filename : CString) : Sending :=
  match files filename with
  | none => .stop (.error 1)
  | some content =>
    let totalSize := Int32.ofNat content.length
    sendBlocks (sm3 content) filename totalSize (totalSize.toInt.tdiv blockSize.toInt).toNat 0 content

/-- `proc_file_send`, for the requests of a message: the records sent, and the value
    returned. -/
def procFileSend (sm3 : List UInt8 → Uuid) (files : Files) :
    List PolicyfileReq → List PolicyfileData × Outcome Int
  | [] => ([], .done 0)
  | reqdata :: reqs =>
    match reqdata.filename with
    | none => procFileSend sm3 files reqs
    | some filename =>
      let sending := sendFile sm3 files filename
      match sending.result with
      | .error ret => (sending.sent, ret)
      | .ok () =>
        let (sent, ret) := procFileSend sm3 files reqs
        (sending.sent ++ sent, ret)

/-! ## The blocks of a file -/

@[simp] theorem toInt_blockSize : blockSize.toInt = 512 := by decide

/-- The number of blocks of a file. -/
def numBlocks (length : Nat) : Nat := (length + 511) / 512

/-- The piece of a file that is its block `i`. -/
def piece (content : List UInt8) (i : Nat) : List UInt8 := (content.drop (512 * i)).take 512

theorem length_piece (content : List UInt8) (i : Nat) :
    (piece content i).length = min 512 (content.length - 512 * i) := by
  rw [piece, List.length_take, List.length_drop]

theorem length_piece_lt (content : List UInt8) (i : Nat) :
    (piece content i).length < 2 ^ 31 :=
  lt_of_le_of_lt ((length_piece content i).trans_le (Nat.min_le_left ..)) (by decide)

/-- The record with block `i` of a file. -/
def fileBlock (sm3 : List UInt8 → Uuid) (filename : CString) (content : List UInt8) (i : Nat) :
    PolicyfileData where
  uuid := sm3 content
  filename := filename
  totalSize := Int32.ofNat content.length
  recordNo := Int32.ofNat i
  offset := Int32.ofInt (i * blockSize.toInt)
  dataSize := Int32.ofNat (piece content i).length
  fileData := piece content i
  dataSize_eq := Int32.toInt_ofNat_of_lt (length_piece_lt content i)

section Sending

variable {sm3 : List UInt8 → Uuid} {filename : CString} {content : List UInt8}

theorem toInt_offset {i : Nat} (hi : 512 * i < 2 ^ 31) :
    (fileBlock sm3 filename content i).offset.toInt = (512 * i : Nat) := by
  rw [fileBlock, toInt_blockSize, Int32.toInt_ofInt_of_le (by omega) (by omega)]
  omega

theorem sendLast_eq (hlen : content.length < 2 ^ 31) :
    sendLast (sm3 content) filename (Int32.ofNat content.length) (content.length / 512)
        (content.drop (512 * (content.length / 512))) =
      ⟨(List.range' (content.length / 512) (numBlocks content.length - content.length / 512)).map
        (fileBlock sm3 filename content), .ok ()⟩ := by
  have hrest : (content.drop (512 * (content.length / 512))).length = content.length % 512 := by
    rw [List.length_drop]
    omega
  have hsize : (content.length : Int).tmod 512 = (content.length % 512 : Nat) := rfl
  simp only [sendLast, toInt_blockSize, Int32.toInt_ofNat_of_lt hlen, hsize, Int.toNat_natCast]
  by_cases hzero : content.length % 512 = 0
  · -- The file ends with a full block.
    have hnum : numBlocks content.length - content.length / 512 = 0 := by
      rw [numBlocks]
      omega
    rw [if_pos (by rw [hzero, Nat.cast_zero]), hnum]
    rfl
  · have hnum : numBlocks content.length - content.length / 512 = 1 := by
      rw [numBlocks]
      omega
    have htake : (content.drop (512 * (content.length / 512))).take (content.length % 512) =
        piece content (content.length / 512) := by
      rw [piece, ← hrest, List.take_length, List.take_of_length_le (by rw [hrest]; omega)]
    have hpiece : (piece content (content.length / 512)).length = content.length % 512 := by
      rw [← htake, List.length_take, hrest, Nat.min_self]
    rw [if_neg (by omega), if_neg (by omega), if_neg (by omega), dif_pos, hnum]
    · refine congrArg (fun pfdata => (⟨[pfdata], .ok ()⟩ : Sending))
        (PolicyfileData.eq_of_fileData rfl rfl rfl rfl ?_ htake)
      exact congrArg (fun size => Int32.ofInt (_ * size)) toInt_blockSize.symm
    · rw [htake, hpiece]
      exact Int32.toInt_ofInt_of_le (by omega) (by omega)

/-- At block `i` of a file, with `n` full blocks to go, the blocks from `i` on are sent. -/
theorem sendBlocks_eq (hlen : content.length < 2 ^ 31) {n i : Nat}
    (hn : i + n = content.length / 512) :
    sendBlocks (sm3 content) filename (Int32.ofNat content.length) n i (content.drop (512 * i)) =
      ⟨(List.range' i (numBlocks content.length - i)).map (fileBlock sm3 filename content),
        .ok ()⟩ := by
  induction n generalizing i with
  | zero =>
    obtain rfl : i = content.length / 512 := hn
    exact sendLast_eq hlen
  | succ n ih =>
    have hpiece : (piece content i).length = 512 := by
      rw [length_piece]
      omega
    have hrange : numBlocks content.length - i = numBlocks content.length - (i + 1) + 1 := by
      rw [numBlocks]
      omega
    have hfull : blockSize.toInt =
        ((content.drop (512 * i)).take blockSize.toInt.toNat).length := by
      rw [toInt_blockSize]
      exact_mod_cast hpiece.symm
    have hdrop : (content.drop (512 * i)).drop blockSize.toInt.toNat =
        content.drop (512 * (i + 1)) := by
      rw [toInt_blockSize, List.drop_drop]
      rfl
    rw [sendBlocks, dif_pos hfull, hdrop, ih (by omega), hrange, List.range'_succ, List.map_cons,
      Sending.send]
    exact congrArg (Sending.mk · _) (congrArg (· :: _)
      (PolicyfileData.eq_of_fileData rfl rfl rfl rfl rfl rfl))

/-- The blocks of a file shorter than `2 ^ 31` are its pieces, in order. -/
theorem sendFile_eq {files : Files} (hfile : files filename = some content)
    (hlen : content.length < 2 ^ 31) :
    sendFile sm3 files filename =
      ⟨(List.range (numBlocks content.length)).map (fileBlock sm3 filename content), .ok ()⟩ := by
  have hnum : ((content.length : Int).tdiv 512).toNat = content.length / 512 := rfl
  have hsend : sendBlocks (sm3 content) filename (Int32.ofNat content.length)
      (content.length / 512) 0 (content.drop (512 * 0)) = _ := sendBlocks_eq hlen (Nat.zero_add _)
  simp only [sendFile, hfile, toInt_blockSize, Int32.toInt_ofNat_of_lt hlen, hnum]
  rwa [Nat.mul_zero, List.drop_zero, Nat.sub_zero, ← List.range_eq_range'] at hsend

end Sending

/-! ## Receiving -/

/-- A message with the data of a file: whether its flag says that it is crypted, and
    its record. -/
structure FileMessage where
  crypt : Bool
  record : PolicyfileData
  deriving DecidableEq

/-- The message in which `proc_file_send` sends a record. -/
def FileMessage.ofRecord (pfdata : PolicyfileData) : FileMessage := ⟨false, pfdata⟩

/-- A node that receives: its files, and its `FILE_STORE` records by their uuid. -/
structure Receiver where
  files : Files
  store : Uuid → Option PolicyfileStore

/-- A node that has no files and has received none. -/
def Receiver.fresh : Receiver := ⟨fun _ => none, fun _ => none⟩

/-- What the receipt of a message comes to. -/
structure Received where
  receiver : Receiver
  notice : Option PolicyfileNotice
  ret : Int

/-- The outcomes of `_is_samefile_exists`. -/
inductive SameFile
  | same
  | other
  | absent
  deriving DecidableEq, Repr

variable (sm3 : List UInt8 → Uuid)

/-- `_is_samefile_exists`. -/
def isSamefileExists (files : Files) (pfdata : PolicyfileData) : SameFile :=
  match files pfdata.filename with
  | none => .absent
  | some content => if pfdata.uuid ≠ sm3 content then .other else .same

/-- The notice of a file, with the result of a comparison. -/
def fileNotice (files : Files) (pfdata : PolicyfileData) : PolicyfileNotice :=
  ⟨pfdata.uuid, pfdata.filename, if isSamefileExists sm3 files pfdata = .same then 1 else 0⟩

/-- The receipt of a file in one message. -/
def receiveWhole (receiver : Receiver) (pfdata : PolicyfileData) : Received :=
  match isSamefileExists sm3 receiver.files pfdata with
  | .same => ⟨receiver, some ⟨pfdata.uuid, pfdata.filename, 0⟩, 0⟩
  | .other =>
    let files := (receiver.files.remove pfdata.filename).write pfdata
    ⟨{ receiver with files := files }, some (fileNotice sm3 files pfdata), 0⟩
  | .absent =>
    let files := receiver.files.write pfdata
    ⟨{ receiver with files := files }, some (fileNotice sm3 files pfdata), 0⟩

/-- A new account of the blocks of a file, none of them received. A total size for
    which the sum is no `int` is an undefined sum. -/
def newStore (pfdata : PolicyfileData) : Outcome PolicyfileStore :=
  let sum := pfdata.totalSize.toInt + (blockSize.toInt - 1)
  if 2 ^ 31 ≤ sum then .fault
  else
    let blockNum := sum.tdiv blockSize.toInt
    let markLen := (blockNum + 7).tdiv 8
    if markLen < -4 then .error (-ENOMEM)
    else if markLen < 0 then .fault -- `Talloc` marks memory it did not get.
    else
      .done
        { uuid := pfdata.uuid
          filename := pfdata.filename
          fileSize := pfdata.totalSize
          blockSize := blockSize
          blockNum := Int32.ofInt blockNum
          markLen := Int32.ofInt markLen
          marks := List.replicate markLen.toNat 0 }

/-- The block of a message marked in the account of the file and written to the
    file. -/
def receiveMarked (receiver : Receiver) (storedata : PolicyfileStore) (pfdata : PolicyfileData) :
    Outcome Received := do
  let marks ← bitmapSet storedata.marks (pfdata.offset.toInt.tdiv blockSize.toInt)
  let storedata := { storedata with marks := marks }
  let store := Function.update receiver.store pfdata.uuid (some storedata)
  let files := receiver.files.write pfdata
  let all ← bitmapIsAllset storedata.marks storedata.blockNum.toInt
  if all then
    return ⟨⟨files, store⟩, some (fileNotice sm3 files pfdata), pfdata.dataSize.toInt⟩
  else return ⟨⟨files, store⟩, none, 0⟩

variable {sm3} in
theorem receiveMarked_eq {receiver : Receiver} {storedata : PolicyfileStore}
    {pfdata : PolicyfileData} {marks : List UInt8} {all : Bool}
    (hset : bitmapSet storedata.marks (pfdata.offset.toInt.tdiv blockSize.toInt) = .done marks)
    (hall : bitmapIsAllset marks storedata.blockNum.toInt = .done all) :
    receiveMarked sm3 receiver storedata pfdata =
      .done
        { receiver :=
            { files := receiver.files.write pfdata
              store := Function.update receiver.store pfdata.uuid
                (some { storedata with marks := marks }) }
          notice := if all then some (fileNotice sm3 (receiver.files.write pfdata) pfdata) else none
          ret := if all then pfdata.dataSize.toInt else 0 } := by
  simp only [receiveMarked, hset, Outcome.done_bind, hall]
  split_ifs <;> rfl

/-- The receipt of one of several blocks. -/
def receiveBlock (receiver : Receiver) (pfdata : PolicyfileData) : Outcome Received :=
  match receiver.store pfdata.uuid with
  | some storedata => receiveMarked sm3 receiver storedata pfdata
  | none =>
    match isSamefileExists sm3 receiver.files pfdata with
    | .same => .done ⟨receiver, none, 0⟩
    | .other => do
      let receiver := { receiver with files := receiver.files.remove pfdata.filename }
      receiveMarked sm3 receiver (← newStore pfdata) pfdata
    | .absent => do receiveMarked sm3 receiver (← newStore pfdata) pfdata

/-- `proc_file_receive`. -/
def procFileReceive (receiver : Receiver) (message : FileMessage) : Outcome Received :=
  let pfdata := message.record
  if message.crypt then .error (-EINVAL)
  else if pfdata.totalSize = pfdata.dataSize then .done (receiveWhole sm3 receiver pfdata)
  else receiveBlock sm3 receiver pfdata

/-- The state of the receiver after a list of messages. -/
def receiveAll : Receiver → List FileMessage → Outcome Receiver
  | receiver, [] => .done receiver
  | receiver, message :: messages => do
    let received ← procFileReceive sm3 receiver message
    receiveAll received.receiver messages

variable {sm3} in
theorem receiveAll_append (receiver : Receiver) (l l' : List FileMessage) :
    receiveAll sm3 receiver (l ++ l') =
      receiveAll sm3 receiver l >>= fun receiver => receiveAll sm3 receiver l' := by
  induction l generalizing receiver with
  | nil => rfl
  | cons message l ih =>
    rw [List.cons_append, receiveAll, receiveAll]
    rcases procFileReceive sm3 receiver message with received | e | _
    · exact ih received.receiver
    · rfl
    · rfl

end Cube.FileTrans
