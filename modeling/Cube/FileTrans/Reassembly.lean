import Cube.FileTrans.Dealer

/-!
# Files put together from blocks

The blocks of a file that the dealer sends reach another node in any order, and
any number of times. That node is to send its notice at the last block missing,
when the file is complete, and not before.

* `InTransfer.receiveAll`: over any messages, the account of the file has marked
  what it had marked before and what has arrived, and the file has what arrived;
* `tiles_of_lt`, `not_tiles_of_le`: the blocks sent make up a file shorter than
  `2 ^ 31`, and no other one;
* `transfers_iff`: all is as it is to be when the file is at most `2 ^ 31 - 512`
  bytes long, and no account of it is left from an earlier transfer.
-/

namespace Cube.FileTrans

open Lib

/-! ## What is to hold -/

/-- The data of blocks, one after the other. -/
def dataOf (blocks : List PolicyfileData) : List UInt8 :=
  (blocks.map PolicyfileData.fileData).flatten

/-- The blocks lie one after the other, and make up the file. -/
structure Tiles (content : List UInt8) (blocks : List PolicyfileData) : Prop where
  dataOf_eq : dataOf blocks = content
  offset_eq : ∀ (i : Nat) (block : PolicyfileData), blocks[i]? = some block →
    block.offset.toInt = (dataOf (blocks.take i)).length

variable (sm3 : List UInt8 → Uuid)

/-- The receipt of a message after others: a notice is sent only if all blocks have
    arrived, and is sent if the message brings the last one of them; then the file
    is the one sent. -/
structure Received.Noticed (received : Received) (filename : CString) (content : List UInt8)
    (blocks : List PolicyfileData) (earlier : List FileMessage) (message : FileMessage) : Prop where
  all_of_notice : received.notice.isSome →
    ∀ block ∈ blocks, FileMessage.ofRecord block ∈ earlier ++ [message]
  of_last : message ∉ earlier → (∀ block ∈ blocks, .ofRecord block ∈ earlier ++ [message]) →
    received.notice = some ⟨sm3 content, filename, 1⟩ ∧
      received.receiver.files filename = some content

/-- Each message is received, whatever messages of the transfer arrive before it. -/
def Reassembles (receiver : Receiver) (filename : CString) (content : List UInt8)
    (blocks : List PolicyfileData) : Prop :=
  ∀ earlier message, (∀ m ∈ earlier ++ [message], ∃ block ∈ blocks, m = .ofRecord block) →
    ∃ middle received, receiveAll sm3 receiver earlier = .done middle ∧
      procFileReceive sm3 middle message = .done received ∧
      received.Noticed sm3 filename content blocks earlier message

/-- The records that a node sends for a request. -/
def blocksSent (sender : Files) (reqdata : PolicyfileReq) : List PolicyfileData :=
  (procFileSend sm3 sender [reqdata]).1

/-- The transfer of a file: what is sent makes it up, and is put together. -/
def Transfers (sender : Files) (receiver : Receiver) (reqdata : PolicyfileReq)
    (filename : CString) (content : List UInt8) : Prop :=
  Tiles content (blocksSent sm3 sender reqdata) ∧
    Reassembles sm3 receiver filename content (blocksSent sm3 sender reqdata)

/-- An account of a file in which the blocks `marks` are marked. -/
structure Account (content : List UInt8) (marks : Set Nat) (storedata : PolicyfileStore) :
    Prop where
  blockNum_eq : storedata.blockNum.toInt = numBlocks content.length
  length_marks : storedata.marks.length = (numBlocks content.length + 7) / 8
  marked_iff : ∀ i, marked storedata.marks i ↔ i ∈ marks
  lt_numBlocks : ∀ i ∈ marks, i < numBlocks content.length

/-! ## The blocks sent -/

section Sent

variable {sm3} {sender : Files} {reqdata : PolicyfileReq} {filename : CString}
  {content : List UInt8}

theorem blocksSent_eq_sent (hreq : reqdata.filename = some filename) :
    blocksSent sm3 sender reqdata = (sendFile sm3 sender filename).sent := by
  simp only [blocksSent, procFileSend, hreq]
  split
  · rfl
  · exact List.append_nil _

theorem blocksSent_eq (hreq : reqdata.filename = some filename)
    (hfile : sender filename = some content) (hlen : content.length < 2 ^ 31) :
    blocksSent sm3 sender reqdata =
      (List.range (numBlocks content.length)).map (fileBlock sm3 filename content) := by
  rw [blocksSent_eq_sent hreq, sendFile_eq hfile hlen]

/-- The first blocks of a file have its first bytes. -/
theorem dataOf_blocks (content : List UInt8) (n : Nat) :
    dataOf ((List.range n).map (fileBlock sm3 filename content)) = content.take (512 * n) := by
  induction n with
  | zero => rw [List.range_zero, Nat.mul_zero, List.take_zero, List.map_nil, dataOf]; rfl
  | succ n ih =>
    rw [dataOf] at ih
    rw [dataOf, List.range_succ, List.map_append, List.map_append, List.flatten_append, ih,
      List.map_singleton, List.map_singleton, List.flatten_singleton, Nat.mul_succ, List.take_add]
    rfl

/-- The blocks of a file shorter than `2 ^ 31` make it up. -/
theorem tiles_of_lt (hlen : content.length < 2 ^ 31) :
    Tiles content
      ((List.range (numBlocks content.length)).map (fileBlock sm3 filename content)) := by
  refine ⟨?_, fun i block h => ?_⟩
  · rw [dataOf_blocks, List.take_of_length_le]
    rw [numBlocks]
    omega
  · rw [List.getElem?_map, Option.map_eq_some_iff] at h
    obtain ⟨j, hj, rfl⟩ := h
    obtain ⟨hi, rfl⟩ := List.getElem?_eq_some_iff.1 hj
    rw [List.length_range, numBlocks] at hi
    rw [List.getElem_range, toInt_offset (by omega), ← List.map_take, List.take_range,
      Nat.min_eq_left (by rw [numBlocks]; omega), dataOf_blocks, List.length_take,
      Nat.min_eq_left (by omega)]

@[simp] theorem dataOf_nil : dataOf [] = [] := rfl

@[simp] theorem dataOf_cons (block : PolicyfileData) (blocks : List PolicyfileData) :
    dataOf (block :: blocks) = block.fileData ++ dataOf blocks := by
  rw [dataOf, List.map_cons, List.flatten_cons, dataOf]

variable {i : Nat}

theorem length_dataOf_sendLast_le {digest : Uuid} {totalSize : Int32} {rest : List UInt8} :
    (dataOf (sendLast digest filename totalSize i rest).sent).length ≤
      (totalSize.toInt.tmod 512).toNat := by
  simp only [sendLast, toInt_blockSize]
  split_ifs
  · exact Nat.zero_le _
  · exact Nat.zero_le _
  · exact Nat.zero_le _
  · rw [Sending.send, Sending.next, dataOf_cons, dataOf_nil, List.append_nil]
    exact List.length_take_le _ _
  · exact Nat.zero_le _

/-- The blocks sent have no more bytes than the total size says. -/
theorem length_dataOf_sendBlocks_le {digest : Uuid} {totalSize : Int32} {n : Nat}
    {rest : List UInt8} :
    (dataOf (sendBlocks digest filename totalSize n i rest).sent).length ≤
      512 * n + (totalSize.toInt.tmod 512).toNat := by
  induction n generalizing i rest with
  | zero =>
    rw [sendBlocks, Nat.mul_zero, Nat.zero_add]
    exact length_dataOf_sendLast_le
  | succ n ih =>
    rw [sendBlocks]
    split_ifs with h
    · have hfull : (rest.take blockSize.toInt.toNat).length = 512 := by
        rw [toInt_blockSize] at h
        exact_mod_cast h.symm
      have hrest : (dataOf (sendBlocks digest filename totalSize n (i + 1)
          (rest.drop blockSize.toInt.toNat)).sent).length ≤ _ := ih
      rw [Sending.send, dataOf_cons, List.length_append, hfull, Nat.mul_succ]
      omega
    · exact Nat.zero_le _

theorem toNat_tdiv_add_toNat_tmod_le (t : Int) :
    512 * (t.tdiv 512).toNat + (t.tmod 512).toNat ≤ t.toNat := by
  obtain ⟨n, rfl | rfl⟩ := t.eq_nat_or_neg
  · have hdiv : ((n : Int).tdiv 512).toNat = n / 512 := rfl
    have hmod : ((n : Int).tmod 512).toNat = n % 512 := rfl
    rw [hdiv, hmod, Int.toNat_natCast, Nat.div_add_mod]
  · -- A division of a number below zero gives no number above it.
    have hdiv : (n : Int).tdiv 512 = (n / 512 : Nat) := rfl
    have hmod : (n : Int).tmod 512 = (n % 512 : Nat) := rfl
    rw [Int.neg_tdiv, Int.neg_tmod, hdiv, hmod]
    omega

/-- The blocks of a longer file do not make it up. -/
theorem not_tiles_of_le (hreq : reqdata.filename = some filename)
    (hfile : sender filename = some content) (hlen : 2 ^ 31 ≤ content.length) :
    ¬ Tiles content (blocksSent sm3 sender reqdata) := by
  intro htiles
  have hsent : sendFile sm3 sender filename = sendBlocks (sm3 content) filename
      (Int32.ofNat content.length)
      ((Int32.ofNat content.length).toInt.tdiv blockSize.toInt).toNat 0 content := by
    simp only [sendFile, hfile]
  have hlt := Int32.toInt_lt (Int32.ofNat content.length)
  have hle : (dataOf (sendBlocks (sm3 content) filename (Int32.ofNat content.length)
      ((Int32.ofNat content.length).toInt.tdiv blockSize.toInt).toNat 0 content).sent).length ≤ _ :=
    length_dataOf_sendBlocks_le
  rw [← hsent, ← blocksSent_eq_sent hreq, htiles.dataOf_eq, toInt_blockSize] at hle
  have hsum := toNat_tdiv_add_toNat_tmod_le (Int32.ofNat content.length).toInt
  omega

end Sent

/-! ## Accounts -/

section Account

variable {sm3} {filename : CString} {content : List UInt8} {marks : Set Nat}
  {storedata : PolicyfileStore}

/-- The account that the receiver makes of a file of at most `2 ^ 31 - 512` bytes: that
    of no block. -/
theorem newStore_fileBlock (sm3 : List UInt8 → Uuid) (filename : CString)
    (hlen : content.length ≤ 2 ^ 31 - 512) :
    ∃ storedata, (∀ i, newStore (fileBlock sm3 filename content i) = .done storedata) ∧
      Account content ∅ storedata := by
  have hsum : (Int32.ofNat content.length).toInt + 511 = (content.length + 511 : Nat) := by
    rw [Int32.toInt_ofNat_of_lt (by omega)]
    omega
  have hnum : ((content.length + 511 : Nat) : Int).tdiv 512 = numBlocks content.length := rfl
  have hmark : ((numBlocks content.length : Int) + 7).tdiv 8 =
      ((numBlocks content.length + 7) / 8 : Nat) := rfl
  have hbound : numBlocks content.length < 2 ^ 31 := by
    rw [numBlocks]
    omega
  refine ⟨⟨sm3 content, filename, Int32.ofNat content.length, blockSize,
    Int32.ofInt (numBlocks content.length), Int32.ofInt ((numBlocks content.length + 7) / 8 : Nat),
    List.replicate ((numBlocks content.length + 7) / 8) 0⟩, fun i => ?_, ?_, ?_, ?_, ?_⟩
  · simp only [newStore, fileBlock, toInt_blockSize, show (512 : Int) - 1 = 511 from rfl, hsum,
      hnum, hmark, Int.toNat_natCast]
    rw [if_neg (by omega), if_neg (by omega), if_neg (by omega)]
  · exact Int32.toInt_ofInt_of_le (by omega) (by omega)
  · exact List.length_replicate
  · intro i
    have hzero : (List.replicate ((numBlocks content.length + 7) / 8) (0 : UInt8)).getD (i / 8) 0 =
        0 := by
      rw [List.getD_eq_getElem?_getD, List.getElem?_replicate]
      split_ifs <;> rfl
    rw [marked, hzero, UInt8.toNat_zero, Nat.zero_testBit]
    simp
  · exact fun i hi => hi.elim

/-- For a longer file the number of its blocks overflows. -/
theorem newStore_fault (hlen : 2 ^ 31 - 512 < content.length) (hlt : content.length < 2 ^ 31)
    (i : Nat) : newStore (fileBlock sm3 filename content i) = .fault := by
  have hsum : 2 ^ 31 ≤ (Int32.ofNat content.length).toInt + (blockSize.toInt - 1) := by
    rw [Int32.toInt_ofNat_of_lt hlt, toInt_blockSize]
    omega
  rw [newStore, fileBlock, if_pos hsum]

/-- A block of the file is marked in its account. -/
theorem Account.bitmapSet (h : Account content marks storedata)
    (hi : i < numBlocks content.length) :
    ∃ marks', FileTrans.bitmapSet storedata.marks i = .done marks' ∧
      Account content (insert i marks) { storedata with marks := marks' } := by
  have hbyte : i / 8 < storedata.marks.length := by
    rw [h.length_marks]
    omega
  obtain ⟨marks', hset, hlen, hmarked⟩ := bitmapSet_spec hbyte
  refine ⟨marks', hset, h.blockNum_eq, hlen.trans h.length_marks, fun k => ?_, fun k hk => ?_⟩
  · rw [hmarked, Bool.or_eq_true, h.marked_iff, decide_eq_true_eq, Set.mem_insert_iff, eq_comm]
  · rcases hk with rfl | hk
    · exact hi
    · exact h.lt_numBlocks k hk

/-- All is set in an account when every block is marked. -/
theorem Account.bitmapIsAllset (h : Account content marks storedata) :
    ∃ all, FileTrans.bitmapIsAllset storedata.marks storedata.blockNum.toInt = .done all ∧
      (all = true ↔ ∀ i < numBlocks content.length, i ∈ marks) := by
  have hclear : ∀ i, numBlocks content.length ≤ i → marked storedata.marks i = false := by
    intro i hi
    rw [← Bool.not_eq_true, h.marked_iff]
    exact fun hmem => absurd (h.lt_numBlocks i hmem) (by omega)
  refine ⟨_, h.blockNum_eq ▸ bitmapIsAllset_eq h.length_marks hclear, ?_⟩
  rw [decide_eq_true_eq]
  exact forall₂_congr fun i _ => h.marked_iff i

end Account

/-! ## Transfers in several blocks -/

section Transfer

variable (filename : CString) (content : List UInt8)

/-- The message with block `i` of a file. -/
def blockMessage (i : Nat) : FileMessage := .ofRecord (fileBlock sm3 filename content i)

/-- A transfer goes on: the blocks `marks` are marked in the account of the file, and
    the file has the blocks `seen`. -/
structure InTransfer (marks seen : Set Nat) (receiver : Receiver) : Prop where
  account : ∃ storedata, Account content marks storedata ∧
    ∀ i < numBlocks content.length, procFileReceive sm3 receiver (blockMessage sm3 filename content i) =
      receiveMarked sm3 receiver storedata (fileBlock sm3 filename content i)
  file : PartOf content (fun j => j / 512 ∈ seen) ((receiver.files filename).getD [])

variable {sm3 filename content} {receiver : Receiver} {marks seen : Set Nat}

/-- A block of a file of several is received as one of several. -/
theorem procFileReceive_blockMessage (hmany : 512 < content.length)
    (hlen : content.length < 2 ^ 31) (i : Nat) :
    procFileReceive sm3 receiver (blockMessage sm3 filename content i) =
      receiveBlock sm3 receiver (fileBlock sm3 filename content i) := by
  have hne : (fileBlock sm3 filename content i).totalSize ≠
      (fileBlock sm3 filename content i).dataSize := by
    intro h
    have hsize : (content.length : Int) = (piece content i).length := by
      rw [← Int32.toInt_ofNat_of_lt hlen, ← Int32.toInt_ofNat_of_lt (length_piece_lt content i)]
      exact congrArg Int32.toInt h
    have hpiece := length_piece content i
    omega
  rw [procFileReceive, blockMessage, FileMessage.ofRecord, if_neg Bool.false_ne_true, if_neg hne]

/-- A transfer of a file of which there is no account begins with one of no block. -/
theorem inTransfer_of_none (hmany : 512 < content.length) (hlen : content.length ≤ 2 ^ 31 - 512)
    (habsent : receiver.files filename = none) (hstore : receiver.store (sm3 content) = none) :
    InTransfer sm3 filename content ∅ ∅ receiver := by
  obtain ⟨storedata, hnew, haccount⟩ :=
    newStore_fileBlock sm3 filename hlen
  refine ⟨⟨storedata, haccount, fun i _ => ?_⟩, ?_⟩
  · have hsame : isSamefileExists sm3 receiver.files (fileBlock sm3 filename content i) = .absent := by
      simp only [isSamefileExists, fileBlock, habsent]
    rw [procFileReceive_blockMessage hmany (by omega), receiveBlock]
    simp only [show (fileBlock sm3 filename content i).uuid = sm3 content from rfl, hstore, hsame,
      hnew, Outcome.done_bind]
  · rw [habsent]
    exact PartOf.nil content

/-- A transfer of a file of which there is an account goes on with that. -/
theorem inTransfer_of_account (hmany : 512 < content.length) (hlen : content.length < 2 ^ 31)
    {storedata : PolicyfileStore} (hstore : receiver.store (sm3 content) = some storedata)
    (haccount : Account content marks storedata)
    (hfile : PartOf content (fun j => j / 512 ∈ seen) ((receiver.files filename).getD [])) :
    InTransfer sm3 filename content marks seen receiver := by
  refine ⟨⟨storedata, haccount, fun i _ => ?_⟩, hfile⟩
  rw [procFileReceive_blockMessage hmany hlen, receiveBlock]
  simp only [show (fileBlock sm3 filename content i).uuid = sm3 content from rfl, hstore]

/-- What the receipt of block `i` comes to in a transfer. -/
structure Received.Step (received : Received) (sm3 : List UInt8 → Uuid) (filename : CString)
    (content : List UInt8) (marks seen : Set Nat) (i : Nat) : Prop where
  stored : ∃ storedata, received.receiver.store (sm3 content) = some storedata ∧
    Account content (insert i marks) storedata
  file : ∃ part, received.receiver.files filename = some part ∧
    PartOf content (fun j => j / 512 ∈ insert i seen) part
  notice_of_all : (∀ k < numBlocks content.length, k ∈ insert i marks) →
    received.notice =
      some (fileNotice sm3 received.receiver.files (fileBlock sm3 filename content i))
  all_of_notice : received.notice.isSome → ∀ k < numBlocks content.length, k ∈ insert i marks

/-- The block is marked and written, and there is a notice when all are marked. -/
theorem InTransfer.step (h : InTransfer sm3 filename content marks seen receiver)
    (hlen : content.length < 2 ^ 31) (hi : i < numBlocks content.length) :
    ∃ received, procFileReceive sm3 receiver (blockMessage sm3 filename content i) =
      .done received ∧ received.Step sm3 filename content marks seen i := by
  obtain ⟨storedata, haccount, hreceive⟩ := h.account
  obtain ⟨marks', hset, haccount'⟩ := haccount.bitmapSet hi
  obtain ⟨all, hall, hall_iff⟩ := haccount'.bitmapIsAllset
  have hoff : 512 * i < content.length := by
    rw [numBlocks] at hi
    omega
  have hoffset : (fileBlock sm3 filename content i).offset.toInt = (512 * i : Nat) :=
    toInt_offset (by omega)
  have hsite : (fileBlock sm3 filename content i).offset.toInt.tdiv blockSize.toInt = i := by
    rw [hoffset, toInt_blockSize]
    exact congrArg Int.ofNat (Nat.mul_div_cancel_left i (by decide))
  -- The piece is written at its place.
  have hpart : PartOf content (fun j => j / 512 ∈ insert i seen)
      (writeAt 0 ((receiver.files filename).getD [])
        (fileBlock sm3 filename content i).offset.toInt.toNat (piece content i)) := by
    have hpiece : piece content i =
        (content.drop (512 * i)).take (min 512 (content.length - 512 * i)) := by
      rw [piece, List.take_eq_take_iff, List.length_drop]
      omega
    rw [hoffset, Int.toNat_natCast, hpiece]
    refine (h.file.writeAt 0 (by omega)).mono fun j hj hmem => ?_
    rcases hmem with hmem | hmem
    · exact .inr (by omega)
    · exact .inl hmem
  refine ⟨_, (hreceive i hi).trans (receiveMarked_eq (hsite ▸ hset) hall), ?_, ?_, ?_, ?_⟩
  · exact ⟨_, Function.update_self .., haccount'⟩
  · exact ⟨_, Files.write_filename receiver.files (fileBlock sm3 filename content i), hpart⟩
  · intro h
    exact if_pos (hall_iff.2 h)
  · intro h
    refine hall_iff.1 (by_contra fun hne => ?_)
    rw [if_neg hne] at h
    exact Bool.false_ne_true h

/-- Over any messages of the transfer, what arrives is marked and written. -/
theorem InTransfer.receiveAll (h : InTransfer sm3 filename content marks seen receiver)
    (hmany : 512 < content.length) (hlen : content.length < 2 ^ 31) (blocks : List Nat)
    (hblocks : ∀ i ∈ blocks, i < numBlocks content.length) :
    ∃ receiver', FileTrans.receiveAll sm3 receiver
        (blocks.map (blockMessage sm3 filename content)) = .done receiver' ∧
      InTransfer sm3 filename content (marks ∪ {i | i ∈ blocks}) (seen ∪ {i | i ∈ blocks})
        receiver' := by
  induction blocks generalizing receiver marks seen with
  | nil =>
    have hnone : {i : Nat | i ∈ ([] : List Nat)} = ∅ := Set.ext fun i => by simp
    rw [hnone, Set.union_empty, Set.union_empty]
    exact ⟨receiver, rfl, h⟩
  | cons i blocks ih =>
    have hcons : ∀ s : Set Nat, s ∪ {k | k ∈ i :: blocks} = insert i s ∪ {k | k ∈ blocks} := by
      intro s
      ext k
      change k ∈ s ∨ k ∈ i :: blocks ↔ (k = i ∨ k ∈ s) ∨ k ∈ blocks
      rw [List.mem_cons, ← or_assoc, or_comm (a := k ∈ s)]
    obtain ⟨received, hreceive, hstep⟩ := h.step hlen (hblocks i List.mem_cons_self)
    obtain ⟨storedata, hstore, haccount⟩ := hstep.stored
    obtain ⟨part, hfile, hpart⟩ := hstep.file
    have hnext : InTransfer sm3 filename content (insert i marks) (insert i seen)
        received.receiver :=
      inTransfer_of_account hmany hlen hstore haccount (by rwa [hfile])
    obtain ⟨receiver', hall, hafter⟩ := ih hnext fun k hk =>
      hblocks k (List.mem_cons_of_mem _ hk)
    refine ⟨receiver', ?_, ?_⟩
    · rw [List.map_cons, FileTrans.receiveAll, hreceive, Outcome.done_bind, hall]
    · rwa [hcons, hcons]

/-- After any messages of the transfer there is an account of what arrived. -/
theorem InTransfer.account_left (h : InTransfer sm3 filename content marks seen receiver)
    (hmany : 512 < content.length) (hlen : content.length < 2 ^ 31) {blocks : List Nat}
    (hblocks : ∀ i ∈ blocks, i < numBlocks content.length) (hne : blocks ≠ [])
    {receiver' : Receiver} (hrun : FileTrans.receiveAll sm3 receiver
      (blocks.map (blockMessage sm3 filename content)) = .done receiver') :
    ∃ storedata, receiver'.store (sm3 content) = some storedata ∧
      ∃ marks' : Set Nat, marks'.Nonempty ∧ Account content marks' storedata := by
  obtain ⟨l, i, rfl⟩ := (List.eq_nil_or_concat' blocks).resolve_left hne
  obtain ⟨middle, hmiddle, htransfer⟩ := h.receiveAll hmany hlen l
    fun k hk => hblocks k (List.mem_append_left _ hk)
  obtain ⟨received, hreceive, hstep⟩ := htransfer.step hlen (i := i)
    (hblocks i (List.mem_append_right _ List.mem_cons_self))
  rw [List.map_append, receiveAll_append, hmiddle, Outcome.done_bind, List.map_singleton,
    FileTrans.receiveAll, hreceive, Outcome.done_bind] at hrun
  obtain rfl : received.receiver = receiver' := Outcome.done.inj hrun
  obtain ⟨storedata, hstore, haccount⟩ := hstep.stored
  exact ⟨storedata, hstore, _, ⟨i, .inl rfl⟩, haccount⟩

/-- When the last block arrives in a transfer that has marked just what it has seen,
    the file is complete. -/
theorem Received.Step.complete {received : Received}
    (h : received.Step sm3 filename content marks seen i)
    (hmarks : ∀ k < numBlocks content.length, k ∈ insert i marks)
    (hseen : ∀ k < numBlocks content.length, k ∈ insert i seen) :
    received.notice = some ⟨sm3 content, filename, 1⟩ ∧
      received.receiver.files filename = some content := by
  obtain ⟨part, hfile, hpart⟩ := h.file
  obtain rfl : part = content := hpart.eq fun j hj => hseen _ (by rw [numBlocks]; omega)
  refine ⟨?_, hfile⟩
  have hsame : isSamefileExists sm3 received.receiver.files (fileBlock sm3 filename part i) =
      .same := by
    simp only [isSamefileExists, fileBlock, hfile, ne_eq, not_true_eq_false, if_false]
  rw [h.notice_of_all hmarks, fileNotice, if_pos hsame]
  rfl

/-- The blocks of a file are different. -/
theorem fileBlock_inj {j : Nat} (hi : 512 * i < 2 ^ 31) (hj : 512 * j < 2 ^ 31)
    (h : fileBlock sm3 filename content i = fileBlock sm3 filename content j) : i = j := by
  have hoffset := congrArg (·.offset.toInt) h
  simp only [toInt_offset hi, toInt_offset hj] at hoffset
  omega

/-- The messages of a transfer are those of some blocks. -/
theorem exists_blocks {messages : List FileMessage} {n : Nat}
    (h : ∀ m ∈ messages, ∃ block ∈ (List.range n).map (fileBlock sm3 filename content),
      m = .ofRecord block) :
    ∃ blocks : List Nat, (∀ i ∈ blocks, i < n) ∧
      messages = blocks.map (blockMessage sm3 filename content) := by
  induction messages with
  | nil => exact ⟨[], fun _ hi => absurd hi List.not_mem_nil, rfl⟩
  | cons m messages ih =>
    obtain ⟨blocks, hlt, rfl⟩ := ih fun m' hm' => h m' (List.mem_cons_of_mem _ hm')
    obtain ⟨block, hblock, rfl⟩ := h m List.mem_cons_self
    obtain ⟨i, hi, rfl⟩ := List.mem_map.1 hblock
    refine ⟨i :: blocks, fun k hk => ?_, rfl⟩
    rcases List.mem_cons.1 hk with rfl | hk
    · exact List.mem_range.1 hi
    · exact hlt k hk

/-- In messages of a transfer, the blocks that have arrived are those of the messages. -/
theorem ofRecord_mem_iff {blocks : List Nat}
    (hblocks : ∀ k ∈ blocks, 512 * k < 2 ^ 31) (hi : 512 * i < 2 ^ 31) :
    FileMessage.ofRecord (fileBlock sm3 filename content i) ∈
      blocks.map (blockMessage sm3 filename content) ↔ i ∈ blocks := by
  rw [List.mem_map]
  constructor
  · rintro ⟨k, hk, heq⟩
    rwa [← fileBlock_inj (hblocks k hk) hi (congrArg FileMessage.record heq)]
  · exact fun h => ⟨i, h, rfl⟩

/-- A transfer that begins with an account of no block is as it is to be. -/
theorem InTransfer.reassembles (h : InTransfer sm3 filename content ∅ ∅ receiver)
    (hmany : 512 < content.length) (hlen : content.length < 2 ^ 31) :
    Reassembles sm3 receiver filename content
      ((List.range (numBlocks content.length)).map (fileBlock sm3 filename content)) := by
  intro earlier message hsent
  obtain ⟨blocks, hblocks, hmessages⟩ := exists_blocks hsent
  obtain ⟨l, l', rfl, rfl, hlast⟩ := List.map_eq_append_iff.1 hmessages.symm
  obtain ⟨i, rfl, rfl⟩ := List.map_eq_singleton_iff.1 hlast
  have hoff : ∀ k < numBlocks content.length, 512 * k < 2 ^ 31 := fun k hk => by
    rw [numBlocks] at hk
    omega
  have harrived : ∀ k < numBlocks content.length,
      (FileMessage.ofRecord (fileBlock sm3 filename content k) ∈
        l.map (blockMessage sm3 filename content) ++ [blockMessage sm3 filename content i] ↔
        k ∈ insert i (∅ ∪ {k | k ∈ l})) := by
    intro k hk
    rw [← List.map_singleton, ← List.map_append,
      ofRecord_mem_iff (fun k hk => hoff k (hblocks k hk)) (hoff k hk), Set.empty_union]
    change k ∈ l ++ [i] ↔ k = i ∨ k ∈ l
    rw [List.mem_append, List.mem_singleton, or_comm]
  -- The messages before, and then the message.
  obtain ⟨middle, hmiddle, htransfer⟩ := h.receiveAll hmany hlen l
    fun k hk => hblocks k (List.mem_append_left _ hk)
  obtain ⟨received, hreceive, hstep⟩ := htransfer.step hlen (i := i)
    (hblocks i (List.mem_append_right _ List.mem_cons_self))
  refine ⟨middle, received, hmiddle, hreceive, fun hnotice block hblock => ?_, fun _ hall => ?_⟩
  · obtain ⟨k, hk, rfl⟩ := List.mem_map.1 hblock
    have hk := List.mem_range.1 hk
    exact (harrived k hk).2 (hstep.all_of_notice hnotice k hk)
  · have hmarks : ∀ k < numBlocks content.length, k ∈ insert i (∅ ∪ {k | k ∈ l}) := fun k hk =>
      (harrived k hk).1 (hall _ (List.mem_map_of_mem (List.mem_range.2 hk)))
    exact hstep.complete hmarks hmarks

/-- With a block marked in the account left from an earlier transfer, the notice is sent
    before that block has arrived. -/
theorem not_reassembles_of_account (hmany : 512 < content.length)
    (hlen : content.length < 2 ^ 31) (habsent : receiver.files filename = none)
    {storedata : PolicyfileStore} (hstore : receiver.store (sm3 content) = some storedata)
    (haccount : Account content marks storedata) (hi : i ∈ marks) :
    ¬ Reassembles sm3 receiver filename content
      ((List.range (numBlocks content.length)).map (fileBlock sm3 filename content)) := by
  intro hreassembles
  have hoff : ∀ k < numBlocks content.length, 512 * k < 2 ^ 31 := fun k hk => by
    rw [numBlocks] at hk
    omega
  have hin := haccount.lt_numBlocks i hi
  -- All the other blocks, the one to come last taken out.
  obtain ⟨j, hj, hji⟩ : ∃ j < numBlocks content.length, j ≠ i := by
    rcases Nat.eq_zero_or_pos i with rfl | hpos
    · exact ⟨1, by rw [numBlocks]; omega, by decide⟩
    · exact ⟨0, by omega, by omega⟩
  let l := (List.range (numBlocks content.length)).filter (· ≠ i)
  have hl : ∀ k, k ∈ l ↔ k < numBlocks content.length ∧ k ≠ i := fun k => by
    rw [List.mem_filter, List.mem_range, decide_eq_true_eq]
  have hfile : PartOf content (fun k => k / 512 ∈ (∅ : Set Nat))
      ((receiver.files filename).getD []) := by
    rw [habsent]
    exact PartOf.nil content
  obtain ⟨middle, received, hmiddle, hreceive, hnoticed⟩ := hreassembles
    (l.map (blockMessage sm3 filename content)) (blockMessage sm3 filename content j) (by
      intro m hm
      rw [← List.map_singleton, ← List.map_append] at hm
      obtain ⟨k, hk, rfl⟩ := List.mem_map.1 hm
      refine ⟨_, List.mem_map_of_mem (List.mem_range.2 ?_), rfl⟩
      rcases List.mem_append.1 hk with hk | hk
      · exact ((hl k).1 hk).1
      · rwa [List.mem_singleton.1 hk])
  obtain ⟨middle', hmiddle', htransfer⟩ :=
    (inTransfer_of_account hmany hlen hstore haccount hfile).receiveAll hmany hlen l
      fun k hk => ((hl k).1 hk).1
  obtain rfl : middle = middle' := Outcome.done.inj (hmiddle.symm.trans hmiddle')
  obtain ⟨received', hreceive', hstep⟩ := htransfer.step hlen hj
  obtain rfl : received = received' := Outcome.done.inj (hreceive.symm.trans hreceive')
  have hnotice : received.notice.isSome := by
    rw [hstep.notice_of_all fun k hk => ?_]
    · rfl
    · rcases eq_or_ne k i with rfl | hne
      · exact .inr (.inl hi)
      · exact .inr (.inr ((hl k).2 ⟨hk, hne⟩))
  have harrived := hnoticed.all_of_notice hnotice (fileBlock sm3 filename content i)
    (List.mem_map_of_mem (List.mem_range.2 hin))
  rw [← List.map_singleton, ← List.map_append, ofRecord_mem_iff (fun k hk => ?_) (hoff i hin)]
    at harrived
  · rcases List.mem_append.1 harrived with h | h
    · exact ((hl i).1 h).2 rfl
    · exact hji (List.mem_singleton.1 h).symm
  · rcases List.mem_append.1 hk with hk | hk
    · exact hoff k ((hl k).1 hk).1
    · rw [List.mem_singleton.1 hk]
      exact hoff j hj

end Transfer

/-! ## Transfers in one block -/

section Whole

variable {sm3} {receiver : Receiver} {filename : CString} {content : List UInt8}

/-- The only block of a file is received as the whole file. -/
theorem procFileReceive_whole (hlen : content.length ≤ 512) :
    procFileReceive sm3 receiver (blockMessage sm3 filename content 0) =
      .done (receiveWhole sm3 receiver (fileBlock sm3 filename content 0)) := by
  have hpiece : (piece content 0).length = content.length := by
    rw [length_piece, Nat.mul_zero, Nat.sub_zero, Nat.min_eq_right hlen]
  have heq : (fileBlock sm3 filename content 0).totalSize =
      (fileBlock sm3 filename content 0).dataSize := congrArg Int32.ofNat hpiece.symm
  rw [procFileReceive, blockMessage, FileMessage.ofRecord, if_neg Bool.false_ne_true, if_pos heq]

/-- Where there is no file, the file is written, and a notice sent. -/
theorem receiveWhole_absent (hlen : content.length ≤ 512)
    (habsent : receiver.files filename = none) :
    (receiveWhole sm3 receiver (fileBlock sm3 filename content 0)).notice =
        some ⟨sm3 content, filename, 1⟩ ∧
      (receiveWhole sm3 receiver (fileBlock sm3 filename content 0)).receiver.files filename =
        some content := by
  have habs : isSamefileExists sm3 receiver.files (fileBlock sm3 filename content 0) = .absent := by
    simp only [isSamefileExists, fileBlock, habsent]
  have hwrite : receiver.files.write (fileBlock sm3 filename content 0) filename =
      some content := by
    refine (Files.write_filename receiver.files (fileBlock sm3 filename content 0)).trans ?_
    have hpiece : piece content 0 = content := by
      rw [piece, Nat.mul_zero, List.drop_zero, List.take_of_length_le hlen]
    have hfile : (receiver.files filename).getD [] = [] := by rw [habsent, Option.getD_none]
    rw [toInt_offset (by decide), show (fileBlock sm3 filename content 0).fileData =
      piece content 0 from rfl, hpiece, show (fileBlock sm3 filename content 0).filename = filename
      from rfl, hfile]
    exact congrArg some (writeAt_length 0 [] content)
  have hsame : isSamefileExists sm3 (receiver.files.write (fileBlock sm3 filename content 0))
      (fileBlock sm3 filename content 0) = .same := by
    simp only [isSamefileExists, show (fileBlock sm3 filename content 0).filename = filename from rfl,
      show (fileBlock sm3 filename content 0).uuid = sm3 content from rfl, hwrite, ne_eq,
      not_true_eq_false, if_false]
  have hnotice : fileNotice sm3 (receiver.files.write (fileBlock sm3 filename content 0))
      (fileBlock sm3 filename content 0) = ⟨sm3 content, filename, 1⟩ := by
    rw [fileNotice, if_pos hsame]
    rfl
  rw [receiveWhole, habs]
  exact ⟨congrArg some hnotice, hwrite⟩

/-- The only block of a file can arrive any number of times. -/
theorem receiveAll_whole (receiver : Receiver) (hlen : content.length ≤ 512) (n : Nat) :
    ∃ middle, receiveAll sm3 receiver
      (List.replicate n (blockMessage sm3 filename content 0)) = .done middle := by
  induction n generalizing receiver with
  | zero => exact ⟨receiver, rfl⟩
  | succ n ih =>
    obtain ⟨middle, hmiddle⟩ :=
      ih (receiveWhole sm3 receiver (fileBlock sm3 filename content 0)).receiver
    refine ⟨middle, ?_⟩
    rw [List.replicate_succ, receiveAll, procFileReceive_whole hlen, Outcome.done_bind, hmiddle]

/-- A transfer in at most one block is as it is to be. -/
theorem reassembles_of_le (hlen : content.length ≤ 512)
    (habsent : receiver.files filename = none) :
    Reassembles sm3 receiver filename content
      ((List.range (numBlocks content.length)).map (fileBlock sm3 filename content)) := by
  intro earlier message hsent
  -- Every message is the one of block 0.
  have hblock : ∀ block ∈ (List.range (numBlocks content.length)).map
      (fileBlock sm3 filename content), block = fileBlock sm3 filename content 0 := by
    intro block hblock
    obtain ⟨i, hi, rfl⟩ := List.mem_map.1 hblock
    have hi := List.mem_range.1 hi
    rw [numBlocks] at hi
    rw [show i = 0 by omega]
  have hmessage : ∀ m ∈ earlier ++ [message], m = blockMessage sm3 filename content 0 := by
    intro m hm
    obtain ⟨block, hmem, rfl⟩ := hsent m hm
    rw [hblock block hmem, blockMessage]
  have hearlier := List.eq_replicate_of_mem fun m hm => hmessage m (List.mem_append_left _ hm)
  obtain rfl := hmessage message (List.mem_append_right _ List.mem_cons_self)
  obtain ⟨middle, hmiddle⟩ : ∃ middle, receiveAll sm3 receiver earlier = .done middle := by
    rw [hearlier]
    exact receiveAll_whole receiver hlen earlier.length
  refine ⟨middle, _, hmiddle, procFileReceive_whole hlen, fun _ block hmem => ?_, fun hnew _ => ?_⟩
  · rw [hblock block hmem]
    exact List.mem_append_right _ List.mem_cons_self
  · -- Nothing has arrived before.
    have hnil : earlier = [] := by
      refine List.eq_nil_iff_forall_not_mem.2 fun m hm => hnew ?_
      rwa [← hmessage m (List.mem_append_left _ hm)]
    rw [hnil] at hmiddle
    obtain rfl : receiver = middle := Outcome.done.inj hmiddle
    exact receiveWhole_absent hlen habsent

end Whole

/-! ## The transfer of a file -/

section Transfers

variable {sm3} {sender : Files} {receiver : Receiver} {reqdata : PolicyfileReq}
  {filename : CString} {content : List UInt8}

/-- The number of blocks of a file from `2 ^ 31 - 511` bytes on is no `int`: its first
    block faults. -/
theorem not_reassembles_of_long (hlong : 2 ^ 31 - 512 < content.length)
    (hlen : content.length < 2 ^ 31) (habsent : receiver.files filename = none)
    (hstore : receiver.store (sm3 content) = none) :
    ¬ Reassembles sm3 receiver filename content
      ((List.range (numBlocks content.length)).map (fileBlock sm3 filename content)) := by
  intro hreassembles
  obtain ⟨middle, received, hmiddle, hreceive, _⟩ :=
    hreassembles [] (blockMessage sm3 filename content 0) (by
      intro m hm
      rw [List.nil_append, List.mem_singleton] at hm
      refine ⟨_, List.mem_map_of_mem (List.mem_range.2 ?_), hm⟩
      rw [numBlocks]
      omega)
  obtain rfl : receiver = middle := Outcome.done.inj hmiddle
  have habs : isSamefileExists sm3 receiver.files (fileBlock sm3 filename content 0) = .absent := by
    simp only [isSamefileExists, fileBlock, habsent]
  rw [procFileReceive_blockMessage (by omega) hlen, receiveBlock] at hreceive
  simp only [show (fileBlock sm3 filename content 0).uuid = sm3 content from rfl, hstore, habs,
    newStore_fault hlong hlen, Outcome.fault_bind] at hreceive
  cases hreceive

/-- A file that the receiver does not have, and of which it has no account but one of
    blocks received earlier, is transferred as it is to be exactly when it is at most
    `2 ^ 31 - 512` bytes long, and there is no such account or no use of one. -/
theorem transfers_iff (hreq : reqdata.filename = some filename)
    (hfile : sender filename = some content) (habsent : receiver.files filename = none)
    (hleft : ∀ storedata, receiver.store (sm3 content) = some storedata →
      ∃ marks : Set Nat, marks.Nonempty ∧ Account content marks storedata) :
    Transfers sm3 sender receiver reqdata filename content ↔
      content.length ≤ 2 ^ 31 - 512 ∧
        (content.length ≤ 512 ∨ receiver.store (sm3 content) = none) := by
  constructor
  · rintro ⟨htiles, hreassembles⟩
    have hlen : content.length < 2 ^ 31 := by
      by_contra hle
      exact not_tiles_of_le hreq hfile (Nat.le_of_not_lt hle) htiles
    rw [blocksSent_eq hreq hfile hlen] at hreassembles
    by_cases hmany : content.length ≤ 512
    · exact ⟨by omega, .inl hmany⟩
    · rcases hstore : receiver.store (sm3 content) with _ | storedata
      · refine ⟨?_, .inr rfl⟩
        by_contra hlong
        exact not_reassembles_of_long (Nat.lt_of_not_le hlong) hlen habsent hstore hreassembles
      · obtain ⟨marks, ⟨i, hi⟩, haccount⟩ := hleft storedata hstore
        exact absurd hreassembles (not_reassembles_of_account (Nat.lt_of_not_le hmany) hlen habsent
          hstore haccount hi)
  · rintro ⟨hlen, hcase⟩
    have hlt : content.length < 2 ^ 31 := by omega
    rw [Transfers, blocksSent_eq hreq hfile hlt]
    refine ⟨tiles_of_lt hlt, ?_⟩
    by_cases hmany : content.length ≤ 512
    · exact reassembles_of_le hmany habsent
    · have hstore := hcase.resolve_left hmany
      exact (inTransfer_of_none (Nat.lt_of_not_le hmany) hlen habsent hstore).reassembles
        (Nat.lt_of_not_le hmany) hlt

/-- A file of zeros. -/
def zeros (length : Nat) : List UInt8 := List.replicate length 0

/-- The digest of 1000 zeros. -/
def zerosDigest : Uuid :=
  #v[0x61, 0x30, 0x99, 0x12, 0xe8, 0xd2, 0xf1, 0x78, 0xc9, 0x14, 0xf6, 0x62, 0x07, 0x2a, 0x9e, 0x2e,
    0xda, 0x31, 0x5a, 0xb9, 0xf2, 0x79, 0xf8, 0xa5, 0x0e, 0x70, 0x63, 0xf2, 0x45, 0xf1, 0x90, 0x31]

/-- The name of that file, `z`. -/
def zerosName : CString := ⟨[122], by decide⟩

/-- A request for it. -/
def zerosReq : PolicyfileReq := ⟨zerosDigest, some zerosName, none⟩

/-- 1000 zeros are sent, in two blocks, to a node that knows nothing of them. -/
theorem zeros_transferred :
    Transfers (fun _ => zerosDigest) (fun _ => some (zeros 1000)) .fresh zerosReq zerosName
      (zeros 1000) :=
  (transfers_iff rfl rfl rfl fun _ h => by cases h).2
    ⟨by rw [zeros, List.length_replicate]; decide, .inr rfl⟩

/-- When a node has received 1000 zeros and removed the file, they are not transferred
    to it once more. Neither are `2 ^ 31 - 511` zeros, to whatever node. -/
theorem zeros_not_transferred_again :
    (∃ used, receiveAll (fun _ => zerosDigest) .fresh
        ((blocksSent (fun _ => zerosDigest) (fun _ => some (zeros 1000)) zerosReq).map .ofRecord) =
          .done used ∧
      ¬ Transfers (fun _ => zerosDigest) (fun _ => some (zeros 1000))
        { used with files := used.files.remove zerosName } zerosReq zerosName (zeros 1000)) ∧
    ¬ Transfers (fun _ => zerosDigest) (fun _ => some (zeros (2 ^ 31 - 511))) .fresh zerosReq
      zerosName (zeros (2 ^ 31 - 511)) := by
  constructor
  · have hlen : (zeros 1000).length = 1000 := List.length_replicate
    have hmany : 512 < (zeros 1000).length := by rw [hlen]; decide
    have hlt : (zeros 1000).length < 2 ^ 31 := by rw [hlen]; decide
    have hbegin : InTransfer (fun _ => zerosDigest) zerosName (zeros 1000) ∅ ∅ .fresh :=
      inTransfer_of_none hmany (by rw [hlen]; decide) rfl rfl
    have hrange : ∀ i ∈ List.range (numBlocks (zeros 1000).length),
        i < numBlocks (zeros 1000).length := fun i => List.mem_range.1
    obtain ⟨used, hused, _⟩ := hbegin.receiveAll hmany hlt _ hrange
    obtain ⟨storedata, hstore, marks, ⟨i, hi⟩, haccount⟩ :=
      hbegin.account_left hmany hlt hrange (by rw [hlen]; decide) hused
    have hsent : blocksSent (fun _ => zerosDigest) (fun _ => some (zeros 1000)) zerosReq = _ :=
      blocksSent_eq rfl rfl hlt
    have hremoved : used.files.remove zerosName zerosName = none := Function.update_self ..
    refine ⟨used, ?_, fun htransfers => ?_⟩
    · rw [hsent, List.map_map]
      exact hused
    · have hreassembles := htransfers.2
      rw [hsent] at hreassembles
      exact not_reassembles_of_account hmany hlt hremoved hstore haccount hi hreassembles
  · have hlen : (zeros (2 ^ 31 - 511)).length = 2 ^ 31 - 511 := List.length_replicate
    have hlt : (zeros (2 ^ 31 - 511)).length < 2 ^ 31 := by rw [hlen]; decide
    have hsent : blocksSent (fun _ => zerosDigest) (fun _ => some (zeros (2 ^ 31 - 511))) zerosReq =
        _ := blocksSent_eq rfl rfl hlt
    intro htransfers
    have hreassembles := htransfers.2
    rw [hsent] at hreassembles
    exact not_reassembles_of_long (by rw [hlen]; decide) hlt rfl rfl hreassembles

end Transfers

end Cube.FileTrans
