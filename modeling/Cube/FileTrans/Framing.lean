import Cube.FileTrans.FileChannel

/-!
# The framing of a file channel

The packages of a file reach the receiving end as a stream of bytes, which the
connection splits into reads as it likes. The receiver decodes one package for each
read, and keeps no more than the buffer: so the reads have to keep pace with the
packages.

* `sendAll_eq`: the packages sent are the blocks of the file, and one without data
  for an empty file;
* `framed_of_keepsPace`: reads that keep pace bring each package in its turn, and the
  file;
* `framed_iff`: no others do.
-/

namespace Cube.FileTrans.FileChannel

open Lib

/-! ## What is to hold -/

/-- The reads to come are no longer than what `proc_file_receive` asks for. -/
def Within : Channel → List (List UInt8) → Prop
  | _, [] => True
  | channel, data :: reads => data.length ≤ channel.request ∧
      ∀ call, procFileReceive channel data = .done call → call.ret ≠ 0 →
        Within call.channel reads

/-- The connection splits the bytes of packages into reads: each returns at least one
    byte, and no more than it is asked for. -/
structure IsSplit (channel : Channel) (packages : List PolicyfileData)
    (reads : List (List UInt8)) : Prop where
  flatten_eq : reads.flatten = stream packages
  ne_nil : ∀ data ∈ reads, data ≠ []
  start_le : ∀ data ∈ reads.head?, data.length ≤ 1024
  within : ∀ data rest call, reads = data :: rest →
    procFileReceiveStart channel data = .done call → call.ret ≠ 0 → Within call.channel rest

/-- The receiver decodes the packages that were sent, in order, and writes the file.
    After any of the reads, the packages decoded and the bytes kept in the buffer are
    the bytes received: none is lost, and no incomplete package is decoded. -/
structure Framed (channel : Channel) (filename : CString) (content : List UInt8)
    (packages : List PolicyfileData) (reads : List (List UInt8)) : Prop where
  kept : ∀ first, first <+: reads → ∃ decoded ended channel',
    receiveFile channel first = .done (decoded, ended, channel') ∧
      stream decoded ++ channel'.left = first.flatten
  complete : ∃ channel', receiveFile channel reads = .done (packages, true, channel') ∧
    channel'.files filename = some content

/-- The reads keep pace with the packages: there are as many, the first one is the first
    package, and after some reads as many packages have arrived. -/
structure KeepsPace (packages : List PolicyfileData) (reads : List (List UInt8)) : Prop where
  ne_nil : packages ≠ []
  length_eq : reads.length = packages.length
  first_eq : (reads.take 1).flatten = stream (packages.take 1)
  arrived : ∀ i ≤ packages.length,
    (stream (packages.take i)).length ≤ (reads.take i).flatten.length

@[simp] theorem stream_nil : stream [] = [] := rfl

@[simp] theorem stream_cons (package : PolicyfileData) (packages : List PolicyfileData) :
    stream (package :: packages) = struct2Blob package ++ stream packages := by
  rw [stream, List.map_cons, List.flatten_cons, stream]

@[simp] theorem stream_append (l l' : List PolicyfileData) :
    stream (l ++ l') = stream l ++ stream l' := by
  rw [stream, List.map_append, List.flatten_append, stream, stream]

/-! ## The packages sent -/

section Send

variable {sm3 : List UInt8 → Uuid} {filename : CString} {content : List UInt8}

/-- The number of packages of a file: an empty one is sent in one package as well. -/
def numPackages (length : Nat) : Nat := max 1 (numBlocks length)

variable {i : Nat} {filename : CString} {size : Int}

theorem mul_le_of_lt_numPackages {length : Nat} (hi : i < numPackages length) :
    512 * i ≤ length := by
  rw [numPackages, numBlocks] at hi
  omega

/-- The sending end before package `i`. -/
def senderAt (sm3 : List UInt8 → Uuid) (filename : CString) (content : List UInt8) (i : Nat) :
    Sender :=
  ⟨sm3 content, filename, Int32.ofNat content.length, i, content.drop (512 * i)⟩

theorem offset_senderAt (i : Nat) :
    (senderAt sm3 filename content i).offset = (512 * i : Nat) := by
  rw [Sender.offset, toInt_blockSize]
  exact_mod_cast Nat.mul_comm i 512

theorem isend_senderAt (hlen : content.length < 2 ^ 31) (i : Nat) :
    (senderAt sm3 filename content i).Isend ↔ 512 * (i + 1) < content.length := by
  rw [Sender.Isend, offset_senderAt, toInt_blockSize, senderAt, Int32.toInt_ofNat_of_lt hlen]
  omega

theorem dataSize_senderAt (hlen : content.length < 2 ^ 31) (hi : i < numPackages content.length) :
    (senderAt sm3 filename content i).dataSize = (piece content i).length := by
  have hle := mul_le_of_lt_numPackages hi
  have htotal : (senderAt sm3 filename content i).totalSize.toInt = content.length :=
    Int32.toInt_ofNat_of_lt hlen
  simp only [Sender.dataSize, isend_senderAt hlen, toInt_blockSize, htotal, offset_senderAt,
    length_piece]
  split_ifs <;> omega

theorem fileData_senderAt (hlen : content.length < 2 ^ 31) (hi : i < numPackages content.length) :
    (senderAt sm3 filename content i).fileData = piece content i := by
  rw [Sender.fileData, dataSize_senderAt hlen hi, Int.toNat_natCast, length_piece, piece, senderAt,
    List.take_eq_take_iff, List.length_drop]
  omega

theorem next_senderAt (hlen : content.length < 2 ^ 31) (hi : i < numPackages content.length) :
    (senderAt sm3 filename content i).next = senderAt sm3 filename content (i + 1) := by
  have hsize := length_piece content i
  have hrest : (content.drop (512 * i)).drop (piece content i).length =
      content.drop (512 * (i + 1)) := by
    rw [List.drop_drop]
    by_cases hfull : (piece content i).length = 512
    · rw [hfull, Nat.mul_succ]
    · rw [List.drop_eq_nil_of_le (by omega), List.drop_eq_nil_of_le (by omega)]
  rw [Sender.next, dataSize_senderAt hlen hi, Int.toNat_natCast]
  exact congrArg (Sender.mk _ _ _ _) hrest

/-- A call sends a block of the file if that fits the buffer. -/
theorem procFileSend_senderAt (hlen : content.length < 2 ^ 31)
    (hi : i < numPackages content.length) :
    procFileSend (senderAt sm3 filename content i) =
      if blobSize < (struct2Blob (fileBlock sm3 filename content i)).length then .fault
      else .done ⟨if 512 * (i + 1) < content.length then 1 else 0, fileBlock sm3 filename content i,
        senderAt sm3 filename content (i + 1)⟩ := by
  have hdata : (senderAt sm3 filename content i).dataSize = (piece content i).length :=
    dataSize_senderAt hlen hi
  have hread : (Int32.ofInt (senderAt sm3 filename content i).dataSize).toInt =
      (senderAt sm3 filename content i).fileData.length := by
    rw [hdata, fileData_senderAt hlen hi, Int32.ofInt_eq_ofNat]
    exact Int32.toInt_ofNat_of_lt (length_piece_lt content i)
  have hpackage : (senderAt sm3 filename content i).package hread =
      fileBlock sm3 filename content i :=
    PolicyfileData.eq_of_fileData rfl rfl rfl rfl rfl (fileData_senderAt hlen hi)
  rw [procFileSend, if_neg (by omega), if_neg (by omega), dif_pos hread, hpackage,
    next_senderAt hlen hi]
  simp only [isend_senderAt hlen]

/-- The packages sent, if they fit the buffer, are the blocks of the file. -/
theorem sendAll_eq (hlen : content.length < 2 ^ 31)
    (hfit : ∀ i, (struct2Blob (fileBlock sm3 filename content i)).length ≤ blobSize) {n : Nat}
    (hi : i < numPackages content.length) (hn : numPackages content.length ≤ i + n) :
    sendAll n (senderAt sm3 filename content i) =
      (List.range' i (numPackages content.length - i)).map (fileBlock sm3 filename content) := by
  induction n generalizing i with
  | zero => omega
  | succ n ih =>
    have hrange : numPackages content.length - i = numPackages content.length - (i + 1) + 1 := by
      omega
    rw [sendAll, procFileSend_senderAt hlen hi, if_neg (Nat.not_lt.2 (hfit i)), hrange,
      List.range'_succ, List.map_cons]
    refine congrArg (_ :: ·) ?_
    by_cases hmore : 512 * (i + 1) < content.length
    · -- More packages are to come.
      have hi' : i + 1 < numPackages content.length := by
        rw [numPackages, numBlocks]
        omega
      simp only [if_pos hmore, one_ne_zero, if_false]
      exact ih hi' (by omega)
    · have hlast : numPackages content.length - (i + 1) = 0 := by
        rw [numPackages, numBlocks] at *
        omega
      simp only [if_neg hmore, if_true, hlast]
      rfl

/-- If packages are sent of a file shorter than `2 ^ 31`, they are its blocks. -/
theorem sendAll_eq_of_ne_nil (hlen : content.length < 2 ^ 31) {n : Nat}
    (hn : numPackages content.length ≤ n) (hne : sendAll n (senderAt sm3 filename content 0) ≠ []) :
    sendAll n (senderAt sm3 filename content 0) =
      (List.range (numPackages content.length)).map (fileBlock sm3 filename content) := by
  have hpos : 0 < numPackages content.length := Nat.lt_of_lt_of_le Nat.one_pos (Nat.le_max_left ..)
  have hfit : ∀ i, (struct2Blob (fileBlock sm3 filename content i)).length ≤ blobSize := by
    -- No block has more data than the first one, which fits.
    intro i
    obtain ⟨m, rfl⟩ : ∃ m, n = m + 1 := ⟨n - 1, by omega⟩
    have hfirst : (struct2Blob (fileBlock sm3 filename content 0)).length ≤ blobSize := by
      by_contra hbig
      rw [sendAll, procFileSend_senderAt hlen hpos, if_pos (Nat.lt_of_not_le hbig)] at hne
      exact hne rfl
    have hlength : ∀ k, (struct2Blob (fileBlock sm3 filename content k)).length =
        33 + filename.chars.length + numbers.size + (piece content k).length :=
      fun k => length_struct2Blob _
    have h₀ := length_piece content 0
    have hᵢ := length_piece content i
    rw [hlength] at hfirst ⊢
    omega
  rw [sendAll_eq hlen hfit hpos (by omega), Nat.sub_zero, ← List.range_eq_range']

/-- A package of a file does not reach beyond a size. -/
structure Inside (filename : CString) (size : Int) (package : PolicyfileData) : Prop where
  filename_eq : package.filename = filename
  offset_nonneg : 0 ≤ package.offset.toInt
  le_size : package.offset.toInt + package.fileData.length ≤ size

/-- No package reaches beyond the total size. -/
theorem inside_package {sender : Sender} (hneg : ¬ sender.dataSize < 0)
    (h : (Int32.ofInt sender.dataSize).toInt = sender.fileData.length) :
    Inside sender.filename sender.totalSize.toInt (sender.package h) := by
  have htotal := Int32.toInt_lt sender.totalSize
  have hoff : 0 ≤ sender.offset := by
    rw [Sender.offset, toInt_blockSize]
    omega
  have hread : sender.fileData.length ≤ sender.dataSize.toNat := List.length_take_le ..
  have hle : sender.offset + sender.dataSize ≤ sender.totalSize.toInt := by
    rw [Sender.dataSize]
    split_ifs with hmore
    · rw [Sender.Isend] at hmore
      omega
    · omega
  have hoffset : (sender.package h).offset.toInt = sender.offset :=
    Int32.toInt_ofInt_of_le (by omega) (by omega)
  have hdata : (sender.package h).fileData = sender.fileData := rfl
  exact ⟨rfl, by omega, by rw [hoffset, hdata]; omega⟩

/-- What a call that sends a package has done. -/
theorem procFileSend_eq_done {sender : Sender} {call : SendCall}
    (h : procFileSend sender = .done call) :
    call.sender = sender.next ∧ ¬ sender.dataSize < 0 ∧
      ∃ hread, call.package = sender.package hread := by
  rw [procFileSend] at h
  split_ifs at h with _ hneg hread <;> obtain rfl := Outcome.done.inj h
  all_goals exact ⟨rfl, hneg, hread, rfl⟩

/-- All the packages of a file have its name, and reach no further than its total
    size. -/
theorem inside_of_mem_sendAll {n : Nat} {sender : Sender} :
    ∀ package ∈ sendAll n sender,
      Inside sender.filename sender.totalSize.toInt package := by
  induction n generalizing sender with
  | zero => exact fun _ h => absurd h List.not_mem_nil
  | succ n ih =>
    intro package hmem
    rw [sendAll] at hmem
    rcases hcall : procFileSend sender with call | e | _
    · rw [hcall] at hmem
      obtain ⟨hnext, hneg, hread, hpackage⟩ := procFileSend_eq_done hcall
      rcases List.mem_cons.1 hmem with rfl | hmem
      · rw [hpackage]
        exact inside_package hneg hread
      · split_ifs at hmem with hlast
        · exact absurd hmem List.not_mem_nil
        · rw [hnext] at hmem
          exact @ih sender.next package hmem
    · rw [hcall] at hmem
      exact absurd hmem List.not_mem_nil
    · rw [hcall] at hmem
      exact absurd hmem List.not_mem_nil

end Send

/-! ## Receiving one package -/

section Receive

variable {sm3 : List UInt8 → Uuid} {filename : CString} {content data : List UInt8}
  {channel : Channel} {i : Nat}

theorem Channel.length_left (h : channel.leftSize ≤ blobSize) :
    channel.left.length = channel.leftSize := by
  rw [Channel.left, List.length_take, channel.blob.length_bytes, Nat.min_eq_left h]

theorem Blob.bytes_put (blob : Blob) {offset : Nat} {data : List UInt8}
    (h : offset + data.length ≤ blobSize) :
    (blob.put offset data h).bytes =
      blob.bytes.take offset ++ data ++ blob.bytes.drop (offset + data.length) := rfl

/-- The file open at the receiving end has the first `i` blocks. -/
structure Channel.Open (channel : Channel) (filename : CString) (content : List UInt8) (i : Nat) :
    Prop where
  fd_eq : ∃ place, channel.fd = some (filename, place)
  file_eq : channel.files filename = some (content.take (512 * i))

/-- A block written in its turn: the file has one more block, and is closed behind the
    last one. -/
theorem finishReceive_fileBlock (sm3 : List UInt8 → Uuid) (h : channel.Open filename content i)
    (hlen : content.length < 2 ^ 31) (hi : i < numPackages content.length) :
    ∃ channel', finishReceive channel (fileBlock sm3 filename content i) =
        .done ⟨if 512 * (i + 1) < content.length then 1 else 0,
          some (fileBlock sm3 filename content i), channel'⟩ ∧
      channel'.blob = channel.blob ∧ channel'.leftSize = channel.leftSize ∧
      channel'.files filename = some (content.take (512 * (i + 1))) ∧
      (512 * (i + 1) < content.length → channel'.Open filename content (i + 1)) := by
  obtain ⟨place, hfd⟩ := h.fd_eq
  have hle := mul_le_of_lt_numPackages hi
  have hpiece := length_piece content i
  have hoff : (fileBlock sm3 filename content i).offset.toInt = (512 * i : Nat) :=
    toInt_offset (by omega)
  have htotal : (fileBlock sm3 filename content i).totalSize.toInt = content.length :=
    Int32.toInt_ofNat_of_lt hlen
  have hsize : (fileBlock sm3 filename content i).dataSize.toInt = (piece content i).length :=
    (fileBlock sm3 filename content i).dataSize_eq
  -- The file ends where the block is to be written.
  have hfile : writeAt 0 ((channel.files filename).getD []) (512 * i) (piece content i) =
      content.take (512 * (i + 1)) := by
    have hend : (content.take (512 * i)).length = 512 * i := by
      rw [List.length_take, Nat.min_eq_left hle]
    have happend := writeAt_length 0 (content.take (512 * i)) (piece content i)
    rw [hend] at happend
    rw [h.file_eq, Option.getD_some, happend, piece, Nat.mul_succ, List.take_add]
  have hwrite : channel.write (fileBlock sm3 filename content i) =
      { channel with
        files := Function.update channel.files filename (some (content.take (512 * (i + 1))))
        fd := some (filename, 512 * i + (piece content i).length) } := by
    simp only [Channel.write, hfd, hoff, Int.natCast_nonneg, if_true, Int.toNat_natCast,
      Files.writeAt, show (fileBlock sm3 filename content i).fileData = piece content i from rfl,
      hfile]
  have hmore : (content.length : Int) ≤ (512 * i : Nat) + (piece content i).length ↔
      ¬ 512 * (i + 1) < content.length := by omega
  rw [finishReceive, hwrite]
  simp only [hoff, hsize, htotal, hmore]
  rw [if_neg (by omega)]
  by_cases hlast : 512 * (i + 1) < content.length
  · rw [if_neg (not_not.2 hlast), if_pos hlast]
    exact ⟨_, rfl, rfl, rfl, Function.update_self .., fun _ => ⟨⟨_, rfl⟩, Function.update_self ..⟩⟩
  · rw [if_pos hlast, if_neg hlast]
    exact ⟨_, rfl, rfl, rfl, Function.update_self .., fun h => absurd h hlast⟩

/-- The bytes of a package at the start of the buffer are decoded, and those behind it
    are kept. -/
theorem procFileReceive_fileBlock (h : channel.Open filename content i)
    (hlen : content.length < 2 ^ 31) (hi : i < numPackages content.length)
    (hfits : channel.leftSize + data.length ≤ blobSize)
    (harrived : struct2Blob (fileBlock sm3 filename content i) <+: channel.left ++ data) :
    ∃ channel', procFileReceive channel data =
        .done ⟨if 512 * (i + 1) < content.length then 1 else 0,
          some (fileBlock sm3 filename content i), channel'⟩ ∧
      struct2Blob (fileBlock sm3 filename content i) ++ channel'.left = channel.left ++ data ∧
      channel'.leftSize ≤ blobSize ∧
      channel'.files filename = some (content.take (512 * (i + 1))) ∧
      (512 * (i + 1) < content.length → channel'.Open filename content (i + 1)) := by
  obtain ⟨tail, htail⟩ := harrived
  have hlength : (struct2Blob (fileBlock sm3 filename content i)).length + tail.length =
      channel.leftSize + data.length := by
    rw [← List.length_append, htail, List.length_append, Channel.length_left (by omega)]
  obtain ⟨stale, hstale⟩ : ∃ stale, stale =
    channel.blob.bytes.drop (channel.leftSize + data.length) := ⟨_, rfl⟩
  have hbytes : (channel.blob.put channel.leftSize data hfits).bytes =
      struct2Blob (fileBlock sm3 filename content i) ++ (tail ++ stale) := by
    rw [Blob.bytes_put, ← hstale, ← List.append_assoc, htail, Channel.left]
  have hdecode := blob2Struct_struct2Blob (fileBlock sm3 filename content i) (tail ++ stale)
  have hleft : ((struct2Blob (fileBlock sm3 filename content i) ++ (tail ++ stale)).drop
      (struct2Blob (fileBlock sm3 filename content i)).length).take (channel.leftSize + data.length -
        (struct2Blob (fileBlock sm3 filename content i)).length) = tail := by
    rw [List.drop_left, show channel.leftSize + data.length -
      (struct2Blob (fileBlock sm3 filename content i)).length = tail.length by omega, List.take_left]
  have hput : 0 + tail.length ≤ blobSize := by omega
  let kept : Channel :=
    { channel with
      blob := (channel.blob.put channel.leftSize data hfits).put 0 tail hput
      leftSize := channel.leftSize + data.length -
        (struct2Blob (fileBlock sm3 filename content i)).length }
  have hkept : kept.left = tail := by
    have hsize : kept.leftSize = tail.length := by
      change channel.leftSize + data.length - _ = _
      omega
    rw [Channel.left, hsize, Blob.bytes_put, List.take_zero, List.nil_append, List.take_left]
  have hopen : kept.Open filename content i := ⟨h.fd_eq, h.file_eq⟩
  obtain ⟨channel', hfinish, hblob, hleftSize, hfile, hnext⟩ :=
    finishReceive_fileBlock sm3 hopen hlen hi
  refine ⟨channel', ?_, ?_, ?_, hfile, hnext⟩
  · rw [procFileReceive, dif_pos hfits]
    simp only [hbytes, hdecode, hleft]
    rw [if_pos (by omega)]
    exact hfinish
  · rw [Channel.left, hblob, hleftSize]
    exact (congrArg _ hkept).trans htail
  · rw [hleftSize]
    exact (Nat.sub_le ..).trans hfits

end Receive

/-! ## Reads that keep pace -/

section Pace

variable {sm3 : List UInt8 → Uuid} {filename : CString} {content : List UInt8}

/-- The blocks of a file from block `i` on. -/
def blocksFrom (sm3 : List UInt8 → Uuid) (filename : CString) (content : List UInt8) (i : Nat) :
    List PolicyfileData :=
  (List.range' i (numPackages content.length - i)).map (fileBlock sm3 filename content)

theorem length_blocksFrom (i : Nat) :
    (blocksFrom sm3 filename content i).length = numPackages content.length - i := by
  rw [blocksFrom, List.length_map, List.length_range']

theorem blocksFrom_cons (hi : i < numPackages content.length) :
    blocksFrom sm3 filename content i =
      fileBlock sm3 filename content i :: blocksFrom sm3 filename content (i + 1) := by
  have hrange : numPackages content.length - i = numPackages content.length - (i + 1) + 1 := by
    omega
  rw [blocksFrom, hrange, List.range'_succ, List.map_cons, blocksFrom]

/-- More packages are to come when the file goes on. -/
theorem lt_numPackages_iff {length : Nat} (hi : i < numPackages length) :
    i + 1 < numPackages length ↔ 512 * (i + 1) < length := by
  rw [numPackages, numBlocks] at *
  omega

/-- What the calls for some of the reads are to come to, when the packages to come are
    `packages`. -/
def InStep (channel : Channel) (filename : CString) (content : List UInt8)
    (packages : List PolicyfileData) (reads first : List (List UInt8)) : Prop :=
  ∃ ended channel', receiveRest channel first =
      .done (packages.take first.length, ended, channel') ∧
    stream (packages.take first.length) ++ channel'.left = channel.left ++ first.flatten ∧
    (first = reads → ended = true ∧ channel'.files filename = some content)

/-- Reads that keep pace bring the packages from block `i` on. -/
theorem inStep_blocksFrom {channel : Channel} {reads : List (List UInt8)}
    (hopen : channel.Open filename content i) (hlen : content.length < 2 ^ 31)
    (hi : i < numPackages content.length) (hleft : channel.leftSize ≤ blobSize)
    (hcount : reads.length = numPackages content.length - i)
    (hsplit : channel.left ++ reads.flatten = stream (blocksFrom sm3 filename content i))
    (hpace : ∀ k ≤ numPackages content.length - i,
      (stream ((blocksFrom sm3 filename content i).take k)).length ≤
        (channel.left ++ (reads.take k).flatten).length)
    (hwithin : Within channel reads) {first : List (List UInt8)} (hfirst : first <+: reads) :
    InStep channel filename content (blocksFrom sm3 filename content i) reads first := by
  induction reads generalizing channel i first with
  | nil =>
    rw [List.length_nil] at hcount
    omega
  | cons data reads ih =>
    rw [blocksFrom_cons hi] at hsplit hpace ⊢
    rcases first with _ | ⟨data', first⟩
    · -- No read yet.
      exact ⟨false, channel, rfl, by rw [List.length_nil, List.take_zero, stream_nil,
        List.flatten_nil, List.nil_append, List.append_nil], fun h => absurd h (List.cons_ne_nil _ _).symm⟩
    obtain ⟨rfl, hrest⟩ := List.cons_prefix_cons.1 hfirst
    rw [List.length_cons] at hcount
    rw [stream_cons, List.flatten_cons, ← List.append_assoc] at hsplit
    -- The first package has arrived.
    have harrived : struct2Blob (fileBlock sm3 filename content i) <+: channel.left ++ data' := by
      have hone := hpace 1 (by omega)
      rw [List.take_succ_cons, List.take_zero, stream_cons, stream_nil, List.append_nil,
        List.take_succ_cons, List.take_zero, List.flatten_cons, List.flatten_nil,
        List.append_nil] at hone
      exact List.prefix_of_prefix_length_le ⟨_, hsplit.symm⟩ ⟨_, rfl⟩ hone
    have hfits : channel.leftSize + data'.length ≤ blobSize := by
      have := hwithin.1
      rw [Channel.request, blobSize] at *
      omega
    obtain ⟨channel', hcall, hkept, hleft', hfile, hnext⟩ :=
      procFileReceive_fileBlock hopen hlen hi hfits harrived
    by_cases hmore : 512 * (i + 1) < content.length
    · rw [if_pos hmore] at hcall
      have hi' := (lt_numPackages_iff hi).2 hmore
      rw [← hkept, List.append_assoc, List.append_cancel_left_eq] at hsplit
      have hpace' : ∀ k ≤ numPackages content.length - (i + 1),
          (stream ((blocksFrom sm3 filename content (i + 1)).take k)).length ≤
            (channel'.left ++ (reads.take k).flatten).length := by
        intro k hk
        have hk' := hpace (k + 1) (by omega)
        rw [List.take_succ_cons, List.take_succ_cons, stream_cons, List.flatten_cons,
          ← List.append_assoc, ← hkept, List.append_assoc, List.length_append, List.length_append]
          at hk'
        exact Nat.le_of_add_le_add_left hk'
      obtain ⟨ended, channel'', hrun, hkept', hend⟩ := ih (hnext hmore) hi' hleft' (by omega)
        hsplit hpace' (hwithin.2 _ hcall one_ne_zero) hrest
      refine ⟨ended, channel'', ?_, ?_, fun h => hend (List.cons.inj h).2⟩
      · rw [receiveRest, hcall]
        simp only [Outcome.done_bind, one_ne_zero, if_false, hrun]
        rfl
      · rw [List.length_cons, List.take_succ_cons, stream_cons, List.append_assoc, hkept',
          ← List.append_assoc, hkept, List.flatten_cons, List.append_assoc]
    · -- The last package: no more reads are to come.
      rw [if_neg hmore] at hcall
      have hi' := (lt_numPackages_iff hi).not.2 hmore
      obtain rfl : reads = [] := List.eq_nil_of_length_eq_zero (by omega)
      obtain rfl := List.prefix_nil.1 hrest
      have hlast : (blocksFrom sm3 filename content (i + 1)) = [] := by
        refine List.eq_nil_of_length_eq_zero ?_
        rw [length_blocksFrom]
        omega
      refine ⟨true, channel', ?_, ?_, fun _ => ⟨rfl, ?_⟩⟩
      · rw [receiveRest, hcall]
        simp only [Outcome.done_bind, if_true]
        rfl
      · rw [hlast, List.length_singleton, List.take_succ_cons, List.take_zero, stream_cons, stream_nil,
          List.append_nil, hkept, List.flatten_cons, List.flatten_nil, List.append_nil]
      · rw [hfile, List.take_of_length_le (Nat.le_of_not_lt hmore)]

/-- The first package, read as it is, is decoded, and nothing is kept. -/
theorem procFileReceiveStart_fileBlock {channel : Channel} (hleft : channel.leftSize = 0)
    (hlen : content.length < 2 ^ 31)
    (hfits : 0 + (struct2Blob (fileBlock sm3 filename content 0)).length ≤ blobSize) :
    ∃ channel', procFileReceiveStart channel (struct2Blob (fileBlock sm3 filename content 0)) =
        .done ⟨if 512 < content.length then 1 else 0, some (fileBlock sm3 filename content 0),
          channel'⟩ ∧
      channel'.leftSize = 0 ∧ channel'.files filename = some (content.take 512) ∧
      (512 < content.length → channel'.Open filename content 1) := by
  have hpos : 0 < numPackages content.length := Nat.lt_of_lt_of_le Nat.one_pos (Nat.le_max_left ..)
  let opened : Channel :=
    { channel with
      files := Function.update channel.files filename (some [])
      fd := some (filename, 0)
      blob := channel.blob.put 0 _ hfits }
  have hopen : opened.Open filename content 0 := ⟨⟨0, rfl⟩, Function.update_self ..⟩
  obtain ⟨channel', hfinish, _, hleftSize, hfile, hnext⟩ :=
    finishReceive_fileBlock sm3 hopen hlen hpos
  refine ⟨channel', ?_, hleftSize.trans hleft, hfile, hnext⟩
  rw [procFileReceiveStart, dif_pos hfits]
  simp only [Blob.bytes_put, List.take_zero, List.nil_append, blob2Struct_struct2Blob]
  exact hfinish

variable {channel : Channel} {packages : List PolicyfileData} {reads : List (List UInt8)}

/-- Reads that keep pace bring the packages, and the file. -/
theorem framed_of_keepsPace (hleft : channel.leftSize = 0) (hlen : content.length < 2 ^ 31)
    (hpackages : packages = blocksFrom sm3 filename content 0)
    (hsplit : IsSplit channel packages reads) (hpace : KeepsPace packages reads) :
    Framed channel filename content packages reads := by
  have hpos : 0 < numPackages content.length := Nat.lt_of_lt_of_le Nat.one_pos (Nat.le_max_left ..)
  have hcons := hpackages.trans (blocksFrom_cons hpos)
  have hlength : packages.length = numPackages content.length := by
    rw [hpackages, length_blocksFrom, Nat.sub_zero]
  have hempty : channel.left = [] := by rw [Channel.left, hleft, List.take_zero]
  obtain ⟨data, reads, rfl⟩ : ∃ data rest, reads = data :: rest :=
    List.exists_cons_of_length_pos (by rw [hpace.length_eq]; omega)
  -- The first read is the first package.
  obtain rfl : data = struct2Blob (fileBlock sm3 filename content 0) := by
    have hfirst := hpace.first_eq
    rw [hcons] at hfirst
    simpa only [List.take_succ_cons, List.take_zero, stream_cons, stream_nil, List.append_nil,
      List.flatten_cons, List.flatten_nil] using hfirst
  have hfits : 0 + (struct2Blob (fileBlock sm3 filename content 0)).length ≤ blobSize := by
    have := hsplit.start_le _ rfl
    rw [blobSize]
    omega
  obtain ⟨channel', hstart, hleft', hfile, hnext⟩ :=
    procFileReceiveStart_fileBlock hleft hlen hfits
  have hempty' : channel'.left = [] := by rw [Channel.left, hleft', List.take_zero]
  by_cases hmore : 512 < content.length
  · rw [if_pos hmore] at hstart
    -- The other reads bring the other packages.
    have hrest : ∀ first, first <+: reads →
        InStep channel' filename content (blocksFrom sm3 filename content 1) reads first := by
      have hi := (lt_numPackages_iff hpos).2 hmore
      have hflat := hsplit.flatten_eq
      rw [hcons, stream_cons, List.flatten_cons, List.append_cancel_left_eq] at hflat
      have hcount := hpace.length_eq
      rw [hlength, List.length_cons] at hcount
      refine fun first hfirst => inStep_blocksFrom (hnext hmore) hlen hi (by omega) (by omega)
        (by rw [hempty', List.nil_append, hflat]) (fun k hk => ?_)
        (hsplit.within _ _ _ rfl hstart one_ne_zero) hfirst
      have hk' := hpace.arrived (k + 1) (by omega)
      rw [hcons, List.take_succ_cons, List.take_succ_cons, stream_cons, List.flatten_cons,
        List.length_append, List.length_append] at hk'
      rw [hempty', List.nil_append]
      exact Nat.le_of_add_le_add_left hk'
    have hrun : ∀ first decoded ended channel'', receiveRest channel' first =
        .done (decoded, ended, channel'') →
        receiveFile channel (struct2Blob (fileBlock sm3 filename content 0) :: first) =
          .done (fileBlock sm3 filename content 0 :: decoded, ended, channel'') := by
      intro first decoded ended channel'' h
      rw [receiveFile, hstart]
      simp only [Outcome.done_bind, one_ne_zero, if_false, h]
      rfl
    refine ⟨fun first hfirst => ?_, ?_⟩
    · rcases first with _ | ⟨data, first⟩
      · exact ⟨[], false, channel, rfl, by rw [stream_nil, hempty]; rfl⟩
      · obtain ⟨rfl, hprefix⟩ := List.cons_prefix_cons.1 hfirst
        obtain ⟨ended, channel'', hdone, hkept, _⟩ := hrest first hprefix
        refine ⟨_, ended, channel'', hrun _ _ _ _ hdone, ?_⟩
        rw [stream_cons, List.append_assoc, hkept, hempty', List.nil_append, List.flatten_cons]
    · obtain ⟨ended, channel'', hdone, _, hend⟩ := hrest reads (List.prefix_refl _)
      obtain ⟨rfl, hcontent⟩ := hend rfl
      refine ⟨channel'', ?_, hcontent⟩
      have htake : (blocksFrom sm3 filename content 1).take reads.length =
          blocksFrom sm3 filename content 1 := by
        refine List.take_of_length_le ?_
        have hcount := hpace.length_eq
        rw [hlength, List.length_cons] at hcount
        rw [length_blocksFrom]
        omega
      rw [hrun _ _ _ _ hdone, htake, ← hcons]
  · -- The first package is the last one.
    rw [if_neg hmore] at hstart
    have hi := (lt_numPackages_iff hpos).not.2 hmore
    have hlast : blocksFrom sm3 filename content 1 = [] := by
      refine List.eq_nil_of_length_eq_zero ?_
      rw [length_blocksFrom]
      omega
    obtain rfl : reads = [] := by
      refine List.eq_nil_of_length_eq_zero ?_
      have hcount := hpace.length_eq
      rw [hlength, List.length_cons] at hcount
      omega
    have hrun : receiveFile channel [struct2Blob (fileBlock sm3 filename content 0)] =
        .done ([fileBlock sm3 filename content 0], true, channel') := by
      rw [receiveFile, hstart]
      rfl
    refine ⟨fun first hfirst => ?_, channel', ?_, ?_⟩
    · rcases first with _ | ⟨data, first⟩
      · exact ⟨[], false, channel, rfl, by rw [stream_nil, hempty]; rfl⟩
      · obtain ⟨rfl, hprefix⟩ := List.cons_prefix_cons.1 hfirst
        obtain rfl := List.prefix_nil.1 hprefix
        refine ⟨_, true, channel', hrun, ?_⟩
        rw [stream_cons, stream_nil, hempty', List.append_nil, List.append_nil, List.flatten_cons,
          List.flatten_nil, List.append_nil]
    · rw [hrun, hcons, hlast]
    · rw [hfile, List.take_of_length_le (Nat.le_of_not_lt hmore)]

end Pace

/-! ## Reads that do not keep pace -/

section Calls

variable {channel channel' : Channel} {reads : List (List UInt8)} {data : List UInt8}
  {pfdata : PolicyfileData} {call : ReceiveCall}

@[simp] theorem Channel.write_blob (channel : Channel) (pfdata : PolicyfileData) :
    (channel.write pfdata).blob = channel.blob := by
  rw [Channel.write]
  split <;> rfl

@[simp] theorem Channel.write_leftSize (channel : Channel) (pfdata : PolicyfileData) :
    (channel.write pfdata).leftSize = channel.leftSize := by
  rw [Channel.write]
  split <;> rfl

/-- The end of a call decodes a package and leaves the buffer. -/
theorem finishReceive_eq_done (h : finishReceive channel pfdata = .done call) :
    call.decoded = some pfdata ∧ call.channel.left = channel.left := by
  simp only [finishReceive] at h
  split_ifs at h <;> obtain rfl := Outcome.done.inj h
  all_goals
    refine ⟨rfl, ?_⟩
    rw [Channel.left, Channel.write_blob, Channel.write_leftSize, Channel.left]

/-- A call that loses no byte has decoded a package: after an error nothing is kept. -/
theorem exists_decoded (hdata : data ≠ []) (hcall : procFileReceive channel data = .done call)
    (hkept : stream call.decoded.toList ++ call.channel.left = channel.left ++ data) :
    ∃ package, call.decoded = some package := by
  rw [procFileReceive] at hcall
  split_ifs at hcall with hfits
  rcases hdecode : blob2Struct (channel.blob.put channel.leftSize data hfits).bytes with
    ⟨package, size⟩ | e | _
  · simp only [hdecode] at hcall
    split_ifs at hcall
    · exact ⟨package, (finishReceive_eq_done hcall).1⟩
    · obtain rfl := Outcome.done.inj hcall
      exact ⟨package, rfl⟩
  · simp only [hdecode] at hcall
    obtain rfl := Outcome.done.inj hcall
    -- The bytes received are gone.
    have hnil : channel.left ++ data = [] := by
      rw [← hkept, Channel.left, List.take_zero]
      rfl
    exact absurd (List.append_eq_nil_iff.1 hnil).2 hdata
  · simp only [hdecode] at hcall
    cases hcall

/-- The file is no longer than a size, and no other file is open. -/
structure Short (filename : CString) (size : Int) (channel : Channel) : Prop where
  file : ∃ content, channel.files filename = some content ∧ content.length ≤ size
  fd_name : ∀ name place, channel.fd = some (name, place) → name = filename

theorem Short.write (h : Short filename size channel)
    (hp : Inside filename size pfdata) : Short filename size (channel.write pfdata) := by
  rw [Channel.write]
  rcases hfd : channel.fd with _ | ⟨name, place⟩
  · exact h
  · obtain rfl := h.fd_name name place hfd
    obtain ⟨content, hcontent, hlen⟩ := h.file
    have hoff := hp.offset_nonneg
    have hle := hp.le_size
    refine ⟨⟨_, Function.update_self .., ?_⟩, fun _ _ h => (Prod.mk.inj (Option.some.inj h)).1.symm⟩
    rw [if_pos hoff, hcontent, Option.getD_some]
    have hmax : (writeAt 0 content pfdata.offset.toInt.toNat pfdata.fileData).length ≤
        size.toNat := length_writeAt_le (by omega) (by omega)
    omega

theorem Short.finishReceive (h : Short filename size channel)
    (hp : Inside filename size pfdata) (hcall : finishReceive channel pfdata = .done call) :
    Short filename size call.channel := by
  have hwrite := h.write hp
  simp only [FileChannel.finishReceive] at hcall
  split_ifs at hcall <;> obtain rfl := Outcome.done.inj hcall
  · exact ⟨hwrite.file, fun _ _ hfd => by cases hfd⟩
  · exact hwrite

theorem Short.procFileReceive (h : Short filename size channel)
    (hcall : procFileReceive channel data = .done call)
    (hp : ∀ package ∈ call.decoded, Inside filename size package) :
    Short filename size call.channel := by
  rw [FileChannel.procFileReceive] at hcall
  split_ifs at hcall with hfits
  rcases hdecode : blob2Struct (channel.blob.put channel.leftSize data hfits).bytes with
    ⟨package, n⟩ | e | _
  · simp only [hdecode] at hcall
    split_ifs at hcall
    · refine Short.finishReceive ?_ (hp package (finishReceive_eq_done hcall).1) hcall
      exact ⟨h.file, h.fd_name⟩
    · obtain rfl := Outcome.done.inj hcall
      exact ⟨h.file, h.fd_name⟩
  · simp only [hdecode] at hcall
    obtain rfl := Outcome.done.inj hcall
    exact ⟨h.file, h.fd_name⟩
  · simp only [hdecode] at hcall
    cases hcall

/-- After any of the reads to come, the packages decoded and the bytes kept are what had
    been kept and the bytes received. -/
def Kept (channel : Channel) (reads : List (List UInt8)) : Prop :=
  ∀ first, first <+: reads → ∃ decoded ended channel',
    receiveRest channel first = .done (decoded, ended, channel') ∧
      stream decoded ++ channel'.left = channel.left ++ first.flatten

/-- The calls behind a call. -/
def afterCall (call : ReceiveCall) (reads : List (List UInt8)) :
    Outcome (List PolicyfileData × Bool × Channel) :=
  if call.ret = 0 then .done (call.decoded.toList, true, call.channel)
  else receiveRest call.channel reads >>= fun rest =>
    .done (call.decoded.toList ++ rest.1, rest.2)

theorem receiveRest_cons (hcall : procFileReceive channel data = .done call) :
    receiveRest channel (data :: reads) = afterCall call reads := by
  rw [receiveRest, hcall, Outcome.done_bind, afterCall]
  rfl

theorem receiveFile_cons (hcall : procFileReceiveStart channel data = .done call) :
    receiveFile channel (data :: reads) = afterCall call reads := by
  rw [receiveFile, hcall, Outcome.done_bind, afterCall]
  rfl

theorem afterCall_nil (call : ReceiveCall) :
    ∃ ended, afterCall call [] = .done (call.decoded.toList, ended, call.channel) := by
  rw [afterCall]
  split_ifs
  · exact ⟨true, rfl⟩
  · refine ⟨false, ?_⟩
    rw [receiveRest, Outcome.done_bind, List.append_nil]

/-- Behind a call no byte is lost, of those received up to it and of those to come. -/
def KeptAfter (call : ReceiveCall) (received : List UInt8) (reads : List (List UInt8)) : Prop :=
  ∀ first, first <+: reads → ∃ decoded ended channel',
    afterCall call first = .done (decoded, ended, channel') ∧
      stream decoded ++ channel'.left = received ++ first.flatten

theorem KeptAfter.first {received : List UInt8} (h : KeptAfter call received reads) :
    stream call.decoded.toList ++ call.channel.left = received := by
  obtain ⟨decoded, ended, channel', hone, hkept⟩ := h [] List.nil_prefix
  obtain ⟨ended', hnil⟩ := afterCall_nil call
  rw [hnil] at hone
  obtain ⟨rfl, hpair⟩ := Outcome.pair_inj hone
  obtain rfl := (Prod.mk.inj hpair).2
  rwa [List.flatten_nil, List.append_nil] at hkept

/-- If no byte is lost, there are no reads behind the end, and none is lost before it. -/
theorem KeptAfter.rest {received : List UInt8} (h : KeptAfter call received reads)
    (hne : ∀ d ∈ reads, d ≠ []) :
    (call.ret = 0 → reads = []) ∧ (call.ret ≠ 0 → Kept call.channel reads) := by
  have hcall := h.first
  refine ⟨fun hret => ?_, fun hret first hfirst => ?_⟩
  · -- A read behind the end would not be received.
    rcases reads with _ | ⟨data, reads⟩
    · rfl
    · obtain ⟨decoded, ended, channel', hone, hkept⟩ := h [data] ⟨reads, rfl⟩
      rw [afterCall, if_pos hret] at hone
      obtain ⟨rfl, hpair⟩ := Outcome.pair_inj hone
      obtain rfl := (Prod.mk.inj hpair).2
      rw [hcall, List.flatten_singleton] at hkept
      exact absurd (List.self_eq_append_right.1 hkept) (hne data List.mem_cons_self)
  · obtain ⟨decoded, ended, channel', hrun, hkept⟩ := h first hfirst
    rw [afterCall, if_neg hret, Outcome.bind_eq_done] at hrun
    obtain ⟨⟨decoded', rest⟩, hrest, hrun⟩ := hrun
    obtain ⟨rfl, rfl⟩ := Outcome.pair_inj hrun
    refine ⟨decoded', ended, channel', hrest, ?_⟩
    rwa [← hcall, stream_append, List.append_assoc, List.append_assoc,
      List.append_cancel_left_eq] at hkept

theorem Kept.after (h : Kept channel (data :: reads))
    (hcall : procFileReceive channel data = .done call) :
    KeptAfter call (channel.left ++ data) reads := by
  intro first hfirst
  obtain ⟨decoded, ended, channel', hrun, hkept⟩ :=
    h (data :: first) (List.cons_prefix_cons.2 ⟨rfl, hfirst⟩)
  rw [receiveRest_cons hcall] at hrun
  exact ⟨decoded, ended, channel', hrun, by rw [hkept, List.flatten_cons, List.append_assoc]⟩

/-- If no byte is lost, the first read to come brings a package. -/
theorem Kept.cons (h : Kept channel (data :: reads)) (hne : ∀ d ∈ data :: reads, d ≠ []) :
    ∃ call package, procFileReceive channel data = .done call ∧ call.decoded = some package ∧
      KeptAfter call (channel.left ++ data) reads := by
  obtain ⟨decoded, ended, channel', hone, -⟩ := h [data] ⟨reads, rfl⟩
  obtain ⟨call, hcall, -⟩ := Outcome.bind_eq_done.1 hone
  have hafter := h.after hcall
  obtain ⟨package, hdecoded⟩ := exists_decoded (hne data List.mem_cons_self) hcall hafter.first
  exact ⟨call, package, hcall, hdecoded, hafter⟩

/-- The packages decoded keep pace with the bytes received before the reads to come, and
    those of the reads. -/
def Paced (decoded : List PolicyfileData) (received : List UInt8) (reads : List (List UInt8)) :
    Prop :=
  decoded.length = reads.length ∧ ∀ i ≤ decoded.length,
    (stream (decoded.take i)).length ≤ (received ++ (reads.take i).flatten).length

/-- Behind a call that decodes a package, the packages keep pace if those of the reads to
    come do. -/
theorem KeptAfter.paced {received : List UInt8} {package : PolicyfileData}
    (h : KeptAfter call received reads) (hne : ∀ d ∈ reads, d ≠ [])
    (hdecoded : call.decoded = some package)
    (ih : Kept call.channel reads → ∀ rest ended channel', receiveRest call.channel reads =
      .done (rest, ended, channel') → Paced rest call.channel.left reads)
    {decoded : List PolicyfileData} {ended : Bool}
    (hrun : afterCall call reads = .done (decoded, ended, channel')) :
    ∃ rest, decoded = package :: rest ∧ rest.length = reads.length ∧ ∀ i ≤ rest.length,
      (struct2Blob package ++ stream (rest.take i)).length ≤
        (received ++ (reads.take i).flatten).length := by
  obtain ⟨hend, hnext⟩ := h.rest hne
  have hcall := h.first
  rw [hdecoded, Option.toList_some, stream_cons, stream_nil, List.append_nil] at hcall
  rw [afterCall, hdecoded] at hrun
  by_cases hret : call.ret = 0
  · rw [if_pos hret] at hrun
    obtain ⟨rfl, _⟩ := Outcome.pair_inj hrun
    obtain rfl := hend hret
    refine ⟨[], rfl, rfl, fun i _ => ?_⟩
    rw [← hcall, List.take_nil, stream_nil, List.append_nil, List.length_append, List.length_append]
    omega
  · rw [if_neg hret, Outcome.bind_eq_done] at hrun
    obtain ⟨⟨rest, ended', channel''⟩, hrest, hrun⟩ := hrun
    obtain ⟨rfl, _⟩ := Outcome.pair_inj hrun
    obtain ⟨hlen, hpace⟩ := ih (hnext hret) _ _ _ hrest
    refine ⟨rest, rfl, hlen, fun i hi => ?_⟩
    have hle := hpace i hi
    rw [← hcall, List.append_assoc]
    rw [List.length_append] at hle ⊢
    rw [List.length_append, List.length_append]
    omega

/-- If no byte is lost, each read brings a package, and keeps pace. -/
theorem Kept.paced (h : Kept channel reads) (hne : ∀ d ∈ reads, d ≠ [])
    {decoded : List PolicyfileData} {ended : Bool}
    (hrun : receiveRest channel reads = .done (decoded, ended, channel')) :
    Paced decoded channel.left reads := by
  induction reads generalizing channel decoded ended channel' with
  | nil =>
    obtain ⟨rfl, _⟩ := Outcome.pair_inj hrun
    exact ⟨rfl, fun i _ => by rw [List.take_nil]; exact Nat.zero_le _⟩
  | cons data reads ih =>
    have hne' : ∀ d ∈ reads, d ≠ [] := fun d hd => hne d (List.mem_cons_of_mem _ hd)
    obtain ⟨call, package, hcall, hdecoded, hafter⟩ := h.cons hne
    rw [receiveRest_cons hcall] at hrun
    obtain ⟨rest, rfl, hlen, hpace⟩ := hafter.paced hne' hdecoded
      (fun hkept _ _ _ hrest => ih hkept hne' hrest) hrun
    refine ⟨by rw [List.length_cons, List.length_cons, hlen], fun i hi => ?_⟩
    rcases i with _ | i
    · exact Nat.zero_le _
    · rw [List.take_succ_cons, List.take_succ_cons, stream_cons, List.flatten_cons,
        ← List.append_assoc]
      exact hpace i (Nat.le_of_succ_le_succ hi)

/-- The file stays short while packages inside of it are decoded. -/
theorem Short.receiveRest {filename : CString} {size : Int} (h : Short filename size channel)
    {decoded : List PolicyfileData} {ended : Bool}
    (hrun : receiveRest channel reads = .done (decoded, ended, channel'))
    (hp : ∀ package ∈ decoded, Inside filename size package) : Short filename size channel' := by
  induction reads generalizing channel decoded ended channel' with
  | nil =>
    obtain ⟨-, hpair⟩ := Outcome.pair_inj hrun
    obtain rfl := (Prod.mk.inj hpair).2
    exact h
  | cons data reads ih =>
    obtain ⟨call, hcall, -⟩ := Outcome.bind_eq_done.1 hrun
    rw [receiveRest_cons hcall, afterCall] at hrun
    split_ifs at hrun
    · obtain ⟨rfl, hpair⟩ := Outcome.pair_inj hrun
      obtain rfl := (Prod.mk.inj hpair).2
      exact h.procFileReceive hcall fun package hmem => hp package (Option.mem_toList.2 hmem)
    · rw [Outcome.bind_eq_done] at hrun
      obtain ⟨⟨rest, ended', channel''⟩, hrest, hrun⟩ := hrun
      obtain ⟨rfl, hpair⟩ := Outcome.pair_inj hrun
      obtain rfl := (Prod.mk.inj hpair).2
      exact ih (h.procFileReceive hcall fun package hmem =>
        hp package (List.mem_append_left _ (Option.mem_toList.2 hmem))) hrest
          fun package hmem => hp package (List.mem_append_right _ hmem)

/-- What a call of `proc_file_receive_start` comes to when no bytes are kept: none are
    kept, and there is an error, or a package decoded whose file is written from its
    start. -/
theorem procFileReceiveStart_eq_done (filename : CString) (size : Int)
    (hleft : channel.leftSize = 0) (hcall : procFileReceiveStart channel data = .done call) :
    call.channel.left = [] ∧ (call.decoded = none ∨ ∃ package, call.decoded = some package ∧
      (Inside filename size package → Short filename size call.channel)) := by
  have hempty : ∀ c : Channel, c.leftSize = 0 → c.left = [] := fun c hc => by
    rw [Channel.left, hc, List.take_zero]
  rw [procFileReceiveStart] at hcall
  split_ifs at hcall with hfits
  rcases hdecode : blob2Struct (channel.blob.put 0 data hfits).bytes with ⟨package, n⟩ | e | _
  · simp only [hdecode] at hcall
    obtain ⟨hdecoded, hkeep⟩ := finishReceive_eq_done hcall
    refine ⟨hkeep.trans (hempty _ hleft), .inr ⟨package, hdecoded, fun hp => ?_⟩⟩
    have hoff := hp.offset_nonneg
    have hle := hp.le_size
    refine Short.finishReceive ⟨⟨[], ?_, ?_⟩, fun name place hfd => ?_⟩ hp hcall
    · rw [← hp.filename_eq]
      exact Function.update_self ..
    · rw [List.length_nil]
      omega
    · rw [← hp.filename_eq]
      exact (Prod.mk.inj (Option.some.inj hfd)).1.symm
  · simp only [hdecode] at hcall
    obtain rfl := Outcome.done.inj hcall
    exact ⟨hempty _ hleft, .inl rfl⟩
  · simp only [hdecode] at hcall
    cases hcall

/-- Reads that bring the packages keep pace with them, and the file is no longer than
    what the packages are inside of. -/
theorem keepsPace_of_framed {content : List UInt8}
    {packages : List PolicyfileData} (hleft : channel.leftSize = 0)
    (hne : ∀ d ∈ reads, d ≠ []) (h : Framed channel filename content packages reads)
    (hp : ∀ package ∈ packages, Inside filename size package) :
    KeepsPace packages reads ∧ content.length ≤ size := by
  obtain ⟨channel', hrun, hcontent⟩ := h.complete
  rcases reads with _ | ⟨data, reads⟩
  · -- Without a read the end is not reached.
    cases (Prod.mk.inj (Outcome.pair_inj hrun).2).1
  obtain ⟨call, hcall, -⟩ := Outcome.bind_eq_done.1 hrun
  rw [receiveFile_cons hcall] at hrun
  have hafter : KeptAfter call data reads := by
    intro first hfirst
    obtain ⟨decoded, ended, channel'', hdone, hkept⟩ :=
      h.kept (data :: first) (List.cons_prefix_cons.2 ⟨rfl, hfirst⟩)
    rw [receiveFile_cons hcall] at hdone
    exact ⟨decoded, ended, channel'', hdone, hkept⟩
  have hne' : ∀ d ∈ reads, d ≠ [] := fun d hd => hne d (List.mem_cons_of_mem _ hd)
  have hfirst := hafter.first
  obtain ⟨hempty, hnone | ⟨package, hdecoded, hshort⟩⟩ :=
    procFileReceiveStart_eq_done filename size hleft hcall
  · -- After an error at the first read, its bytes are lost.
    rw [hempty, hnone] at hfirst
    exact absurd hfirst.symm (hne data List.mem_cons_self)
  rw [hempty, hdecoded, Option.toList_some, stream_cons, stream_nil, List.append_nil,
    List.append_nil] at hfirst
  obtain ⟨rest, rfl, hlen, hpace⟩ := hafter.paced hne' hdecoded
    (fun hkept _ _ _ hrest => hkept.paced hne' hrest) hrun
  refine ⟨⟨List.cons_ne_nil _ _, by rw [List.length_cons, List.length_cons, hlen], ?_, ?_⟩, ?_⟩
  · simp only [List.take_succ_cons, List.take_zero, stream_cons, stream_nil, List.append_nil,
      List.flatten_cons, List.flatten_nil, hfirst]
  · intro i hi
    rcases i with _ | i
    · exact Nat.zero_le _
    · rw [List.take_succ_cons, List.take_succ_cons, stream_cons, List.flatten_cons]
      exact hpace i (Nat.le_of_succ_le_succ hi)
  · -- The file is the one of the packages.
    have hstart := hshort (hp package List.mem_cons_self)
    have hend : Short filename size channel' := by
      rw [afterCall, hdecoded] at hrun
      split_ifs at hrun
      · obtain ⟨-, hpair⟩ := Outcome.pair_inj hrun
        rw [← (Prod.mk.inj hpair).2]
        exact hstart
      · rw [Outcome.bind_eq_done] at hrun
        obtain ⟨⟨rest', ended, channel''⟩, hrest, hrun⟩ := hrun
        obtain ⟨hlist, hpair⟩ := Outcome.pair_inj hrun
        rw [← (Prod.mk.inj hpair).2]
        obtain rfl : rest' = rest := (List.cons.inj hlist).2
        exact hstart.receiveRest hrest fun p hmem => hp p (List.mem_cons_of_mem _ hmem)
    obtain ⟨content', hfile, hle⟩ := hend.file
    obtain rfl := Option.some.inj (hcontent.symm.trans hfile)
    exact hle

end Calls

/-! ## The transfer of a file -/

section Transfer

variable {sm3 : List UInt8 → Uuid} {files : Files} {filename : CString} {content : List UInt8}
  {sender : Sender} {channel : Channel} {reads : List (List UInt8)}

/-- However the connection splits the packages of a file into reads, they are decoded in
    order, no byte is lost, and the file is written, exactly when it is shorter than
    `2 ^ 31` and the reads keep pace with the packages. -/
theorem framed_iff (hfile : files filename = some content)
    (hstart : procFileSendStart sm3 files filename = .done sender) {n : Nat}
    (hcalls : content.length < 512 * n) (hleft : channel.leftSize = 0)
    (hsplit : IsSplit channel (sendAll n sender) reads) :
    Framed channel filename content (sendAll n sender) reads ↔
      content.length < 2 ^ 31 ∧ KeepsPace (sendAll n sender) reads := by
  obtain rfl : senderAt sm3 filename content 0 = sender := by
    simp only [procFileSendStart, hfile] at hstart
    exact Outcome.done.inj hstart
  constructor
  · intro h
    have hlt := Int32.toInt_lt (senderAt sm3 filename content 0).totalSize
    obtain ⟨hpace, hle⟩ := keepsPace_of_framed hleft hsplit.ne_nil h inside_of_mem_sendAll
    exact ⟨by omega, hpace⟩
  · rintro ⟨hlen, hpace⟩
    have hn : numPackages content.length ≤ n := by
      rw [numPackages, numBlocks]
      omega
    have hpackages : sendAll n (senderAt sm3 filename content 0) =
        blocksFrom sm3 filename content 0 := by
      rw [sendAll_eq_of_ne_nil hlen hn hpace.ne_nil, blocksFrom, Nat.sub_zero,
        ← List.range_eq_range']
    exact framed_of_keepsPace hleft hlen hpackages hsplit hpace

/-- A receiving end at which nothing has been received. -/
def Channel.fresh : Channel :=
  ⟨fun _ => none, none, ⟨List.replicate blobSize 0, List.length_replicate⟩, 0⟩

theorem zero_notMem_z : (0 : UInt8) ∉ [122] := by decide

/-- The name `z`. -/
def sampleName : CString := ⟨[122], zero_notMem_z⟩

/-- The sending end for a file of 513 zeros. -/
def zerosSender : Sender :=
  senderAt (fun _ => Vector.replicate 32 0) sampleName (List.replicate 513 0) 0

/-- The packages of the file. -/
def zerosBlock : Nat → PolicyfileData :=
  fileBlock (fun _ => Vector.replicate 32 0) sampleName (List.replicate 513 0)

theorem length_zerosBlock (i : Nat) :
    (struct2Blob (zerosBlock i)).length = 50 + min 512 (513 - 512 * i) := by
  have hpiece := length_piece (List.replicate 513 0) i
  rw [List.length_replicate] at hpiece
  have hname : (zerosBlock i).filename.chars.length = 1 := rfl
  have hdata : (zerosBlock i).fileData = piece (List.replicate 513 0) i := rfl
  rw [length_struct2Blob, hdata, hpiece, size_numbers, hname]

theorem sendAll_zeros : sendAll 2 zerosSender = [zerosBlock 0, zerosBlock 1] := by
  have hcount : numPackages (List.replicate 513 (0 : UInt8)).length = 2 := by
    rw [List.length_replicate]
    rfl
  refine (sendAll_eq (by rw [List.length_replicate]; decide) (fun i => ?_) (by rw [hcount]; decide)
    (by rw [hcount])).trans ?_
  · rw [← zerosBlock, length_zerosBlock, blobSize]
    omega
  · rw [hcount]
    rfl

/-- The connection may put all packages into one read that is not too long. -/
theorem isSplit_singleton {packages : List PolicyfileData} (hne : stream packages ≠ [])
    (hle : (stream packages).length ≤ 1024) : IsSplit channel packages [stream packages] := by
  refine ⟨List.flatten_singleton, fun d hd => ?_, fun d hd => ?_, fun d rest call h _ _ => ?_⟩
  · rwa [List.mem_singleton.1 hd]
  · rwa [← Option.some.inj hd]
  · obtain rfl := (List.cons.inj h).2
    trivial

/-- 513 zeros are sent in two packages, which come in two reads. -/
theorem two_packages_framed :
    Framed .fresh sampleName (List.replicate 513 0) (sendAll 2 zerosSender)
      [struct2Blob (zerosBlock 0), struct2Blob (zerosBlock 1)] := by
  have hstart : procFileSendStart (fun _ => Vector.replicate 32 0)
      (fun _ => some (List.replicate 513 0)) sampleName = .done zerosSender := rfl
  have hlen : (List.replicate 513 (0 : UInt8)).length = 513 := List.length_replicate
  have hne : ∀ i, struct2Blob (zerosBlock i) ≠ [] := fun i =>
    List.ne_nil_of_length_pos (by rw [length_zerosBlock]; omega)
  have hsplit : IsSplit .fresh (sendAll 2 zerosSender)
      [struct2Blob (zerosBlock 0), struct2Blob (zerosBlock 1)] := by
    refine ⟨by rw [sendAll_zeros]; rfl, fun d hd => ?_, fun d hd => ?_, fun d rest call h hcall _ =>
      ?_⟩
    · rcases List.mem_pair.1 hd with rfl | rfl <;> exact hne _
    · obtain rfl := Option.some.inj hd
      rw [length_zerosBlock]
      omega
    · -- Nothing is left of the first package.
      obtain ⟨rfl, rfl⟩ := List.cons.inj h
      obtain ⟨channel', hdone, hleft, -⟩ := @procFileReceiveStart_fileBlock
        (fun _ => Vector.replicate 32 0) sampleName (List.replicate 513 0) .fresh rfl
        (by rw [hlen]; decide) (by rw [← zerosBlock, length_zerosBlock]; decide)
      obtain rfl := Outcome.done.inj (hdone.symm.trans hcall)
      exact ⟨by rw [length_zerosBlock, Channel.request, hleft]; decide, fun _ _ _ => trivial⟩
  refine (framed_iff rfl hstart (by rw [hlen]; decide) rfl hsplit).2 ⟨by rw [hlen]; decide, ?_⟩
  rw [sendAll_zeros]
  refine ⟨List.cons_ne_nil _ _, rfl, rfl, fun i hi => ?_⟩
  have hi : i = 0 ∨ i = 1 ∨ i = 2 := by
    rw [List.length_cons, List.length_singleton] at hi
    omega
  rcases hi with rfl | rfl | rfl <;> exact Nat.le_refl _

/-- The two packages of 513 zeros come in one read: the second one is not decoded. -/
theorem two_packages_in_one_read :
    IsSplit .fresh (sendAll 2 zerosSender) [stream (sendAll 2 zerosSender)] ∧
      ¬ Framed .fresh sampleName (List.replicate 513 0) (sendAll 2 zerosSender)
        [stream (sendAll 2 zerosSender)] := by
  have hstream : (stream (sendAll 2 zerosSender)).length = 613 := by
    rw [sendAll_zeros, stream_cons, stream_cons, stream_nil, List.append_nil, List.length_append,
      length_zerosBlock, length_zerosBlock]
    decide
  have hne : stream (sendAll 2 zerosSender) ≠ [] := List.ne_nil_of_length_pos (by omega)
  refine ⟨isSplit_singleton hne (by rw [hstream]; decide), fun h => ?_⟩
  obtain ⟨hpace, -⟩ := keepsPace_of_framed rfl (fun d hd => by rwa [List.mem_singleton.1 hd]) h
    inside_of_mem_sendAll
  have hcount := hpace.length_eq
  rw [sendAll_zeros] at hcount
  cases hcount

end Transfer

end Cube.FileTrans.FileChannel
