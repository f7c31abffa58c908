import Cube.Crypto.Context
import Cube.Crypto.Sm3
import Cube.Struct.FlagNames

/-!
# Encryption of files

The service of `file_sm4_crypt.c`. A message names a file to be encrypted or decrypted, and a key.
The file is read in pieces to a buffer of 1024 bytes, each piece is encrypted for itself, and what
comes of them is put in another file, whose name and digest are the answer.

The test whether a whole piece is left takes the offset off twice. So the last piece is larger
than the others, and for a file that is too large it is larger than the buffer.

* `Changes.append`: the pieces are encrypted as the whole is, if they are of whole blocks.
* `cryptLoop_cases`: the loop comes to its end for a file of 2048 bytes at most; it writes outside
  the buffer for any other.
* `fileCrypt_roundTrip`: a file that is encrypted and then decrypted under its new name is what it
  was.
-/

namespace Cube.Crypto.FileCrypt

open Lib
open Message (Heap)
open Struct (getfiledfromstr)
open Sm3 (FileRead Sm3ContextExt calculateSm3 sm3)

/-- The size of `Buf`, `DIGEST_SIZE*32`. -/
def bufSize : Nat := 1024

/-- `block_size`, `DIGEST_SIZE*16`. -/
def blockSize : Nat := 512

/-- The name of a file with its directories. -/
abbrev Path := List Char

/-- The files there are, by their paths. -/
abbrev Files := Path → Option (List UInt8)

/-- What the service is run with: the directory of the files, the key that is used for want of
    another, the memory, whether a file can be opened for its output, how much `write` writes of
    so many bytes at an offset (nothing where it fails), how a file is cut into the reads for its
    digest, and what is on the stack and in `Buf`. -/
structure Service where
  fileDir : Path
  defaultKey : List UInt8
  heap : Heap
  opens : Path → Bool
  writes : Path → Int → Nat → Nat
  cut : List UInt8 → List FileRead
  cut_eq : ∀ bytes, ((cut bytes).map FileRead.bytes).flatten = bytes
  stack : Sm3ContextExt
  buf : Vector UInt8 bufSize

/-- What is done with a file, `crypt_mode`. -/
inductive CryptMode
  | none
  | crypt
  | decrypt
  deriving DecidableEq, Repr

/-- The record `GENERAL_RETURN,UUID` of a message. -/
structure Command where
  name : List Char
  returnValue : List UInt8
  deriving DecidableEq, Repr

variable (svc : Service)

/-- The variables of the loop: the files, `Buf`, the offset and how much was written. -/
structure CryptLoop where
  files : Files
  buf : List UInt8
  offset : Int
  total : Int

/-- `sm4_context_crypt` or `sm4_context_decrypt`. -/
def contextOf : CryptMode → Heap → List UInt8 → Int → List UInt8 → Outcome OutBlob
  | .decrypt => sm4ContextDecrypt
  | _ => sm4ContextCrypt

/-- The size of the next piece. -/
def pieceSize (fileSize offset : Int) : Int :=
  let leftSize := fileSize - offset
  if leftSize - offset > blockSize then blockSize else leftSize

/-- The loop over the pieces of a file, in as many rounds as the first argument says: its
    variables, and the value if the function returns from the loop. -/
def cryptLoop (mode : CryptMode) (key : List UInt8) (source target : Path) (fileSize : Int) :
    Nat → CryptLoop → Outcome (CryptLoop × Option Int)
  | 0, _ => .fault
  | rounds + 1, s =>
    if s.offset < fileSize then do
      let size := (pieceSize fileSize s.offset).toNat
      let bytes := slice ((s.files source).getD []) s.offset.toNat (s.offset.toNat + size)
      let buf ← memcpy s.buf 0 bytes
      if bytes.length ≠ size then .done ({ s with buf := buf }, some (-EINVAL))
      else do
        let input ← fetch buf 0 size
        match contextOf mode svc.heap input size key with
        | .fault => .fault
        -- The error is taken for the size of what is to be written.
        | .error _ => .done ({ s with buf := buf }, some (-EINVAL))
        | .done out =>
          match out.cells.mapM id with
          | none => .fault
          | some output =>
            let written := svc.writes target s.total output.length
            let s : CryptLoop :=
              { files := Function.update s.files target
                  (some ((s.files target).getD [] ++ output.take written))
                buf := buf
                offset := s.offset + size
                total := s.total + output.length }
            if written ≠ output.length then .done (s, some (-EINVAL))
            else cryptLoop mode key source target fileSize rounds s
    else .done (s, none)

/-- `calculate_sm3` of a file. -/
def fileDigest (files : Files) (path : Path) (uuid : List UInt8) : Outcome (List UInt8) :=
  match files path with
  | none => .done uuid
  | some bytes => Prod.snd <$> calculateSm3 svc.stack (svc.cut bytes) false

/-- `file_buf` of the path of a file. A directory that fills its part of the array, or a name that
    fills the rest, is not ended. -/
def pathOf (name : List Char) : Outcome Path :=
  if svc.fileDir.length < 64 ∧ name.length < 128 then .done (svc.fileDir ++ '/' :: name) else .fault

/-- `_datademo_file_sm4_crypt`: the files, what is returned, and the uuid. -/
def fileSm4Crypt (files : Files) (fileName outputFileName : List Char) (key : List UInt8)
    (mode : CryptMode) (uuid : List UInt8) : Outcome (Files × Int × List UInt8) := do
  let source ← pathOf svc fileName
  match files source with
  | none => .done (files, -1, uuid)
  | some bytes =>
    let fileSize := Int.bmod bytes.length (2 ^ 32)
    if mode = .none then do
      let uuid ← fileDigest svc files source uuid
      .done (files, 0, uuid)
    else do
      let target ← pathOf svc outputFileName
      if !svc.opens target then .done (files, -1, uuid)
      else do
        let s : CryptLoop :=
          { files := Function.update files target (some []), buf := svc.buf.toList, offset := 0, total := 0 }
        let (s, returned) ← cryptLoop svc mode key source target fileSize (fileSize.toNat + 1) s
        match returned with
        | some e => .done (s.files, e, uuid)
        | none => do
          let uuid ← fileDigest svc s.files target uuid
          .done (s.files, s.total, uuid)

/-- The commands, and what is put behind the name of an encrypted file. -/
def encryptCmd : List Char := ['e', 'n', 'c', 'r', 'y', 'p', 't']

@[inherit_doc encryptCmd] def decryptCmd : List Char := ['d', 'e', 'c', 'r', 'y', 'p', 't']

@[inherit_doc encryptCmd] def sm4Suffix : List Char := ['.', 's', 'm', '4']

/-- The mode and the name of the output file, by the command and `file_buf`; or an error. -/
def outputName (cmdBuf fileBuf : List Char) : Outcome (Option (CryptMode × List Char)) :=
  if cmdBuf = encryptCmd then .done (some (.crypt, fileBuf.take 123 ++ sm4Suffix))
  else if cmdBuf = decryptCmd then
    let offset := min fileBuf.length 127
    -- What is compared starts before the array.
    if offset < 4 then .fault
    else if fileBuf.drop (offset - 4) = sm4Suffix then
      .done (some (.decrypt, fileBuf.take (offset - 4)))
    else .done none
  else .done (some (.none, []))

/-- The key of a command: its uuid, or the default key and what is behind it, `default_iv`. -/
def cryptKey (returnValue : List UInt8) : List UInt8 :=
  if returnValue.any (· ≠ 0) then returnValue else svc.defaultKey ++ iv

/-- `proc_crypt_file`: the files, and the record of the answer if there is one. -/
def procCryptFile (files : Files) (cmd : Command) : Outcome (Files × Option Command) := do
  let (cmdBuf, offset) := getfiledfromstr cmd.name ':' 16
  -- The name behind the separator, or behind the end of the string.
  let fileBuf ← if offset + 1 ≤ cmd.name.length then .done ((cmd.name.drop (offset + 1)).take 128)
    else .fault
  match ← outputName cmdBuf fileBuf with
  | none => .done (files, none)
  | some (mode, outputFileBuf) => do
    let (files, ret, uuid) ←
      fileSm4Crypt svc files fileBuf outputFileBuf (cryptKey svc cmd.returnValue) mode cmd.returnValue
    if ret < 0 then .done (files, none)
    else
      .done (files, some
        { name := if mode = .none then cmd.name else outputFileBuf
          returnValue := uuid })

/-- The service finds memory, and can open and write the files for its output. -/
structure Service.Unfailing (svc : Service) : Prop where
  heap : ∀ n : Int, 0 < n → svc.heap.ok n = true
  opens : ∀ path, svc.opens path = true
  writes : ∀ path offset n, svc.writes path offset n = n

/-! ## Bytes that are encrypted -/

/-- The bytes are changed to others by blocks under the keys, and by `iv` where less than a block
    is left. -/
def Changes (sk : List UInt64) (input output : List UInt8) : Prop :=
  ∃ (blocks : List (List UInt8)) (rest : List UInt8), (∀ b ∈ blocks, b.length = 16) ∧
    rest.length < 16 ∧ input = blocks.flatten ++ rest ∧
    output = (blocks.map (sm4OneRound sk)).flatten ++ xorIv (16 * blocks.length) rest

variable {sk ks : List UInt64} {input output input' output' : List UInt8}

theorem Changes.length_eq (h : Changes sk input output) : output.length = input.length := by
  obtain ⟨blocks, rest, hblocks, -, rfl, rfl⟩ := h
  rw [List.length_append, List.length_append, length_xorIv, length_flatten_blocks hblocks,
    length_flatten_blocks (List.forall_mem_map.2 fun _ _ => rfl), List.length_map]

/-- The bytes of `iv` come again after sixteen. -/
theorem xorIv_add (k i : Nat) (rest : List UInt8) : xorIv (16 * k + i) rest = xorIv i rest := by
  induction rest generalizing i with
  | nil => rfl
  | cons b rest ih => rw [xorIv, xorIv, Nat.mul_add_mod, Nat.add_assoc, ih]

/-- Behind whole blocks bytes are changed as if they were the first. -/
theorem Changes.append (h : Changes sk input output) (hwhole : 16 ∣ input.length)
    (h' : Changes sk input' output') : Changes sk (input ++ input') (output ++ output') := by
  obtain ⟨blocks, rest, hblocks, hrest, rfl, rfl⟩ := h
  rw [List.length_append, length_flatten_blocks hblocks] at hwhole
  obtain rfl : rest = [] := List.length_eq_zero_iff.1 (by omega)
  obtain ⟨blocks', rest', hblocks', hrest', rfl, rfl⟩ := h'
  refine ⟨blocks ++ blocks', rest', List.forall_mem_append.2 ⟨hblocks, hblocks'⟩, hrest', ?_, ?_⟩
  · rw [List.append_nil, List.flatten_append, List.append_assoc]
  · rw [xorIv, List.append_nil, List.map_append, List.flatten_append, List.append_assoc,
      List.length_append, Nat.mul_add, xorIv_add]

theorem blocks_unique {blocks blocks' : List (List UInt8)} {rest rest' : List UInt8}
    (hblocks : ∀ b ∈ blocks, b.length = 16) (hblocks' : ∀ b ∈ blocks', b.length = 16)
    (hrest : rest.length < 16) (hrest' : rest'.length < 16)
    (h : blocks.flatten ++ rest = blocks'.flatten ++ rest') : blocks = blocks' ∧ rest = rest' := by
  have hlen := congrArg List.length h
  rw [List.length_append, List.length_append, length_flatten_blocks hblocks,
    length_flatten_blocks hblocks'] at hlen
  induction blocks generalizing blocks' with
  | nil =>
    obtain rfl : blocks' = [] := List.length_eq_zero_iff.1 (by rw [List.length_nil] at hlen; omega)
    exact ⟨rfl, h⟩
  | cons b blocks ih =>
    cases blocks' with
    | nil =>
      rw [List.length_cons, List.length_nil] at hlen
      omega
    | cons b' blocks' =>
      obtain ⟨hb, hall⟩ := List.forall_mem_cons.1 hblocks
      obtain ⟨hb', hall'⟩ := List.forall_mem_cons.1 hblocks'
      rw [List.flatten_cons, List.flatten_cons, List.append_assoc, List.append_assoc] at h
      obtain ⟨rfl, htail⟩ := List.append_inj h (hb.trans hb'.symm)
      rw [List.length_cons, List.length_cons] at hlen
      obtain ⟨rfl, hrest⟩ := ih hall hall' htail (by omega)
      exact ⟨rfl, hrest⟩

/-- What bytes are changed to is determined. -/
theorem Changes.unique (h : Changes sk input output) (h' : Changes sk input output') :
    output = output' := by
  obtain ⟨blocks, rest, hblocks, hrest, rfl, rfl⟩ := h
  obtain ⟨blocks', rest', hblocks', hrest', heq, rfl⟩ := h'
  obtain ⟨rfl, rfl⟩ := blocks_unique hblocks hblocks' hrest hrest' heq
  rfl

/-- Keys that undo the blocks undo the change. -/
theorem Changes.undo (hkeys : ∀ b : List UInt8, b.length = 16 → sm4OneRound ks (sm4OneRound sk b) = b)
    (h : Changes sk input output) : Changes ks output input := by
  obtain ⟨blocks, rest, hblocks, hrest, rfl, rfl⟩ := h
  refine ⟨blocks.map (sm4OneRound sk), xorIv (16 * blocks.length) rest,
    List.forall_mem_map.2 fun _ _ => rfl, by rwa [length_xorIv], rfl, ?_⟩
  rw [List.map_map, List.length_map, xorIv_xorIv]
  congr 2
  exact ((List.map_congr_left fun b hb => hkeys b (hblocks b hb)).trans (List.map_id blocks)).symm

/-- The keys of a mode. -/
def keysOf (mode : CryptMode) (key : List UInt8) : List UInt64 :=
  match mode with
  | .decrypt => sm4SetkeyDec (keypass key)
  | _ => sm4SetkeyEnc (keypass key)

/-- What one of the two modes does to bytes, the other undoes. -/
theorem Changes.decrypt {key : List UInt8} (h : Changes (keysOf .crypt key) input output) :
    Changes (keysOf .decrypt key) output input :=
  h.undo fun _ hb => sm4OneRound_dec (keypass key) hb

variable {svc : Service} {mode : CryptMode} {key : List UInt8}

theorem mapM_some (bytes : List UInt8) : (bytes.map some).mapM id = some bytes := by
  induction bytes with
  | nil => rfl
  | cons b bytes ih => simp [ih]

/-- The output of the functions for contexts, where there is memory. -/
theorem contextOf_changes (mode : CryptMode) (key : List UInt8)
    (hheap : ∀ n : Int, 0 < n → svc.heap.ok n = true) (hne : input ≠ []) :
    ∃ out output, contextOf mode svc.heap input input.length key = .done out ∧
      out.cells.mapM id = some output ∧ Changes (keysOf mode key) input output := by
  have hpos : 0 < (input.length : Int) := Int.natCast_pos.2 (List.length_pos_iff.2 hne)
  obtain ⟨blocks, rest, hblocks, hrest, hin⟩ := exists_blocks input
  obtain ⟨out, hout, hfilled⟩ := contextLoops_eq (keysOf mode key) blocks hblocks hrest hin
  refine ⟨out, _, ?_, ?_, blocks, rest, hblocks, hrest, hin, rfl⟩
  · have hcontext : contextOf mode svc.heap input input.length key =
        contextLoops (keysOf mode key) input input.length (outBlob input.length) := by
      cases mode with
      | none | crypt | decrypt =>
        exact (if_neg (Int.not_le.2 hpos)).trans (if_pos (hheap _ hpos))
    rw [hcontext, hout]
  · rw [hfilled.cells_eq, mapM_some]

/-! ## The loop over the pieces -/

variable {source target : Path} {bytes : List UInt8} {s : CryptLoop} {rounds o n : Nat}

/-- A turn with a piece that fits in the buffer. -/
theorem cryptLoop_turn (mode : CryptMode) (key : List UInt8) (target : Path) (rounds : Nat)
    (hsvc : svc.Unfailing) (hsource : s.files source = some bytes) (hbuf : s.buf.length = bufSize)
    (ho : s.offset = o) (hsize : pieceSize bytes.length o = n) (hpos : 0 < n)
    (hle : o + n ≤ bytes.length) (hn : n ≤ bufSize) :
    ∃ output buf, Changes (keysOf mode key) (slice bytes o (o + n)) output ∧ buf.length = bufSize ∧
      cryptLoop svc mode key source target bytes.length (rounds + 1) s =
        cryptLoop svc mode key source target bytes.length rounds
          { files := Function.update s.files target (some ((s.files target).getD [] ++ output))
            buf := buf
            offset := (o + n : Nat)
            total := s.total + n } := by
  have hlen : (slice bytes o (o + n)).length = n := by
    rw [length_slice hle, Nat.add_sub_cancel_left]
  have hfits : 0 + (slice bytes o (o + n)).length ≤ s.buf.length := by omega
  obtain ⟨out, output, hcontext, hwritten, hchanges⟩ := contextOf_changes mode key hsvc.heap
    (List.length_pos_iff.1 (by omega : 0 < (slice bytes o (o + n)).length))
  refine ⟨output, patch s.buf 0 (slice bytes o (o + n)), hchanges, (length_patch hfits).trans hbuf, ?_⟩
  have hfetch : fetch (patch s.buf 0 (slice bytes o (o + n))) 0 n = .done (slice bytes o (o + n)) :=
    fetch_memcpy (memcpy_eq hfits) hlen.symm
  rw [hlen] at hcontext
  rw [cryptLoop, ho, if_pos (by omega), hsize, hsource, Option.getD_some, Int.toNat_natCast,
    Int.toNat_natCast]
  dsimp only
  rw [memcpy_eq hfits, Outcome.done_bind, if_neg (not_not.2 hlen), hfetch,
    Outcome.done_bind, hcontext]
  dsimp only
  rw [hwritten]
  dsimp only
  rw [hsvc.writes, if_neg (not_not.2 rfl), List.take_length, hchanges.length_eq, hlen]
  rfl

/-- A piece that does not fit in the buffer. -/
theorem cryptLoop_overrun (hsource : s.files source = some bytes) (hbuf : s.buf.length = bufSize)
    (ho : s.offset = o) (hsize : pieceSize bytes.length o = n) (hle : o + n ≤ bytes.length)
    (hn : bufSize < n) :
    cryptLoop svc mode key source target bytes.length (rounds + 1) s = .fault := by
  have hlen : (slice bytes o (o + n)).length = n := by
    rw [length_slice hle, Nat.add_sub_cancel_left]
  rw [cryptLoop, ho, if_pos (by omega), hsize, hsource, Option.getD_some, Int.toNat_natCast,
    Int.toNat_natCast]
  dsimp only
  rw [memcpy, if_neg (by omega)]
  rfl

theorem pieceSize_whole (h : 2 * o + blockSize < n) : pieceSize n o = blockSize := by
  rw [pieceSize, if_pos (by omega)]

theorem pieceSize_last (h : n ≤ 2 * o + blockSize) : pieceSize n o = (n : Int) - o := by
  rw [pieceSize, if_neg (by omega)]

/-- What is so before a turn: so many whole pieces were encrypted, and after the first one
    more was left than another. -/
structure Before (svc : Service) (mode : CryptMode) (key : List UInt8) (source target : Path)
    (bytes : List UInt8) (k : Nat) (s : CryptLoop) : Prop where
  source_eq : s.files source = some bytes
  buf_length : s.buf.length = bufSize
  offset_eq : s.offset = (blockSize * k : Nat)
  total_eq : s.total = (blockSize * k : Nat)
  written : ∃ output, s.files target = some output ∧
    Changes (keysOf mode key) (bytes.take (blockSize * k)) output
  left : k = 0 ∨ 2 * (blockSize * k) < bytes.length + blockSize

theorem take_append_slice (h : o ≤ n) : bytes.take o ++ slice bytes o n = bytes.take n :=
  slice_append_slice (l := bytes) (a := 0) (Nat.zero_le o) h

/-- The loop encrypts a file of 2048 bytes at most, and runs over the buffer for any other. -/
theorem cryptLoop_cases (hsvc : svc.Unfailing) (hne : source ≠ target)
    {k : Nat} (h : Before svc mode key source target bytes k s) (hle : blockSize * k ≤ bytes.length)
    (hrounds : bytes.length < rounds + blockSize * k) :
    (bytes.length ≤ 2048 → ∃ s' output,
      cryptLoop svc mode key source target bytes.length rounds s = .done (s', none) ∧
      s'.files = Function.update s.files target (some output) ∧ s'.total = bytes.length ∧
      Changes (keysOf mode key) bytes output) ∧
    (2048 < bytes.length →
      cryptLoop svc mode key source target bytes.length rounds s = .fault) := by
  induction rounds generalizing k s with
  | zero => omega
  | succ rounds ih =>
    obtain ⟨output, htarget, hwritten⟩ := h.written
    have hblock : blockSize = 512 := rfl
    have hk : blockSize * k = 512 * k := rfl
    have hbuf : bufSize = 1024 := rfl
    by_cases hwhole : 2 * (blockSize * k) + blockSize < bytes.length
    · -- A whole piece is taken.
      obtain ⟨more, buf, hmore, hbuflen, hturn⟩ := cryptLoop_turn mode key target rounds hsvc
        h.source_eq h.buf_length h.offset_eq (pieceSize_whole hwhole) (by omega) (by omega) (by omega)
      rw [hturn]
      have hnext : blockSize * k + blockSize = blockSize * (k + 1) := rfl
      have hlen : (bytes.take (blockSize * k)).length = blockSize * k := by
        rw [List.length_take]
        omega
      have hafter : Before svc mode key source target bytes (k + 1)
          { files := Function.update s.files target (some ((s.files target).getD [] ++ more))
            buf := buf
            offset := (blockSize * k + blockSize : Nat)
            total := s.total + blockSize } := by
        refine ⟨?_, hbuflen, rfl, ?_, ⟨output ++ more, ?_, ?_⟩, .inr (by omega)⟩
        · exact (Function.update_of_ne hne _ _).trans h.source_eq
        · change s.total + _ = _
          rw [h.total_eq]
          rfl
        · dsimp only
          rw [Function.update_self, htarget, Option.getD_some]
        · rw [← hnext, ← take_append_slice (Nat.le_add_right _ _)]
          exact hwritten.append (by rw [hlen, hblock]; omega) hmore
      obtain ⟨hdone, hfault⟩ := ih hafter (by omega) (by omega)
      refine ⟨fun hsmall => ?_, hfault⟩
      obtain ⟨s', output', hloop, hfiles, htotal, hchanges⟩ := hdone hsmall
      refine ⟨s', output', hloop, ?_, htotal, hchanges⟩
      rw [hfiles, Function.update_idem]
    · have hsize : pieceSize bytes.length (blockSize * k : Nat) =
          (bytes.length - blockSize * k : Nat) := by
        rw [pieceSize_last (by omega)]
        omega
      rcases Nat.eq_or_lt_of_le hle with hend | hlt
      · -- Nothing is left.
        refine ⟨fun _ => ⟨s, output, ?_, ?_, ?_, ?_⟩, fun hlarge => ?_⟩
        · rw [cryptLoop, h.offset_eq, if_neg (by omega)]
        · rw [← htarget, Function.update_eq_self]
        · rw [h.total_eq, hend]
        · rwa [hend, List.take_length] at hwritten
        · rcases h.left with rfl | hleft <;> omega
      · refine ⟨fun hsmall => ?_, fun hlarge => ?_⟩
        · -- The rest is the last piece.
          obtain ⟨more, buf, hmore, hbuflen, hturn⟩ := cryptLoop_turn mode key target rounds hsvc
            h.source_eq h.buf_length h.offset_eq hsize
            (by omega) (by omega) (by rcases h.left with rfl | hleft <;> omega)
          obtain ⟨r, rfl⟩ := Nat.exists_eq_succ_of_ne_zero (by omega : rounds ≠ 0)
          have hall : blockSize * k + (bytes.length - blockSize * k) = bytes.length := by omega
          have hlen : (bytes.take (blockSize * k)).length = blockSize * k := by
            rw [List.length_take]
            omega
          rw [hturn, cryptLoop, if_neg (by simp only [hall]; omega), htarget, Option.getD_some]
          refine ⟨_, output ++ more, rfl, rfl, ?_, ?_⟩
          · change s.total + _ = _
            rw [h.total_eq]
            omega
          · have happend := hwritten.append (by rw [hlen, hblock]; omega) hmore
            rwa [hall, take_append_slice hle, List.take_length] at happend
        · refine cryptLoop_overrun h.source_eq h.buf_length h.offset_eq hsize (by omega) ?_
          rcases h.left with rfl | hleft
          · omega
          · omega

/-! ## Commands -/

variable {files : Files} {fileName outputFileName name : List Char} {uuid : List UInt8}

/-- The path of a file of the service. -/
def Service.path (svc : Service) (name : List Char) : Path := svc.fileDir ++ '/' :: name

theorem Service.path_injective (svc : Service) : Function.Injective svc.path := fun a b h => by
  have htail := List.append_cancel_left h
  exact (List.cons.inj htail).2

theorem pathOf_eq (hdir : svc.fileDir.length < 64) (hname : name.length < 128) :
    pathOf svc name = .done (svc.path name) := if_pos ⟨hdir, hname⟩

/-- The digest of a file there is. -/
theorem fileDigest_eq {path : Path} (h : files path = some bytes) :
    fileDigest svc files path uuid = .done (sm3 bytes) := by
  rw [fileDigest, h]
  dsimp only
  rw [Sm3.calculateSm3_eq, svc.cut_eq, Outcome.map_done]

/-- A file is encrypted or decrypted to another one. -/
theorem fileSm4Crypt_cases (key uuid : List UInt8) (hsvc : svc.Unfailing)
    (hdir : svc.fileDir.length < 64) (hmode : mode ≠ .none) (hname : fileName.length < 128)
    (houtput : outputFileName.length < 128) (hne : fileName ≠ outputFileName)
    (hfile : files (svc.path fileName) = some bytes) (hsize : bytes.length < 2 ^ 31) :
    (bytes.length ≤ 2048 → ∃ output, Changes (keysOf mode key) bytes output ∧
      fileSm4Crypt svc files fileName outputFileName key mode uuid =
        .done (Function.update files (svc.path outputFileName) (some output), bytes.length,
          sm3 output)) ∧
    (2048 < bytes.length →
      fileSm4Crypt svc files fileName outputFileName key mode uuid = .fault) := by
  have hpath : svc.path fileName ≠ svc.path outputFileName := svc.path_injective.ne hne
  have hint : Int.bmod bytes.length (2 ^ 32) = bytes.length := by
    refine Int.bmod_eq_of_le ?_ ?_ <;> omega
  have hbefore : Before svc mode key (svc.path fileName) (svc.path outputFileName) bytes 0
      { files := Function.update files (svc.path outputFileName) (some [])
        buf := svc.buf.toList, offset := 0, total := 0 } :=
    { source_eq := (Function.update_of_ne hpath _ _).trans hfile
      buf_length := Vector.length_toList
      offset_eq := rfl
      total_eq := rfl
      written := ⟨[], Function.update_self .., [], [], nofun, by decide, rfl, rfl⟩
      left := .inl rfl }
  have hrounds : bytes.length < bytes.length + 1 + blockSize * 0 := Nat.lt_succ_self _
  obtain ⟨hdone, hfault⟩ := cryptLoop_cases hsvc hpath hbefore (Nat.zero_le _) hrounds
  rw [fileSm4Crypt, pathOf_eq hdir hname, Outcome.done_bind, hfile]
  dsimp only
  have hopens : ¬ (!svc.opens (svc.path outputFileName)) = true := by simp [hsvc.opens]
  rw [if_neg hmode, pathOf_eq hdir houtput, Outcome.done_bind, if_neg hopens, hint,
    Int.toNat_natCast]
  refine ⟨fun hsmall => ?_, fun hlarge => ?_⟩
  · obtain ⟨s', output, hloop, hfiles, htotal, hchanges⟩ := hdone hsmall
    rw [Function.update_idem] at hfiles
    refine ⟨output, hchanges, ?_⟩
    rw [hloop, Outcome.done_bind]
    dsimp only
    have hwritten : s'.files (svc.path outputFileName) = some output := by
      rw [hfiles, Function.update_self]
    rw [fileDigest_eq hwritten, Outcome.done_bind, hfiles, htotal]
  · rw [hfault hlarge]
    rfl

/-- The command and the name of a message. -/
theorem getfiledfromstr_command {command : List Char} (h : command = encryptCmd ∨ command = decryptCmd)
    (name : List Char) : getfiledfromstr (command ++ ':' :: name) ':' 16 = (command, 7) := by
  rcases h with rfl | rfl <;>
    simp [getfiledfromstr, Struct.fieldLoop, encryptCmd, decryptCmd]

/-- What is done with a command for a file. -/
theorem procCryptFile_eq {command : List Char} (h : command = encryptCmd ∨ command = decryptCmd)
    {name outputFileBuf : List Char} (hname : name.length ≤ 128) (returnValue : List UInt8)
    (houtput : outputName command name = .done (some (mode, outputFileBuf))) (hmode : mode ≠ .none) :
    procCryptFile svc files ⟨command ++ ':' :: name, returnValue⟩ =
      fileSm4Crypt svc files name outputFileBuf (cryptKey svc returnValue) mode returnValue >>=
        fun (files, ret, uuid) =>
          if ret < 0 then .done (files, none)
          else .done (files, some { name := outputFileBuf, returnValue := uuid }) := by
  have hlen : command.length = 7 := by rcases h with rfl | rfl <;> rfl
  have hbehind : (command ++ ':' :: name).drop (7 + 1) = name := by
    rw [List.drop_append, hlen, List.drop_eq_nil_of_le (by omega)]
    rfl
  have hin : 7 + 1 ≤ (command ++ ':' :: name).length := by
    rw [List.length_append, List.length_cons]
    omega
  rw [procCryptFile, getfiledfromstr_command h]
  dsimp only
  rw [if_pos hin, hbehind, List.take_of_length_le hname, Outcome.done_bind, houtput, Outcome.done_bind]
  simp only [if_neg hmode]

theorem outputName_encrypt (hname : name.length ≤ 123) :
    outputName encryptCmd name = .done (some (.crypt, name ++ sm4Suffix)) := by
  rw [outputName, if_pos rfl, List.take_of_length_le hname]

theorem outputName_decrypt (hname : name.length ≤ 123) :
    outputName decryptCmd (name ++ sm4Suffix) = .done (some (.decrypt, name)) := by
  have hlen : (name ++ sm4Suffix).length = name.length + 4 := List.length_append
  rw [outputName, if_neg (by decide), if_pos rfl, hlen, Nat.min_eq_left (by omega),
    if_neg (by omega), Nat.add_sub_cancel, List.drop_left, if_pos rfl, List.take_left]

/-- Where nothing fails, a file of 2048 bytes at most is encrypted to one of the same size, under
    its name with `.sm4`; whatever became of the other files, the command to decrypt that gives
    back the file under its name; and the answers have the digests of the two. For a larger file
    the service writes outside its buffer. -/
theorem fileCrypt_roundTrip (hsvc : svc.Unfailing)
    (hdir : svc.fileDir.length < 64) (hname : name.length ≤ 123)
    (hfile : files (svc.path name) = some bytes) (hsize : bytes.length < 2 ^ 31)
    (returnValue : List UInt8) :
    (bytes.length ≤ 2048 → ∃ cipher : List UInt8, cipher.length = bytes.length ∧
      procCryptFile svc files ⟨encryptCmd ++ ':' :: name, returnValue⟩ =
        .done (Function.update files (svc.path (name ++ sm4Suffix)) (some cipher),
          some ⟨name ++ sm4Suffix, sm3 cipher⟩) ∧
      ∀ files' : Files, files' (svc.path (name ++ sm4Suffix)) = some cipher →
        procCryptFile svc files' ⟨decryptCmd ++ ':' :: (name ++ sm4Suffix), returnValue⟩ =
          .done (Function.update files' (svc.path name) (some bytes), some ⟨name, sm3 bytes⟩)) ∧
    (2048 < bytes.length →
      procCryptFile svc files ⟨encryptCmd ++ ':' :: name, returnValue⟩ = .fault) := by
  have hlen : (name ++ sm4Suffix).length = name.length + 4 := List.length_append
  have hne : name ≠ name ++ sm4Suffix := fun h => by
    have := congrArg List.length h
    omega
  rw [procCryptFile_eq (.inl rfl) (by omega) returnValue (outputName_encrypt hname) nofun]
  obtain ⟨hdone, hfault⟩ := fileSm4Crypt_cases (cryptKey svc returnValue) returnValue hsvc
    hdir (nofun : CryptMode.crypt ≠ .none) (by omega) (by omega) hne hfile hsize
  refine ⟨fun hsmall => ?_, fun hlarge => ?_⟩
  · obtain ⟨cipher, hcipher, hcrypt⟩ := hdone hsmall
    refine ⟨cipher, hcipher.length_eq, ?_, fun files' hfile' => ?_⟩
    · rw [hcrypt, Outcome.done_bind]
      exact if_neg (by omega)
    · rw [procCryptFile_eq (.inr rfl) (by omega) returnValue (outputName_decrypt hname) nofun]
      have hcipherlen := hcipher.length_eq
      obtain ⟨plain, hplain, hdecrypt⟩ := (fileSm4Crypt_cases (cryptKey svc returnValue)
        returnValue hsvc hdir (nofun : CryptMode.decrypt ≠ .none) (by omega)
        (by omega) hne.symm hfile' (by omega)).1 (by omega)
      obtain rfl := hplain.unique hcipher.decrypt
      rw [hdecrypt, Outcome.done_bind]
      exact if_neg (by omega)
  · rw [hfault hlarge]
    rfl

theorem byte_ne_nil (b : UInt8) : [b] ≠ [] := List.cons_ne_nil b []

theorem length_byte_le (b : UInt8) : [b].length ≤ 1024 := Nat.le_of_ble_eq_true rfl

/-- A service for the files of a directory `d`. -/
def exampleService : Service where
  fileDir := ['d']
  defaultKey := [0x31, 0x32, 0x33]
  heap := Heap.ample
  opens _ := true
  writes _ _ n := n
  cut bytes := bytes.map fun b => ⟨[b], byte_ne_nil b, length_byte_le b⟩
  cut_eq bytes := by
    rw [List.map_map]
    exact (List.flatMap_def ..).symm.trans (List.flatMap_singleton' bytes)
  stack := ⟨⟨0, 0, Sm3.iv, .replicate _ 0⟩, .replicate _ 0, .replicate _ 0⟩
  buf := .replicate _ 0

/-- The directory has a file `d/f` of three bytes. -/
def exampleFiles : Files := fun path => if path = ['d', '/', 'f'] then some [1, 2, 3] else none

theorem fileCrypt_roundTrip_three : ∃ cipher : List UInt8, cipher.length = 3 ∧
    procCryptFile exampleService exampleFiles ⟨encryptCmd ++ [':', 'f'], []⟩ =
      .done (Function.update exampleFiles ['d', '/', 'f', '.', 's', 'm', '4'] (some cipher),
        some ⟨['f', '.', 's', 'm', '4'], sm3 cipher⟩) := by
  have hsvc : exampleService.Unfailing :=
    ⟨fun _ hn => decide_eq_true hn.le, fun _ => rfl, fun _ _ _ => rfl⟩
  have hfile : exampleFiles (exampleService.path ['f']) = some [1, 2, 3] := rfl
  obtain ⟨cipher, hlen, hcrypt, -⟩ :=
    (fileCrypt_roundTrip hsvc (by decide) (by decide) hfile (by decide) []).1 (by decide)
  exact ⟨cipher, hlen, hcrypt⟩

end Cube.Crypto.FileCrypt
