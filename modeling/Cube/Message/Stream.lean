import Cube.Message.Output
import Cube.Message.Read

/-!
# Reading messages from a stream

`message_read_from_src` reads a message from a connection: the head in one call
of the read function it is given, then the bytes behind it, in calls of at most
4096 bytes. A call may return fewer bytes than it is asked for, in which case
`message_read_data` keeps them and returns `0`; the loop takes any value below
the number asked for as the end.

* `read_from_src_iff`: what a message is read as depends on how the stream is cut
  unless the first call behind the head returns all that is left of the message.
-/

namespace Cube.Message

open Lib

variable {T V : Type}

/-- A read function: what a call for a number of bytes returns (the bytes, or a
    negative error), and the source after it. -/
abbrev ReadFunc (S : Type) := S → Nat → Except Int (List UInt8) × S

/-- The size of the buffer `message_read_from_src` reads into. -/
def fixedBufSize : Int := 4096

section ReadFromSrc

variable {S : Type} (heap : Heap) (readFunc : ReadFunc S)

/-- The loop of `message_read_from_src`, from the offset on: the value returned,
    the message and the source. -/
def readBody (messageSize offset seekSize : Int) (box : MessageBox T V) (src : S) :
    Outcome (Int × MessageBox T V × S) :=
  if _h : offset < messageSize then
    let readSize := min (messageSize - offset) fixedBufSize
    match readFunc src readSize.toNat with
    | (.error _, src) => .done (seekSize, box, src)
    | (.ok data, src) =>
      if data.length ≤ 0 then .done (seekSize, box, src)
      else do
        let (retval, box) ← messageReadData heap box data
        if retval < readSize then .done (seekSize, box, src)
        else readBody messageSize (offset + readSize) (seekSize + readSize) box src
  else .done (seekSize, box, src)
termination_by (messageSize - offset).toNat
decreasing_by
  have : fixedBufSize = 4096 := rfl
  omega

/-- `message_read_from_src`: the value returned, the message and the source. -/
def messageReadFromSrc (src : S) : Outcome (Int × MessageBox T V × S) :=
  match readFunc src MsgHead.sizeof with
  | (.error e, _) => .error e
  | (.ok readbuf, src) =>
    if readbuf.length < MsgHead.sizeof then .error (-EINVAL)
    else match (messageReadHead heap readbuf : Outcome (MessageBox T V)) with
    | .fault => .fault
    | .error _ => .error (-EINVAL)
    | .done box =>
      let messageSize := (box.head.recordSize + box.head.expandSize).toInt
      readBody heap readFunc messageSize 0 MsgHead.sizeof box src

end ReadFromSrc

/-! ## Streams cut into pieces -/

/-- A stream of bytes, with the sizes of the pieces it comes in. -/
structure Stream where
  data : List UInt8
  cuts : List Nat
  deriving DecidableEq, Repr

/-- The bytes the next call gets when it asks for some: as the stream is cut, but
    at least one and at most those asked for; all of these once there are no more
    cuts. -/
def Stream.next (s : Stream) (size : Nat) : Nat :=
  match s.cuts with
  | [] => size
  | cut :: _ => min (max cut 1) size

/-- A call of the read function of a stream. -/
def Stream.read : ReadFunc Stream := fun s size =>
  (.ok (s.data.take (s.next size)), { data := s.data.drop (s.next size), cuts := s.cuts.tail })

/-- The stream of the bytes of a message, its head in one piece, with other bytes
    behind it. -/
def Stream.ofMessage (bytes rest : List UInt8) (cuts : List Nat) : Stream where
  data := bytes ++ rest
  cuts := MsgHead.sizeof :: cuts

/-- A message read from the stream as it is cut: it is the one read, with the same
    value returned, from the stream in which every call gets what it asks for, and
    the bytes left are those behind the message. -/
def ReadWhole (T V : Type) (heap : Heap) (bytes rest : List UInt8) (cuts : List Nat) : Prop :=
  ∃ (seek : Int) (box : MessageBox T V) (src src' : Stream),
    messageReadFromSrc heap Stream.read (.ofMessage bytes rest cuts) = .done (seek, box, src) ∧
    messageReadFromSrc heap Stream.read (.ofMessage bytes rest []) = .done (seek, box, src') ∧
    src.data = rest ∧ src'.data = rest

/-- The lengths of `n` expands from the offset on do not lead outside the data,
    up to one refused by the heap. -/
def StaysInside (heap : Heap) (data : List UInt8) : Nat → Int → Prop
  | 0, _ => True
  | n + 1, offset =>
    let size := (sizeAt data offset).toInt
    LengthInside data offset ∧ (heap.ok (size + 12) = false ∨
      0 ≤ size ∧ offset + size ≤ data.length ∧ StaysInside heap data n (offset + size))

variable {heap : Heap} {data : List UInt8} {head : MsgHead}

/-- The loop over the expands does not end in an error: it returns one. -/
theorem readExpands_ne_error (n : Nat) (offset : Int) {e : Int} :
    (readExpands heap data n offset : Outcome (Int × List (ExpandSlot V))) ≠ .error e := by
  rcases readExpands_cases (V := V) heap data n offset 0 with
    ⟨_, hr, _⟩ | ⟨_, _, _, hr, _⟩ | ⟨hr, _⟩ <;> simp [hr]

theorem readExpands_fault_iff {n : Nat} {offset : Int} :
    (readExpands heap data n offset : Outcome (Int × List (ExpandSlot V))) = .fault ↔
      ¬ StaysInside heap data n offset := by
  induction n generalizing offset with
  | zero => simp [readExpands, StaysInside]
  | succ n ih =>
    rw [readExpands, StaysInside]
    by_cases h : LengthInside data offset
    swap
    · rw [readExpand_fault h]
      exact iff_of_true rfl fun hs => h hs.1
    cases hok : heap.ok ((sizeAt data offset).toInt + 12) with
    | false =>
      rw [readExpand_refused h hok]
      exact iff_of_false (by simp [ENOMEM]) fun hs => hs ⟨h, .inl rfl⟩
    | true =>
      by_cases hfit : 0 ≤ (sizeAt data offset).toInt ∧
          offset + (sizeAt data offset).toInt ≤ data.length
      swap
      · rw [readExpand_outside h hok hfit]
        refine iff_of_true rfl fun hs => ?_
        rcases hs.2 with hs | hs
        · cases hs
        · exact hfit ⟨hs.1, hs.2.1⟩
      · rw [readExpand_done h hok hfit]
        simp only [Outcome.done_bind, Int.lt_irrefl, if_false]
        rw [Outcome.bind_eq_fault]
        constructor
        · rintro (hr | ⟨_, _, hr⟩) hs
          · rcases hs.2 with hs | hs
            · cases hs
            · exact ih.1 hr hs.2.2
          · cases hr
        · intro hs
          exact .inl (ih.2 fun hstay => hs ⟨h, .inr ⟨hfit.1, hfit.2, hstay⟩⟩)

/-- How the reading of the bytes comes out when they are as many as the head
    tells: it returns if there is the memory for the arrays and the lengths of the
    expands stay inside, and faults if not. -/
theorem readData_whole_cases (T V : Type) (heap : Heap) {body : List UInt8} (hnum : 0 ≤ head.expandNum.toInt)
    (hmax : head.expandNum.toInt ≤ MAX_EXPAND_NUM) (hne : body.length ≠ 0)
    (htotal : (head.recordSize + head.expandSize).toInt = body.length) :
    (∃ r, messageReadData heap (waiting head) body = (.done r : Outcome (Int × MessageBox T V))) ∧
        (SitesFit heap head ∧
          StaysInside heap body head.expandNum.toInt.toNat head.recordSize.toInt) ∨
      messageReadData heap (waiting head) body = (.fault : Outcome (Int × MessageBox T V)) ∧
        ¬ (SitesFit heap head ∧
          StaysInside heap body head.expandNum.toInt.toNat head.recordSize.toInt) := by
  rw [readData_whole hne (by omega) (by omega)]
  simp only [htotal, Int.toNat_natCast, List.take_length]
  rcases allocSite_cases heap head.recordNum (RecordSlot.empty : RecordSlot V) with
    ⟨⟨records, hrecords⟩, hfits⟩ | ⟨hfault, hfits⟩
  swap
  · simp only [hfault]
    exact .inr ⟨rfl, fun h => hfits h.1.record⟩
  obtain ⟨expands, hexpands, hcount⟩ := expandSite_fits (V := V) heap hnum hmax
  simp only [hrecords, hexpands, Outcome.done_bind]
  by_cases hok : 0 < head.expandNum.toInt → heap.ok (20 * head.expandNum.toInt + 12) = true
  swap
  · rw [if_pos (hcount.2 hok)]
    exact .inr ⟨rfl, fun h => hok h.1.expand⟩
  rw [if_neg fun h => hcount.1 h hok]
  cases hr : (readExpands heap body head.expandNum.toInt.toNat head.recordSize.toInt :
      Outcome (Int × List (ExpandSlot V))) with
  | done r =>
    refine .inl ⟨?_, ⟨hfits, hok⟩, Classical.not_not.1 fun hs => ?_⟩
    · simp only [Outcome.done_bind]
      split_ifs
      · exact ⟨_, rfl⟩
      · exact ⟨_, rfl⟩
    · rw [readExpands_fault_iff.2 hs] at hr
      cases hr
  | error e => exact absurd hr (readExpands_ne_error _ _)
  | fault => exact .inr ⟨rfl, fun h => readExpands_fault_iff.1 hr h.2⟩

/-! ## Reading a message from its stream -/

variable {body rest : List UInt8} {cuts : List Nat}

/-- The bytes the first call behind the head of a message gets, out of a body of
    the size. -/
def firstPiece (cuts : List Nat) (size : Nat) : Nat :=
  Stream.next ⟨[], cuts⟩ (min size fixedBufSize.toNat)

/-- What the loop comes to when its first call gets all of the body. -/
def readAtOnce (T V : Type) (heap : Heap) (head : MsgHead) (body : List UInt8) :
    Outcome (Int × MessageBox T V) := do
  let (ret, box) ← messageReadData heap (waiting head) body
  .done (if ret < body.length then MsgHead.sizeof else MsgHead.sizeof + body.length, box)

theorem firstPiece_nil (size : Nat) : firstPiece [] size = min size fixedBufSize.toNat := rfl

theorem firstPiece_pos (cuts : List Nat) {size : Nat} (h : size ≠ 0) : 0 < firstPiece cuts size := by
  rw [firstPiece, Stream.next, fixedBufSize]
  cases cuts <;> simp only <;> omega

theorem firstPiece_le (cuts : List Nat) (size : Nat) :
    firstPiece cuts size ≤ min size fixedBufSize.toNat := by
  rw [firstPiece, Stream.next]
  cases cuts <;> simp only <;> omega

/-- Without a body, the loop makes no call. -/
theorem readBody_empty {src : Stream} :
    readBody heap Stream.read 0 0 MsgHead.sizeof (waiting head : MessageBox T V) src =
      .done (MsgHead.sizeof, waiting head, src) := by
  rw [readBody, dif_neg (by decide)]

/-- A first call that gets less than the body is the last. -/
theorem readBody_short (hne : body.length ≠ 0)
    (htotal : (head.recordSize + head.expandSize).toInt = body.length)
    (hlt : firstPiece cuts body.length < body.length) :
    ∃ box : MessageBox T V,
      readBody heap Stream.read body.length 0 MsgHead.sizeof (waiting head) ⟨body ++ rest, cuts⟩ =
        .done (MsgHead.sizeof, box,
          ⟨(body ++ rest).drop (firstPiece cuts body.length), cuts.tail⟩) := by
  have hpos := firstPiece_pos cuts hne
  have hle := firstPiece_le cuts body.length
  have hsize : (min ((body.length : Int) - 0) fixedBufSize).toNat =
      min body.length fixedBufSize.toNat := by
    rw [fixedBufSize]
    omega
  have hlen : ((body ++ rest).take (firstPiece cuts body.length)).length =
      firstPiece cuts body.length := by
    rw [List.length_take, List.length_append]
    omega
  have hread : Stream.read ⟨body ++ rest, cuts⟩ (min ((body.length : Int) - 0) fixedBufSize).toNat =
      (.ok ((body ++ rest).take (firstPiece cuts body.length)),
        ⟨(body ++ rest).drop (firstPiece cuts body.length), cuts.tail⟩) := by
    rw [hsize]
    rfl
  rw [readBody, dif_pos (by omega)]
  simp only [hread]
  rw [if_neg (by omega), readData_short (by omega) (by omega), Outcome.done_bind]
  refine ⟨_, if_pos ?_⟩
  rw [fixedBufSize]
  omega

/-- A first call that gets all of the body is the last, too. -/
theorem readBody_atOnce (hne : body.length ≠ 0) (heq : firstPiece cuts body.length = body.length) :
    readBody heap Stream.read body.length 0 MsgHead.sizeof (waiting head) ⟨body ++ rest, cuts⟩ =
      readAtOnce T V heap head body >>= fun r => .done (r.1, r.2, ⟨rest, cuts.tail⟩) := by
  have hle := firstPiece_le cuts body.length
  have hsize : min ((body.length : Int) - 0) fixedBufSize = body.length := by
    rw [fixedBufSize] at hle ⊢
    omega
  have hread : Stream.read ⟨body ++ rest, cuts⟩ body.length = (.ok body, ⟨rest, cuts.tail⟩) := by
    have hnext : Stream.next ⟨body ++ rest, cuts⟩ body.length = body.length := by
      rw [firstPiece, Nat.min_eq_left (by omega)] at heq
      exact heq
    rw [Stream.read, hnext, List.take_left, List.drop_left]
  rw [readBody, dif_pos (by omega), readAtOnce]
  simp only [hsize, Int.toNat_natCast, hread]
  rw [if_neg (by omega)]
  cases (messageReadData heap (waiting head) body : Outcome (Int × MessageBox T V)) with
  | error e => rfl
  | fault => rfl
  | done r =>
    simp only [Outcome.done_bind]
    split_ifs
    · rfl
    · rw [readBody, dif_neg (by omega)]

/-- Whether a head is accepted does not depend on what comes behind it. -/
theorem headAccepted_message :
    HeadAccepted heap (head.toBytes ++ body) ↔ HeadAccepted heap head.toBytes := by
  have hhead := MsgHead.ofBytes_toBytes_nil head
  constructor <;> rintro ⟨_, htype, hchecked, hok⟩
  · rw [MsgHead.ofBytes_toBytes] at htype hchecked hok
    exact ⟨by simp, by rwa [hhead], by rwa [hhead], by rwa [hhead]⟩
  · rw [hhead] at htype hchecked hok
    exact ⟨by simp, by rwa [MsgHead.ofBytes_toBytes], by rwa [MsgHead.ofBytes_toBytes], by rwa [MsgHead.ofBytes_toBytes]⟩

/-- The first call gets the head of the message. -/
theorem read_head : Stream.read (.ofMessage (head.toBytes ++ body) rest cuts) MsgHead.sizeof =
    (.ok head.toBytes, ⟨body ++ rest, cuts⟩) := by
  have hnext : Stream.next (.ofMessage (head.toBytes ++ body) rest cuts) MsgHead.sizeof =
      MsgHead.sizeof := rfl
  rw [Stream.read, hnext]
  simp only [Stream.ofMessage, List.append_assoc, List.tail_cons]
  rw [List.take_left' (MsgHead.length_toBytes _), List.drop_left' (MsgHead.length_toBytes _)]

/-- From the stream of a message whose head is accepted, the loop reads the body. -/
theorem readFromSrc_eq (hacc : HeadAccepted heap head.toBytes)
    (htotal : (head.recordSize + head.expandSize).toInt = body.length) :
    messageReadFromSrc heap Stream.read (.ofMessage (head.toBytes ++ body) rest cuts) =
      readBody heap Stream.read body.length 0 MsgHead.sizeof (waiting head : MessageBox T V)
        ⟨body ++ rest, cuts⟩ := by
  have hhead := MsgHead.ofBytes_toBytes_nil head
  rw [messageReadFromSrc, read_head]
  simp only
  rw [if_neg (by simp), readHead_of_accepted hacc, hhead]
  simp only [show (waiting head : MessageBox T V).head = head from rfl, htotal]

/-- A head that is not accepted is an error. -/
theorem readFromSrc_error (hacc : ¬ HeadAccepted heap head.toBytes) :
    (messageReadFromSrc heap Stream.read (.ofMessage (head.toBytes ++ body) rest cuts) :
      Outcome (Int × MessageBox T V × Stream)) = .error (-EINVAL) := by
  obtain ⟨e, _, he⟩ := readHead_of_not_accepted (T := T) (V := V) hacc
  rw [messageReadFromSrc, read_head]
  simp only
  rw [if_neg (by simp), he]

/-- The first call behind the head gets all that is left of the message, and the
    reading of it does not fault. -/
structure ReceivedAtOnce (heap : Heap) (head : MsgHead) (body : List UInt8) (cuts : List Nat) :
    Prop where
  firstPiece : firstPiece cuts body.length = body.length
  sites : SitesFit heap head
  inside : StaysInside heap body head.expandNum.toInt.toNat head.recordSize.toInt

/-- A message with a body is read whole exactly if its head is accepted and the
    body received at once. -/
theorem readWhole_body_iff (T V : Type) (hne : body.length ≠ 0)
    (htotal : (head.recordSize + head.expandSize).toInt = body.length) :
    ReadWhole T V heap (head.toBytes ++ body) rest cuts ↔
      HeadAccepted heap head.toBytes ∧ ReceivedAtOnce heap head body cuts := by
  by_cases hacc : HeadAccepted heap head.toBytes
  swap
  · refine iff_of_false ?_ fun h => hacc h.1
    rintro ⟨_, _, _, _, h, _⟩
    rw [readFromSrc_error hacc] at h
    cases h
  have hnum := headChecked_iff.1 hacc.headChecked
  rw [MsgHead.ofBytes_toBytes_nil] at hnum
  rw [ReadWhole, readFromSrc_eq hacc htotal, readFromSrc_eq hacc htotal]
  rcases Nat.lt_or_eq_of_le (Nat.le_trans (firstPiece_le cuts body.length) (Nat.min_le_left ..))
    with hlt | heq
  · -- The first call gets less than the body: it is the last, and bytes are left.
    obtain ⟨box₁, hbody⟩ : ∃ box : MessageBox T V,
        readBody heap Stream.read body.length 0 MsgHead.sizeof (waiting head)
          ⟨body ++ rest, cuts⟩ =
        .done (MsgHead.sizeof, box,
          ⟨(body ++ rest).drop (firstPiece cuts body.length), cuts.tail⟩) :=
      readBody_short hne htotal hlt
    refine iff_of_false ?_ fun h => by have := h.2.firstPiece; omega
    rintro ⟨seek, box, src, src', h, _, hsrc, _⟩
    rw [hbody] at h
    obtain ⟨_, _, rfl⟩ := Outcome.done.inj h
    have hlen := congrArg List.length hsrc
    simp only [List.length_drop, List.length_append] at hlen
    omega
  rw [readBody_atOnce hne heq]
  simp only [hacc, true_and]
  rcases readData_whole_cases T V heap hnum.2.1 hnum.2.2.1 hne htotal with
    ⟨⟨⟨ret, box⟩, hdata⟩, hs⟩ | ⟨hdata, hs⟩
  · have hfit : firstPiece [] body.length = body.length := by
      have hle := firstPiece_le cuts body.length
      rw [firstPiece_nil]
      omega
    rw [readBody_atOnce hne hfit, readAtOnce, hdata]
    exact iff_of_true ⟨_, _, _, _, rfl, rfl, rfl, rfl⟩ ⟨heq, hs.1, hs.2⟩
  · rw [readAtOnce, hdata]
    refine iff_of_false ?_ fun h => hs ⟨h.sites, h.inside⟩
    rintro ⟨_, _, _, _, h, _⟩
    cases h

/-- What `message_output_blob` wrote is read from a stream as it is when every
    call gets what it asks for, leaving what comes behind it, exactly if its head is
    accepted and it is nothing but the head, or the first call behind the head gets
    all the rest of it. -/
theorem read_from_src_iff {c : Codec T V} {writer heap : Heap} {bufsize : Nat}
    {box box' : MessageBox T V} {bytes : List UInt8} (hbuf : bufsize < 2 ^ 31)
    (h : messageOutputBlob c writer bufsize box = .done (bytes, box')) (rest : List UInt8)
    (cuts : List Nat) :
    ReadWhole T V heap bytes rest cuts ↔
      HeadAccepted heap bytes ∧ (bytes.length = MsgHead.sizeof ∨
        ReceivedAtOnce heap (MsgHead.ofBytes bytes) (bytes.drop MsgHead.sizeof) cuts) := by
  obtain ⟨records, expands, rfl, _, _, hsum⟩ := output_format hbuf h
  have htotal : (box'.head.recordSize + box'.head.expandSize).toInt =
      (records ++ expands).length := by
    rw [hsum, List.length_append]
    rfl
  generalize records ++ expands = body at htotal
  rw [headAccepted_message, MsgHead.ofBytes_toBytes, List.drop_left' (MsgHead.length_toBytes _),
    List.length_append, MsgHead.length_toBytes]
  by_cases hne : body.length = 0
  swap
  · rw [readWhole_body_iff T V hne htotal]
    exact and_congr_right fun _ => (or_iff_right (by omega)).symm
  -- Nothing comes behind the head: the loop is not entered.
  obtain rfl := List.length_eq_zero_iff.1 hne
  simp only [List.length_nil, Nat.add_zero, true_or, and_true]
  constructor
  · rintro ⟨_, _, _, _, hread, _⟩
    by_contra hacc
    rw [readFromSrc_error hacc] at hread
    cases hread
  · intro hacc
    refine ⟨MsgHead.sizeof, waiting box'.head, ⟨rest, cuts⟩, ⟨rest, []⟩, ?_, ?_, rfl, rfl⟩
    · rw [readFromSrc_eq hacc htotal]
      exact readBody_empty
    · rw [readFromSrc_eq hacc htotal]
      exact readBody_empty

/-- A message with one record of two bytes, given as bytes. -/
def twoBytesMessage : MessageBox Unit Unit where
  head := { initHead with recordType := 0x1001, recordSubtype := 1, recordNum := 1, recordSize := 2 }
  recordTemplate := some ()
  boxState := .add
  headSize := MsgHead.sizeof
  records := [⟨some [1, 2], none, 2⟩]
  expands := []
  blob := .null
  currentOffset := 0

/-- A codec for which every structure is the byte `1`. -/
def unitCodec : Codec Unit Unit where
  struct2Blob _ _ := .done [1]
  blob2Struct _ _ := .done (1, ())
  getTemplate _ _ := some ()

/-- The bytes written for the message are its head and the bytes of its record. -/
theorem twoBytesMessage_output : messageOutputBlob unitCodec Heap.ample outputBufsize twoBytesMessage =
    .done (twoBytesMessage.head.toBytes ++ [1, 2], { twoBytesMessage with blob := .freed }) := by
  decide +kernel

theorem twoBytesMessage_accepted : HeadAccepted Heap.ample twoBytesMessage.head.toBytes := by
  refine ⟨by simp, ?_, ?_, ?_⟩ <;> rw [MsgHead.ofBytes_toBytes_nil] <;> decide

/-- Every call gets what it asks for: the message is read whole. -/
theorem read_from_src_filled :
    ReadWhole Unit Unit Heap.ample (twoBytesMessage.head.toBytes ++ [1, 2]) [3] [] :=
  (read_from_src_iff (by decide) twoBytesMessage_output [3] []).2
    ⟨headAccepted_message.2 twoBytesMessage_accepted,
      .inr (by
        rw [MsgHead.ofBytes_toBytes, List.drop_left' (MsgHead.length_toBytes _)]
        exact ⟨by decide, ⟨by decide, by decide⟩, trivial⟩)⟩

/-- The body comes one byte at a time: the second byte is left in the stream. -/
theorem read_from_src_split : ∃ bytes box', messageOutputBlob unitCodec Heap.ample outputBufsize
      twoBytesMessage = .done (bytes, box') ∧ ¬ ReadWhole Unit Unit Heap.ample bytes [] [1, 1] := by
  refine ⟨_, _, twoBytesMessage_output, fun h => ?_⟩
  have hone := ((readWhole_body_iff Unit Unit (by decide) (by decide)).1 h).2.firstPiece
  revert hone
  decide

end Cube.Message
