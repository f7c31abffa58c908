import Cube.Lib.Run
import Cube.Lib.Window

/-!
# The channel buffer

A channel keeps the bytes written to it in a ring (`channel_buf.c`): an area of
`bufsize` bytes with the position of the next byte to read
(`last_read_tail`) and of the next byte to write (`last_write_tail`), and no
count of the bytes in between. Equal tails mean an empty buffer.

* `write_keeps`, `read_keeps`: what one call does to the bytes still unread;
* `fifo_iff`: a run delivers the accepted bytes in order, none lost, exactly if
  the buffer is not of size `0` and no write made while the read tail stands at
  `0` reaches the end of the area. In that position there is no byte left free
  at the end to tell a full buffer from an empty one, and `channel_buf_write`
  does not keep one.
-/

namespace Cube.Channel

open Lib

/-- The value a `UINT16` field holds after an assignment of `n`. -/
def toUint16 (n : Int) : Nat := (n % 65536).toNat

/-- A channel buffer, `CHANNEL_BUF`: its fields, and the bytes that follow them
    (from `offset` on, which is the size of the fields in every buffer). -/
structure ChannelBuf where
  bufsize : Nat
  lastReadTail : Nat
  lastWriteTail : Nat
  area : List UInt8
  deriving DecidableEq, Repr

/-- `channel_buf_create`: a buffer of the given size, empty and zeroed. The flag
    `mem` tells whether `Dalloc0` found the memory for it. -/
def channelBufCreate (mem : Bool) (size : Int) : Option ChannelBuf :=
  if size < 0 then none
  else if size > 32767 then none
  else if !mem then none
  else some {
    bufsize := toUint16 size
    lastReadTail := 0
    lastWriteTail := 0
    area := List.replicate size.toNat 0 }

/-- `channel_buf_read`: the bytes stored in `data`, the value returned and the
    buffer after the call. The length `size` is not negative: `Memcpy` takes it
    unsigned. -/
def channelBufRead (b : ChannelBuf) (size : Nat) : List UInt8 × Nat × ChannelBuf :=
  if b.lastReadTail = b.lastWriteTail then ([], 0, b)
  else if b.lastReadTail < b.lastWriteTail then
    let leftData := b.lastWriteTail - b.lastReadTail
    if size < leftData then
      (slice b.area b.lastReadTail (b.lastReadTail + size), size,
        { b with lastReadTail := toUint16 (b.lastReadTail + size) })
    else
      (slice b.area b.lastReadTail (b.lastReadTail + leftData), leftData,
        { b with lastReadTail := b.lastWriteTail })
  else
    let leftData := b.bufsize - b.lastReadTail + b.lastWriteTail
    let tailBlockSize := b.bufsize - b.lastReadTail
    if size < tailBlockSize then
      (slice b.area b.lastReadTail (b.lastReadTail + size), size,
        { b with lastReadTail := toUint16 (b.lastReadTail + size) })
    else
      let tail := slice b.area b.lastReadTail (b.lastReadTail + tailBlockSize)
      if size < leftData then
        (tail ++ slice b.area 0 (size - tailBlockSize), size,
          { b with lastReadTail := toUint16 ((size : Int) - tailBlockSize) })
      else
        (tail ++ slice b.area 0 (leftData - tailBlockSize), leftData,
          { b with lastReadTail := b.lastWriteTail })

/-- `channel_buf_write`: the value returned and the buffer after the call that
    writes all of `data`. -/
def channelBufWrite (b : ChannelBuf) (data : List UInt8) : Nat × ChannelBuf :=
  let size := data.length
  if (b.lastReadTail : Int) - 1 = b.lastWriteTail then (0, b)
  else if b.lastReadTail > b.lastWriteTail then
    -- The write tail is behind the read tail, on the same circle.
    let leftData := b.lastReadTail - 1 - b.lastWriteTail
    if size < leftData then
      (size, { b with
        area := patch b.area b.lastWriteTail data
        lastWriteTail := toUint16 (b.lastWriteTail + size) })
    else
      (leftData, { b with
        area := patch b.area b.lastWriteTail (data.take leftData)
        lastWriteTail := toUint16 ((b.lastReadTail : Int) - 1) })
  else
    let tailBlockSize := b.bufsize - b.lastWriteTail
    -- The code's `if (head_block_size < 0) head_block_size = 0` is the
    -- truncation of this subtraction.
    let headBlockSize := b.lastReadTail - 1
    let leftData := tailBlockSize + headBlockSize
    if size < tailBlockSize then
      (size, { b with
        area := patch b.area b.lastWriteTail data
        lastWriteTail := toUint16 (b.lastWriteTail + size) })
    else
      let area := patch b.area b.lastWriteTail (data.take tailBlockSize)
      if size < leftData then
        (size, { b with
          area := patch area 0 ((data.drop tailBlockSize).take (size - tailBlockSize))
          lastWriteTail := toUint16 ((size : Int) - tailBlockSize) })
      else
        (leftData, { b with
          area := patch area 0 ((data.drop tailBlockSize).take headBlockSize)
          lastWriteTail := toUint16 headBlockSize })

/-! ## The bytes of a buffer -/

/-- The bytes still unread: from the read tail up to the write tail, around the
    end of the area if the write tail is behind. -/
def ChannelBuf.unread (b : ChannelBuf) : List UInt8 :=
  if b.lastReadTail ≤ b.lastWriteTail then slice b.area b.lastReadTail b.lastWriteTail
  else slice b.area b.lastReadTail b.bufsize ++ slice b.area 0 b.lastWriteTail

/-- Both tails of the buffer are positions of its area. -/
structure ChannelBuf.InBounds (b : ChannelBuf) : Prop where
  read_lt : b.lastReadTail < b.bufsize
  write_lt : b.lastWriteTail < b.bufsize

/-- The area of the buffer has the size the buffer says, which fits in its field. -/
structure ChannelBuf.Sized (b : ChannelBuf) : Prop where
  length_area : b.area.length = b.bufsize
  bufsize_lt : b.bufsize < 65536

variable {b : ChannelBuf}

theorem unread_of_le (h : b.lastReadTail ≤ b.lastWriteTail) :
    b.unread = slice b.area b.lastReadTail b.lastWriteTail := if_pos h

theorem unread_of_gt (h : b.lastWriteTail < b.lastReadTail) :
    b.unread = slice b.area b.lastReadTail b.bufsize ++ slice b.area 0 b.lastWriteTail :=
  if_neg (by omega)

/-- A read returns the first unread bytes, and leaves the others unread. -/
theorem read_keeps (hs : b.Sized) (hb : b.InBounds) (n : Nat) :
    (channelBufRead b n).2.2.Sized ∧ (channelBufRead b n).2.2.InBounds ∧
      b.unread = (channelBufRead b n).1.take (channelBufRead b n).2.1 ++
        (channelBufRead b n).2.2.unread := by
  obtain ⟨size, r, w, area⟩ := b
  obtain ⟨hlen, hsize⟩ := hs
  obtain ⟨hr, hw⟩ := hb
  simp only at hlen hsize hr hw
  simp only [channelBufRead]
  split_ifs with h₁ h₂ h₃ h₃ h₄
  · exact ⟨⟨hlen, hsize⟩, ⟨hr, hw⟩, rfl⟩
  · -- Part of the bytes, all before the write tail.
    have hr' : toUint16 (↑r + ↑n) = r + n := by rw [toUint16]; omega
    rw [hr', unread_of_le h₂.le, unread_of_le (by simp only; omega)]
    refine ⟨⟨hlen, hsize⟩, ⟨by simp only; omega, hw⟩, ?_⟩
    simp only
    rw [take_slice, Nat.min_self, slice_append_slice (by omega) (by omega)]
  · -- All the bytes, up to the write tail.
    rw [unread_of_le h₂.le, unread_of_le (le_refl _)]
    refine ⟨⟨hlen, hsize⟩, ⟨hw, hw⟩, ?_⟩
    simp only
    rw [take_slice, slice_self, List.append_nil, Nat.min_self]
    congr 1
    omega
  · -- Part of the bytes, none of them around the end.
    have hr' : toUint16 (↑r + ↑n) = r + n := by rw [toUint16]; omega
    rw [hr', unread_of_gt (by simp only; omega), unread_of_gt (by simp only; omega)]
    refine ⟨⟨hlen, hsize⟩, ⟨by simp only; omega, hw⟩, ?_⟩
    simp only
    rw [take_slice, Nat.min_self, ← List.append_assoc,
      slice_append_slice (by omega) (by omega)]
  · -- The bytes up to the end of the area, and some of those around it.
    have hr' : toUint16 ((n : Int) - ↑(size - r)) = n - (size - r) := by rw [toUint16]; omega
    rw [hr', unread_of_gt (by simp only; omega), unread_of_le (by simp only; omega)]
    refine ⟨⟨hlen, hsize⟩, ⟨by simp only; omega, hw⟩, ?_⟩
    simp only
    have htail : slice area r (r + (size - r)) = slice area r size := by congr 1; omega
    rw [htail, List.take_of_length_le, List.append_assoc,
      slice_append_slice (by omega) (by omega)]
    rw [List.length_append, length_slice (by omega), length_slice (by omega)]
    omega
  · -- All the bytes, those up to the end of the area and those around it.
    rw [unread_of_gt (by simp only; omega), unread_of_le (le_refl _)]
    refine ⟨⟨hlen, hsize⟩, ⟨hw, hw⟩, ?_⟩
    simp only
    have htail : slice area r (r + (size - r)) = slice area r size := by congr 1; omega
    have hhead : slice area 0 (size - r + w - (size - r)) = slice area 0 w := by congr 1; omega
    rw [htail, hhead, slice_self, List.append_nil, List.take_of_length_le]
    rw [List.length_append, length_slice (by omega), length_slice (by omega)]
    omega

/-- The writes that leave a byte of the area free, as long as the read tail
    stands at `0`: those that end before the end of the area. -/
def WriteOk (b : ChannelBuf) (data : List UInt8) : Prop :=
  b.lastReadTail = 0 → data.length < b.bufsize - b.lastWriteTail

instance (b : ChannelBuf) (data : List UInt8) : Decidable (WriteOk b data) :=
  inferInstanceAs (Decidable (_ → _))

/-- A write keeps the tails within the area, and the area at its size. -/
theorem write_inBounds (hs : b.Sized) (hb : b.InBounds) (data : List UInt8) :
    (channelBufWrite b data).2.Sized ∧ (channelBufWrite b data).2.InBounds := by
  obtain ⟨size, r, w, area⟩ := b
  obtain ⟨hlen, hsize⟩ := hs
  obtain ⟨hr, hw⟩ := hb
  simp only at hlen hsize hr hw
  simp only [channelBufWrite]
  split_ifs with h₁ h₂ h₃ h₃ h₄
  · exact ⟨⟨hlen, hsize⟩, ⟨hr, hw⟩⟩
  · refine ⟨⟨?_, hsize⟩, ⟨hr, by simp only [toUint16]; omega⟩⟩
    rw [length_patch (by omega), hlen]
  · refine ⟨⟨?_, hsize⟩, ⟨hr, by simp only [toUint16]; omega⟩⟩
    rw [length_patch (by rw [List.length_take]; omega), hlen]
  · refine ⟨⟨?_, hsize⟩, ⟨hr, by simp only [toUint16]; omega⟩⟩
    rw [length_patch (by omega), hlen]
  · have htail : (patch area w (data.take (size - w))).length = size := by
      rw [length_patch (by rw [List.length_take]; omega), hlen]
    refine ⟨⟨?_, hsize⟩, ⟨hr, by simp only [toUint16]; omega⟩⟩
    rw [length_patch (by rw [List.length_take, List.length_drop]; omega), htail]
  · have htail : (patch area w (data.take (size - w))).length = size := by
      rw [length_patch (by rw [List.length_take]; omega), hlen]
    refine ⟨⟨?_, hsize⟩, ⟨hr, by simp only [toUint16]; omega⟩⟩
    rw [length_patch (by rw [List.length_take, List.length_drop]; omega), htail]

/-- A write that meets `WriteOk` appends the bytes it accepts to those unread. -/
theorem write_keeps (hs : b.Sized) (hb : b.InBounds) {data : List UInt8} (hok : WriteOk b data) :
    (channelBufWrite b data).2.unread = b.unread ++ data.take (channelBufWrite b data).1 := by
  obtain ⟨size, r, w, area⟩ := b
  obtain ⟨hlen, hsize⟩ := hs
  obtain ⟨hr, hw⟩ := hb
  simp only [WriteOk] at hlen hsize hr hw hok
  simp only [channelBufWrite]
  split_ifs with h₁ h₂ h₃ h₃ h₄
  · rw [List.take_zero, List.append_nil]
  · -- Behind the read tail, and short of it.
    have hw' : toUint16 (↑w + ↑data.length) = w + data.length := by rw [toUint16]; omega
    rw [hw', unread_of_gt (by simp only; omega), unread_of_gt (by simp only; omega)]
    simp only
    rw [List.take_length, slice_patch_after (by omega) (by omega),
      ← slice_append_slice (Nat.zero_le w) (Nat.le_add_right w data.length),
      slice_patch_before (by omega) (le_refl w), slice_patch_self (by omega) rfl,
      List.append_assoc]
  · -- Behind the read tail, and cut off one byte before it.
    have hxs : (data.take (r - 1 - w)).length = r - 1 - w := by rw [List.length_take]; omega
    have hw' : toUint16 ((r : Int) - 1) = r - 1 := by rw [toUint16]; omega
    rw [hw', unread_of_gt (by simp only; omega), unread_of_gt (by simp only; omega)]
    simp only
    rw [slice_patch_after (by omega) (by omega),
      ← slice_append_slice (Nat.zero_le w) (show w ≤ r - 1 by omega),
      slice_patch_before (by omega) (le_refl w), slice_patch_self (by omega) (by omega),
      List.append_assoc]
  · -- Ahead of the read tail, short of the end of the area.
    have hw' : toUint16 (↑w + ↑data.length) = w + data.length := by rw [toUint16]; omega
    rw [hw', unread_of_le (by simp only; omega), unread_of_le (by simp only; omega)]
    simp only
    rw [List.take_length, ← slice_append_slice (show r ≤ w by omega)
        (Nat.le_add_right w data.length),
      slice_patch_before (by omega) (le_refl w), slice_patch_self (by omega) rfl]
  · -- Around the end of the area, and short of the read tail.
    obtain ⟨hxs, htail⟩ := And.intro
      (show (data.take (size - w)).length = size - w by rw [List.length_take]; omega)
      (show ((data.drop (size - w)).take (data.length - (size - w))).length =
        data.length - (size - w) by rw [List.length_take, List.length_drop]; omega)
    have hlen' : (patch area w (data.take (size - w))).length = size := by
      rw [length_patch (by omega), hlen]
    have hw' : toUint16 ((data.length : Int) - ↑(size - w)) = data.length - (size - w) := by
      rw [toUint16]
      omega
    have hrest : (data.drop (size - w)).take (data.length - (size - w)) = data.drop (size - w) :=
      List.take_of_length_le (by rw [List.length_drop])
    rw [hw', unread_of_gt (by simp only; omega), unread_of_le (by simp only; omega)]
    simp only
    rw [slice_patch_after (by omega) (by omega), slice_patch_self (by omega) (by omega),
      ← slice_append_slice (show r ≤ w by omega) (show w ≤ size by omega),
      slice_patch_before (by omega) (le_refl w), slice_patch_self (by omega) (by omega),
      List.append_assoc, List.take_length, hrest, List.take_append_drop]
  · -- Around the end of the area, and cut off one byte before the read tail.
    have hr₀ : 0 < r := by
      rcases Nat.eq_zero_or_pos r with h | h
      · have := hok h
        omega
      · exact h
    obtain ⟨hxs, htail⟩ := And.intro
      (show (data.take (size - w)).length = size - w by rw [List.length_take]; omega)
      (show ((data.drop (size - w)).take (r - 1)).length = r - 1 by
        rw [List.length_take, List.length_drop]; omega)
    have hlen' : (patch area w (data.take (size - w))).length = size := by
      rw [length_patch (by omega), hlen]
    have hw' : toUint16 (↑(r - 1)) = r - 1 := by rw [toUint16]; omega
    rw [hw', unread_of_gt (by simp only; omega), unread_of_le (by simp only; omega)]
    simp only
    rw [slice_patch_after (by omega) (by omega), slice_patch_self (by omega) (by omega),
      ← slice_append_slice (show r ≤ w by omega) (show w ≤ size by omega),
      slice_patch_before (by omega) (le_refl w), slice_patch_self (by omega) (by omega),
      List.append_assoc, List.take_add]

/-- A write that does not meet `WriteOk` accepts bytes and leaves none unread:
    it moves the write tail around the area onto the read tail. -/
theorem write_loses (hb : b.InBounds) {data : List UInt8} (hbad : ¬ WriteOk b data) :
    (channelBufWrite b data).2.unread = [] ∧
      data.take (channelBufWrite b data).1 ≠ [] := by
  obtain ⟨size, r, w, area⟩ := b
  obtain ⟨hr, hw⟩ := hb
  simp only [WriteOk, Classical.not_imp, not_lt] at hr hw hbad
  obtain ⟨rfl, hle⟩ := hbad
  simp only [channelBufWrite]
  rw [if_neg (by omega), if_neg (by omega), if_neg (by omega), if_neg (by omega)]
  refine ⟨?_, fun h => ?_⟩
  · have hw' : toUint16 ((0 - 1 : Nat) : Int) = 0 := rfl
    rw [hw', unread_of_le (le_refl _), slice_self]
  · have := congrArg List.length h
    rw [List.length_take, List.length_nil] at this
    omega

/-! ## Runs of reads and writes -/

/-- A call on a channel buffer. -/
inductive Call
  | write (data : List UInt8)
  | read (size : Nat)
  deriving DecidableEq, Repr

/-- A buffer, with the bytes accepted from all writes and returned by all reads
    so far. -/
structure Traffic where
  buf : ChannelBuf
  accepted : List UInt8
  returned : List UInt8
  deriving DecidableEq, Repr

/-- The traffic of a new buffer. -/
def Traffic.start (b : ChannelBuf) : Traffic where
  buf := b
  accepted := []
  returned := []

/-- The traffic after a call: a write accepts the first bytes of its data, as
    many as it says; a read returns as many bytes as it says. -/
def Traffic.step (t : Traffic) : Call → Traffic
  | .write data =>
    let (ret, b) := channelBufWrite t.buf data
    { t with buf := b, accepted := t.accepted ++ data.take ret }
  | .read size =>
    let (data, ret, b) := channelBufRead t.buf size
    { t with buf := b, returned := t.returned ++ data.take ret }

/-- The buffer is a byte queue: the bytes returned are the first of those
    accepted, those still unread are the rest, and the tails are in bounds. -/
structure Traffic.Fifo (t : Traffic) : Prop where
  returned_prefix_accepted : t.returned <+: t.accepted
  unread_eq : t.buf.unread = t.accepted.drop t.returned.length
  inBounds : t.buf.InBounds

/-- A call meets the condition of a write; a read has none. -/
def CallOk (t : Traffic) : Call → Prop
  | .write data => WriteOk t.buf data
  | .read _ => True

instance (t : Traffic) : (c : Call) → Decidable (CallOk t c)
  | .write data => inferInstanceAs (Decidable (WriteOk t.buf data))
  | .read _ => inferInstanceAs (Decidable True)

theorem fifo_iff_append {t : Traffic} :
    t.Fifo ↔ t.accepted = t.returned ++ t.buf.unread ∧ t.buf.InBounds := by
  constructor
  · rintro ⟨⟨rest, hrest⟩, hunread, hb⟩
    refine ⟨?_, hb⟩
    rw [hunread, ← hrest, List.drop_left]
  · rintro ⟨happ, hb⟩
    refine ⟨⟨_, happ.symm⟩, ?_, hb⟩
    rw [happ, List.drop_left]

theorem sized_step {t : Traffic} {c : Call} (hs : t.buf.Sized) (h : t.Fifo) :
    (t.step c).buf.Sized := by
  cases c with
  | write data => exact (write_inBounds hs h.inBounds data).1
  | read n => exact (read_keeps hs h.inBounds n).1

/-- One call keeps the buffer a byte queue exactly if it meets its condition. -/
theorem fifo_step_iff {t : Traffic} {c : Call} (hs : t.buf.Sized) (h : t.Fifo) :
    (t.step c).Fifo ↔ CallOk t c := by
  obtain ⟨happ, hb⟩ := fifo_iff_append.1 h
  rw [fifo_iff_append]
  cases c with
  | read n =>
    obtain ⟨_, hb', hread⟩ := read_keeps hs hb n
    refine iff_of_true ⟨?_, hb'⟩ trivial
    simp only [Traffic.step]
    rw [List.append_assoc, ← hread, happ]
  | write data =>
    simp only [Traffic.step, CallOk]
    constructor
    · rintro ⟨happ', _⟩
      by_contra hbad
      obtain ⟨hnil, hne⟩ := write_loses hb hbad
      rw [hnil, List.append_nil, happ, List.append_assoc] at happ'
      have := List.append_eq_nil_iff.1 (List.self_eq_append_right.1 happ'.symm)
      exact hne this.2
    · intro hok
      refine ⟨?_, (write_inBounds hs hb data).2⟩
      rw [write_keeps hs hb hok, ← List.append_assoc, happ]

theorem sized_create {mem : Bool} {size : Int} (h : channelBufCreate mem size = some b) :
    b.Sized ∧ b.bufsize = size.toNat ∧ b.lastReadTail = 0 ∧ b.lastWriteTail = 0 := by
  simp only [channelBufCreate] at h
  split_ifs at h with h₁ h₂ h₃
  obtain rfl := Option.some.inj h
  refine ⟨⟨?_, ?_⟩, ?_, rfl, rfl⟩
  · simp only [List.length_replicate, toUint16]
    omega
  · simp only [toUint16]
    omega
  · simp only [toUint16]
    omega

/-- A new buffer delivers the bytes it accepts in order, in every state of a run,
    exactly if its size is not `0` and all writes made while the read tail
    stands at `0` end before the end of the area. -/
theorem fifo_iff {mem : Bool} {size : Int} {b : ChannelBuf}
    (hb : channelBufCreate mem size = some b) (calls : List Call) :
    Throughout Traffic.step Traffic.Fifo (.start b) calls ↔
      0 < size ∧ Steps Traffic.step CallOk (.start b) calls := by
  obtain ⟨hs, hsize, hr, hw⟩ := sized_create hb
  have hiff (h₀ : (Traffic.start b).Fifo) :
      Throughout Traffic.step Traffic.Fifo (.start b) calls ↔
        Steps Traffic.step CallOk (.start b) calls :=
    throughout_iff_steps (P := Traffic.Fifo) (W := fun t : Traffic => t.buf.Sized)
      (D := fun _ _ => True) (fun _ _ hs h _ _ => sized_step hs h)
      (fun _ _ hs h _ => fifo_step_iff hs h) hs h₀ (steps_of_forall fun _ _ => trivial)
  constructor
  · intro h
    have h₀ : (Traffic.start b).Fifo := h [] List.nil_prefix
    have := h₀.inBounds.read_lt
    simp only [Traffic.start] at this
    exact ⟨by omega, (hiff h₀).1 h⟩
  · rintro ⟨hpos, h⟩
    have h₀ : (Traffic.start b).Fifo := by
      refine fifo_iff_append.2 ⟨?_, ⟨?_, ?_⟩⟩
      · simp only [Traffic.start, List.nil_append]
        rw [unread_of_le (by omega), hr, hw, slice_self]
      · simp only [Traffic.start]
        omega
      · simp only [Traffic.start]
        omega
    exact (hiff h₀).2 h

/-- A buffer of `4` bytes, written short of its end, read and written around it. -/
theorem fifo_iff_four :
    Throughout Traffic.step Traffic.Fifo
      (.start ⟨4, 0, 0, [0, 0, 0, 0]⟩) [.write [1, 2, 3], .read 2, .write [4, 5]] := by
  refine (@fifo_iff true 4 _ rfl _).2 ⟨by decide, ?_⟩
  refine steps_cons.2 ⟨by decide, steps_cons.2 ⟨by decide, steps_cons.2 ⟨by decide, ?_⟩⟩⟩
  exact steps_nil

/-- A write of `4` bytes into a new buffer of `4` bytes is accepted and lost. -/
theorem fifo_lost :
    ∃ b, channelBufCreate true 4 = some b ∧
      ¬ Throughout Traffic.step Traffic.Fifo (.start b) [.write [1, 2, 3, 4]] := by
  refine ⟨_, rfl, fun h => ?_⟩
  have hfifo := (h [.write [1, 2, 3, 4]] (List.prefix_refl _)).unread_eq
  revert hfifo
  decide

end Cube.Channel
