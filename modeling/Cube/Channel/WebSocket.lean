import Cube.Channel.Registry
import Cube.Lib.Pieces

/-!
# Payloads of a websocket

The payload of a frame is received in reads of up to 1536 bytes (`websocket_channel.c`), each
of which is unmasked and written to the channel of the plugin. The mask is started again for
each read, though a payload is masked as a whole.

* `recvLoop_eq`: what the loop returns and the bytes that the channel takes.
* `unmasks_iff`: the reads of which the bytes are those of the payload.
-/

namespace Cube.Channel.WebSocket

open Lib
open Pieces (changeFrom)
open Registry (CHANNEL_READ)

/-- The size of `Buf` that a read may fill. -/
def BUFFER_SIZE : Nat := 1536

/-- `masking_key` of a frame. -/
abbrev MaskingKey := Vector UInt8 4

/-- `ws_umask`. -/
def wsUmask (mask : MaskingKey) (data : List UInt8) : List UInt8 :=
  data.mapIdx fun i c => c ^^^ mask[i % 4]

/-- The channel of the plugin, with the buffer that `channel_inner_write` writes to. -/
structure InnerChannel where
  type : Int32
  readBuf : ChannelBuf

/-- `channel_inner_write`. -/
def channelInnerWrite (channel : InnerChannel) (data : List UInt8) : Int × InnerChannel :=
  if channel.type &&& CHANNEL_READ = 0 then (-EINVAL, channel)
  else
    let (ret, readBuf) := channelBufWrite channel.readBuf data
    (ret, { channel with readBuf := readBuf })

/-- A read that returned some bytes, and the channel as it is when they are written to it:
    its other side may read from it in between. -/
structure Arrival where
  data : List UInt8
  data_ne : data ≠ []
  length_le : data.length ≤ BUFFER_SIZE
  channel : InnerChannel

/-- The loop of `websocket_channel_start` over the reads of a payload, which ends with one
    that returned `last`: what it comes to, and the bytes that the channel took. A return
    is the error, and the loop is left with `0`. -/
def recvLoop (mask : MaskingKey) (last : Int) :
    List Arrival → Int → List UInt8 → Int × List UInt8
  | [], ret, written => if ret < last then (-EINVAL, written) else (0, written)
  | a :: arrivals, _, written =>
    let data := wsUmask mask a.data
    let ret := (channelInnerWrite a.channel data).1
    let written := written ++ data.take ret.toNat
    if ret < a.data.length then (-EINVAL, written)
    else recvLoop mask last arrivals ret written

/-- The payload that was read. -/
def payload (arrivals : List Arrival) : List UInt8 := (arrivals.map Arrival.data).flatten

/-- The channel takes all the bytes of a read. -/
def Arrival.Taken (a : Arrival) : Prop :=
  (a.data.length : Int) ≤ (channelInnerWrite a.channel a.data).1

instance (a : Arrival) : Decidable a.Taken := inferInstanceAs (Decidable (_ ≤ _))

/-- The loop hands the payload on, unmasked as a whole, or the first bytes of it if it
    reports that the channel did not take all bytes. -/
structure Unmasks (mask : MaskingKey) (last ret : Int) (arrivals : List Arrival) : Prop where
  reported_iff : (recvLoop mask last arrivals ret []).1 = -EINVAL ↔ ∃ a ∈ arrivals, ¬ a.Taken
  written_first : (recvLoop mask last arrivals ret []).2 <+: wsUmask mask (payload arrivals)
  written_whole : (recvLoop mask last arrivals ret []).1 ≠ -EINVAL →
    (recvLoop mask last arrivals ret []).2 = wsUmask mask (payload arrivals)

/-- The bytes that the channel takes of the reads, up to one that it does not take all of. -/
def takenPieces : List Arrival → List (List UInt8)
  | [] => []
  | a :: arrivals =>
    if a.Taken then a.data :: takenPieces arrivals
    else [a.data.take (channelInnerWrite a.channel a.data).1.toNat]

/-! ## Writing to the channel -/

theorem wsUmask_eq (mask : MaskingKey) :
    wsUmask mask = changeFrom (fun i c => c ^^^ mask[i % 4]) 0 := by
  funext data
  simp only [wsUmask, changeFrom, Nat.zero_add]

/-- How many bytes are taken depends on their number alone. -/
theorem channelBufWrite_fst (b : ChannelBuf) {data data' : List UInt8}
    (h : data.length = data'.length) : (channelBufWrite b data).1 = (channelBufWrite b data').1 := by
  simp only [channelBufWrite, h]
  split_ifs <;> rfl

theorem innerWrite_umask (mask : MaskingKey) (channel : InnerChannel) (data : List UInt8) :
    (channelInnerWrite channel (wsUmask mask data)).1 = (channelInnerWrite channel data).1 := by
  have hlen : (wsUmask mask data).length = data.length := List.length_mapIdx
  simp only [channelInnerWrite]
  split_ifs
  · rfl
  · simp only [channelBufWrite_fst channel.readBuf hlen]

/-! ## The loop -/

variable {mask : MaskingKey} {last ret : Int} {arrivals : List Arrival}

/-- The loop returns the error exactly if the channel does not take all bytes of a read, and
    the channel takes each piece unmasked from the start of the mask. -/
theorem recvLoop_eq (hlast : last ≤ 0) (hret : 0 ≤ ret) (written : List UInt8) :
    recvLoop mask last arrivals ret written =
      (if ∀ a ∈ arrivals, a.Taken then 0 else -EINVAL,
        written ++ ((takenPieces arrivals).map (wsUmask mask)).flatten) := by
  induction arrivals generalizing ret written with
  | nil =>
    rw [recvLoop, if_neg (by omega), if_pos (by simp)]
    simp [takenPieces]
  | cons a arrivals ih =>
    simp only [recvLoop, innerWrite_umask, takenPieces]
    rcases Decidable.em a.Taken with htaken | hfull
    · -- the loop goes on, with what was written as `ret`
      have hge : ¬ (channelInnerWrite a.channel a.data).1 < a.data.length := Int.not_lt.2 htaken
      have htake : (wsUmask mask a.data).take (channelInnerWrite a.channel a.data).1.toNat =
          wsUmask mask a.data := by
        refine List.take_of_length_le ?_
        rw [wsUmask, List.length_mapIdx]
        exact Int.le_toNat (by omega) |>.2 htaken
      rw [if_neg hge, if_pos htaken, ih (by omega), htake, List.append_assoc]
      simp only [List.forall_mem_cons, htaken, true_and, List.map_cons, List.flatten_cons]
    · have hlt : (channelInnerWrite a.channel a.data).1 < a.data.length := Int.not_le.1 hfull
      rw [if_pos hlt, if_neg hfull, if_neg fun h => hfull (h a List.mem_cons_self)]
      simp only [List.map_cons, List.map_nil, List.flatten_cons, List.flatten_nil,
        List.append_nil, wsUmask_eq, Pieces.take_changeFrom]

/-- What is taken are the first bytes of the payload, or all of it. -/
theorem takenPieces_first (arrivals : List Arrival) :
    (takenPieces arrivals).flatten <+: payload arrivals := by
  induction arrivals with
  | nil => exact List.prefix_refl _
  | cons a arrivals ih =>
    rw [takenPieces, payload, List.map_cons, List.flatten_cons]
    split_ifs
    · rw [List.flatten_cons]
      exact (List.prefix_append_right_inj a.data).2 ih
    · rw [List.flatten_cons, List.flatten_nil, List.append_nil]
      exact (List.take_prefix _ _).trans (List.prefix_append _ _)

theorem takenPieces_all (h : ∀ a ∈ arrivals, a.Taken) :
    takenPieces arrivals = arrivals.map Arrival.data := by
  induction arrivals with
  | nil => rfl
  | cons a arrivals ih =>
    rw [List.forall_mem_cons] at h
    rw [takenPieces, if_pos h.1, ih h.2, List.map_cons]

/-- The pieces are unmasked right exactly if the mask reads alike from where each of them
    starts. -/
theorem flatten_umask_iff (mask : MaskingKey) (pieces : List (List UInt8)) :
    (pieces.map (wsUmask mask)).flatten = wsUmask mask pieces.flatten ↔
      ∀ front piece back, pieces = front ++ piece :: back →
        ∀ j < piece.length, mask[j % 4] = mask[(front.flatten.length + j) % 4] := by
  rw [wsUmask_eq, Pieces.flatten_map_change_iff]
  refine forall_congr' fun front => forall_congr' fun piece => forall_congr' fun back =>
    imp_congr_right fun _ => ?_
  rw [Pieces.changeFrom_eq_iff]
  simp only [Nat.zero_add, UInt8.xor_right_inj]
  exact ⟨fun h j hj => h j _ (List.getElem?_eq_getElem hj),
    fun h j _ hj => h j (List.getElem?_eq_some_iff.1 hj).1⟩

/-- The first bytes unmasked are the first ones of what is unmasked. -/
theorem umask_first {l l' : List UInt8} (h : l <+: l') :
    wsUmask mask l = (wsUmask mask l').take l.length := by
  rw [wsUmask_eq, Pieces.take_changeFrom, ← List.prefix_iff_eq_take.1 h]

theorem length_flatten_umask (pieces : List (List UInt8)) :
    (pieces.map (wsUmask mask)).flatten.length = pieces.flatten.length := by
  induction pieces with
  | nil => rfl
  | cons piece pieces ih =>
    have hlen : (wsUmask mask piece).length = piece.length := List.length_mapIdx
    rw [List.map_cons, List.flatten_cons, List.flatten_cons, List.length_append,
      List.length_append, ih, hlen]

/-- The payload is handed on right exactly if the mask reads alike from the start of each
    piece of it, as far as the channel takes it. -/
theorem unmasks_iff (mask : MaskingKey) (arrivals : List Arrival) {last ret : Int}
    (hlast : last ≤ 0) (hret : 0 ≤ ret) :
    Unmasks mask last ret arrivals ↔
      ∀ front piece back, takenPieces arrivals = front ++ piece :: back →
        ∀ j < piece.length, mask[j % 4] = mask[(front.flatten.length + j) % 4] := by
  have hloop : recvLoop mask last arrivals ret [] =
      (if ∀ a ∈ arrivals, a.Taken then 0 else -EINVAL,
        ((takenPieces arrivals).map (wsUmask mask)).flatten) :=
    recvLoop_eq hlast hret []
  have hfirst : wsUmask mask (takenPieces arrivals).flatten =
      (wsUmask mask (payload arrivals)).take (takenPieces arrivals).flatten.length :=
    umask_first (takenPieces_first arrivals)
  rw [← flatten_umask_iff]
  constructor
  · intro h
    -- as many bytes of the payload as were taken
    have hwritten := h.written_first
    rw [hloop, List.prefix_iff_eq_take, length_flatten_umask] at hwritten
    exact hwritten.trans hfirst.symm
  · intro h
    refine ⟨?_, ?_, fun hleft => ?_⟩
    · rw [hloop]
      split_ifs with hall
      · have hok : (0 : Int) ≠ -EINVAL := by decide
        exact iff_of_false hok fun ⟨a, ha, hnot⟩ => hnot (hall a ha)
      · exact iff_of_true rfl (by simpa using hall)
    · rw [hloop, h, hfirst]
      exact List.take_prefix _ _
    · rw [hloop] at hleft ⊢
      have hall : ∀ a ∈ arrivals, a.Taken := by
        by_contra hnot
        exact hleft (if_neg hnot)
      rw [h, takenPieces_all hall]
      rfl

/-- A channel that is empty. -/
def emptyChannel : InnerChannel := ⟨3, 4000, 0, 0, List.replicate 4000 0⟩

/-- A read of one byte, which the channel takes. -/
def oneByte (c : UInt8) : Arrival :=
  ⟨[c], List.cons_ne_nil c [], Nat.le_of_ble_eq_true rfl, emptyChannel⟩

theorem unmasks_iff_two : Unmasks (.replicate 4 5) 0 1 [oneByte 1, oneByte 2] := by
  refine (unmasks_iff (.replicate 4 5) [oneByte 1, oneByte 2] (by decide) (by decide)).2 ?_
  intro front piece back _ j _
  rw [Vector.getElem_replicate, Vector.getElem_replicate]

/-- Two reads of a byte each: both are unmasked by the first byte of the mask. -/
theorem not_unmasks : ¬ Unmasks #v[1, 2, 3, 4] 0 1 [oneByte 0, oneByte 0] := by
  intro h
  have hwhole := h.written_whole (by decide)
  revert hwhole
  decide

end Cube.Channel.WebSocket
