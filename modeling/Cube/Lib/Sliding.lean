import Cube.Lib.Scan
import Cube.Lib.Window

/-!
# Sliding windows

A program that reads a long text through a short buffer: it consumes some of what
the buffer holds, moves the rest to the front, sets a terminator behind it and
reads more of the text into the room behind. The terminator is written over by
what is read, and not set again.

* `Sliding.holds_start`, `Sliding.Holds.next`: the window holds the front of what
  is left of the text. The last time something is read to it, and does not fill it,
  it holds behind that what it held there before (`staleAfter`).
* `Sliding.Holds.takeWhile_buffer`: what is read of it up to a terminator.
-/

namespace Cube.Lib

variable {α : Type*}

/-- A window: the buffer, as far as it has been set, the number of the elements of it
    that are left to be consumed, what of the text has not been read, and whether
    all of it has been. -/
structure Sliding (α : Type*) where
  buffer : List α
  leftlen : Nat
  unread : List α
  finished : Bool

namespace Sliding

variable {size : Nat} {z : α} {text stale : List α} {w : Sliding α}

/-- The first read of a text, to a buffer of `size` elements and a terminator `z`. -/
def start (size : Nat) (z : α) (text : List α) : Sliding α where
  buffer := text.take size ++ [z]
  leftlen := (text.take size).length
  unread := text.drop size
  finished := decide ((text.take size).length < size)

/-- The window when `n` elements are consumed: the others are moved to the front, and
    a terminator is set. -/
def shift (z : α) (w : Sliding α) (n : Nat) : Sliding α :=
  { w with
    buffer := patch (patch w.buffer 0 (slice w.buffer n w.leftlen)) (w.leftlen - n) [z]
    leftlen := w.leftlen - n }

/-- The read of as much as there is room for. A read of less is the last. -/
def refill (size : Nat) (w : Sliding α) : Sliding α :=
  if w.finished then w else
    let data := w.unread.take (size - w.leftlen)
    { buffer := patch w.buffer w.leftlen data
      leftlen := w.leftlen + data.length
      unread := w.unread.drop (size - w.leftlen)
      finished := decide (data.length < size - w.leftlen) }

/-- The window holds the front of `text`, all that is left, and `stale` behind it. -/
structure Holds (size : Nat) (z : α) (w : Sliding α) (text stale : List α) : Prop where
  exists_buffer : ∃ junk, w.buffer = text.take size ++ stale ++ z :: junk ∧
    (w.finished = false → junk = [])
  leftlen_eq : w.leftlen = (text.take size).length
  unread_eq : w.unread = text.drop size
  finished_eq : w.finished = decide (text.length < size)
  stale_eq : w.finished = false → stale = []

/-- What the window holds behind the rest of the text, after `n` elements of it are
    consumed: the end of what it held before, where the last read falls short. -/
def staleAfter (size : Nat) (text : List α) (n : Nat) : List α :=
  if size < text.length ∧ (text.drop n).length < size then
    (text.take size).drop (text.drop n).length
  else []

theorem holds_start (size : Nat) (z : α) (text : List α) :
    Holds size z (start size z text) text [] where
  exists_buffer := ⟨[], by rw [start, List.append_nil], fun _ => rfl⟩
  leftlen_eq := rfl
  unread_eq := rfl
  finished_eq := by
    rw [start, List.length_take, decide_eq_decide]
    omega
  stale_eq := fun _ => rfl

/-- What is read of the window up to a terminator. -/
theorem Holds.takeWhile_buffer [DecidableEq α] (h : Holds size z w text stale) (htext : z ∉ text)
    (hstale : z ∉ stale) : w.buffer.takeWhile (· ≠ z) = text.take size ++ stale := by
  obtain ⟨junk, hbuffer, -⟩ := h.exists_buffer
  rw [hbuffer]
  refine takeWhile_terminator (fun hz => ?_) junk
  rcases List.mem_append.1 hz with hz | hz
  · exact htext (List.mem_of_mem_take hz)
  · exact hstale hz

theorem not_mem_staleAfter (htext : z ∉ text) (n : Nat) : z ∉ staleAfter size text n := by
  unfold staleAfter
  split_ifs
  · exact fun h => htext (List.mem_of_mem_take (List.mem_of_mem_drop h))
  · exact List.not_mem_nil

/-- The window that is moved to the front, with a terminator, of a buffer that holds
    `front` from the start on. -/
theorem buffer_shift (front junk : List α) {n : Nat} (hn : n ≤ front.length)
    (hbuffer : w.buffer = front ++ junk) (hlen : w.leftlen = front.length) :
    (w.shift z n).buffer = front.drop n ++ z :: (front ++ junk).drop (front.length - n + 1) := by
  have hdrop : (front.drop n).length = front.length - n := List.length_drop
  have hslice : slice (front ++ junk) n front.length = front.drop n := by
    rw [slice, List.drop_append_of_le_length hn, ← hdrop, List.take_left]
  simp only [shift, hbuffer, hlen, hslice, ← hdrop, patch, List.take_zero, List.nil_append,
    Nat.zero_add, List.length_singleton]
  rw [List.take_left, List.append_assoc, List.singleton_append, ← List.drop_drop,
    List.drop_left, List.drop_drop]

/-- What is left of the text, up to the size of the window, is what is left of the
    window and what is read. -/
theorem take_drop_eq (size : Nat) (text : List α) {n : Nat} (hn : n ≤ size) :
    (text.drop n).take size = (text.take size).drop n ++ (text.drop size).take n := by
  have h : text.drop size = (text.drop n).drop (size - n) := by
    rw [List.drop_drop, Nat.add_sub_cancel' hn]
  rw [List.drop_take, h, ← List.take_add, Nat.sub_add_cancel hn]

/-- The step after which nothing more is read. -/
theorem Holds.next_finished (h : Holds size z w text stale) {n : Nat} (hn : n ≤ w.leftlen)
    (hfin : w.finished = true) :
    Holds size z ((w.shift z n).refill size) (text.drop n) (staleAfter size text n) := by
  obtain ⟨junk, hbuffer, -⟩ := h.exists_buffer
  have hlt : text.length < size := by
    have := h.finished_eq
    rwa [hfin, eq_comm, decide_eq_true_eq] at this
  have hlt' : (text.drop n).length < size := by
    rw [List.length_drop]
    omega
  have htake : text.take size = text := List.take_of_length_le (Nat.le_of_lt hlt)
  have htake' : (text.drop n).take size = text.drop n := List.take_of_length_le (Nat.le_of_lt hlt')
  have hlen := h.leftlen_eq
  rw [htake] at hbuffer hlen
  have hshift := buffer_shift (z := z) text (stale ++ z :: junk) (hlen ▸ hn)
    (by rw [hbuffer, List.append_assoc]) hlen
  have hrefill : (w.shift z n).refill size = w.shift z n := if_pos hfin
  rw [hrefill, staleAfter, if_neg (fun h => Nat.lt_asymm hlt h.1)]
  refine ⟨⟨_, by rw [hshift, htake', List.append_nil], fun h => ?_⟩, ?_, ?_, ?_, fun _ => rfl⟩
  · exact absurd (hfin.symm.trans h) (by simp)
  · rw [htake', List.length_drop, ← hlen]
    rfl
  · rw [List.drop_eq_nil_of_le (Nat.le_of_lt hlt')]
    exact h.unread_eq.trans (List.drop_eq_nil_of_le (Nat.le_of_lt hlt))
  · rw [decide_eq_true hlt']
    exact hfin

/-- The window of which `n` elements are consumed, when it is filled again. -/
theorem Holds.refill_eq (h : Holds size z w text []) (hfin : w.finished = false) {n : Nat}
    (hn : n ≤ size) :
    (w.shift z n).refill size =
      { buffer := (text.drop n).take size ++
          (z :: (text.take size ++ [z]).drop (size - n + 1)).drop ((text.drop size).take n).length
        leftlen := size - n + ((text.drop size).take n).length
        unread := text.drop (size + n)
        finished := decide (((text.drop size).take n).length < n) } := by
  obtain ⟨junk, hbuffer, hjunk⟩ := h.exists_buffer
  have hle : size ≤ text.length := by
    have := h.finished_eq
    rw [hfin, eq_comm, decide_eq_false_iff_not] at this
    omega
  have hfront : (text.take size).length = size := List.length_take_of_le hle
  have hlen : w.leftlen = size := h.leftlen_eq.trans hfront
  have hkept : ((text.take size).drop n).length = size - n := by
    rw [List.length_drop, hfront]
  rw [List.append_nil, hjunk hfin] at hbuffer
  have hshift := buffer_shift (z := z) (n := n) (text.take size) [z] (by rwa [hfront]) hbuffer
    h.leftlen_eq
  have hleft : (w.shift z n).leftlen = size - n := by rw [shift, hlen]
  have hunread : (w.shift z n).unread = text.drop size := h.unread_eq
  have hfin' : ¬ (w.shift z n).finished = true := by
    rw [Bool.not_eq_true]
    exact hfin
  rw [hfront] at hshift
  simp only [refill, if_neg hfin', hleft, hunread, hshift, Nat.sub_sub_self hn, List.drop_drop]
  congr 1
  -- What is read is put behind what is kept.
  rw [take_drop_eq size text hn, patch, ← hkept, List.take_left, List.drop_length_add_append]

/-- A step of the reader: elements are consumed, and more of the text is read. -/
theorem Holds.next (h : Holds size z w text stale) {n : Nat} (hn : n ≤ w.leftlen) :
    Holds size z ((w.shift z n).refill size) (text.drop n) (staleAfter size text n) := by
  rcases hfin : w.finished with _ | _
  · obtain rfl := h.stale_eq hfin
    have hle : size ≤ text.length := by
      have := h.finished_eq
      rw [hfin, eq_comm, decide_eq_false_iff_not] at this
      omega
    have hfront : (text.take size).length = size := List.length_take_of_le hle
    have hns : n ≤ size := by
      rw [← hfront, ← h.leftlen_eq]
      exact hn
    have hdata : ((text.drop size).take n).length = min n (text.length - size) := by
      rw [List.length_take, List.length_drop]
    rw [h.refill_eq hfin hns]
    refine ⟨?_, ?_, ?_, ?_, ?_⟩
    · simp only [decide_eq_false_iff_not]
      rcases hk : ((text.drop size).take n).length with _ | k
      · -- Nothing is read: the terminator stays, and nothing is behind it in a full window.
        have hno : ¬ (size < text.length ∧ (text.drop n).length < size) := by
          rw [List.length_drop]
          omega
        refine ⟨(text.take size ++ [z]).drop (size - n + 1), ?_, fun h0 => ?_⟩
        · rw [staleAfter, if_neg hno, List.append_nil, List.drop_zero]
        · refine List.drop_eq_nil_of_le ?_
          rw [List.length_append, hfront, List.length_singleton]
          omega
      · -- The terminator is written over: the end of the old window is left.
        have hdrop : (z :: (text.take size ++ [z]).drop (size - n + 1)).drop (k + 1) =
            (text.take size).drop (size - n + (k + 1)) ++ [z] := by
          rw [List.drop_succ_cons, List.drop_drop, Nat.add_assoc, Nat.add_comm 1 k,
            List.drop_append_of_le_length (by rw [hfront]; omega)]
        refine ⟨[], ?_, fun _ => rfl⟩
        rw [hdrop, List.append_assoc, List.append_cancel_left_eq, List.append_cancel_right_eq,
          staleAfter]
        split_ifs with hshort
        · rw [List.length_drop] at hshort ⊢
          congr 1
          omega
        · refine List.drop_eq_nil_of_le ?_
          rw [List.length_drop] at hshort
          omega
    · simp only [hdata, List.length_take, List.length_drop]
      omega
    · rw [List.drop_drop, Nat.add_comm n size]
    · rw [decide_eq_decide, hdata, List.length_drop]
      omega
    · intro hfull
      rw [decide_eq_false_iff_not, hdata] at hfull
      rw [staleAfter, if_neg]
      rw [List.length_drop]
      omega
  · exact h.next_finished hn hfin

end Sliding

end Cube.Lib
