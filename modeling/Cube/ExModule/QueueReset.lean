import Cube.ExModule.MsgQueue

/-!
# Resetting a message queue

`message_queue_reset` closes a queue and then frees the messages in it
(`sec_msgqueue.c`). It takes them out by `message_queue_getmsg`, which refuses a
queue that is closed: the messages stay in the queue, and what is freed is the
local variable a message would have been stored in.

* `exists_contents`: in every run, the queue holds messages in a ring and counts
  them, closed or not;
* `reset_contents`: what a reset does to a queue with messages;
* `reset_drained_iff`: a reset empties the queue and frees its messages exactly
  if there are none.
-/

namespace Cube.ExModule

open Lib Links

variable {A M : Type*} [DecidableEq A]

/-- `message_free`, which does nothing for `NULL`: the messages freed, given
    those freed before. -/
def messageFree (freed : List M) (msg : Option M) : List M := freed ++ msg.toList

/-- The loop of `message_queue_reset`, of at most as many turns as its first
    argument says: the messages freed and the queue. A turn that does not leave
    the loop has taken out a message. -/
def resetLoop : Nat → MessageQueue A M → Option M → List M → List M × MessageQueue A M
  | 0, q, _, freed => (freed, q)
  | turns + 1, q, msg, freed =>
    if q.msgNum > 0 then
      let (ret, msg, q) := messageQueueGetmsg q msg
      let freed := messageFree freed msg
      if ret ≤ 0 then (freed, q) else resetLoop turns q msg freed
    else (freed, q)

/-- `message_queue_reset`: the value returned, the messages freed and the queue
    after the call. The local variable `msg` is not set before the loop, so that
    its value, an argument here, may be any. -/
def messageQueueReset (q : MessageQueue A M) (msg : Option M) :
    Int × List M × MessageQueue A M :=
  if q.state < 0 then (-EINVAL, [], q)
  else
    let q := { q with state := -1 }
    (0, resetLoop q.msgNum q msg [])

/-! ## The contents of a queue, closed or not -/

/-- The messages linked in the queue are `msgs`, in the order of the links. -/
structure Contents (q : MessageQueue A M) (msgs : List M) : Prop where
  ring : ∃ l, IsRing q.links q.head l ∧ l.map q.record = msgs.map some ∧
    ∀ u ∈ q.head :: l, u ∈ q.used
  msgNum_eq : q.msgNum = msgs.length

variable {q : MessageQueue A M} {msgs : List M}

omit [DecidableEq A] in
theorem Holds.contents (h : Holds q msgs) : Contents q msgs := ⟨h.ring, h.msgNum_eq⟩

omit [DecidableEq A] in
theorem Contents.holds (h : Contents q msgs) (hstate : 0 ≤ q.state) : Holds q msgs :=
  ⟨hstate, h.ring, h.msgNum_eq⟩

omit [DecidableEq A] in
/-- Closing a queue leaves what it holds. -/
theorem Contents.closed (h : Contents q msgs) : Contents { q with state := -1 } msgs :=
  ⟨h.ring, h.msgNum_eq⟩

/-- A closed queue takes no message, -/
theorem putmsg_closed (hstate : q.state < 0) (m : Malloc A) (msg : M) :
    messageQueuePutmsg m q msg = (-EINVAL, q) := by
  rw [messageQueuePutmsg, if_pos hstate]

/-- and gives none. -/
theorem getmsg_closed (hstate : q.state < 0) (msg : Option M) :
    messageQueueGetmsg q msg = (-EINVAL, msg, q) := by
  rw [messageQueueGetmsg, if_pos hstate]

/-- The first turn of the loop finds a closed queue, and is the last one. -/
theorem resetLoop_closed (hstate : q.state < 0) {turns : Nat} (hturns : turns = q.msgNum)
    (msg : Option M) (freed : List M) :
    resetLoop turns q msg freed =
      (if q.msgNum = 0 then freed else messageFree freed msg, q) := by
  cases turns with
  | zero => rw [resetLoop, if_pos hturns.symm]
  | succ turns =>
    have hnum : q.msgNum > 0 := by omega
    rw [resetLoop, if_pos hnum, getmsg_closed hstate]
    simp [EINVAL, Nat.pos_iff_ne_zero.1 hnum]

/-- A reset of a queue in service leaves its messages linked, and frees what the
    local variable is, if there is a message. -/
theorem reset_contents (h : Contents q msgs) (hstate : 0 ≤ q.state) (msg : Option M) :
    messageQueueReset q msg =
      (0, if msgs = [] then [] else msg.toList, { q with state := -1 }) := by
  have hclosed : ({ q with state := -1 } : MessageQueue A M).state < 0 := by simp
  rw [messageQueueReset, if_neg (by omega)]
  simp only
  rw [resetLoop_closed hclosed rfl]
  simp [h.msgNum_eq, messageFree]

/-- A reset of a closed queue does nothing. -/
theorem reset_closed (hstate : q.state < 0) (msg : Option M) :
    messageQueueReset q msg = (-EINVAL, [], q) := by
  rw [messageQueueReset, if_pos hstate]

/-! ## Runs with resets -/

/-- A use of a message queue: a call, or a reset with a value of its local
    variable. -/
inductive QueueUse (M : Type*)
  | call (c : Call M)
  | reset (msg : Option M)
  deriving DecidableEq, Repr

/-- The queue after a use. -/
def MessageQueue.after (m : Malloc A) (q : MessageQueue A M) : QueueUse M → MessageQueue A M
  | .call (.putmsg msg) => (messageQueuePutmsg m q msg).2
  | .call .getmsg => (messageQueueGetmsg q none).2.2
  | .reset msg => (messageQueueReset q msg).2.2

/-- A use of a queue leaves a ring of messages, counted. -/
theorem Contents.after (h : Contents q msgs) (m : Malloc A) (u : QueueUse M) :
    ∃ msgs', Contents (q.after m u) msgs' := by
  rcases Int.lt_or_le q.state 0 with hstate | hstate
  · refine ⟨msgs, ?_⟩
    match u with
    | .call (.putmsg msg) => simpa only [MessageQueue.after, putmsg_closed hstate] using h
    | .call .getmsg => simpa only [MessageQueue.after, getmsg_closed hstate] using h
    | .reset msg => simpa only [MessageQueue.after, reset_closed hstate] using h
  · match u with
    | .call (.putmsg msg) =>
      simp only [MessageQueue.after]
      rcases holds_putmsg (m := m) (h.holds hstate) msg with hput | ⟨_, hput⟩
      · exact ⟨msgs, by rw [hput]; exact h⟩
      · exact ⟨msgs ++ [msg], hput.contents⟩
    | .call .getmsg =>
      simp only [MessageQueue.after]
      rcases List.eq_nil_or_concat msgs with rfl | ⟨msgs, last, rfl⟩
      · exact ⟨[], by rw [getmsg_empty (h.holds hstate)]; exact h⟩
      · rw [List.concat_eq_append] at h
        exact ⟨msgs, (holds_getmsg (h.holds hstate) none).2.2.contents⟩
    | .reset msg =>
      refine ⟨msgs, ?_⟩
      simp only [MessageQueue.after, reset_contents h hstate]
      exact h.closed

/-- In every run of puts, gets and resets, the queue is a ring of messages, and
    `msg_num` their number. -/
theorem exists_contents (m : Malloc A) (uses : List (QueueUse M)) (head : A) (links : Links A) :
    Throughout (MessageQueue.after m) (fun q => ∃ msgs, Contents q msgs)
      (messageQueueInit head links) uses := by
  refine run_invariant (C := fun _ _ => True) (fun q u h _ => ?_) ⟨[], holds_init.contents⟩
    (steps_of_forall fun _ _ => trivial)
  obtain ⟨_, h⟩ := h
  exact h.after m u

/-! ## What a reset is for -/

/-- The queue is emptied: each of the messages `msgs` is freed once and nothing
    else is, no message is linked, and the calls to come are refused. -/
structure Drained (msgs freed : List M) (q : MessageQueue A M) : Prop where
  freed_perm : freed.Perm msgs
  empty : Contents q []
  putmsg_refused : ∀ (m : Malloc A) (msg : M), messageQueuePutmsg m q msg = (-EINVAL, q)
  getmsg_refused : ∀ msg : Option M, messageQueueGetmsg q msg = (-EINVAL, msg, q)

omit [DecidableEq A] in
/-- A queue holds one list of messages only in number. -/
theorem Contents.length_eq {msgs' : List M} (h : Contents q msgs) (h' : Contents q msgs') :
    msgs.length = msgs'.length := h.msgNum_eq.symm.trans h'.msgNum_eq

/-- A queue with messages is not emptied by a reset. -/
theorem Contents.not_drained (h : Contents q msgs) (hmsgs : msgs ≠ []) (msg : Option M) :
    ¬ Drained msgs (messageQueueReset q msg).2.1 (messageQueueReset q msg).2.2 := by
  intro hd
  have hkept : Contents (messageQueueReset q msg).2.2 msgs := by
    rcases Int.lt_or_le q.state 0 with hstate | hstate
    · simpa only [reset_closed hstate] using h
    · simpa only [reset_contents h hstate] using h.closed
  exact hmsgs (List.length_eq_zero_iff.1 (hkept.length_eq hd.empty))

/-- A reset frees the messages of a queue, each once, and leaves it empty and
    closed, exactly if the queue holds no message. -/
theorem reset_drained_iff (h : Contents q msgs) (msg : Option M) :
    Drained msgs (messageQueueReset q msg).2.1 (messageQueueReset q msg).2.2 ↔ msgs = [] := by
  refine ⟨fun hd => by_contra fun hmsgs => h.not_drained hmsgs msg hd, ?_⟩
  rintro rfl
  rcases Int.lt_or_le q.state 0 with hstate | hstate
  · rw [reset_closed hstate]
    exact ⟨.refl _, h, putmsg_closed hstate, getmsg_closed hstate⟩
  · rw [reset_contents h hstate]
    have hclosed : ({ q with state := -1 } : MessageQueue A M).state < 0 := by simp
    exact ⟨.refl _, h.closed, putmsg_closed hclosed, getmsg_closed hclosed⟩

/-- A new queue is emptied by a reset. -/
theorem reset_drained_init :
    Drained [] (messageQueueReset (messageQueueInit 0 ⟨id, id⟩ : MessageQueue Nat Nat) none).2.1
      (messageQueueReset (messageQueueInit 0 ⟨id, id⟩ : MessageQueue Nat Nat) none).2.2 :=
  (reset_drained_iff holds_init.contents none).2 rfl

/-- A queue with the message `1` is not emptied by a reset, whatever the local
    variable is. -/
theorem reset_not_drained : ∃ (m : Malloc Nat) (q : MessageQueue Nat Nat),
    q = (messageQueuePutmsg m (messageQueueInit 0 ⟨id, id⟩) 1).2 ∧ Contents q [1] ∧
      ∀ msg, ¬ Drained [1] (messageQueueReset q msg).2.1 (messageQueueReset q msg).2.2 := by
  have hinit : Holds (messageQueueInit 0 ⟨id, id⟩ : MessageQueue Nat Nat) [] := holds_init
  have hput := holds_putmsg (m := Malloc.counting) hinit 1
  have hq : Contents (messageQueuePutmsg .counting (messageQueueInit 0 ⟨id, id⟩) 1).2 [1] := by
    rcases hput with hput | ⟨_, hput⟩
    · -- The memory is there: the call does not return `-ENOMEM`.
      exact absurd (congrArg Prod.fst hput) (by decide)
    · exact hput.contents
  exact ⟨.counting, _, rfl, hq, fun msg => hq.not_drained (by simp) msg⟩

end Cube.ExModule
