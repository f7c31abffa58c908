import Cube.Lib.DList
import Cube.Lib.Outcome
import Cube.Lib.Run

/-!
# The message queue of a module

A module receives its messages through a queue (`sec_msgqueue.c`): a circular
list of records behind a head, and a count of them. Records are added before
the head (`List_add_tail`), and taken out before the head as well: the queue
returns the message put last.

* `holds_putmsg`, `holds_getmsg`: what the two operations do to the messages
  linked in the queue;
* `msgNum_eq`: in every run, `msg_num` counts the messages linked;
* `queue_in_order`: a run whose `getmsg` calls each find at most one message
  returns the messages in the order they were put, and no other run of distinct
  messages does.
-/

namespace Cube.ExModule

open Lib Links

/-- The memory a `malloc` finds, given the addresses in use: an address that is
    not, or none. -/
structure Malloc (A : Type*) where
  malloc : List A → Option A
  fresh : ∀ used a, malloc used = some a → a ∉ used

/-- A memory of numbered addresses, each one found being the number of those in use. -/
def Malloc.counting : Malloc Nat where
  malloc used := if used.length ∈ used then none else some used.length
  fresh used a h := by
    split_ifs at h with hmem
    exact Option.some.inj h ▸ hmem

variable {A M : Type*} [DecidableEq A]

/-- A message queue, `MESSAGE_QUEUE`: the address of its head, its fields, and
    the part of the memory it uses: the links and messages of the records, and
    the addresses allocated. -/
structure MessageQueue (A M : Type*) where
  head : A
  state : Int
  msgNum : Nat
  links : Links A
  record : A → Option M
  used : List A

/-- `message_queue_init`: a queue with its head linked to itself. -/
def messageQueueInit (head : A) (links : Links A) : MessageQueue A M where
  head := head
  state := 0
  msgNum := 0
  links := links.init head
  record _ := none
  used := [head]

/-- `__message_queue_putmsg`: the value returned and the queue after the call. -/
def messageQueuePutmsg' (m : Malloc A) (q : MessageQueue A M) (msg : M) :
    Int × MessageQueue A M :=
  match m.malloc q.used with
  | none => (-ENOMEM, q)
  | some newrecord =>
    (0, { q with
      used := newrecord :: q.used
      record := Function.update q.record newrecord (some msg)
      msgNum := q.msgNum + 1
      links := (q.links.init newrecord).addTail newrecord q.head })

/-- `message_queue_putmsg`. -/
def messageQueuePutmsg (m : Malloc A) (q : MessageQueue A M) (msg : M) : Int × MessageQueue A M :=
  if q.state < 0 then (-EINVAL, q) else messageQueuePutmsg' m q msg

/-- `__message_queue_getmsg`: the value returned, the message stored in `*msg`
    and the queue after the call. -/
def messageQueueGetmsg' (q : MessageQueue A M) : Int × Option M × MessageQueue A M :=
  if q.msgNum = 0 then (0, none, q)
  else
    let newrecord := q.links.prev q.head
    (0, q.record newrecord, { q with
      msgNum := q.msgNum - 1
      links := q.links.del newrecord
      used := q.used.erase newrecord })

/-- `message_queue_getmsg`. In a queue whose state is negative, it leaves `*msg`
    as it was. -/
def messageQueueGetmsg (q : MessageQueue A M) (msg : Option M) :
    Int × Option M × MessageQueue A M :=
  if q.state < 0 then (-EINVAL, msg, q) else messageQueueGetmsg' q

/-! ## The messages of a queue -/

/-- The queue is in service and the messages linked in it are `msgs`, in the
    order of the links. -/
structure Holds (q : MessageQueue A M) (msgs : List M) : Prop where
  state_nonneg : 0 ≤ q.state
  ring : ∃ l, IsRing q.links q.head l ∧ l.map q.record = msgs.map some ∧
    ∀ u ∈ q.head :: l, u ∈ q.used
  msgNum_eq : q.msgNum = msgs.length

/-- The new queue holds no message. -/
theorem holds_init {head : A} {links : Links A} :
    Holds (messageQueueInit head links : MessageQueue A M) [] := by
  refine ⟨Int.le_refl 0, ⟨[], isRing_init, rfl, fun u hu => hu⟩, rfl⟩

/-- A message put is linked last, if there is the memory for its record. -/
theorem holds_putmsg {m : Malloc A} {q : MessageQueue A M} {msgs : List M} (h : Holds q msgs)
    (msg : M) :
    (messageQueuePutmsg m q msg = (-ENOMEM, q)) ∨
      (messageQueuePutmsg m q msg).1 = 0 ∧
        Holds (messageQueuePutmsg m q msg).2 (msgs ++ [msg]) := by
  obtain ⟨hstate, ⟨l, hl, hrec, hused⟩, hnum⟩ := h
  rw [messageQueuePutmsg, if_neg (by omega), messageQueuePutmsg']
  cases hm : m.malloc q.used with
  | none => exact .inl rfl
  | some x =>
    have hx : x ∉ q.head :: l := fun hx => m.fresh _ _ hm (hused x hx)
    refine .inr ⟨rfl, hstate, ⟨l ++ [x], ?_, ?_, ?_⟩, ?_⟩
    · refine isRing_addTail (hl.congr (fun u hu => ?_) (fun u hu => ?_)) hx
      · have : u ≠ x := by grind
        simp [init, this]
      · have : u ≠ x := by grind
        simp [init, this]
    · have hkeep : l.map (Function.update q.record x (some msg)) = l.map q.record :=
        List.map_congr_left fun u hu => Function.update_of_ne (by grind) _ _
      rw [List.map_append, List.map_append, hkeep, hrec]
      simp
    · simp only
      grind
    · rw [List.length_append, hnum]
      rfl

/-- A message taken out is the one linked last. -/
theorem holds_getmsg {q : MessageQueue A M} {msgs : List M} {last : M}
    (h : Holds q (msgs ++ [last])) (msg : Option M) :
    (messageQueueGetmsg q msg).1 = 0 ∧ (messageQueueGetmsg q msg).2.1 = some last ∧
      Holds (messageQueueGetmsg q msg).2.2 msgs := by
  obtain ⟨hstate, ⟨l, hl, hrec, hused⟩, hnum⟩ := h
  rw [List.length_append, List.length_singleton] at hnum
  obtain ⟨l, x, rfl⟩ : ∃ r x, l = r ++ [x] := by
    rcases List.eq_nil_or_concat l with rfl | ⟨r, x, rfl⟩
    · simp at hrec
    · exact ⟨r, x, List.concat_eq_append⟩
  rw [List.map_append, List.map_append] at hrec
  obtain ⟨hrec, hlast⟩ := List.append_inj' hrec rfl
  rw [messageQueueGetmsg, if_neg (by omega), messageQueueGetmsg', if_neg (by omega)]
  simp only [hl.prev_head]
  have hnd := hl.nodup
  refine ⟨trivial, by simpa using hlast, hstate, ⟨l, ?_, hrec, fun u hu => ?_⟩, ?_⟩
  · have := isRing_del (r := []) hl
    rwa [List.append_nil] at this
  · have hux : u ≠ x := by grind
    exact (List.mem_erase_of_ne hux).2 (hused u (by grind))
  · simp only
    omega

/-- In an empty queue there is no message to take out. -/
theorem getmsg_empty {q : MessageQueue A M} (h : Holds q []) (msg : Option M) :
    messageQueueGetmsg q msg = (0, none, q) := by
  have hstate := h.state_nonneg
  rw [messageQueueGetmsg, if_neg (by omega), messageQueueGetmsg', if_pos (by rw [h.msgNum_eq]; rfl)]

/-! ## Runs of puts and gets -/

/-- A call on a message queue. -/
inductive Call (M : Type*)
  | putmsg (msg : M)
  | getmsg
  deriving DecidableEq, Repr

/-- A queue, with the messages put in it and those it returned so far. -/
structure Delivery (A M : Type*) where
  queue : MessageQueue A M
  puts : List M
  gets : List M

/-- The delivery of a new queue. -/
def Delivery.start (head : A) (links : Links A) : Delivery A M where
  queue := messageQueueInit head links
  puts := []
  gets := []

/-- The delivery after a call. A message is put if the call succeeds, and
    returned if the call stores one. -/
def Delivery.step (m : Malloc A) (d : Delivery A M) : Call M → Delivery A M
  | .putmsg msg =>
    let (ret, q) := messageQueuePutmsg m d.queue msg
    { d with queue := q, puts := if ret = 0 then d.puts ++ [msg] else d.puts }
  | .getmsg =>
    let (_, msg, q) := messageQueueGetmsg d.queue none
    { d with queue := q, gets := d.gets ++ msg.toList }

/-- The queue delivers in order: the messages returned are the first of those
    put, and `msg_num` is the number of messages linked. -/
structure Delivery.InOrder (d : Delivery A M) : Prop where
  gets_prefix_puts : d.gets <+: d.puts
  msgNum_eq : ∃ msgs, Holds d.queue msgs ∧ d.queue.msgNum = msgs.length

/-- A `getmsg` call finds at most one message in the queue. -/
def CallOk (d : Delivery A M) : Call M → Prop
  | .putmsg _ => True
  | .getmsg => d.queue.msgNum ≤ 1

variable {m : Malloc A} {d : Delivery A M}

/-- In every run, `msg_num` counts the messages linked. -/
theorem msgNum_eq (calls : List (Call M)) (head : A) (links : Links A) :
    Throughout (Delivery.step m) (fun d => ∃ msgs, Holds d.queue msgs ∧
      d.queue.msgNum = msgs.length) (.start head links) calls := by
  refine run_invariant (C := fun _ _ => True) (fun d c h _ => ?_) ⟨[], holds_init, rfl⟩
    (steps_of_forall fun _ _ => trivial)
  obtain ⟨msgs, h, _⟩ := h
  cases c with
  | putmsg msg =>
    simp only [Delivery.step]
    rcases holds_putmsg (m := m) h msg with hput | ⟨_, hput⟩
    · rw [hput]
      exact ⟨msgs, h, h.msgNum_eq⟩
    · exact ⟨msgs ++ [msg], hput, hput.msgNum_eq⟩
  | getmsg =>
    simp only [Delivery.step]
    rcases List.eq_nil_or_concat msgs with rfl | ⟨msgs, last, rfl⟩
    · rw [getmsg_empty h]
      exact ⟨[], h, h.msgNum_eq⟩
    · rw [List.concat_eq_append] at h
      obtain ⟨_, _, hget⟩ := holds_getmsg h none
      exact ⟨msgs, hget, hget.msgNum_eq⟩

/-- The messages still linked are those put and not returned, in order. -/
def Delivery.Kept (d : Delivery A M) : Prop :=
  ∃ msgs, Holds d.queue msgs ∧ d.puts = d.gets ++ msgs

omit [DecidableEq A] in
theorem Delivery.Kept.inOrder (h : d.Kept) : d.InOrder := by
  obtain ⟨msgs, h, hputs⟩ := h
  exact ⟨⟨msgs, hputs.symm⟩, msgs, h, h.msgNum_eq⟩

theorem kept_start {head : A} {links : Links A} :
    (Delivery.start head links : Delivery A M).Kept := ⟨[], holds_init, rfl⟩

theorem kept_putmsg (h : d.Kept) (msg : M) : (d.step m (.putmsg msg)).Kept := by
  obtain ⟨msgs, h, hputs⟩ := h
  simp only [Delivery.step]
  rcases holds_putmsg (m := m) h msg with hput | ⟨hret, hput⟩
  · rw [hput]
    exact ⟨msgs, h, by simp [ENOMEM, hputs]⟩
  · rw [if_pos hret]
    exact ⟨msgs ++ [msg], hput, by rw [hputs, List.append_assoc]⟩

/-- A call that meets its condition keeps the messages in order. -/
theorem kept_step {c : Call M} (h : d.Kept) (hok : CallOk d c) : (d.step m c).Kept := by
  cases c with
  | putmsg msg => exact kept_putmsg h msg
  | getmsg =>
    obtain ⟨msgs, h, hputs⟩ := h
    have hnum : msgs.length ≤ 1 := h.msgNum_eq ▸ hok
    simp only [Delivery.step]
    match msgs with
    | [] =>
      rw [getmsg_empty h]
      exact ⟨[], h, by simpa using hputs⟩
    | [msg] =>
      obtain ⟨_, hmsg, hget⟩ := holds_getmsg (by exact h : Holds d.queue ([] ++ [msg])) none
      exact ⟨[], hget, by simp [hmsg, hputs]⟩

/-- A `getmsg` call that finds distinct messages in the queue, and returns the
    one put first, finds only that one. -/
theorem callOk_of_inOrder (h : d.Kept) (hnd : d.puts.Nodup)
    (hin : (d.step m .getmsg).InOrder) : CallOk d .getmsg := by
  obtain ⟨msgs, h, hputs⟩ := h
  rw [CallOk, h.msgNum_eq]
  rcases List.eq_nil_or_concat msgs with rfl | ⟨msgs, last, rfl⟩
  · simp
  rw [List.concat_eq_append] at h hputs ⊢
  cases msgs with
  | nil => simp
  | cons first msgs =>
    -- The message returned is the last one put, and the order asks for `first`.
    obtain ⟨_, hmsg, _⟩ := holds_getmsg h none
    have hprefix := hin.gets_prefix_puts
    simp only [Delivery.step, hmsg, hputs, Option.toList_some,
      List.prefix_append_right_inj] at hprefix
    obtain ⟨rfl, _⟩ := List.cons_prefix_cons.1 hprefix
    rw [hputs, List.nodup_append] at hnd
    simp at hnd

/-- The messages put by the calls, the ones refused included. -/
def putsOf (calls : List (Call M)) : List M :=
  calls.filterMap fun c => match c with
    | .putmsg msg => some msg
    | .getmsg => none

/-- The messages put by the calls are new to the queue, one after the other, if
    they are distinct. -/
theorem steps_new {calls : List (Call M)} (hnd : (d.puts ++ putsOf calls).Nodup) :
    Steps (Delivery.step m) (fun d c => ∀ msg, c = .putmsg msg → msg ∉ d.puts) d calls := by
  induction calls generalizing d with
  | nil => exact steps_nil
  | cons c calls ih =>
    cases c with
    | getmsg => exact steps_cons.2 ⟨fun _ h => (nomatch h), ih hnd⟩
    | putmsg msg =>
      simp only [putsOf, List.filterMap_cons] at hnd
      refine steps_cons.2 ⟨fun msg' h => ?_, ih ?_⟩
      · cases h
        exact fun h => (List.nodup_append.1 hnd).2.2 msg h msg List.mem_cons_self rfl
      · simp only [Delivery.step]
        split
        · rwa [List.append_assoc]
        · exact hnd.sublist (List.Sublist.append_left (List.sublist_cons_self _ _) _)

/-- A run returns the messages in the order they were put if its `getmsg` calls
    each find at most one message; if the messages are distinct, only then. -/
theorem queue_in_order (m : Malloc A) (head : A) (links : Links A) (calls : List (Call M)) :
    (Steps (Delivery.step m) CallOk (.start head links) calls →
      Throughout (Delivery.step m) Delivery.InOrder (.start head links) calls) ∧
    ((putsOf calls).Nodup →
      Throughout (Delivery.step m) Delivery.InOrder (.start head links) calls →
      Steps (Delivery.step m) CallOk (.start head links) calls) := by
  refine ⟨fun hok pre hpre => ?_, fun hnd h => ?_⟩
  · exact (run_invariant (P := Delivery.Kept) (fun _ _ => kept_step) kept_start hok pre hpre).inOrder
  have hnew := steps_new (m := m) (d := .start head links) hnd
  refine (throughout_iff_steps (P := Delivery.InOrder)
    (W := fun d : Delivery A M => d.Kept ∧ d.puts.Nodup)
    (D := fun d c => ∀ msg, c = .putmsg msg → msg ∉ d.puts) ?_ ?_ ⟨kept_start, List.nodup_nil⟩
    kept_start.inOrder hnew).1 h
  · rintro d c ⟨hkept, hnd⟩ - hnew hin
    cases c with
    | putmsg msg =>
      refine ⟨kept_putmsg hkept msg, ?_⟩
      simp only [Delivery.step]
      split
      · have hnd' := List.Nodup.concat (hnew msg rfl) hnd
        rwa [List.concat_eq_append] at hnd'
      · exact hnd
    | getmsg => exact ⟨kept_step hkept (callOk_of_inOrder hkept hnd hin), hnd⟩
  · rintro d c ⟨hkept, hnd⟩ - -
    refine ⟨fun hin => ?_, fun hok => (kept_step hkept hok).inOrder⟩
    cases c with
    | putmsg msg => trivial
    | getmsg => exact callOk_of_inOrder hkept hnd hin

/-- The messages `1` and `2`, put one after the other, come out in the other order. -/
theorem queue_out_of_order :
    ∃ (m : Malloc Nat) (links : Links Nat), ¬ Throughout (Delivery.step m) Delivery.InOrder
      (.start 0 links) [.putmsg 1, .putmsg 2, .getmsg] := by
  refine ⟨.counting, ⟨id, id⟩, fun h => ?_⟩
  have hprefix := (h _ (List.prefix_refl _)).gets_prefix_puts
  revert hprefix
  decide

end Cube.ExModule
