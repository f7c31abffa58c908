import Cube.Dispatch.RouteTree
import Cube.ExModule.MsgQueue

/-!
# The list of waiting messages

The messages a dispatcher has not come to yet wait in a list (`route_tree.c`).
They are added at its end, and leave it at its head by
`_waiting_message_removehead`, or by a scan: `_waiting_message_getfirst` puts a
cursor on the first entry, and `_waiting_message_getnext` takes out the entry
under the cursor and moves the cursor on. Nothing tells `_waiting_message_getnext`
that its cursor is at the head of the list, or at an entry that was freed.

* `waits_add`, `waits_removehead`, `waits_getnext`: what a call does to the
  messages linked in the list.
* `waiting_in_order`: in every run that calls `_waiting_message_getnext` only with
  the cursor unset or on the first entry, the messages leave in the order they
  were added.
-/

namespace Cube.Route.Waiting

open Lib ExModule

variable {A M : Type} [DecidableEq A]

/-- The list `waiting_message_list`: the address of its head, its cursor and its
    count, its records, and the addresses of the memory in use. -/
structure WaitingList (A M : Type) where
  head : A
  curr : Option A
  policyNum : Int
  mem : Records A M
  used : List A

/-- The list after `router_tree_init`. -/
def waitingListInit (mem : Records A M) (head : A) : WaitingList A M where
  head := head
  curr := none
  policyNum := 0
  mem := nodeListInit mem head
  used := [head]

/-- `_waiting_message_add`. -/
def waitingMessageAdd (m : Malloc A) (w : WaitingList A M) (message : M) :
    Int × WaitingList A M :=
  match m.malloc w.used with
  | none => (0, w)
  | some newrecord =>
    (1, { w with
      policyNum := w.policyNum + 1
      mem := (nodeListAdd (some newrecord) w.mem w.head message).2
      used := newrecord :: w.used })

/-- What a record is of. To read a record that was freed is a fault. -/
def WaitingList.recordOf (w : WaitingList A M) (record : A) : Outcome (Option M) :=
  if record ∈ w.used then .done (w.mem.record record) else .fault

/-- `_waiting_message_del`. -/
def waitingMessageDel (w : WaitingList A M) (record : A) : Outcome (WaitingList A M) :=
  if record ∈ w.used then
    .done { w with
      policyNum := w.policyNum - 1
      mem := { w.mem with links := w.mem.links.del record } }
  else .fault

/-- `Free`, of a record. The head of the list is not memory to be freed. -/
def WaitingList.free (w : WaitingList A M) (record : A) : Outcome (WaitingList A M) :=
  if record ∈ w.used ∧ record ≠ w.head then .done { w with used := w.used.erase record }
  else .fault

/-- `_waiting_message_getfirst`. In an empty list it comes to the head, which is a
    record of nothing. -/
def waitingMessageGetfirst (w : WaitingList A M) : Outcome (Option M × WaitingList A M) := do
  let msgRecord := w.mem.links.next w.head
  let w := { w with curr := some msgRecord }
  let message ← w.recordOf msgRecord
  pure (message, w)

/-- `_waiting_message_removehead`. -/
def waitingMessageRemovehead (w : WaitingList A M) : Outcome (Option M × WaitingList A M) :=
  if w.policyNum = 0 then .done (none, w)
  else do
    let msgRecord := w.mem.links.next w.head
    let w := { w with curr := some msgRecord }
    let w ← waitingMessageDel w msgRecord
    let message ← w.recordOf msgRecord
    let w ← w.free msgRecord
    pure (message, w)

/-- `_waiting_message_getnext`. The entry taken out is not freed. -/
def waitingMessageGetnext (w : WaitingList A M) : Outcome (Option M × WaitingList A M) :=
  match w.curr with
  | none => .done (none, w)
  | some msgRecord => do
    let _ ← w.recordOf msgRecord
    let next := w.mem.links.next msgRecord
    let w := { w with curr := some next }
    let w ← waitingMessageDel w msgRecord
    let message ← w.recordOf next
    pure (message, w)

/-! ## The messages of the list -/

/-- The messages linked in the list are `msgs`, in this order, and they are counted. -/
structure Waits (w : WaitingList A M) (msgs : List M) : Prop where
  holds : ∃ sites, Holds w.mem w.head sites msgs ∧ ∀ u ∈ w.head :: sites, u ∈ w.used
  policyNum_eq : w.policyNum = msgs.length

variable {m : Malloc A} {w : WaitingList A M} {msgs : List M}

theorem waits_init {mem : Records A M} {head : A} : Waits (waitingListInit mem head) [] :=
  ⟨⟨[], holds_nodeListInit, fun _ hu => hu⟩, rfl⟩

/-- A message added waits last, if there is the memory for its record. -/
theorem waits_add (h : Waits w msgs) (message : M) :
    waitingMessageAdd m w message = (0, w) ∨
      (waitingMessageAdd m w message).1 = 1 ∧
        Waits (waitingMessageAdd m w message).2 (msgs ++ [message]) := by
  obtain ⟨⟨sites, hl, hused⟩, hnum⟩ := h
  rw [waitingMessageAdd]
  cases hm : m.malloc w.used with
  | none => exact .inl rfl
  | some x =>
    have hx : x ∉ w.head :: sites := fun hx => m.fresh _ _ hm (hused x hx)
    refine .inr ⟨rfl, ⟨sites ++ [x], holds_nodeListAdd hl hx message, fun u hu => ?_⟩, ?_⟩
    · simp only
      grind
    · simp [hnum]

/-- The first entry, taken out of the list: the others are held. -/
theorem holds_del_first {mem : Records A M} {head x : A} {sites : List A} {first : M}
    (h : Holds mem head (x :: sites) (first :: msgs)) :
    Holds { mem with links := mem.links.del x } head sites msgs where
  ring := Links.isRing_del (l := []) h.ring
  head_record := h.head_record
  record := (List.cons.inj h.record).2

omit [DecidableEq A] in
/-- What the head and the first entry of the list are records of. -/
theorem Holds.first {mem : Records A M} {head : A} {sites : List A}
    (h : Holds mem head sites msgs) : mem.record (mem.links.next head) = msgs.head? := by
  cases sites with
  | nil =>
    obtain rfl : msgs = [] := by simpa using h.record.symm
    rw [h.ring.seg.1, h.head_record, List.head?_nil]
  | cons x sites =>
    cases msgs with
    | nil => exact absurd h.record (by simp)
    | cons first msgs => rw [h.ring.next_head, (List.cons.inj h.record).1, List.head?_cons]

omit [DecidableEq A] in
theorem next_head_mem {mem : Records A M} {head : A} {sites : List A}
    (h : Holds mem head sites msgs) : mem.links.next head ∈ head :: sites := by
  have hmem := h.ring.seg.next_mem
  simp only [List.mem_append, List.mem_singleton] at hmem
  exact List.mem_cons.2 hmem.symm

/-- The first message waiting is found, and stays in the list. -/
theorem waits_getfirst (h : Waits w msgs) :
    ∃ w', waitingMessageGetfirst w = .done (msgs.head?, w') ∧ Waits w' msgs := by
  obtain ⟨⟨sites, hl, hused⟩, hnum⟩ := h
  have hnext := hused _ (next_head_mem hl)
  refine ⟨{ w with curr := some (w.mem.links.next w.head) }, ?_, ⟨sites, hl, hused⟩, hnum⟩
  simp [waitingMessageGetfirst, WaitingList.recordOf, hnext, Holds.first hl]

/-- From an empty list nothing is taken. -/
theorem waits_removehead_nil (h : Waits w []) : waitingMessageRemovehead w = .done (none, w) := by
  rw [waitingMessageRemovehead, if_pos (by simpa using h.policyNum_eq)]

/-- The first message waiting is taken out. -/
theorem waits_removehead {first : M} (h : Waits w (first :: msgs)) :
    ∃ w', waitingMessageRemovehead w = .done (some first, w') ∧ Waits w' msgs := by
  obtain ⟨⟨sites, hl, hused⟩, hnum⟩ := h
  obtain ⟨x, sites, rfl⟩ : ∃ x r, sites = x :: r := by
    cases sites with
    | nil => exact absurd hl.record (by simp)
    | cons x r => exact ⟨x, r, rfl⟩
  have hnd := hl.ring.nodup
  have hx : x ∈ w.used := hused x (by simp)
  have hxh : x ≠ w.head := by grind
  have hrec : w.mem.record x = some first := (List.cons.inj hl.record).1
  have hne : w.policyNum ≠ 0 := by rw [hnum, List.length_cons]; omega
  refine ⟨{ w with
    curr := some x
    policyNum := w.policyNum - 1
    mem := { w.mem with links := w.mem.links.del x }
    used := w.used.erase x }, ?_, ⟨sites, holds_del_first hl, fun u hu => ?_⟩, ?_⟩
  · rw [waitingMessageRemovehead, if_neg hne]
    simp [hl.ring.next_head, waitingMessageDel, WaitingList.recordOf, WaitingList.free, hx, hrec,
      hxh]
  · have hux : u ≠ x := by grind
    exact (List.mem_erase_of_ne hux).2 (hused u (by grind))
  · simp [hnum]

/-- The cursor is unset, or on the first entry of the list. -/
def WaitingList.AtFirst (w : WaitingList A M) : Prop :=
  ∀ record, w.curr = some record → record = w.mem.links.next w.head ∧ record ≠ w.head

/-- A cursor that is unset stays. -/
theorem waits_getnext_none (hcurr : w.curr = none) :
    waitingMessageGetnext w = .done (none, w) := by
  simp only [waitingMessageGetnext, hcurr]

/-- A cursor on the first entry of a list that holds messages: its message is
    taken out, and the message after it found. -/
theorem waits_getnext {record : A} (h : Waits w msgs) (hcurr : w.curr = some record)
    (hfirst : w.AtFirst) :
    ∃ first rest w', msgs = first :: rest ∧ w.mem.record record = some first ∧
      waitingMessageGetnext w = .done (rest.head?, w') ∧ Waits w' rest := by
  obtain ⟨⟨sites, hl, hused⟩, hnum⟩ := h
  obtain ⟨hrec, hne⟩ := hfirst record hcurr
  cases sites with
  | nil => exact absurd (hrec.trans hl.ring.seg.1) hne
  | cons x sites =>
    obtain rfl : record = x := hrec.trans hl.ring.next_head
    cases msgs with
    | nil => exact absurd hl.record (by simp)
    | cons first rest =>
      have hnd := hl.ring.nodup
      have hrecord : w.mem.record record = some first := (List.cons.inj hl.record).1
      have hdel := holds_del_first hl
      -- The entry behind the one taken out is the first one left.
      have hnext : (w.mem.links.del record).next w.head = w.mem.links.next record := by
        have hseg := (Links.seg_append (l := [])).1 hl.ring.seg
        have hself : w.mem.links.next record ≠ record := by
          have := hseg.2.next_mem
          grind
        rw [Links.del_next hself hne.symm, hseg.1.2, if_pos rfl]
      have hmem : w.mem.links.next record ∈ w.used :=
        hused _ (by have := next_head_mem hdel; simp only [hnext] at this; grind)
      have hmsg : w.mem.record (w.mem.links.next record) = rest.head? := by
        have := Holds.first hdel
        rwa [hnext] at this
      refine ⟨first, rest, { w with
        curr := some (w.mem.links.next record)
        policyNum := w.policyNum - 1
        mem := { w.mem with links := w.mem.links.del record } }, rfl, hrecord, ?_,
        ⟨sites, hdel, fun u hu => hused u (by grind)⟩, ?_⟩
      · simp [waitingMessageGetnext, hcurr, WaitingList.recordOf, waitingMessageDel,
          hused record (by simp), hmem, hmsg]
      · simp [hnum]

/-! ## Runs -/

/-- A call on the list of waiting messages. -/
inductive Call (M : Type)
  | add (message : M)
  | removehead
  | getfirst
  | getnext
  deriving DecidableEq, Repr

/-- A list, with the messages added to it and those that left it so far. -/
structure Service (A M : Type) where
  list : WaitingList A M
  added : List M
  left : List M

/-- The service of a new list. -/
def Service.start (mem : Records A M) (head : A) : Service A M where
  list := waitingListInit mem head
  added := []
  left := []

/-- The pointer a getter returns. -/
def Service.answer (d : Service A M) : Call M → Outcome (Option M)
  | .add _ => .done none
  | .removehead => Prod.fst <$> waitingMessageRemovehead d.list
  | .getfirst => Prod.fst <$> waitingMessageGetfirst d.list
  | .getnext => Prod.fst <$> waitingMessageGetnext d.list

/-- The service after a call. A message is added if the call succeeds; it leaves the
    list with the entry that `_waiting_message_del` takes out. -/
def Service.step (m : Malloc A) (d : Service A M) : Call M → Outcome (Service A M)
  | .add message =>
    let (ret, w) := waitingMessageAdd m d.list message
    .done { d with list := w, added := if ret = 1 then d.added ++ [message] else d.added }
  | .removehead => do
    let (message, w) ← waitingMessageRemovehead d.list
    pure { d with list := w, left := d.left ++ message.toList }
  | .getfirst => do
    let (_, w) ← waitingMessageGetfirst d.list
    pure { d with list := w }
  | .getnext => do
    let message := d.list.curr.bind d.list.mem.record
    let (_, w) ← waitingMessageGetnext d.list
    pure { d with list := w, left := d.left ++ message.toList }

/-- The messages left the list in the order they were added, those linked in it are
    the others, and `policy_num` counts them. -/
def Service.InOrder (d : Service A M) : Prop :=
  ∃ msgs, Waits d.list msgs ∧ d.added = d.left ++ msgs

/-- The list is empty: its head is linked to itself. -/
def Service.Empty (d : Service A M) : Prop := d.list.mem.links.next d.list.head = d.list.head

/-- A call meets its condition: `_waiting_message_getnext` finds the cursor unset, or
    on the first entry. -/
def CallOk (d : Service A M) : Call M → Prop
  | .getnext => d.list.AtFirst
  | _ => True

variable {d : Service A M}

theorem inOrder_start {mem : Records A M} {head : A} : (Service.start mem head).InOrder :=
  ⟨[], waits_init, rfl⟩

omit [DecidableEq A] in
/-- The messages of an empty list are none. -/
theorem Waits.eq_nil (h : Waits d.list msgs) (hempty : d.Empty) : msgs = [] := by
  obtain ⟨⟨sites, hl, _⟩, _⟩ := h
  have hfirst := Holds.first hl
  rw [hempty, hl.head_record] at hfirst
  exact List.head?_eq_none_iff.1 hfirst.symm

/-- A call that meets its condition keeps the messages in order, -/
theorem inOrder_step {c : Call M} (h : d.InOrder) (hok : CallOk d c) :
    ∃ d', d.step m c = .done d' ∧ d'.InOrder := by
  obtain ⟨msgs, h, hadded⟩ := h
  cases c with
  | add message =>
    refine ⟨{ d with
      list := (waitingMessageAdd m d.list message).2
      added := if (waitingMessageAdd m d.list message).1 = 1 then d.added ++ [message]
        else d.added }, rfl, ?_⟩
    rcases waits_add (m := m) h message with hadd | ⟨hret, hadd⟩
    · rw [hadd]
      exact ⟨msgs, h, hadded⟩
    · rw [if_pos hret]
      exact ⟨msgs ++ [message], hadd, by simp [hadded]⟩
  | removehead =>
    cases msgs with
    | nil =>
      refine ⟨{ d with left := d.left ++ [] }, ?_, [], h, by simpa using hadded⟩
      rw [Service.step, waits_removehead_nil h]
      rfl
    | cons first msgs =>
      obtain ⟨w', hw, h'⟩ := waits_removehead h
      refine ⟨{ d with list := w', left := d.left ++ [first] }, ?_, msgs, h', by simp [hadded]⟩
      rw [Service.step, hw]
      rfl
  | getfirst =>
    obtain ⟨w', hw, h'⟩ := waits_getfirst h
    refine ⟨{ d with list := w' }, ?_, msgs, h', hadded⟩
    rw [Service.step, hw]
    rfl
  | getnext =>
    cases hcurr : d.list.curr with
    | none =>
      refine ⟨{ d with left := d.left ++ [] }, ?_, msgs, h, by simpa using hadded⟩
      rw [Service.step, waits_getnext_none hcurr, hcurr]
      rfl
    | some record =>
      obtain ⟨first, rest, w', rfl, hrec, hw, h'⟩ := waits_getnext h hcurr hok
      refine ⟨{ d with list := w', left := d.left ++ [first] }, ?_, rest, h', by simp [hadded]⟩
      simp [Service.step, hw, hcurr, hrec]

/-- and a getter that finds the list empty returns `NULL`. -/
theorem answer_empty {c : Call M} (h : d.InOrder) (hok : CallOk d c) (hempty : d.Empty) :
    d.answer c = .done none := by
  obtain ⟨msgs, h, _⟩ := h
  obtain rfl := h.eq_nil hempty
  cases c with
  | add message => rfl
  | removehead => rw [Service.answer, waits_removehead_nil h, Outcome.map_done]
  | getfirst =>
    obtain ⟨w', hw, _⟩ := waits_getfirst h
    rw [Service.answer, hw, Outcome.map_done, List.head?_nil]
  | getnext =>
    cases hcurr : d.list.curr with
    | none => rw [Service.answer, waits_getnext_none hcurr, Outcome.map_done]
    | some record =>
      obtain ⟨_, _, _, hnil, _⟩ := waits_getnext h hcurr hok
      exact absurd hnil (by simp)

/-- The calls of a run, one after the other, up to a fault. -/
def stepAll (m : Malloc A) (s : Outcome (Service A M)) (c : Call M) : Outcome (Service A M) :=
  s >>= fun d => d.step m c

/-- In every run that calls `_waiting_message_getnext` only with the cursor unset, or on
    the first entry, there is no fault, the messages leave the list in the order they
    were added and `policy_num` counts those left, and every getter called on the empty
    list returns `NULL`. -/
theorem waiting_in_order (m : Malloc A) (mem : Records A M) (head : A) (calls : List (Call M))
    (hok : Steps (stepAll m) (fun s c => ∀ d, s = .done d → CallOk d c)
      (.done (.start mem head)) calls) :
    Throughout (stepAll m) (fun s => ∃ d, s = .done d ∧ d.InOrder)
        (.done (.start mem head)) calls ∧
      Steps (stepAll m) (fun s c => ∀ d, s = .done d → d.Empty → d.answer c = .done none)
        (.done (.start mem head)) calls := by
  have hrun : Throughout (stepAll m) (fun s => ∃ d, s = .done d ∧ d.InOrder)
      (.done (.start mem head)) calls := by
    refine run_invariant (fun s c h hc => ?_) ⟨_, rfl, inOrder_start⟩ hok
    obtain ⟨d, rfl, h⟩ := h
    exact inOrder_step h (hc d rfl)
  refine ⟨hrun, fun pre c hpre d hd hempty => ?_⟩
  obtain ⟨d', hd', h⟩ := hrun pre (List.IsPrefix.trans (List.prefix_append _ _) hpre)
  obtain rfl : d = d' := Outcome.done.inj (hd.symm.trans hd')
  exact answer_empty h (hok pre c hpre d hd) hempty

/-- A run that adds two messages and scans them. -/
theorem waiting_in_order_scan :
    Throughout (stepAll .counting) (fun s => ∃ d, s = .done d ∧ d.InOrder)
      (.done (.start (⟨⟨id, id⟩, fun _ => none⟩ : Records Nat Nat) 0))
      [.add 1, .add 2, .getfirst, .getnext] := by
  refine (waiting_in_order .counting _ 0 _ ?_).1
  refine steps_cons.2 ⟨fun _ _ => trivial, steps_cons.2 ⟨fun _ _ => trivial,
    steps_cons.2 ⟨fun _ _ => trivial, steps_cons.2 ⟨fun d hd record hrec => ?_, steps_nil⟩⟩⟩⟩
  -- The scan finds its cursor on the first message.
  obtain rfl := Outcome.done.inj hd
  obtain rfl := Option.some.inj hrec
  decide

/-- The cursor on the head of an empty list: `_waiting_message_getnext` counts an entry
    taken out, where there is none. -/
theorem waiting_out_of_order :
    ¬ Throughout (stepAll .counting) (fun s => ∃ d, s = .done d ∧ d.InOrder)
      (.done (.start (⟨⟨id, id⟩, fun _ => none⟩ : Records Nat Nat) 0)) [.getfirst, .getnext] := by
  intro h
  obtain ⟨d, hd, msgs, hwaits, _⟩ := h _ (List.prefix_refl _)
  have hnum : d.list.policyNum = -1 := by
    obtain rfl := Outcome.done.inj hd
    rfl
  have := hwaits.policyNum_eq
  omega

end Cube.Route.Waiting
