import Cube.Lib.Run
import Cube.Dispatch.PathWalk

/-!
# Messages in flight and the nodes they leave behind

Any number of messages is routed at once: they are started, make detours and come
back from them, and responses are matched with queries, in any order. The nodes
left behind are in one forest, under nonces some of which are drawn on the way.
Beside the state of the router a run keeps its *history*, which is what really
happened: the detours each message is on, and the queries started.

* `aspect_restores`: a message that comes back from a detour is recovered as it was
  before this very detour, with nested detours undone the last one first;
* `response_finds_query`: a response finds the node of its own query, and a message
  that is no response to a query finds none.
-/

namespace Cube.Route

open Lib Message

variable {A : Type}

/-! ## The forest -/

namespace Forest

/-- The node is at the address, and in the list for its nonce. -/
def Has (forest : Forest A) (p : Nat) (node : Node A) : Prop :=
  forest.nodes[p]? = some node ∧ p ∈ forest.lists (hashIndex node.msgUuid)

/-- The lists hold nodes that belong there, in the order they were made. -/
structure WellFormed (forest : Forest A) : Prop where
  sorted : ∀ b, (forest.lists b).Pairwise (· < ·)
  owned : ∀ b, ∀ p ∈ forest.lists b,
    ∃ node, forest.nodes[p]? = some node ∧ hashIndex node.msgUuid = b

variable {forest : Forest A} {p : Nat} {node new : Node A} {dalloc0 : Dalloc0}

theorem WellFormed.lt_length (hwf : forest.WellFormed) {b : UInt8} (hp : p ∈ forest.lists b) :
    p < forest.nodes.length := by
  obtain ⟨node, hnode, _⟩ := hwf.owned b p hp
  exact (List.getElem?_eq_some_iff.1 hnode).1

theorem wellFormed_init : (initHashForest : Forest A).WellFormed where
  sorted _ := List.Pairwise.nil
  owned _ _ hp := absurd hp List.not_mem_nil

/-! ### Adding a node -/

theorem mem_lists_add {b : UInt8} : p ∈ (forest.add dalloc0 new).lists b ↔
    p ∈ forest.lists b ∨
      dalloc0.record = true ∧ b = hashIndex new.msgUuid ∧ p = forest.nodes.length := by
  unfold add
  by_cases hrecord : dalloc0.record = true
  · by_cases hb : b = hashIndex new.msgUuid
    · subst hb
      simp [hrecord]
    · simp [hrecord, hb]
  · simp [hrecord]

theorem nodes_add_of_some (h : forest.nodes[p]? = some node) :
    (forest.add dalloc0 new).nodes[p]? = some node := by
  have hp : p < forest.nodes.length := (List.getElem?_eq_some_iff.1 h).1
  rw [add, List.getElem?_append_left hp, h]

theorem nodes_add_length : (forest.add dalloc0 new).nodes[forest.nodes.length]? = some new := by
  simp [add]

/-- A node of the grown forest is an earlier one, or the one added. -/
theorem nodes_add_cases (h : (forest.add dalloc0 new).nodes[p]? = some node) :
    forest.nodes[p]? = some node ∨ p = forest.nodes.length ∧ node = new := by
  rcases Nat.lt_trichotomy p forest.nodes.length with hp | rfl | hp
  · rw [add, List.getElem?_append_left hp] at h
    exact .inl h
  · rw [nodes_add_length] at h
    exact .inr ⟨rfl, (Option.some.inj h).symm⟩
  · have hlen := (List.getElem?_eq_some_iff.1 h).1
    simp only [add, List.length_append, List.length_singleton] at hlen
    omega

theorem Has.add (h : forest.Has p node) : (forest.add dalloc0 new).Has p node :=
  ⟨nodes_add_of_some h.1, mem_lists_add.2 (.inl h.2)⟩

theorem has_add (hrecord : dalloc0.record = true) :
    (forest.add dalloc0 new).Has forest.nodes.length new :=
  ⟨nodes_add_length, mem_lists_add.2 (.inr ⟨hrecord, rfl, rfl⟩)⟩

theorem WellFormed.add (hwf : forest.WellFormed) : (forest.add dalloc0 new).WellFormed where
  sorted b := by
    have hsorted := hwf.sorted b
    unfold Forest.add
    by_cases hrecord : dalloc0.record = true
    · by_cases hb : b = hashIndex new.msgUuid
      · subst hb
        simp only [hrecord, if_true, Function.update_self]
        refine List.pairwise_append.2 ⟨hsorted, List.pairwise_singleton _ _, ?_⟩
        intro p hp q hq
        rw [List.mem_singleton.1 hq]
        exact hwf.lt_length hp
      · simpa [hrecord, hb] using hsorted
    · simpa [hrecord] using hsorted
  owned b p hp := by
    rcases mem_lists_add.1 hp with hp | ⟨_, rfl, rfl⟩
    · obtain ⟨node, hnode, hb⟩ := hwf.owned b p hp
      exact ⟨node, nodes_add_of_some hnode, hb⟩
    · exact ⟨new, nodes_add_length, rfl⟩

/-! ### Finding a node -/

/-- The node is looked for under its nonce and its kind. -/
def Matches (node : Node A) (uuid : Uuid) (flow : Int32) : Prop :=
  node.msgUuid = uuid ∧ node.OfFlow flow

/-- A list is gone through to the first node that matches. -/
theorem findFlowtypeNode_eq_some {nodes : List (Node A)} {list : List Nat} {uuid : Uuid}
    {flow : Int32} (hsorted : list.Pairwise (· < ·))
    (howned : ∀ q ∈ list, ∃ node, nodes[q]? = some node) (hp : p ∈ list)
    (hnode : nodes[p]? = some node) (hmatch : Matches node uuid flow)
    (hfirst : ∀ q ∈ list, ∀ other, nodes[q]? = some other → Matches other uuid flow → p ≤ q) :
    findFlowtypeNode nodes list uuid flow = some p := by
  induction list with
  | nil => exact absurd hp List.not_mem_nil
  | cons q list ih =>
    obtain ⟨other, hother⟩ := howned q List.mem_cons_self
    obtain ⟨hlt, hsorted⟩ := List.pairwise_cons.1 hsorted
    rw [findFlowtypeNode, hother]
    by_cases hq : Matches other uuid flow
    · -- The first node of the list that matches can only be the one looked for.
      have hle := hfirst q List.mem_cons_self other hother hq
      have heq : q = p := by
        rcases List.mem_cons.1 hp with rfl | hp
        · rfl
        · exact absurd (hlt p hp) (by omega)
      subst heq
      exact if_pos hq
    · have hpq : p ∈ list := by
        rcases List.mem_cons.1 hp with rfl | hp
        · exact absurd (Option.some.inj (hother.symm.trans hnode) ▸ hmatch) hq
        · exact hp
      refine (if_neg hq).trans (ih hsorted ?_ hpq ?_)
      · exact fun r hr => howned r (List.mem_cons_of_mem _ hr)
      · exact fun r hr => hfirst r (List.mem_cons_of_mem _ hr)

theorem findFlowtypeNode_eq_none {nodes : List (Node A)} {list : List Nat} {uuid : Uuid}
    {flow : Int32} (hnone : ∀ q ∈ list, ∀ node, nodes[q]? = some node → ¬ Matches node uuid flow) :
    findFlowtypeNode nodes list uuid flow = none := by
  induction list with
  | nil => rfl
  | cons q list ih =>
    rw [findFlowtypeNode]
    cases hq : nodes[q]? with
    | none => rfl
    | some node =>
      refine (if_neg (hnone q List.mem_cons_self node hq)).trans (ih ?_)
      exact fun r hr => hnone r (List.mem_cons_of_mem _ hr)

variable {msg : RouteMessage A} {flow : Int32}

/-- The node found for a message is the first one made that matches. -/
theorem WellFormed.findtrace_eq_some (hwf : forest.WellFormed) (hnode : forest.Has p node)
    (hmatch : Matches node msg.head.nonce flow)
    (hfirst : ∀ (q : Nat) other, forest.nodes[q]? = some other →
      Matches other msg.head.nonce flow → p ≤ q) :
    messageRouteFindtrace forest msg flow = some p := by
  refine findFlowtypeNode_eq_some (hwf.sorted _) (fun q hq => ?_) (hmatch.1 ▸ hnode.2) hnode.1
    hmatch (fun q _ => hfirst q)
  obtain ⟨other, hother, _⟩ := hwf.owned _ q hq
  exact ⟨other, hother⟩

theorem findtrace_eq_none
    (hnone : ∀ (q : Nat) node, forest.nodes[q]? = some node →
      ¬ Matches node msg.head.nonce flow) :
    messageRouteFindtrace forest msg flow = none :=
  findFlowtypeNode_eq_none fun q _ => hnone q

/-- The kinds of nodes looked for by the two flows. -/
@[simp] theorem ofFlow_aspect : node.OfFlow MSG_FLOW_ASPECT ↔ ∃ aspect, node = .aspect aspect := by
  cases node with
  | trace t => simp [Node.OfFlow, Node.traceFlag, MSG_FLOW_ASPECT]
  | aspect n => simp [Node.OfFlow, Node.traceFlag]

@[simp] theorem ofFlow_query : node.OfFlow MSG_FLOW_QUERY ↔ ∃ trace, node = .trace trace := by
  cases node with
  | trace t => simp [Node.OfFlow, Node.traceFlag, MSG_FLOW_ASPECT, MSG_FLOW_QUERY]
  | aspect n => simp [Node.OfFlow, Node.traceFlag, MSG_FLOW_ASPECT, MSG_FLOW_QUERY]

end Forest

/-! ## The router and its history -/

/-- A detour of a message: the node made for it, if there was the memory, and the
    message as it was before. -/
structure Detour (A : Type) where
  node : Option Nat
  saved : RouteMessage A
  deriving DecidableEq, Repr

/-- A query started: its nonce, its sender and its policy, and the trace node made. -/
structure Query (A : Type) where
  nonce : Uuid
  sender : Uuid
  policy : RoutePath A
  node : Nat
  deriving DecidableEq, Repr

/-- The router with the messages `ι` in flight, and the history of the run: the
    detours that each message is on, the latest first, the nonces drawn for
    detours, and the queries started. -/
structure Router (ι A : Type) where
  forest : Forest A
  msg : ι → RouteMessage A
  detours : ι → List (Detour A)
  drawn : List Uuid
  queries : List (Query A)

/-- What happens to a message. -/
inductive Event (ι A : Type)
  /-- A new message, in the place of one that is gone. -/
  | arrive (i : ι) (msg : RouteMessage A)
  /-- The message is carried on, and comes back with the same nonce. -/
  | travel (i : ι) (msg : RouteMessage A)
  | setstart (i : ι) (dalloc0 : Dalloc0) (path : RoutePath A)
  | setremotestart (i : ι) (ret : Int) (dalloc0 : Dalloc0)
  | aspect (i : ι) (aspectMem traceMem : Dalloc0) (nonce : Uuid) (branch : BranchNode A)
  | recover (i : ι)
  | settracesrc (i : ι)
  | settracetarget (i : ι)
  | gettracetarget (i : ι)

/-- The router at the start, with messages that have made no detours. -/
def Router.initial {ι : Type} (msg : ι → RouteMessage A) : Router ι A where
  forest := initHashForest
  msg := msg
  detours := fun _ => []
  drawn := []
  queries := []

/-- The trace node at an address. -/
def Forest.traceNode (forest : Forest A) (p : Nat) : Option (TraceNode A) :=
  match forest.nodes[p]? with
  | some (.trace node) => some node
  | _ => none

/-- The aspect node at an address. -/
def Forest.aspectNode (forest : Forest A) (p : Nat) : Option (AspectNode A) :=
  match forest.nodes[p]? with
  | some (.aspect node) => some node
  | _ => none

/-- The trace node that is found for a message. -/
def findQuery (forest : Forest A) (msg : RouteMessage A) : Option (TraceNode A) :=
  (messageRouteFindtrace forest msg MSG_FLOW_QUERY).bind forest.traceNode

/-- The aspect node that is found for a message. -/
def findAspect (forest : Forest A) (msg : RouteMessage A) : Option (AspectNode A) :=
  (messageRouteFindtrace forest msg MSG_FLOW_ASPECT).bind forest.aspectNode

/-- The forest with a node written to. -/
def Forest.set (forest : Forest A) (p : Nat) (node : Node A) : Forest A :=
  { forest with nodes := forest.nodes.set p node }

/-- The node found for a message remembers the target of the query. -/
def Forest.gettracetarget (forest : Forest A) (msg : RouteMessage A) : Forest A :=
  match messageRouteFindtrace forest msg MSG_FLOW_QUERY with
  | none => forest
  | some p =>
    match forest.traceNode p with
    | none => forest
    | some node => forest.set p (.trace (messageRouteGettracetarget msg node))

section Machine

variable {ι : Type} [DecidableEq ι] (routeForest : List (RoutePath A))

namespace Router

/-- A query is noted when its trace node is made, unless it is started again under
    its nonce. -/
def note (queries : List (Query A)) (made : Bool) (query : Query A) : List (Query A) :=
  if made ∧ query.nonce ∉ queries.map Query.nonce then query :: queries else queries

/-- The router with another message in the place `i`. -/
def setMsg (s : Router ι A) (i : ι) (msg : RouteMessage A) : Router ι A :=
  { s with msg := Function.update s.msg i msg }

/-- What happens to a message, and what the history keeps of it. -/
def step (s : Router ι A) : Event ι A → Router ι A
  | .arrive i msg =>
    { s.setMsg i msg with detours := Function.update s.detours i [] }
  | .travel i msg =>
    s.setMsg i { msg with head := { msg.head with nonce := (s.msg i).head.nonce } }
  | .setstart i dalloc0 path =>
    let (_, forest, msg) := messageRouteSetstart dalloc0 s.forest (s.msg i) path
    { s.setMsg i msg with
      forest := forest
      queries := note s.queries (path.flow = MSG_FLOW_QUERY ∧ dalloc0.node)
        { nonce := (s.msg i).head.nonce
          sender := (s.msg i).head.senderUuid
          policy := path
          node := s.forest.nodes.length } }
  | .setremotestart i ret dalloc0 =>
    let (_, forest, msg) := messageRouteSetremotestart ret dalloc0 routeForest s.forest (s.msg i)
    { s.setMsg i msg with
      forest := forest
      queries :=
        match routerFindPolicyByname routeForest (s.msg i).head.route (s.msg i).head.rjump 0 with
        | none => s.queries
        | some path =>
          note s.queries ((s.msg i).head.flow = MSG_FLOW_QUERY
              ∧ (s.msg i).head.state ≠ MSG_STATE_RESPONSE ∧ dalloc0.node)
            { nonce := (s.msg i).head.nonce
              sender := (s.msg i).head.senderUuid
              policy := path
              node := s.forest.nodes.length } }
  | .aspect i aspectMem traceMem nonce branch =>
    if branch.branchType = MSG_FLOW_ASPECT then
      let (_, forest, msg) :=
        routeAspectMessage aspectMem traceMem nonce s.forest (s.msg i) branch
      { forest := forest
        msg := Function.update s.msg i msg
        detours := Function.update s.detours i
          ({ node := if aspectMem.node then some s.forest.nodes.length else none
             saved := s.msg i } :: s.detours i)
        drawn := if aspectMem.node then nonce :: s.drawn else s.drawn
        -- The message is started on the path of the branch, under the nonce drawn.
        queries := note s.queries (branch.branchPath.flow = MSG_FLOW_QUERY ∧ traceMem.node)
          { nonce := if aspectMem.node then nonce else (s.msg i).head.nonce
            sender := (s.msg i).head.senderUuid
            policy := branch.branchPath
            node := s.forest.nodes.length + if aspectMem.node then 1 else 0 } }
    else s
  | .recover i =>
    match findAspect s.forest (s.msg i) with
    | none => s
    | some node =>
      { s.setMsg i (messageRouteAspectrecover (s.msg i) node) with
        detours := Function.update s.detours i (s.detours i).tail }
  | .settracesrc i =>
    s.setMsg i (messageRouteSettracesrc (s.msg i) (findQuery s.forest (s.msg i))).2
  | .settracetarget i =>
    s.setMsg i (messageRouteSettracetarget (s.msg i) (findQuery s.forest (s.msg i))).2
  | .gettracetarget i =>
    { s with forest := s.forest.gettracetarget (s.msg i) }

end Router

/-! ## What a step does to the aspect nodes -/

/-- The aspect node for a message that makes a detour under a nonce. -/
def aspectNodeOf (nonce : Uuid) (msg : RouteMessage A) : AspectNode A where
  msgUuid := nonce
  oldMsguuid := msg.head.nonce
  senderUuid := msg.head.senderUuid
  receiverUuid := msg.head.receiverUuid
  route := msg.head.route
  flow := msg.head.flow
  state := msg.head.state
  flag := msg.head.flag
  ljump := msg.head.ljump
  rjump := msg.head.rjump
  aspectSite := msg.pathSite
  path := msg.policy

/-- The trace node for a query. -/
def traceNodeOf (msg : RouteMessage A) : TraceNode A where
  msgUuid := msg.head.nonce
  sourceUuid := msg.head.senderUuid
  targetUuid := .replicate _ 0
  path := msg.policy

/-- Starting a message adds nothing but its trace node. -/
theorem startTrace_forest (dalloc0 : Dalloc0) (forest : Forest A) (msg : RouteMessage A) :
    (startTrace dalloc0 forest msg).2.1 =
      if msg.head.flow = MSG_FLOW_QUERY ∧ msg.head.state ≠ MSG_STATE_RESPONSE ∧ dalloc0.node then
        forest.add dalloc0 (.trace (traceNodeOf msg))
      else forest := by
  unfold startTrace createTraceNode
  split_ifs <;> first | rfl | simp_all

/-- The forest has the aspect nodes of the other one and no more. -/
structure Forest.SameAspects (forest forest' : Forest A) : Prop where
  wellFormed : forest.WellFormed → forest'.WellFormed
  has : ∀ p node, forest.Has p (.aspect node) → forest'.Has p (.aspect node)
  only : ∀ (p : Nat) node,
    forest'.nodes[p]? = some (.aspect node) → forest.nodes[p]? = some (.aspect node)

namespace Forest.SameAspects

variable {forest forest' forest'' : Forest A}

theorem refl : forest.SameAspects forest :=
  ⟨id, fun _ _ => id, fun _ _ => id⟩

theorem add_trace {dalloc0 : Dalloc0} {node : TraceNode A} :
    forest.SameAspects (forest.add dalloc0 (.trace node)) := by
  refine ⟨WellFormed.add, fun p aspect h => h.add, fun p aspect h => ?_⟩
  rcases nodes_add_cases h with h | ⟨_, h⟩
  · exact h
  · exact absurd h (by simp)

theorem startTrace {dalloc0 : Dalloc0} {msg : RouteMessage A} :
    forest.SameAspects (startTrace dalloc0 forest msg).2.1 := by
  rw [startTrace_forest]
  split_ifs
  · exact add_trace
  · exact refl

theorem setremotestart {ret : Int} {dalloc0 : Dalloc0} {msg : RouteMessage A} :
    forest.SameAspects (messageRouteSetremotestart ret dalloc0 routeForest forest msg).2.1 := by
  unfold messageRouteSetremotestart
  cases routerFindPolicyByname routeForest msg.head.route msg.head.rjump 0 with
  | none => exact refl
  | some path => exact startTrace

end Forest.SameAspects

/-- The node found for a query is written to, and stays a node of the query. -/
theorem Forest.gettracetarget_cases (forest : Forest A) (msg : RouteMessage A) :
    forest.gettracetarget msg = forest ∨
      ∃ p node, forest.nodes[p]? = some (.trace node) ∧ forest.gettracetarget msg =
        forest.set p (.trace { node with targetUuid := msg.head.receiverUuid }) := by
  unfold Forest.gettracetarget
  rcases messageRouteFindtrace forest msg MSG_FLOW_QUERY with _ | p
  · exact .inl rfl
  · simp only
    rcases hnode : forest.traceNode p with _ | node
    · exact .inl rfl
    · refine .inr ⟨p, node, ?_, rfl⟩
      unfold Forest.traceNode at hnode
      split at hnode <;> simp_all

theorem Forest.nodes_set {forest : Forest A} {p : Nat} {old : Node A}
    (hold : forest.nodes[p]? = some old) (node : Node A) (q : Nat) :
    (forest.set p node).nodes[q]? = if q = p then some node else forest.nodes[q]? := by
  have hp : p < forest.nodes.length := (List.getElem?_eq_some_iff.1 hold).1
  rw [Forest.set, List.getElem?_set]
  by_cases hq : q = p
  · subst hq
    simp [hp]
  · simp [hq, Ne.symm hq]

theorem Forest.WellFormed.gettracetarget {forest : Forest A} (hwf : forest.WellFormed)
    (msg : RouteMessage A) : (forest.gettracetarget msg).WellFormed := by
  rcases forest.gettracetarget_cases msg with heq | ⟨p, node, hnode, heq⟩
  · rw [heq]
    exact hwf
  · rw [heq]
    refine ⟨hwf.sorted, fun b q hq => ?_⟩
    obtain ⟨other, hother, hb⟩ := hwf.owned b q hq
    rw [Forest.nodes_set hnode]
    by_cases hqp : q = p
    · subst hqp
      obtain rfl := Option.some.inj (hnode.symm.trans hother)
      exact ⟨_, if_pos rfl, hb⟩
    · exact ⟨other, (if_neg hqp).trans hother, hb⟩

theorem Forest.SameAspects.gettracetarget {forest : Forest A} {msg : RouteMessage A} :
    forest.SameAspects (forest.gettracetarget msg) := by
  refine ⟨fun hwf => hwf.gettracetarget msg, fun q aspect h => ?_, fun q aspect h => ?_⟩
  all_goals rcases forest.gettracetarget_cases msg with heq | ⟨p, node, hnode, heq⟩
  · rwa [heq]
  · have hqp : q ≠ p := fun hqp => absurd (hnode.symm.trans (hqp ▸ h.1)) (by simp)
    rw [heq]
    exact ⟨by rw [Forest.nodes_set hnode, if_neg hqp, h.1], h.2⟩
  · rwa [heq] at h
  · rw [heq, Forest.nodes_set hnode] at h
    split_ifs at h with hq
    · exact absurd h (by simp)
    · exact h

/-! ## Coming back from detours -/

/-- The message as it was before a detour, with the flags of encryption, signature,
    compression and verification as the detour left them. -/
def restored (msg saved : RouteMessage A) : RouteMessage A where
  head := { msg.head with
    nonce := saved.head.nonce
    senderUuid := saved.head.senderUuid
    receiverUuid := saved.head.receiverUuid
    route := saved.head.route
    flow := saved.head.flow
    state := saved.head.state
    flag := (msg.head.flag &&& flagMask) ||| (saved.head.flag &&& ~~~flagMask)
    ljump := saved.head.ljump
    rjump := saved.head.rjump }
  policy := saved.policy
  pathSite := saved.pathSite

theorem flag_restored (a b c : Int32) :
    (((a &&& flagMask) ||| (b &&& ~~~flagMask)) &&& flagMask) ||| (c &&& ~~~flagMask) =
      (a &&& flagMask) ||| (c &&& ~~~flagMask) := by
  apply Int32.toBitVec_inj.1
  simp only [Int32.toBitVec_or, Int32.toBitVec_and, Int32.toBitVec_not]
  ext i hi
  simp only [BitVec.getElem_or, BitVec.getElem_and, BitVec.getElem_not]
  cases flagMask.toBitVec[i] <;> simp

/-- A detour undone after another leaves no trace of the other. -/
@[simp] theorem restored_restored (msg a b : RouteMessage A) :
    restored (restored msg a) b = restored msg b := by
  simp only [restored, flag_restored]

namespace Router

/-- The nonce drawn for a detour is none drawn before. -/
def DrawsFresh (s : Router ι A) : Event ι A → Prop
  | .aspect _ aspectMem _ nonce branch =>
    branch.branchType = MSG_FLOW_ASPECT → aspectMem.node = true → nonce ∉ s.drawn
  | _ => True

/-- There is the memory for the node of a detour and the record of it. -/
def SavesAspect (_ : Router ι A) : Event ι A → Prop
  | .aspect _ aspectMem _ _ branch =>
    branch.branchType = MSG_FLOW_ASPECT → aspectMem.node = true ∧ aspectMem.record = true
  | _ => True

/-- The router after a message has come back from `k` detours. -/
def back (s : Router ι A) (i : ι) (k : Nat) : Router ι A :=
  run (step routeForest) s (List.replicate k (.recover i))

/-- When a message comes back from its detours, the node found for it is the one
    made for the detour it comes back from, and it is recovered as it was before. -/
def AspectRestores (s : Router ι A) : Prop :=
  ∀ (i : ι) (k : Nat) detour, (s.detours i)[k]? = some detour →
    ∃ p node, detour.node = some p ∧
      messageRouteFindtrace (s.back routeForest i k).forest ((s.back routeForest i k).msg i)
        MSG_FLOW_ASPECT = some p ∧
      (s.back routeForest i k).forest.aspectNode p = some node ∧
      messageRouteAspectrecover ((s.back routeForest i k).msg i) node =
        restored (s.msg i) detour.saved

/-- The detours of a message that has the nonce are saved, one under the nonce of
    the message in the other. -/
def Saved (forest : Forest A) : Uuid → List (Detour A) → Prop
  | _, [] => True
  | nonce, detour :: detours =>
    (∃ p, detour.node = some p ∧ forest.Has p (.aspect (aspectNodeOf nonce detour.saved))) ∧
      Saved forest detour.saved.head.nonce detours

/-- All detours are saved, under nonces of their own. -/
structure AspectInv (s : Router ι A) : Prop where
  wellFormed : s.forest.WellFormed
  drawn : ∀ (p : Nat) node, s.forest.nodes[p]? = some (.aspect node) → node.msgUuid ∈ s.drawn
  unique : ∀ (p q : Nat) node other, s.forest.nodes[p]? = some (.aspect node) →
    s.forest.nodes[q]? = some (.aspect other) → node.msgUuid = other.msgUuid → p = q
  saved : ∀ i, Saved s.forest (s.msg i).head.nonce (s.detours i)

variable {s s' : Router ι A}

omit [DecidableEq ι] in
theorem Saved.mono {forest forest' : Forest A}
    (h : ∀ p node, forest.Has p (.aspect node) → forest'.Has p (.aspect node)) {nonce : Uuid}
    {detours : List (Detour A)} (hsaved : Saved forest nonce detours) :
    Saved forest' nonce detours := by
  induction detours generalizing nonce with
  | nil => trivial
  | cons detour detours ih =>
    obtain ⟨⟨p, hp, hhas⟩, hsaved⟩ := hsaved
    exact ⟨⟨p, hp, h p _ hhas⟩, ih hsaved⟩

omit [DecidableEq ι] in
/-- A step that makes no aspect nodes keeps what is saved, if each message keeps its
    nonce and its detours, or has none any more. -/
theorem AspectInv.mono (h : AspectInv s) (hforest : s.forest.SameAspects s'.forest)
    (hdrawn : s'.drawn = s.drawn)
    (hmsg : ∀ i, s'.detours i = [] ∨
      s'.detours i = s.detours i ∧ (s'.msg i).head.nonce = (s.msg i).head.nonce) :
    AspectInv s' where
  wellFormed := hforest.wellFormed h.wellFormed
  drawn p node hnode := hdrawn ▸ h.drawn p node (hforest.only p node hnode)
  unique p q node other hp hq := h.unique p q node other (hforest.only p node hp)
    (hforest.only q other hq)
  saved i := by
    rcases hmsg i with hnil | ⟨hdetours, hnonce⟩
    · rw [hnil]
      trivial
    · rw [hdetours, hnonce]
      exact (h.saved i).mono hforest.has

variable {i : ι}

omit [DecidableEq ι] in
/-- The node found for a message on a detour is the one saved for it. -/
theorem AspectInv.top (h : AspectInv s) {detour : Detour A} {detours : List (Detour A)}
    (hi : s.detours i = detour :: detours) :
    ∃ p, detour.node = some p ∧
      messageRouteFindtrace s.forest (s.msg i) MSG_FLOW_ASPECT = some p ∧
      s.forest.aspectNode p = some (aspectNodeOf (s.msg i).head.nonce detour.saved) := by
  have hsaved := h.saved i
  rw [hi] at hsaved
  obtain ⟨⟨p, hp, hhas⟩, _⟩ := hsaved
  refine ⟨p, hp, ?_, ?_⟩
  · refine h.wellFormed.findtrace_eq_some hhas ⟨rfl, Forest.ofFlow_aspect.2 ⟨_, rfl⟩⟩ ?_
    rintro q other hother ⟨huuid, hflow⟩
    obtain ⟨aspect, rfl⟩ := Forest.ofFlow_aspect.1 hflow
    exact (h.unique p q _ aspect hhas.1 hother huuid.symm).le
  · simp [Forest.aspectNode, hhas.1]

omit [DecidableEq ι] in
theorem AspectInv.findAspect (h : AspectInv s) {detour : Detour A}
    {detours : List (Detour A)} (hi : s.detours i = detour :: detours) :
    findAspect s.forest (s.msg i) =
      some (aspectNodeOf (s.msg i).head.nonce detour.saved) := by
  obtain ⟨p, _, hfind, hnode⟩ := h.top hi
  simp [Route.findAspect, hfind, hnode]

/-- Coming back from a detour restores the message, and what is saved. -/
theorem AspectInv.recover (h : AspectInv s) {detour : Detour A}
    {detours : List (Detour A)} (hi : s.detours i = detour :: detours) :
    AspectInv (step routeForest s (.recover i)) ∧
      (step routeForest s (.recover i)).detours i = detours ∧
      (step routeForest s (.recover i)).msg i = restored (s.msg i) detour.saved := by
  have hstep : step routeForest s (.recover i) =
      { s.setMsg i (restored (s.msg i) detour.saved) with
        detours := Function.update s.detours i detours } := by
    simp only [step, h.findAspect hi, hi, List.tail_cons]
    rfl
  rw [hstep]
  refine ⟨⟨h.wellFormed, h.drawn, h.unique, fun j => ?_⟩, by simp, by simp [setMsg]⟩
  by_cases hj : j = i
  · subst hj
    have hsaved := h.saved j
    rw [hi] at hsaved
    simpa [setMsg, restored] using hsaved.2
  · simpa [setMsg, hj] using h.saved j

/-- A detour saved under a nonce of its own is one more of the message. -/
theorem AspectInv.detour (h : AspectInv s) {dalloc0 : Dalloc0} {nonce : Uuid}
    {msg : RouteMessage A} (hnonce : msg.head.nonce = nonce) (hrecord : dalloc0.record = true)
    (hfresh : nonce ∉ s.drawn) :
    AspectInv { s.setMsg i msg with
      forest := s.forest.add dalloc0 (.aspect (aspectNodeOf nonce (s.msg i)))
      detours := Function.update s.detours i (⟨some s.forest.nodes.length, s.msg i⟩ :: s.detours i)
      drawn := nonce :: s.drawn } where
  wellFormed := h.wellFormed.add
  drawn p node hnode := by
    rcases Forest.nodes_add_cases hnode with hnode | ⟨_, hnode⟩
    · exact List.mem_cons_of_mem _ (h.drawn p node hnode)
    · obtain rfl := Node.aspect.inj hnode
      exact List.mem_cons_self
  unique p q node other hp hq huuid := by
    rcases Forest.nodes_add_cases hp with hold | ⟨hlast, hnew⟩ <;>
      rcases Forest.nodes_add_cases hq with hold' | ⟨hlast', hnew'⟩
    · exact h.unique p q node other hold hold' huuid
    · -- The nonce of an earlier node was drawn before.
      obtain rfl := Node.aspect.inj hnew'
      have hdrawn : node.msgUuid ∈ s.drawn := h.drawn p node hold
      rw [huuid] at hdrawn
      exact absurd hdrawn hfresh
    · obtain rfl := Node.aspect.inj hnew
      have hdrawn : other.msgUuid ∈ s.drawn := h.drawn q other hold'
      rw [← huuid] at hdrawn
      exact absurd hdrawn hfresh
    · rw [hlast, hlast']
  saved j := by
    by_cases hj : j = i
    · subst hj
      simp only [setMsg, Function.update_self, Saved, hnonce]
      exact ⟨⟨_, rfl, Forest.has_add hrecord⟩, (h.saved j).mono fun _ _ hhas => hhas.add⟩
    · simp only [setMsg, Function.update_of_ne hj]
      exact (h.saved j).mono fun _ _ hhas => hhas.add

/-- A step that only changes a message, but for its nonce, keeps what is saved. -/
theorem AspectInv.setMsg (h : AspectInv s) {msg : RouteMessage A}
    (hnonce : msg.head.nonce = (s.msg i).head.nonce) : AspectInv (s.setMsg i msg) := by
  refine h.mono .refl rfl fun j => .inr ⟨rfl, ?_⟩
  by_cases hj : j = i
  · subst hj
    simp [Router.setMsg, hnonce]
  · simp [Router.setMsg, hj]

omit [DecidableEq ι] in
theorem nonce_setremotestart (ret : Int) (dalloc0 : Dalloc0) (forest : Forest A)
    (msg : RouteMessage A) :
    (messageRouteSetremotestart ret dalloc0 routeForest forest msg).2.2.head.nonce =
      msg.head.nonce := by
  unfold messageRouteSetremotestart
  split <;> simp

omit [DecidableEq ι] in
theorem nonce_settracesrc (msg : RouteMessage A) (node : Option (TraceNode A)) :
    (messageRouteSettracesrc msg node).2.head.nonce = msg.head.nonce := by
  cases node <;> rfl

omit [DecidableEq ι] in
theorem nonce_settracetarget (msg : RouteMessage A) (node : Option (TraceNode A)) :
    (messageRouteSettracetarget msg node).2.head.nonce = msg.head.nonce := by
  cases node <;> rfl

/-- What is saved of the detours is kept by every step, if nonces drawn are new and
    there is memory for the detours. -/
theorem AspectInv.step (h : AspectInv s) {e : Event ι A} (hfresh : DrawsFresh s e)
    (hmem : SavesAspect s e) : AspectInv (step routeForest s e) := by
  cases e with
  | arrive i msg =>
    refine h.mono .refl rfl fun j => ?_
    by_cases hj : j = i
    · subst hj
      exact .inl (by simp [Router.step])
    · exact .inr (by simp [Router.step, Router.setMsg, hj])
  | travel i msg => exact h.setMsg rfl
  | setstart i dalloc0 path =>
    have hmsg : (messageRouteSetstart dalloc0 s.forest (s.msg i) path).2.2.head.nonce =
        (s.msg i).head.nonce := by simp [messageRouteSetstart]
    exact (h.setMsg hmsg).mono .startTrace rfl fun j => .inr ⟨rfl, rfl⟩
  | setremotestart i ret dalloc0 =>
    exact (h.setMsg (nonce_setremotestart routeForest _ _ _ _)).mono
      (.setremotestart routeForest) rfl fun j => .inr ⟨rfl, rfl⟩
  | aspect i aspectMem traceMem nonce branch =>
    by_cases hbranch : branch.branchType = MSG_FLOW_ASPECT
    · obtain ⟨hnode, hrecord⟩ := hmem hbranch
      have hnonce : (routeAspectMessage aspectMem traceMem nonce s.forest (s.msg i) branch).2.2.head.nonce
          = nonce := by
        simp [routeAspectMessage, hbranch, createAspectNode, hnode, messageRouteSetstart]
      have hdetour := h.detour (i := i) hnonce hrecord (hfresh hbranch hnode)
      have hforest : (s.forest.add aspectMem (.aspect (aspectNodeOf nonce (s.msg i)))).SameAspects
          (routeAspectMessage aspectMem traceMem nonce s.forest (s.msg i) branch).2.1 := by
        simp only [routeAspectMessage, hbranch, createAspectNode, hnode, ne_eq, not_true_eq_false,
          if_false, if_true, messageRouteSetstart]
        exact .startTrace
      refine hdetour.mono ?_ ?_ fun j => .inr ⟨?_, ?_⟩ <;>
        simp [Router.step, hbranch, hnode, Router.setMsg, hforest]
    · simpa [Router.step, hbranch] using h
  | recover i =>
    rcases hdetours : s.detours i with _ | ⟨detour, detours⟩
    · cases hfind : Route.findAspect s.forest (s.msg i) with
      | none => simpa [Router.step, hfind] using h
      | some node =>
        -- Such a message is on no detour, whatever node it finds.
        have hstep : Router.step routeForest s (.recover i) =
            { s.setMsg i (messageRouteAspectrecover (s.msg i) node) with
              detours := Function.update s.detours i (s.detours i).tail } := by
          simp only [Router.step, hfind]
        rw [hstep]
        refine h.mono .refl rfl fun j => ?_
        by_cases hj : j = i
        · subst hj
          exact .inl (by simp [hdetours])
        · exact .inr (by simp [Router.setMsg, hj])
    · exact (h.recover routeForest hdetours).1
  | settracesrc i => exact h.setMsg (nonce_settracesrc _ _)
  | settracetarget i => exact h.setMsg (nonce_settracetarget _ _)
  | gettracetarget i =>
    exact h.mono .gettracetarget rfl fun j => .inr ⟨rfl, rfl⟩

/-- Coming back from `k` detours. -/
theorem AspectInv.back (h : AspectInv s) (i : ι) {k : Nat} (hk : k ≤ (s.detours i).length) :
    AspectInv (s.back routeForest i k) ∧
      (s.back routeForest i k).detours i = (s.detours i).drop k ∧
      ∀ saved, restored ((s.back routeForest i k).msg i) saved = restored (s.msg i) saved := by
  induction k with
  | zero => exact ⟨h, rfl, fun _ => rfl⟩
  | succ k ih =>
    obtain ⟨hinv, hdetours, hrestored⟩ := ih (by omega)
    have hsucc : s.back routeForest i (k + 1) =
        Router.step routeForest (s.back routeForest i k) (.recover i) := by
      simp only [Router.back, List.replicate_succ', run_append, run_cons, run_nil]
    rw [List.drop_eq_getElem_cons hk] at hdetours
    obtain ⟨hinv', hdetours', hmsg⟩ := hinv.recover routeForest hdetours
    rw [hsucc]
    refine ⟨hinv', hdetours', fun saved => ?_⟩
    rw [hmsg, restored_restored, hrestored]

/-- Where the detours are saved, messages come back from them as they were. -/
theorem AspectInv.restores (h : AspectInv s) : AspectRestores routeForest s := by
  intro i k detour hk
  obtain ⟨hlt, hget⟩ := List.getElem?_eq_some_iff.1 hk
  obtain ⟨hinv, hdetours, hrestored⟩ := h.back routeForest i hlt.le
  rw [List.drop_eq_getElem_cons hlt, hget] at hdetours
  obtain ⟨p, hp, hfind, hnode⟩ := hinv.top hdetours
  exact ⟨p, _, hp, hfind, hnode, hrestored detour.saved⟩

omit [DecidableEq ι] in
theorem aspectInv_initial (msg : ι → RouteMessage A) : AspectInv (initial msg) where
  wellFormed := Forest.wellFormed_init
  drawn p node hnode := by simp [initial, initHashForest] at hnode
  unique p q node other hp := by simp [initial, initHashForest] at hp
  saved i := trivial

/-- In every run that draws a new nonce for every detour, and finds the memory for
    the node of every detour, all messages come back from their detours as they
    were before. -/
theorem aspect_restores (msg : ι → RouteMessage A) {events : List (Event ι A)}
    (hfresh : Steps (Router.step routeForest) DrawsFresh (initial msg) events)
    (hmem : Steps (Router.step routeForest) SavesAspect (initial msg) events) :
    Throughout (Router.step routeForest) (AspectRestores routeForest) (initial msg) events := by
  have hinv : Throughout (Router.step routeForest) AspectInv (initial msg) events :=
    run_invariant (C := fun s e => DrawsFresh s e ∧ SavesAspect s e)
      (fun s e h hok => h.step routeForest hok.1 hok.2) (aspectInv_initial msg)
      fun pre e hpre => ⟨hfresh pre e hpre, hmem pre e hpre⟩
  exact fun pre hpre => (hinv pre hpre).restores routeForest

/-! ## Responses -/

/-- Where there is the memory for a trace node, there is the memory for its record. -/
def RecordsTrace (_ : Router ι A) : Event ι A → Prop
  | .setstart _ dalloc0 _ => dalloc0.node = true → dalloc0.record = true
  | .setremotestart _ _ dalloc0 => dalloc0.node = true → dalloc0.record = true
  | .aspect _ _ traceMem _ _ => traceMem.node = true → traceMem.record = true
  | _ => True

/-- A message with the nonce of a query finds the node made for this query, and is
    addressed to its sender or goes on at its response path; distinct queries have
    nodes of their own. A message with any other nonce finds none, and has its flow
    set to the end. -/
structure ResponseFinds (s : Router ι A) : Prop where
  own : ∀ query ∈ s.queries, ∀ msg : RouteMessage A, msg.head.nonce = query.nonce →
    ∃ node, messageRouteFindtrace s.forest msg MSG_FLOW_QUERY = some query.node ∧
      s.forest.traceNode query.node = some node ∧
      messageRouteSettracesrc msg (some node) =
        (1, { msg with head := { msg.head with
              receiverUuid := query.sender
              state := MSG_STATE_RESPONSE
              flag := msg.head.flag &&& ~~~MSG_FLAG_LOCAL } }) ∧
      (messageRouteSettracetarget msg (some node)).1 = 1 ∧
      (messageRouteSettracetarget msg (some node)).2.policy = some query.policy ∧
      (messageRouteSettracetarget msg (some node)).2.pathSite = some query.policy.responsePath
  apart : s.queries.Pairwise fun query other => query.node ≠ other.node
  other : ∀ msg : RouteMessage A, (∀ query ∈ s.queries, query.nonce ≠ msg.head.nonce) →
    messageRouteFindtrace s.forest msg MSG_FLOW_QUERY = none ∧
      messageRouteSettracesrc msg none =
        (0, { msg with head := { msg.head with flow := MSG_FLOW_FINISH } }) ∧
      messageRouteSettracetarget msg none =
        (0, { msg with head := { msg.head with flow := MSG_FLOW_FINISH } })

/-- The forest has the trace nodes of the other one and no more, but for what they
    remember of the targets. -/
structure SameTraces (forest forest' : Forest A) : Prop where
  wellFormed : forest.WellFormed → forest'.WellFormed
  has : ∀ p node, forest.Has p (.trace node) →
    ∃ target, forest'.Has p (.trace { node with targetUuid := target })
  only : ∀ (p : Nat) node, forest'.nodes[p]? = some (.trace node) →
    ∃ target, forest.nodes[p]? = some (.trace { node with targetUuid := target })

/-- The queries noted have trace nodes, the first ones made under their nonces. -/
structure QueryInv (forest : Forest A) (queries : List (Query A)) : Prop where
  wellFormed : forest.WellFormed
  made : ∀ query ∈ queries, ∃ node : TraceNode A, forest.Has query.node (.trace node) ∧
    node.msgUuid = query.nonce ∧ node.sourceUuid = query.sender ∧ node.path = some query.policy
  first : ∀ (p : Nat) node, forest.nodes[p]? = some (.trace node) →
    ∃ query ∈ queries, query.nonce = node.msgUuid ∧ query.node ≤ p
  distinct : queries.Pairwise fun query other => query.nonce ≠ other.nonce

omit [DecidableEq ι] in
theorem SameTraces.add_aspect (forest : Forest A) (dalloc0 : Dalloc0) (node : AspectNode A) :
    SameTraces forest (forest.add dalloc0 (.aspect node)) := by
  refine ⟨Forest.WellFormed.add, fun p trace h => ⟨_, h.add⟩, fun p trace h => ?_⟩
  rcases Forest.nodes_add_cases h with h | ⟨_, h⟩
  · exact ⟨_, h⟩
  · exact absurd h (by simp)

omit [DecidableEq ι] in
theorem SameTraces.gettracetarget (forest : Forest A) (msg : RouteMessage A) :
    SameTraces forest (forest.gettracetarget msg) := by
  refine ⟨fun hwf => hwf.gettracetarget msg, fun q trace h => ?_, fun q trace h => ?_⟩
  all_goals rcases forest.gettracetarget_cases msg with heq | ⟨p, node, hnode, heq⟩
  · exact ⟨_, heq ▸ h⟩
  · rw [heq]
    by_cases hqp : q = p
    · subst hqp
      obtain rfl := Node.trace.inj (Option.some.inj (hnode.symm.trans h.1))
      exact ⟨msg.head.receiverUuid, by rw [Forest.nodes_set hnode, if_pos rfl], h.2⟩
    · exact ⟨trace.targetUuid, by rw [Forest.nodes_set hnode, if_neg hqp, h.1], h.2⟩
  · exact ⟨_, heq ▸ h⟩
  · rw [heq, Forest.nodes_set hnode] at h
    split_ifs at h with hqp
    · obtain rfl := Node.trace.inj (Option.some.inj h)
      exact ⟨node.targetUuid, hqp ▸ hnode⟩
    · exact ⟨_, h⟩

namespace QueryInv

variable {forest forest' : Forest A} {queries : List (Query A)}

theorem mono (h : QueryInv forest queries) (hforest : SameTraces forest forest') :
    QueryInv forest' queries where
  wellFormed := hforest.wellFormed h.wellFormed
  made query hquery := by
    obtain ⟨node, hhas, hfields⟩ := h.made query hquery
    obtain ⟨target, hhas'⟩ := hforest.has _ node hhas
    exact ⟨_, hhas', hfields⟩
  first p node hnode := by
    obtain ⟨target, hnode'⟩ := hforest.only p node hnode
    obtain ⟨query, hquery, hnonce, hle⟩ := h.first p _ hnode'
    exact ⟨query, hquery, hnonce, hle⟩
  distinct := h.distinct

theorem lt_length (h : QueryInv forest queries) {query : Query A} (hquery : query ∈ queries) :
    query.node < forest.nodes.length := by
  obtain ⟨node, hhas, _⟩ := h.made query hquery
  exact (List.getElem?_eq_some_iff.1 hhas.1).1

/-- A trace node made for a message is that of a new query, or a later one of a
    query started again. -/
theorem add_trace (h : QueryInv forest queries) {dalloc0 : Dalloc0}
    (hrecord : dalloc0.record = true) {msg : RouteMessage A} {path : RoutePath A}
    (hpolicy : msg.policy = some path) :
    QueryInv (forest.add dalloc0 (.trace (traceNodeOf msg)))
      (note queries true
        ⟨msg.head.nonce, msg.head.senderUuid, path, forest.nodes.length⟩) := by
  have hmade : ∀ query ∈ queries, ∃ node : TraceNode A,
      (forest.add dalloc0 (.trace (traceNodeOf msg))).Has query.node (.trace node) ∧
        node.msgUuid = query.nonce ∧ node.sourceUuid = query.sender ∧
        node.path = some query.policy := by
    intro query hquery
    obtain ⟨node, hhas, hfields⟩ := h.made query hquery
    exact ⟨node, hhas.add, hfields⟩
  by_cases hnew : msg.head.nonce ∈ queries.map Query.nonce
  · simp only [note, hnew, not_true_eq_false, and_false, if_false]
    refine ⟨h.wellFormed.add, hmade, fun p node hnode => ?_, h.distinct⟩
    rcases Forest.nodes_add_cases hnode with hold | ⟨rfl, hnew'⟩
    · exact h.first p node hold
    · obtain ⟨query, hquery, hnonce⟩ := List.mem_map.1 hnew
      obtain rfl := Node.trace.inj hnew'
      exact ⟨query, hquery, hnonce, (h.lt_length hquery).le⟩
  · simp only [note, hnew, not_false_eq_true, and_self, if_true]
    refine ⟨h.wellFormed.add, ?_, fun p node hnode => ?_, ?_⟩
    · intro query hquery
      rcases List.mem_cons.1 hquery with rfl | hquery
      · exact ⟨traceNodeOf msg, Forest.has_add hrecord, rfl, rfl, hpolicy⟩
      · exact hmade query hquery
    · rcases Forest.nodes_add_cases hnode with hold | ⟨rfl, hnew'⟩
      · obtain ⟨query, hquery, hle⟩ := h.first p node hold
        exact ⟨query, List.mem_cons_of_mem _ hquery, hle⟩
      · obtain rfl := Node.trace.inj hnew'
        exact ⟨_, List.mem_cons_self, rfl, Nat.le_refl _⟩
    · refine List.pairwise_cons.2 ⟨fun query hquery hnonce => hnew ?_, h.distinct⟩
      exact List.mem_map.2 ⟨query, hquery, hnonce.symm⟩

/-- Starting a message notes its query, if it is one. -/
theorem startTrace (h : QueryInv forest queries) {dalloc0 : Dalloc0}
    (hrecord : dalloc0.node = true → dalloc0.record = true) {msg : RouteMessage A}
    {path : RoutePath A} (hpolicy : msg.policy = some path) :
    QueryInv (startTrace dalloc0 forest msg).2.1
      (note queries (msg.head.flow = MSG_FLOW_QUERY ∧ msg.head.state ≠ MSG_STATE_RESPONSE
          ∧ dalloc0.node)
        ⟨msg.head.nonce, msg.head.senderUuid, path, forest.nodes.length⟩) := by
  rw [startTrace_forest]
  by_cases hquery : msg.head.flow = MSG_FLOW_QUERY ∧ msg.head.state ≠ MSG_STATE_RESPONSE
      ∧ dalloc0.node
  · rw [if_pos hquery, decide_eq_true hquery]
    exact h.add_trace (hrecord hquery.2.2) hpolicy
  · rw [if_neg hquery, decide_eq_false hquery]
    simpa [note] using h

/-- `message_route_setstart` notes a query by its path alone: the message is no response. -/
theorem setstart (h : QueryInv forest queries) {dalloc0 : Dalloc0}
    (hrecord : dalloc0.node = true → dalloc0.record = true) (msg : RouteMessage A)
    (path : RoutePath A) :
    QueryInv (messageRouteSetstart dalloc0 forest msg path).2.1
      (note queries (path.flow = MSG_FLOW_QUERY ∧ dalloc0.node)
        ⟨msg.head.nonce, msg.head.senderUuid, path, forest.nodes.length⟩) := by
  have hmade : (path.flow = MSG_FLOW_QUERY ∧ MSG_STATE_MATCH ≠ MSG_STATE_RESPONSE ∧
      dalloc0.node) ↔ path.flow = MSG_FLOW_QUERY ∧ dalloc0.node := by
    simp [show MSG_STATE_MATCH ≠ MSG_STATE_RESPONSE by decide]
  rw [← decide_eq_decide.2 hmade]
  exact h.startTrace hrecord rfl

omit [DecidableEq ι] in
/-- Where the queries have the first nodes under their nonces, responses find them. -/
theorem finds {s : Router ι A} (h : QueryInv s.forest s.queries) : ResponseFinds s where
  own query hquery msg hnonce := by
    obtain ⟨node, hhas, huuid, hsender, hpath⟩ := h.made query hquery
    have hfind : messageRouteFindtrace s.forest msg MSG_FLOW_QUERY = some query.node := by
      refine h.wellFormed.findtrace_eq_some hhas
        ⟨huuid.trans hnonce.symm, Forest.ofFlow_query.2 ⟨_, rfl⟩⟩ ?_
      rintro p other hother ⟨hother_uuid, hflow⟩
      obtain ⟨trace, rfl⟩ := Forest.ofFlow_query.1 hflow
      -- The first node under the nonce is that of a query, and there is one such query.
      obtain ⟨query', hquery', hnonce', hle⟩ := h.first p trace hother
      have hsame : query'.nonce = query.nonce := by
        rw [hnonce', ← hnonce]
        exact hother_uuid
      have heq : query' = query := by
        by_contra hne
        have : Std.Symm fun query other : Query A => query.nonce ≠ other.nonce :=
          ⟨fun _ _ => Ne.symm⟩
        exact h.distinct.forall hquery' hquery hne hsame
      exact heq ▸ hle
    refine ⟨node, hfind, by simp [Forest.traceNode, hhas.1], ?_, rfl, hpath, ?_⟩
    · simp only [messageRouteSettracesrc, hsender]
    · simp [messageRouteSettracetarget, hpath]
  apart := by
    refine h.distinct.imp_of_mem fun {query other} hquery hother hne heq => hne ?_
    obtain ⟨node, hhas, huuid, _⟩ := h.made query hquery
    obtain ⟨node', hhas', huuid', _⟩ := h.made other hother
    rw [heq] at hhas
    obtain rfl := Node.trace.inj (Option.some.inj (hhas.1.symm.trans hhas'.1))
    exact huuid.symm.trans huuid'
  other msg hnonce := by
    refine ⟨Forest.findtrace_eq_none fun p node hnode hmatch => ?_, rfl, rfl⟩
    obtain ⟨trace, rfl⟩ := Forest.ofFlow_query.1 hmatch.2
    obtain ⟨query, hquery, huuid, _⟩ := h.first p trace hnode
    exact hnonce query hquery (huuid.trans hmatch.1)

end QueryInv

/-- What is known of the queries is kept by every step, if there is memory for the
    records of their nodes. -/
theorem QueryInv.step (h : QueryInv s.forest s.queries) {e : Event ι A} (hmem : RecordsTrace s e) :
    QueryInv (Router.step routeForest s e).forest (Router.step routeForest s e).queries := by
  cases e with
  | arrive i msg => exact h
  | travel i msg => exact h
  | setstart i dalloc0 path =>
    exact h.setstart hmem (s.msg i) path
  | setremotestart i ret dalloc0 =>
    simp only [Router.step, messageRouteSetremotestart]
    cases hfind : routerFindPolicyByname routeForest (s.msg i).head.route (s.msg i).head.rjump 0 with
    | none => exact h
    | some path => exact h.startTrace hmem rfl
  | aspect i aspectMem traceMem nonce branch =>
    by_cases hbranch : branch.branchType = MSG_FLOW_ASPECT
    · simp only [Router.step, hbranch, if_true, routeAspectMessage, ne_eq, not_true_eq_false,
        if_false, createAspectNode]
      by_cases hnode : aspectMem.node = true
      · have hadded := h.mono (SameTraces.add_aspect _ aspectMem (aspectNodeOf nonce (s.msg i)))
        simpa [hnode, Forest.add, aspectNodeOf] using hadded.setstart hmem
          { s.msg i with head := { (s.msg i).head with
              nonce := nonce
              route := strncpy (s.msg i).head.route (s.msg i).head.senderUuid
              ljump := 1
              rjump := 1
              flag := (s.msg i).head.flag ||| MSG_FLAG_ASPECT } } branch.branchPath
      · simpa [hnode] using h.setstart hmem
          { s.msg i with head := { (s.msg i).head with
              ljump := 1
              rjump := 1
              flag := (s.msg i).head.flag ||| MSG_FLAG_ASPECT } } branch.branchPath
    · simpa [Router.step, hbranch] using h
  | recover i =>
    cases hfind : Route.findAspect s.forest (s.msg i) with
    | none => simpa [Router.step, hfind] using h
    | some node => simpa [Router.step, hfind, Router.setMsg] using h
  | settracesrc i => exact h
  | settracetarget i => exact h
  | gettracetarget i => exact h.mono (.gettracetarget _ _)

/-- In every run that finds the memory for the records of its trace nodes, each
    response finds the node of its own query, and no other message finds one. -/
theorem response_finds_query (msg : ι → RouteMessage A) {events : List (Event ι A)}
    (hmem : Steps (Router.step routeForest) RecordsTrace (initial msg) events) :
    Throughout (Router.step routeForest) ResponseFinds (initial msg) events := by
  have hinit : QueryInv (initial msg).forest (initial msg).queries :=
    ⟨Forest.wellFormed_init, by simp [initial], by simp [initial, initHashForest], .nil⟩
  have hinv : Throughout (Router.step routeForest)
      (fun s => QueryInv s.forest s.queries) (initial msg) events :=
    run_invariant (fun s e h hok => h.step routeForest hok) hinit hmem
  exact fun pre hpre => (hinv pre hpre).finds

end Router

end Machine

/-! ## Runs -/

/-- A branch of a path that messages are sent on a detour by. -/
def aspectBranch : BranchNode Nat where
  branchType := MSG_FLOW_ASPECT
  branchPath := queryPath

/-- A query on a detour within a detour, with the memory for the node of the second
    one as told. -/
def nestedDetours (second : Dalloc0) : List (Event Unit Nat) :=
  [.setstart () ⟨true, true⟩ queryPath,
    .aspect () ⟨true, true⟩ ⟨true, true⟩ (.replicate _ 1) aspectBranch,
    .aspect () second ⟨true, true⟩ (.replicate _ 2) aspectBranch]

open Router

theorem nestedDetours_fresh (second : Dalloc0) :
    Steps (step []) DrawsFresh (initial fun _ => newMessage) (nestedDetours second) :=
  steps_cons.2 ⟨trivial, steps_cons.2 ⟨fun _ _ => by decide, steps_cons.2
    ⟨fun _ _ => by decide, steps_nil⟩⟩⟩

theorem aspect_restores_nested :
    Throughout (step []) (AspectRestores []) (initial fun _ => newMessage)
      (nestedDetours ⟨true, true⟩) :=
  aspect_restores [] _ (nestedDetours_fresh _) (steps_cons.2 ⟨trivial, steps_cons.2
    ⟨fun _ => ⟨rfl, rfl⟩, steps_cons.2 ⟨fun _ => ⟨rfl, rfl⟩, steps_nil⟩⟩⟩)

/-- Without memory for the second detour the message makes it all the same, and comes
    back from it as it was before the first one. -/
theorem detour_not_restored :
    Steps (step []) DrawsFresh (initial fun _ => newMessage) (nestedDetours ⟨false, false⟩) ∧
      ¬ Throughout (step []) (AspectRestores []) (initial fun _ => newMessage)
        (nestedDetours ⟨false, false⟩) := by
  refine ⟨nestedDetours_fresh _, fun h => ?_⟩
  obtain ⟨p, node, _, hfind, hnode, hrestored⟩ :=
    h (nestedDetours ⟨false, false⟩) (List.prefix_refl _) () 0 _ rfl
  obtain rfl : 1 = p := Option.some.inj (hfind ▸ by decide)
  have hold : node.oldMsguuid = .replicate _ 0 := by
    obtain rfl := Option.some.inj (hnode.symm.trans rfl)
    rfl
  have hnonce := congrArg (fun msg => msg.head.nonce) hrestored
  simp only [messageRouteAspectrecover, hold] at hnonce
  revert hnonce
  decide

theorem response_finds_query_nested :
    Throughout (step []) ResponseFinds (initial fun _ => newMessage)
      (nestedDetours ⟨true, true⟩) :=
  response_finds_query [] _ (steps_cons.2 ⟨fun _ => rfl, steps_cons.2
    ⟨fun _ => rfl, steps_cons.2 ⟨fun _ => rfl, steps_nil⟩⟩⟩)

/-- The trace node of a query is lost when there is no memory for its record. -/
theorem query_lost :
    ¬ Throughout (step []) ResponseFinds (initial fun _ => newMessage)
      [.setstart () ⟨true, false⟩ queryPath] := by
  intro h
  obtain ⟨node, hfind, _⟩ := (h _ (List.prefix_refl _)).own
    ⟨newMessage.head.nonce, newMessage.head.senderUuid, queryPath, 0⟩ (by decide) newMessage rfl
  revert hfind
  decide

end Cube.Route
