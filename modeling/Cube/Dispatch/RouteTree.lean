import Cube.Lib.DList
import Cube.Dispatch.MatchRule

/-!
# Routing messages along paths

The route tree of a dispatcher (`route_tree.c`). A policy has two paths, circular
lists of records: the route path of its messages, and the response path of the
answers to them. A message has a place in a path, its path site, and is moved
from record to record. A query leaves a trace node behind, by which its response
finds the way; a message that makes a detour leaves an aspect node, by which it
is recovered. Nodes of both kinds are in one hash forest, under the nonce of the
message.

* `holds_nodeListInit`, `holds_nodeListAdd`: the paths of a policy hold the nodes
  added to them, in order.
-/

namespace Cube.Route

open Lib Message

/-- The flow of a query, of `enum message_flow_type`. -/
def MSG_FLOW_QUERY : Int32 := 0x08
/-- The flow of a message on a detour. -/
def MSG_FLOW_ASPECT : Int32 := 0x40
/-- The flow of a message that has come to its end. -/
def MSG_FLOW_FINISH : Int32 := 0x8000

/-- The target of the last rule of a path, of `enum route_target_type`. -/
def ROUTE_TARGET_FINISH : Int32 := 0x1000

/-- The state of a message that matches a policy, of `enum message_state_type`. -/
def MSG_STATE_MATCH : Int32 := 0x01
/-- The state of a response. -/
def MSG_STATE_RESPONSE : Int32 := 0x40

/-- The flag of a message for this machine, of `enum message_flag_type`. -/
def MSG_FLAG_LOCAL : Int32 := 0x01
/-- The flag of a signed message. -/
def MSG_FLAG_SIGN : Int32 := 0x20
/-- The flag of a compressed message. -/
def MSG_FLAG_ZIP : Int32 := 0x40
/-- The flag of a verified message. -/
def MSG_FLAG_VERIFY : Int32 := 0x80
/-- The flag of a message on a detour. -/
def MSG_FLAG_ASPECT : Int32 := 0x200

/-- `Strncpy` from one array to another of the size: up to the end of the source
    string, and its end if there is the room; the rest is left. -/
def strncpy {n : Nat} (dest src : Vector UInt8 n) : Vector UInt8 n :=
  let len := (src.toList.takeWhile (· ≠ 0)).length
  Vector.ofFn fun i => if i.val < len then src[i] else if i.val = len then 0 else dest[i]

/-! ## Lists of records -/

/-- The records (`Record_List`) at the addresses `A`: their links and what they
    are records of. -/
structure Records (A N : Type) where
  links : Links A
  record : A → Option N

section NodeList

variable {A N : Type} [DecidableEq A]

/-- `_init_node_list`: the head is linked to itself, and a record of nothing. -/
def nodeListInit (mem : Records A N) (head : A) : Records A N where
  links := mem.links.init head
  record := Function.update mem.record head none

/-- `_node_list_add`, with the memory `Dalloc0` finds for the new record. -/
def nodeListAdd (dalloc0 : Option A) (mem : Records A N) (head : A) (record : N) :
    Option A × Records A N :=
  match dalloc0 with
  | none => (none, mem)
  | some newrecord =>
    (some newrecord,
      { links := (mem.links.init newrecord).addTail newrecord head
        record := Function.update mem.record newrecord (some record) })

/-- The list with the records `sites` behind `head` holds the nodes `l`. -/
structure Holds (mem : Records A N) (head : A) (sites : List A) (l : List N) : Prop where
  ring : mem.links.IsRing head sites
  head_record : mem.record head = none
  record : sites.map mem.record = l.map some

variable {mem : Records A N} {head x : A} {sites : List A} {l : List N}

omit [DecidableEq A] in
theorem Holds.length_eq (h : Holds mem head sites l) : sites.length = l.length := by
  simpa using congrArg List.length h.record

omit [DecidableEq A] in
theorem Holds.record_getElem? (h : Holds mem head sites l) {n : Nat} {u : A}
    (hu : sites[n]? = some u) : mem.record u = l[n]? := by
  obtain ⟨hn, rfl⟩ := List.getElem?_eq_some_iff.1 hu
  have hrecord := congrArg (·[n]?) h.record
  simpa [List.getElem?_map, hn, h.length_eq ▸ hn] using hrecord

/-- A list just initialised holds nothing. -/
theorem holds_nodeListInit : Holds (nodeListInit mem head) head [] [] where
  ring := Links.isRing_init
  head_record := by simp [nodeListInit]
  record := rfl

/-- A node added to a list is its last. -/
theorem holds_nodeListAdd (h : Holds mem head sites l) (hx : x ∉ head :: sites) (node : N) :
    Holds (nodeListAdd (some x) mem head node).2 head (sites ++ [x]) (l ++ [node]) := by
  have hne : ∀ u ∈ head :: sites, u ≠ x := fun u hu hux => hx (hux ▸ hu)
  refine ⟨?_, ?_, ?_⟩
  · refine Links.isRing_addTail (h.ring.congr (fun u hu => ?_) (fun u hu => ?_)) hx
    · simp [Links.init, hne u hu]
    · simp [Links.init, hne u hu]
  · have hhead : head ≠ x := hne head List.mem_cons_self
    simp only [nodeListAdd, Function.update_of_ne hhead, h.head_record]
  · have hsites : sites.map (Function.update mem.record x (some node)) = sites.map mem.record := by
      refine List.map_congr_left fun u hu => ?_
      rw [Function.update_of_ne (hne u (List.mem_cons_of_mem _ hu))]
    simp [nodeListAdd, hsites, h.record]

/-- The links of other records stay when a list is initialised. -/
theorem Holds.nodeListInit (h : Holds mem head sites l) (hx : x ∉ head :: sites) :
    Holds (nodeListInit mem x) head sites l := by
  have hne : ∀ u ∈ head :: sites, u ≠ x := fun u hu hux => hx (hux ▸ hu)
  refine ⟨h.ring.congr (fun u hu => ?_) (fun u hu => ?_), ?_, ?_⟩
  · simp [Route.nodeListInit, Links.init, hne u hu]
  · simp [Route.nodeListInit, Links.init, hne u hu]
  · simp [Route.nodeListInit, hne head List.mem_cons_self, h.head_record]
  · rw [← h.record]
    refine List.map_congr_left fun u hu => ?_
    simp [Route.nodeListInit, hne u (List.mem_cons_of_mem _ hu)]

/-- The links of a list stay when a node is added to another one. -/
theorem Holds.nodeListAdd_other (h : Holds mem head sites l) {head' : A} {sites' : List A}
    {l' : List N} (h' : Holds mem head' sites' l') (hx : x ∉ head :: sites)
    (hx' : x ∉ head' :: sites') (hdisj : ∀ u ∈ head :: sites, u ∉ head' :: sites') (node : N) :
    Holds (nodeListAdd (some x) mem head' node).2 head sites l := by
  have hne : ∀ u ∈ head :: sites, u ≠ x := fun u hu hux => hx (hux ▸ hu)
  have hhead' : head' ≠ x := fun hh => hx' (hh ▸ List.mem_cons_self)
  have hprev : (mem.links.init x).prev head' ∈ head' :: sites' := by
    simpa [Links.init, hhead'] using h'.ring.seg.prev_mem
  refine ⟨h.ring.congr (fun u hu => ?_) (fun u hu => ?_), ?_, ?_⟩
  · have hup : u ≠ (mem.links.init x).prev head' := fun he => hdisj u hu (he ▸ hprev)
    simp only [nodeListAdd, Links.addTail, Links.insert_next (hne u hu) hup]
    simp [Links.init, hne u hu]
  · have hun : u ≠ head' := fun he => hdisj u hu (he ▸ List.mem_cons_self)
    simp only [nodeListAdd, Links.addTail, Links.insert_prev (hne u hu) hun]
    simp [Links.init, hne u hu]
  · simp [nodeListAdd, hne head List.mem_cons_self, h.head_record]
  · rw [← h.record]
    refine List.map_congr_left fun u hu => ?_
    simp [nodeListAdd, hne u (List.mem_cons_of_mem _ hu)]

end NodeList

/-! ## Paths and the messages on them -/

/-- What a policy says of routing, of `ROUTE_PATH`: its name, the jumps it is for,
    its flow and the heads of its two paths. -/
structure RoutePath (A : Type) where
  name : Uuid
  ljump : Int32
  rjump : Int32
  flow : Int32
  routePath : A
  responsePath : A
  deriving DecidableEq, Repr

/-- A message as routing sees it (`struct message_box`): its head, the policy it
    is routed by and its place on a path of the policy. -/
structure RouteMessage (A : Type) where
  head : MsgHead
  policy : Option (RoutePath A)
  pathSite : Option A
  deriving DecidableEq, Repr

/-- A rule for the next target of a message, `ROUTE_RULE`. -/
structure RouteRule where
  targetType : Int32
  targetName : Option (List UInt8)
  deriving DecidableEq, Repr

/-- A node of a path, `ROUTE_NODE`. -/
structure RouteNode where
  thisTarget : RouteRule
  deriving DecidableEq, Repr

section Path

variable {A : Type}

/-- The memory for the paths of a policy: the records of both lists, whose heads
    are in the policy itself. -/
abbrev PathMemory (A : Type) := Records A RouteNode

/-- `route_path_create`: a policy with two empty paths. -/
def routePathCreate [DecidableEq A] (mem : PathMemory A) (path : RoutePath A) : PathMemory A :=
  nodeListInit (nodeListInit mem path.routePath) path.responsePath

/-- `route_policy_addrouterule`: a node for the rule at the end of the route path. -/
def routePolicyAddrouterule [DecidableEq A] (node record : Option A) (mem : PathMemory A)
    (path : RoutePath A) (rule : RouteRule) : Int × PathMemory A :=
  if node.isNone then (-EINVAL, mem)
  else match nodeListAdd record mem path.routePath ⟨rule⟩ with
    | (none, mem) => (0, mem)
    | (some _, mem) => (1, mem)

/-- `route_tree_addresponserule`: a node for the rule at the end of the response path. -/
def routeTreeAddresponserule [DecidableEq A] (node record : Option A) (mem : PathMemory A)
    (path : RoutePath A) (rule : RouteRule) : Int × PathMemory A :=
  if node.isNone then (-EINVAL, mem)
  else match nodeListAdd record mem path.responsePath ⟨rule⟩ with
    | (none, mem) => (0, mem)
    | (some _, mem) => (1, mem)

/-- The record and the node at the place of a message, `get_curr_pathsite`. -/
def getCurrPathsite (mem : PathMemory A) (msg : RouteMessage A) : Option RouteNode :=
  msg.pathSite.bind mem.record

/-- `set_next_pathsite`: the message is put at the next record, and nowhere if that
    is the head of the route path. -/
def setNextPathsite [DecidableEq A] (mem : PathMemory A) (msg : RouteMessage A) :
    Option RouteNode × RouteMessage A :=
  match msg.pathSite with
  | none => (none, msg)
  | some currPathrecord =>
    let nextPathrecord := mem.links.next currPathrecord
    if some nextPathrecord = msg.policy.map RoutePath.routePath then
      (none, { msg with pathSite := none })
    else (mem.record nextPathrecord, { msg with pathSite := some nextPathrecord })

/-- `get_next_pathsite`: the node at the next record, and none at the head of the
    route path. -/
def getNextPathsite [DecidableEq A] (mem : PathMemory A) (msg : RouteMessage A) :
    Option RouteNode :=
  match msg.pathSite with
  | none => none
  | some currPathrecord =>
    let nextPathrecord := mem.links.next currPathrecord
    if some nextPathrecord = msg.policy.map RoutePath.routePath then none
    else mem.record nextPathrecord

/-- What `rule_get_target` finds for a rule in a message, by the records and expands
    of the message too: its return value, and the receiver and the flags it sets. -/
structure Target where
  ret : Int
  receiverUuid : Uuid
  flag : Int32
  deriving DecidableEq, Repr

/-- The target of each rule for each message. -/
abbrev Targets (A : Type) := RouteRule → RouteMessage A → Target

/-- `rule_get_target`, which sets the receiver and the flags of the message. -/
def ruleGetTarget (targets : Targets A) (rule : RouteRule) (msg : RouteMessage A) :
    Int × RouteMessage A :=
  let target := targets rule msg
  (target.ret,
    { msg with head := { msg.head with
        receiverUuid := target.receiverUuid
        flag := target.flag } })

/-- `message_route_setnext`: the message is sent to the target of the next node. At
    the end of its path it has no receiver. -/
def messageRouteSetnext [DecidableEq A] (targets : Targets A) (mem : PathMemory A)
    (msg : RouteMessage A) : Int × RouteMessage A :=
  match setNextPathsite mem msg with
  | (none, msg) => (0, { msg with head := { msg.head with receiverUuid := .replicate _ 0 } })
  | (some nextnode, msg) => ruleGetTarget targets nextnode.thisTarget msg

end Path

/-! ## The nodes that messages leave behind -/

section Forest

variable {A : Type}

/-- The node of a query, `TRACE_NODE`. Its flag is `0`. -/
structure TraceNode (A : Type) where
  msgUuid : Uuid
  sourceUuid : Uuid
  targetUuid : Uuid
  path : Option (RoutePath A)
  deriving DecidableEq, Repr

/-- The node of a detour, `ASPECT_NODE`. Its flag is `MSG_FLOW_ASPECT`. -/
structure AspectNode (A : Type) where
  msgUuid : Uuid
  oldMsguuid : Uuid
  senderUuid : Uuid
  receiverUuid : Uuid
  route : Uuid
  flow : Int32
  state : Int32
  flag : Int32
  ljump : Int32
  rjump : Int32
  aspectSite : Option A
  path : Option (RoutePath A)
  deriving DecidableEq, Repr

/-- A node of either kind; they start with the same two fields. -/
inductive Node (A : Type)
  | trace (node : TraceNode A)
  | aspect (node : AspectNode A)
  deriving DecidableEq, Repr

/-- The nonce a node is saved under. -/
def Node.msgUuid : Node A → Uuid
  | trace node => node.msgUuid
  | aspect node => node.msgUuid

/-- The flag that tells the kind of a node. -/
def Node.traceFlag : Node A → Int32
  | trace _ => 0
  | aspect _ => MSG_FLOW_ASPECT

/-- The nodes made so far, each at the address that is its number, and the lists
    of the hash forest, which hold the addresses of nodes. No node is taken out. -/
structure Forest (A : Type) where
  nodes : List (Node A)
  lists : UInt8 → List Nat

/-- The forest of `_init_hash_forest`. -/
def initHashForest : Forest A where
  nodes := []
  lists := fun _ => []

/-- The memory `Dalloc0` finds: for a node, and for the record of it. -/
structure Dalloc0 where
  node : Bool
  record : Bool
  deriving DecidableEq, Repr

/-- A node put into a list of the forest, if there is the memory: its address. The
    result of `_node_list_add` is not looked at. -/
def Forest.add (dalloc0 : Dalloc0) (forest : Forest A) (node : Node A) : Forest A where
  nodes := forest.nodes ++ [node]
  lists :=
    if dalloc0.record then
      let list := hashIndex node.msgUuid
      Function.update forest.lists list (forest.lists list ++ [forest.nodes.length])
    else forest.lists

/-- `_create_trace_node`: the address of the node of the query, and the forest with it. -/
def createTraceNode (dalloc0 : Dalloc0) (forest : Forest A) (msg : RouteMessage A) :
    Option Nat × Forest A :=
  if dalloc0.node then
    (some forest.nodes.length,
      forest.add dalloc0 (.trace
        { msgUuid := msg.head.nonce
          sourceUuid := msg.head.senderUuid
          targetUuid := .replicate _ 0
          path := msg.policy }))
  else (none, forest)

/-- The end of the functions that start a message: a query that is no response
    leaves a trace node. -/
def startTrace (dalloc0 : Dalloc0) (forest : Forest A) (msg : RouteMessage A) :
    Int × Forest A × RouteMessage A :=
  if msg.head.flow = MSG_FLOW_QUERY ∧ msg.head.state ≠ MSG_STATE_RESPONSE then
    match createTraceNode dalloc0 forest msg with
    | (none, forest) => (-EINVAL, forest, msg)
    | (some _, forest) => (1, forest, msg)
  else (1, forest, msg)

/-- Starting a message leaves it as it was put. -/
@[simp] theorem startTrace_msg (dalloc0 : Dalloc0) (forest : Forest A) (msg : RouteMessage A) :
    (startTrace dalloc0 forest msg).2.2 = msg := by
  unfold startTrace createTraceNode
  split_ifs <;> rfl

/-- `message_route_setstart`: the message is put at the head of the route path. -/
def messageRouteSetstart (dalloc0 : Dalloc0) (forest : Forest A) (msg : RouteMessage A)
    (path : RoutePath A) : Int × Forest A × RouteMessage A :=
  startTrace dalloc0 forest
    { head := { msg.head with
        flow := path.flow
        state := MSG_STATE_MATCH
        route := strncpy msg.head.route path.name }
      policy := some path
      pathSite := some path.routePath }

/-- `router_find_policy_byname`: the first policy of the name for the jumps. -/
def routerFindPolicyByname (routeForest : List (RoutePath A)) (name : Uuid)
    (rjump ljump : Int32) : Option (RoutePath A) :=
  routeForest.find? fun policy =>
    Dispatch.strncmp name.toList policy.name.toList DIGEST_SIZE = 0
      ∧ (policy.rjump = 0 ∨ policy.rjump = rjump ∨ policy.rjump = -rjump)
      ∧ (ljump = 0 ∨ policy.ljump = 0 ∨ policy.ljump = ljump)

/-- `message_route_setremotestart`: a message from elsewhere is put at the head of
    the path of the policy it names, a response on the response path. Where there
    is no such policy, `router_find_policy_byname` returns without a value (`ret`
    is what its caller reads). -/
def messageRouteSetremotestart (ret : Int) (dalloc0 : Dalloc0) (routeForest : List (RoutePath A))
    (forest : Forest A) (msg : RouteMessage A) : Int × Forest A × RouteMessage A :=
  match routerFindPolicyByname routeForest msg.head.route msg.head.rjump 0 with
  | none => (if ret < 0 then ret else 1, forest, msg)
  | some routePath =>
    startTrace dalloc0 forest
      { msg with
        policy := some routePath
        pathSite := some
          (if msg.head.state ≠ MSG_STATE_RESPONSE then routePath.routePath
            else routePath.responsePath) }

/-- Whether a node is of the kind looked for: aspect nodes for the flow
    `MSG_FLOW_ASPECT`, trace nodes for any other. -/
def Node.OfFlow (node : Node A) (flow : Int32) : Prop :=
  if node.traceFlag = MSG_FLOW_ASPECT then flow = MSG_FLOW_ASPECT else flow ≠ MSG_FLOW_ASPECT

instance (node : Node A) (flow : Int32) : Decidable (node.OfFlow flow) := by
  unfold Node.OfFlow
  infer_instance

/-- `_find_flowtype_node`: the first node of a list that has the nonce and is of the
    kind looked for. -/
def findFlowtypeNode (nodes : List (Node A)) : List Nat → Uuid → Int32 → Option Nat
  | [], _, _ => none
  | traceNode :: list, compUuid, flow =>
    match nodes[traceNode]? with
    | none => none
    | some node =>
      if node.msgUuid = compUuid ∧ node.OfFlow flow then some traceNode
      else findFlowtypeNode nodes list compUuid flow

/-- `message_route_findtrace`: the node for the nonce of a message. -/
def messageRouteFindtrace (forest : Forest A) (msg : RouteMessage A) (flow : Int32) : Option Nat :=
  findFlowtypeNode forest.nodes (forest.lists (hashIndex msg.head.nonce)) msg.head.nonce flow

/-- The flow of a message without a node is set to the end. -/
def setFinish (msg : RouteMessage A) : RouteMessage A :=
  { msg with head := { msg.head with flow := MSG_FLOW_FINISH } }

/-- `message_route_settracesrc`: a response is addressed to the sender of its query. -/
def messageRouteSettracesrc (msg : RouteMessage A) (node : Option (TraceNode A)) :
    Int × RouteMessage A :=
  match node with
  | none => (0, setFinish msg)
  | some traceNode =>
    (1, { msg with head := { msg.head with
          receiverUuid := traceNode.sourceUuid
          state := MSG_STATE_RESPONSE
          flag := msg.head.flag &&& ~~~MSG_FLAG_LOCAL } })

/-- `message_route_settracetarget`: a response goes on at the head of the response
    path of its query's policy. -/
def messageRouteSettracetarget (msg : RouteMessage A) (node : Option (TraceNode A)) :
    Int × RouteMessage A :=
  match node with
  | none => (0, setFinish msg)
  | some traceNode =>
    (1, { head := { msg.head with
            senderUuid := traceNode.targetUuid
            flag := msg.head.flag &&& ~~~MSG_FLAG_LOCAL }
          policy := traceNode.path
          pathSite := traceNode.path.map RoutePath.responsePath })

/-- `message_route_gettracetarget`: the node remembers the receiver of the query. -/
def messageRouteGettracetarget (msg : RouteMessage A) (traceNode : TraceNode A) : TraceNode A :=
  { traceNode with targetUuid := msg.head.receiverUuid }

/-- A branch of a path, `BRANCH_NODE`. -/
structure BranchNode (A : Type) where
  branchType : Int32
  branchPath : RoutePath A
  deriving DecidableEq, Repr

/-- `_create_aspect_node`: the message gets the nonce drawn, and its head, policy and
    place are saved under it. Without memory for the node the function returns
    `-ENOMEM`, which as an address is not `NULL`. -/
def createAspectNode (dalloc0 : Dalloc0) (nonce : Uuid) (forest : Forest A)
    (msg : RouteMessage A) : Forest A × RouteMessage A :=
  if dalloc0.node then
    (forest.add dalloc0 (.aspect
        { msgUuid := nonce
          oldMsguuid := msg.head.nonce
          senderUuid := msg.head.senderUuid
          receiverUuid := msg.head.receiverUuid
          route := msg.head.route
          flow := msg.head.flow
          state := msg.head.state
          flag := msg.head.flag
          ljump := msg.head.ljump
          rjump := msg.head.rjump
          aspectSite := msg.pathSite
          path := msg.policy }),
      { msg with head := { msg.head with
          nonce := nonce
          route := strncpy msg.head.route msg.head.senderUuid } })
  else (forest, msg)

/-- `route_aspect_message`: the message makes a detour by the path of a branch. The
    first memory is for the aspect node, the second for the trace node that the
    start on the path of the branch leaves. -/
def routeAspectMessage (aspectMem traceMem : Dalloc0) (nonce : Uuid) (forest : Forest A)
    (msg : RouteMessage A) (branch : BranchNode A) : Int × Forest A × RouteMessage A :=
  if branch.branchType ≠ MSG_FLOW_ASPECT then (-EINVAL, forest, msg)
  else
    let (forest, msg) := createAspectNode aspectMem nonce forest msg
    let msg := { msg with head := { msg.head with
      ljump := 1
      rjump := 1
      flag := msg.head.flag ||| MSG_FLAG_ASPECT } }
    (1, (messageRouteSetstart traceMem forest msg branch.branchPath).2)

/-- The flags that a detour may change. -/
def flagMask : Int32 := MSG_FLAG_CRYPT ||| MSG_FLAG_SIGN ||| MSG_FLAG_ZIP ||| MSG_FLAG_VERIFY

/-- `message_route_aspectrecover` (`_recover_aspect_message`): what the node saved of
    the message is restored. -/
def messageRouteAspectrecover (msg : RouteMessage A) (aspectNode : AspectNode A) :
    RouteMessage A where
  head := { msg.head with
    nonce := aspectNode.oldMsguuid
    senderUuid := aspectNode.senderUuid
    receiverUuid := aspectNode.receiverUuid
    route := aspectNode.route
    flow := aspectNode.flow
    state := aspectNode.state
    flag := (msg.head.flag &&& flagMask) ||| (aspectNode.flag &&& ~~~flagMask)
    ljump := aspectNode.ljump
    rjump := aspectNode.rjump }
  policy := aspectNode.path
  pathSite := aspectNode.aspectSite

end Forest

end Cube.Route
