import Cube.Dispatch.ReadPolicy
import Cube.Dispatch.Trace
import Cube.Dispatch.WaitingList
import Cube.Lib.Loop

/-!
# The loop of the router

The loop of `proc_router_start`. In a round the router takes a message from each module that
has one, and puts it in the list of waiting messages, on the path of its policy. Then it takes
the messages out of the list: each is moved along its path, is copied or makes a detour where
its node has branches, and is handed to the module or the machine it goes to.

The log of a run keeps what becomes of the messages.

* `drainTurn`: what is done with a message that waits.
* `receive`: what is done with a message of a module.
-/

namespace Cube.Route

open Lib Waiting
open ExModule (Malloc)
open LivePolicy (MSG_FLOW_DELIVER MSG_FLOW_DUP)

/-- The flag of a message whose expands are not passed on. -/
def MSG_FLAG_FOLLOW : Int32 := 0x100

/-- The policies of the router: the paths, the branches of the node in each record
    (`aspect_branch`), and the policies that are loaded. -/
structure Policies (A : Type) where
  mem : PathMemory A
  branches : A → List (BranchNode A)
  routeForest : List (RoutePath A)

/-- What `message_clone` counts in the copy of a message. -/
structure CloneCounts where
  recordNum : Int32
  recordSize : Int32
  expandNum : Int32
  expandSize : Int32
  deriving DecidableEq, Repr

/-- Where a message is handed to: the module of a name, or the module for connections. -/
inductive Destination
  | module (name : Uuid)
  | connector
  deriving DecidableEq, Repr

/-- What the router is run with: its policies; what depends on the contents of a message, which
    are its target, `_route_match_rules`, `router_find_route_policy` (an error, or the policy if
    there is one) and whether it can be copied; the modules there are; the memory, that for
    nodes by the number of nodes and nonces asked for before; the random nonces; and what
    `router_find_policy_byname` returns if there is no policy. -/
structure RouterEnv (A B : Type) extends Policies A where
  targets : Targets A
  routeMatchRules : RoutePath A → RouteMessage A → Int
  findRoutePolicy : RouteMessage A → Except Int (Option (RoutePath A))
  cloneCounts : RouteMessage A → Option CloneCounts
  findExModule : Destination → Bool
  malloc : Malloc B
  dalloc0 : Nat → Dalloc0
  randomUuid : Nat → Uuid
  noPolicy : Int

/-- What becomes of a message. -/
inductive Entry (A : Type)
  | sent (destination : Destination) (msg : RouteMessage A)
  | ended (msg : RouteMessage A)
  | copied (msg : RouteMessage A)
  | detoured (msg : RouteMessage A)
  deriving DecidableEq, Repr

/-- The state of the router: the trace and aspect nodes, the messages that wait, the number of
    nodes and nonces asked for, and the log. -/
structure RouterState (A B : Type) where
  forest : Forest A
  waiting : WaitingList B (RouteMessage A)
  asked : Nat
  log : List (Entry A)

variable {A B : Type} [DecidableEq A] [DecidableEq B] (env : RouterEnv A B)

/-! ## A message that waits -/

/-- The message is moved along its path: the message, and if it is to be sent, whether it comes
    from a detour. With another flow than the two the router returns. -/
def moveOn (forest : Forest A) (msg : RouteMessage A) :
    Option (Forest A × RouteMessage A × Option Bool) :=
  if msg.head.flow = MSG_FLOW_DELIVER then
    let (ret, msg) := messageRouteSetnext env.targets env.mem msg
    if ret ≠ 0 then some (forest, msg, some false) else some (forest, setFinish msg, none)
  else if msg.head.flow = MSG_FLOW_QUERY then
    let (ret, msg) := messageRouteSetnext env.targets env.mem msg
    if ret < 0 then some (forest, msg, none)
    else if ret = 0 ∨ ret = ROUTE_TARGET_FINISH.toInt then
      if 1 < msg.head.rjump.toInt then
        -- The answer goes back to another machine.
        match findQuery forest msg with
        | none => some (forest, msg, none)
        | some traceNode =>
          if msg.head.state &&& MSG_STATE_RESPONSE ≠ 0 ∨ ret = ROUTE_TARGET_FINISH.toInt then
            some (forest, (messageRouteSettracesrc msg (some traceNode)).2, some false)
          else some (forest.gettracetarget msg, msg, some false)
      else
        match findAspect forest msg with
        | none => some (forest, msg, none)
        | some aspectNode => some (forest, messageRouteAspectrecover msg aspectNode, some true)
    else some (forest, msg, some false)
  else none

/-- `_route_match_aspect_branch`, of a message that may be `NULL`. -/
def routeMatchAspectBranch (message : Option (RouteMessage A)) (branch : BranchNode A) : Int :=
  match message with
  | none => -EINVAL
  | some msg => env.routeMatchRules branch.branchPath msg

/-- `message_clone`, with what it counts. -/
def messageClone (counts : Option CloneCounts) (msg : RouteMessage A) : Option (RouteMessage A) :=
  counts.map fun c =>
    { head := { msg.head with
        recordNum := c.recordNum
        recordSize := c.recordSize
        expandNum := c.expandNum
        expandSize := c.expandSize }
      policy := none
      pathSite := none }

/-- `route_dup_message`: a copy of the message at the head of the path of a branch. -/
def routeDupMessage (forest : Forest A) (traceMem : Dalloc0) (msg : RouteMessage A)
    (branch : BranchNode A) : Option (Forest A × RouteMessage A) :=
  if branch.branchType ≠ MSG_FLOW_DUP then none
  else
    (messageClone (env.cloneCounts msg) msg).map fun newMsg =>
      let newMsg := { newMsg with head := { newMsg.head with
        flag := newMsg.head.flag ||| MSG_FLAG_ASPECT
        ljump := 1
        rjump := 1
        route := strncpy newMsg.head.route branch.branchPath.name
        senderUuid := strncpy newMsg.head.senderUuid msg.head.senderUuid } }
      (messageRouteSetstart traceMem forest newMsg branch.branchPath).2

/-- `_waiting_message_add`, whose result is not looked at. -/
def RouterState.add (s : RouterState A B) (msg : RouteMessage A) : RouterState A B :=
  { s with waiting := (waitingMessageAdd env.malloc s.waiting msg).2 }

/-- A branch of the node of a message, which is `NULL` once it makes a detour. -/
def takeBranch (isaspect : Bool) (branch : BranchNode A) (s : RouterState A B)
    (message : Option (RouteMessage A)) : Outcome (RouterState A B × Option (RouteMessage A)) :=
  if branch.branchType = MSG_FLOW_DUP then
    if 0 < routeMatchAspectBranch env message branch then
      match message.bind fun msg => routeDupMessage env s.forest (env.dalloc0 s.asked) msg branch with
      -- The route of the copy is written to the audit.
      | none => .fault
      | some (forest, newMsg) =>
        let s := { s with forest := forest, asked := s.asked + 1, log := s.log ++ [Entry.copied newMsg] }
        .done (s.add env newMsg, message)
    else .done (s, message)
  else if branch.branchType = MSG_FLOW_ASPECT then
    if isaspect then .done (s, message)
    else if 0 < routeMatchAspectBranch env message branch then
      match message with
      | none => .fault
      | some msg =>
        let (_, forest, msg) := routeAspectMessage (env.dalloc0 s.asked) (env.dalloc0 (s.asked + 1))
          (env.randomUuid s.asked) s.forest msg branch
        let s := { s with forest := forest, asked := s.asked + 2, log := s.log ++ [Entry.detoured msg] }
        .done (s.add env msg, none)
    else .done (s, message)
  else .done (s, message)

/-- The loop over the branches of a node. -/
def branchLoop (isaspect : Bool) : List (BranchNode A) → RouterState A B →
    Option (RouteMessage A) → Outcome (RouterState A B × Option (RouteMessage A))
  | [], s, message => .done (s, message)
  | branch :: rest, s, message => do
    let (s, message) ← takeBranch env isaspect branch s message
    branchLoop isaspect rest s message

/-- The branches of the node a message is at. -/
def siteBranches (msg : RouteMessage A) : List (BranchNode A) :=
  match msg.pathSite with
  | none => []
  | some currRecord => if (env.mem.record currRecord).isSome then env.branches currRecord else []

/-- `proc_router_send_msg`: where the message is handed to, if there is the module. -/
def procRouterSendMsg (msg : RouteMessage A) : Entry A :=
  let destination :=
    if msg.head.flag &&& MSG_FLAG_LOCAL ≠ 0 then .module msg.head.receiverUuid else .connector
  if env.findExModule destination then .sent destination msg else .ended msg

/-- What is done with a message that is to be sent: the branches of its node first. -/
def sendOn (isaspect : Bool) (s : RouterState A B) (msg : RouteMessage A) :
    Outcome (RouterState A B) := do
  let (s, message) ← branchLoop env isaspect (siteBranches env msg) s (some msg)
  match message with
  | none => .done s
  | some msg =>
    if msg.head.receiverUuid ≠ .replicate _ 0 then
      .done { s with log := s.log ++ [procRouterSendMsg env msg] }
    else .done { s with log := s.log ++ [Entry.ended msg] }

/-- How the loop over the waiting messages ends: there is none left, or the router returns. -/
inductive Drained (A B : Type)
  | empty (s : RouterState A B)
  | returned (e : Int)

/-- A turn of the loop over the waiting messages. -/
def drainTurn (s : RouterState A B) : Outcome (RouterState A B ⊕ Drained A B) := do
  let (message, waiting) ← waitingMessageRemovehead s.waiting
  let s := { s with waiting := waiting }
  match message with
  | none => .done (.inr (.empty s))
  | some msg =>
    match moveOn env s.forest msg with
    | none => .done (.inr (.returned (-EINVAL)))
    | some (forest, msg, none) =>
      .done (.inl { s with forest := forest, log := s.log ++ [Entry.ended msg] })
    | some (forest, msg, some isaspect) => do
      let s ← sendOn env isaspect { s with forest := forest } msg
      .done (.inl s)

/-! ## A message of a module -/

/-- The type of a module, as far as the router looks at it. -/
inductive ModuleType
  | conn
  | port
  | other
  deriving DecidableEq, Repr

/-- The active message of a message, `active_msg`: there is none, it is the message itself, or
    another one, whose expands can be passed on or not. -/
inductive Active (A : Type)
  | none
  | own
  | other (msg : RouteMessage A) (expands : Bool)

/-- What is received from a module: what `recv_ex_module_msg` returns, whether the module is
    `connector_proc`, the field for its name (`message_set_sender`), its type, and the message. -/
structure Received (A : Type) where
  ret : Int
  fromConnector : Bool
  sender : Uuid
  moduleType : ModuleType
  msg : RouteMessage A
  active : Active A

/-- `router_dup_activemsg_info`. -/
def routerDupActivemsgInfo (msg : RouteMessage A) : Active A → RouteMessage A
  | .none => msg
  | .own => msg
  | .other activeMsg expands =>
    let msg := { msg with head := { msg.head with
      flow := activeMsg.head.flow
      state := activeMsg.head.state
      flag := activeMsg.head.flag
      route := strncpy msg.head.route activeMsg.head.route
      ljump := activeMsg.head.ljump
      rjump := activeMsg.head.rjump
      nonce := activeMsg.head.nonce } }
    if msg.head.flag &&& MSG_FLAG_FOLLOW ≠ 0 ∨ expands then
      { msg with policy := activeMsg.policy, pathSite := activeMsg.pathSite }
    else msg

/-- The sender of a message is set, unless it is one from elsewhere that has one. -/
def setOrigin (input : Received A) : RouteMessage A :=
  if ¬ input.fromConnector ∨ input.msg.head.senderUuid = .replicate _ 0 then
    { input.msg with head := { input.msg.head with senderUuid := input.sender } }
  else input.msg

/-- The jumps of a message are counted. -/
def countJumps (moduleType : ModuleType) (msg : RouteMessage A) : RouteMessage A :=
  { msg with head :=
    match moduleType with
    | .conn => { msg.head with
        ljump := 1
        rjump := if msg.head.state ≠ MSG_STATE_RESPONSE then msg.head.rjump + 1
          else msg.head.rjump - 1 }
    | .port => { msg.head with ljump := 1, rjump := 1 }
    | .other => { msg.head with
        ljump := msg.head.ljump + 1
        rjump := if msg.head.rjump = 0 then 1 else msg.head.rjump } }

/-- A message that is received, made ready to be put on its path. -/
def prepare (input : Received A) : RouteMessage A :=
  countJumps input.moduleType (routerDupActivemsgInfo (setOrigin input) input.active)

/-- A message with no policy is at its end. -/
def RouterState.finish (s : RouterState A B) (msg : RouteMessage A) : RouterState A B :=
  { s with log := s.log ++ [Entry.ended (setFinish msg)] }

/-- A message of a module is put on its path and waits, or is at its end; or the router
    returns. -/
def receive (input : Received A) (s : RouterState A B) : RouterState A B ⊕ Int :=
  let msg := prepare input
  if msg.policy.isSome then .inl (s.add env msg)
  else if msg.head.flow = 0 then
    match env.findRoutePolicy msg with
    | .error ret => .inr ret
    | .ok none => .inl (s.finish msg)
    | .ok (some path) =>
      let (_, forest, msg) := messageRouteSetstart (env.dalloc0 s.asked) s.forest msg path
      .inl (RouterState.add env { s with forest := forest, asked := s.asked + 1 } msg)
  else if msg.head.state &&& MSG_STATE_RESPONSE = 0 then
    let (ret, forest, msg) := messageRouteSetremotestart env.noPolicy (env.dalloc0 s.asked)
      env.routeForest s.forest msg
    let s := { s with forest := forest, asked := s.asked + 1 }
    if ret < 0 then .inr ret
    else if msg.policy.isNone then .inl (s.finish msg)
    else .inl (s.add env msg)
  else
    match findQuery s.forest msg with
    | none => .inr input.ret
    | some traceNode => .inl (s.add env (messageRouteSettracetarget msg (some traceNode)).2)

/-- The messages of all modules of a round. -/
def receiveAll : List (Received A) → RouterState A B → RouterState A B ⊕ Int
  | [], s => .inl s
  | input :: inputs, s =>
    match receive env input s with
    | .inl s => receiveAll inputs s
    | .inr ret => .inr ret

/-- A round of the router goes through: the messages of the modules are received, and none is
    left that waits. -/
def RoundTo (inputs : List (Received A)) (s s' : RouterState A B) : Prop :=
  ∃ s₁, receiveAll env inputs s = .inl s₁ ∧ Loop.Ends (drainTurn env) s₁ (.done (.empty s'))

/-- The state at the start: no nodes, and no message that waits. -/
def RouterState.initial (mem : Records B (RouteMessage A)) (head : B) : RouterState A B where
  forest := initHashForest
  waiting := waitingListInit mem head
  asked := 0
  log := []

end Cube.Route
