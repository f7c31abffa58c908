import Cube.Dispatch.RouteTree
import Cube.Json.Node

/-!
# Reading a policy

`route_read_policy` of `route_tree.c`, which makes a path of a JSON node: the head of the
policy, its match rules, and the rules of its route and of its response. The path of a
policy for duplicates or aspects becomes a branch of a node of another path, that of a policy
read before.

Paths and nodes are told by their number, in the order they were made. Nothing made is ever
taken back, so that what a call makes and drops stays behind as paths and nodes that nothing
leads to.

* `readEach_does`: a loop over rules gets through if each of the rules does.
* `readRules_does`: the rules of a policy are read to its path, and the path is done if they
  load (`RulesLoad`).
-/

namespace Cube.LivePolicy

open Lib Json Function
open Route (RouteRule ROUTE_TARGET_FINISH MSG_FLOW_QUERY MSG_FLOW_ASPECT)
open Dispatch (MatchRule strncmp matchFlag)

/-- The flow of a message that is handed over, of `enum message_flow_type`. -/
def MSG_FLOW_DELIVER : Int32 := 0x04
/-- The flow of a message that is doubled. -/
def MSG_FLOW_DUP : Int32 := 0x20

/-! ## The policies loaded -/

/-- A branch at a node, `BRANCH_NODE`: the path it is from and the path it leads to. -/
structure BranchNode where
  routePath : Nat
  branchType : Int32
  branchPath : Nat
  deriving DecidableEq, Repr

/-- A node of a path, `ROUTE_NODE`. -/
structure RouteNode where
  routePath : Nat
  thisTarget : RouteRule
  aspectBranch : List BranchNode
  deriving DecidableEq, Repr

/-- The node with one more branch. -/
def RouteNode.addBranch (node : RouteNode) (branch : BranchNode) : RouteNode :=
  { node with aspectBranch := node.aspectBranch ++ [branch] }

/-- The path of a policy, `ROUTE_PATH`, with the nodes of its two paths. -/
structure RoutePath (T V : Type) where
  name : Uuid
  sender : Uuid
  ljump : Int32
  rjump : Int32
  state : Int32
  flow : Int32
  matchList : List (MatchRule T V)
  routePath : List Nat
  responsePath : List Nat

/-- All paths and nodes made so far, and the policies that are loaded, `route_forest`. -/
structure Forest (T V : Type) where
  paths : List (RoutePath T V)
  nodes : List RouteNode
  routeForest : List Nat

variable {T V : Type}

/-- A path is changed. -/
def Forest.modifyPath (f : Forest T V) (path : Nat) (g : RoutePath T V → RoutePath T V) :
    Forest T V := { f with paths := f.paths.modify path g }

/-- A node is changed. -/
def Forest.modifyNode (f : Forest T V) (node : Nat) (g : RouteNode → RouteNode) : Forest T V :=
  { f with nodes := f.nodes.modify node g }

/-- The path is one for queries. -/
def Forest.isQuery (f : Forest T V) (path : Nat) : Bool :=
  (f.paths[path]?).any (·.flow = MSG_FLOW_QUERY)

/-- `route_path_create`: a path of nothing, whose number is that of the paths before. -/
def Forest.routePathCreate (f : Forest T V) : Forest T V :=
  { f with paths := f.paths ++ [⟨.replicate _ 0, .replicate _ 0, 0, 0, 0, 0, [], [], []⟩] }

/-! ## What a policy is read with -/

/-- The head of a policy, `RECORD(DISPATCH,POLICY_HEAD)`. -/
structure PolicyHead where
  name : Option (List UInt8)
  state : Int32
  type : Int32
  sender : Uuid
  newname : Option (List UInt8)
  ljump : Int32
  rjump : Int32
  deriving DecidableEq, Repr

/-- What a match rule is read from, `RECORD(DISPATCH,MATCH_HEAD)`. -/
structure MatchHead where
  op : Int32
  area : Int32
  type : Int32
  subtype : Int32
  deriving DecidableEq, Repr

/-- The places where memory is asked for: for rules, with their number, and where a rule is
    one of a path, whether it is of the response. -/
inductive Site
  | path
  | head
  | branch
  | branchRecord
  | matchRule (i : Nat)
  | matchValue (i : Nat)
  | matchRecord (i : Nat)
  | rule (onResponse : Bool) (i : Nat)
  | node (onResponse : Bool) (i : Nat)
  | record (onResponse : Bool) (i : Nat)
  deriving DecidableEq, Repr

/-- What `route_read_policy` is run with: where there is memory; `json_2_struct` for the three
    templates, and `struct_clone` for a rule; the functions for the value of a match rule; and
    what it finds where it looks at what is not set, the value that
    `router_find_policy_byname` returns if there is no policy, and `insert_node`. What returns
    an error gives `none`. -/
structure Reader (T V : Type) where
  memory : Site → Bool
  policyHead : JsonNode → Option PolicyHead
  matchHead : JsonNode → Option MatchHead
  routeRule : JsonNode → Option RouteRule
  structClone : RouteRule → Option RouteRule
  memdbGetTemplate : Int32 → Int32 → Option T
  cloneStructTemplate : T → Option T
  jsonMarkedStruct : JsonNode → T → Int32 → Option T
  json2PartStruct : JsonNode → T → Int32 → Option V
  ret : Int
  insertNode : Option Nat

/-- What is returned: a path, `NULL`, or an error in the place of a pointer. -/
inductive Returned
  | path (path : Nat)
  | null
  | pointer (e : Int)
  deriving DecidableEq, Repr

/-- `json_find_elem`, by names as far as `DIGEST_SIZE` characters. -/
def jsonFindElem (name : String) (root : JsonNode) : Option JsonNode :=
  if root.elemType = .map then
    root.childlist.find? fun child => name.toList.take DIGEST_SIZE == child.name.take DIGEST_SIZE
  else none

/-- `Strncpy` of a string to zeros. -/
def strncpy (src : List UInt8) : Uuid := Vector.ofFn fun i => src[i.val]?.getD 0

/-! ## The origin of a branch -/

/-- The policy has the name, and is for the jumps. -/
def RoutePath.isNamed (policy : RoutePath T V) (name : List UInt8) (rjump ljump : Int32) : Bool :=
  strncmp (name ++ [0]) policy.name.toList DIGEST_SIZE = 0
    ∧ (policy.rjump = 0 ∨ policy.rjump = rjump ∨ policy.rjump = -rjump)
    ∧ (ljump = 0 ∨ policy.ljump = 0 ∨ policy.ljump = ljump)

/-- The loop of `router_find_policy_byname`, over policies. -/
def routerFindPolicyByname (f : Forest T V) (name : Option (List UInt8)) (rjump ljump : Int32) :
    List Nat → Outcome (Option Nat)
  | [] => .done none
  | path :: rest =>
    match name, f.paths[path]? with
    | some string, some policy =>
      if policy.isNamed string rjump ljump then .done (some path)
      else routerFindPolicyByname f name rjump ljump rest
    | _, _ => .fault

/-- `route_get_node_byjump`: what becomes of `node`. Where the path has not so many nodes, it
    is the pointer to it that is set to `NULL`; the record at the head of the list is of
    nothing. -/
def routeGetNodeByjump (path : RoutePath T V) (node : Option Nat) (ljump rjump : Int32) :
    Option Nat :=
  -- A jump below 0 is one on the way back.
  let nodePath := if 0 ≤ rjump.toInt then path.routePath else path.responsePath
  if (nodePath.length : Int) < ljump.toInt then node
  else if ljump.toInt ≤ 0 then none
  else nodePath[ljump.toInt.toNat - 1]?

/-- The path of a branch is set by the head of its policy. -/
def PolicyHead.setBranch (policy : PolicyHead) (newname : List UInt8) (p : RoutePath T V) :
    RoutePath T V :=
  { p with
    name := strncpy newname
    flow := if policy.type = MSG_FLOW_DUP then MSG_FLOW_DELIVER else MSG_FLOW_QUERY }

/-- The path of another policy is set by its head. -/
def PolicyHead.setNormal (policy : PolicyHead) (name : List UInt8) (p : RoutePath T V) :
    RoutePath T V :=
  { p with name := strncpy name, sender := strncpy (cString policy.sender.toList), flow := policy.type }

/-- The jumps and the state of a path are set. -/
def PolicyHead.setJumps (policy : PolicyHead) (p : RoutePath T V) : RoutePath T V :=
  { p with
    ljump := policy.ljump
    rjump := if 0 ≤ policy.rjump.toInt then policy.rjump else -policy.rjump
    state := policy.state }

variable (r : Reader T V)

/-- The part of `route_read_policy` for a policy for duplicates or aspects: the path becomes a
    branch of a node of another policy. What is returned then, if the function returns. -/
def insertBranch (policy : PolicyHead) (path : Nat) (f : Forest T V) :
    Outcome (Option Returned × Forest T V) :=
  routerFindPolicyByname f policy.name policy.rjump policy.ljump f.routeForest >>= fun origin =>
    match origin.bind fun a => (f.paths[a]?).map (a, ·) with
    | none => .done (some (if r.ret < 0 then .pointer r.ret else .null), f)
    | some (normalPath, normal) =>
      if policy.ljump = 0 then .done (some (.pointer (-EINVAL)), f)
      else
        match routeGetNodeByjump normal r.insertNode policy.ljump policy.rjump with
        | none => .done (some (.pointer (-EINVAL)), f)
        | some insertNode =>
          if !r.memory .branch then .done (some (.pointer (-ENOMEM)), f)
          else if !r.memory .branchRecord then .done (some .null, f)
          else if f.nodes.length ≤ insertNode then .fault
          else
            -- The branch is one of a policy that is loaded from here on.
            let f := f.modifyNode insertNode (·.addBranch ⟨normalPath, policy.type, path⟩)
            match policy.newname with
            | none => .fault
            | some newname => .done (none, f.modifyPath path (policy.setBranch newname))

/-- The part of `route_read_policy` that sets the path by the head of the policy. -/
def setHead (policy : PolicyHead) (path : Nat) (f : Forest T V) :
    Outcome (Option Returned × Forest T V) :=
  (if policy.type = MSG_FLOW_DUP ∨ policy.type = MSG_FLOW_ASPECT then insertBranch r policy path f
    else
      match policy.name with
      | none => .fault
      | some name => .done (none, f.modifyPath path (policy.setNormal name))) >>= fun (returned, f) =>
    match returned with
    | some returned => .done (some returned, f)
    | none => .done (none, f.modifyPath path policy.setJumps)

/-! ## The rules -/

/-- What comes of a part of `route_read_policy` that reads to a path: `false` if `NULL` is
    returned then. -/
abbrev Step (T V : Type) := Forest T V → Bool × Forest T V

/-- Two parts, one after the other. -/
def Step.andThen (first second : Step T V) : Step T V := fun f =>
  let (more, f) := first f
  if more then second f else (false, f)

/-- The loop over the children of a node, with their numbers. -/
def readEach (step : Nat → JsonNode → Step T V) : Nat → List JsonNode → Step T V
  | _, [] => fun f => (true, f)
  | i, node :: nodes => (step i node).andThen (readEach step (i + 1) nodes)

/-- The template and the value of a match rule. -/
def readValue (i : Nat) (head : MatchHead) (tempNode : JsonNode) : Option (T × V) := do
  let template ← r.memdbGetTemplate head.type head.subtype
  let template ← r.cloneStructTemplate template
  let template ← r.jsonMarkedStruct tempNode template matchFlag
  if r.memory (.matchValue i) then
    (r.json2PartStruct tempNode template matchFlag).map (template, ·)
  else none

/-- `route_policy_addmatchrule`, whose return value for want of memory is not an error. -/
def routePolicyAddmatchrule (path i : Nat) (rule : MatchRule T V) (f : Forest T V) : Forest T V :=
  if r.memory (.matchRecord i) then
    f.modifyPath path fun p => { p with matchList := p.matchList ++ [rule] }
  else f

/-- A turn of the loop over the match rules. -/
def readMatchRule (path i : Nat) (node : JsonNode) : Step T V := fun f =>
  if !r.memory (.matchRule i) then (false, f)
  else
    match r.matchHead node with
    | none => (false, f)
    | some head =>
      match jsonFindElem "value" node with
      | none =>
        (true, routePolicyAddmatchrule r path i
          ⟨head.op, head.area, head.type, head.subtype, none, none, rfl⟩ f)
      | some tempNode =>
        match readValue r i head tempNode with
        | none => (false, f)
        | some (template, value) =>
          (true, routePolicyAddmatchrule r path i
            ⟨head.op, head.area, head.type, head.subtype, some template, some value, rfl⟩ f)

/-- The path with one more node, on its route path or its response path. -/
def RoutePath.addSite (p : RoutePath T V) (onResponse : Bool) (node : Nat) : RoutePath T V :=
  if onResponse then { p with responsePath := p.responsePath ++ [node] }
  else { p with routePath := p.routePath ++ [node] }

/-- A node for a rule is made and added to a path. -/
def addRule (onResponse : Bool) (path i : Nat) (rule : RouteRule) : Step T V := fun f =>
  if !r.memory (.node onResponse i) then (false, f)
  else
    match r.structClone rule with
    | none => (false, f)
    | some target =>
      let node := f.nodes.length
      let f := { f with nodes := f.nodes ++ [⟨path, target, []⟩] }
      -- A node that is not put in the list is lost, which is no error.
      if r.memory (.record onResponse i) then (true, f.modifyPath path (·.addSite onResponse node))
      else (true, f)

/-- `route_policy_addrouterule`. -/
def routePolicyAddrouterule : Nat → Nat → RouteRule → Step T V := addRule r false

/-- `route_tree_addresponserule`. -/
def routeTreeAddresponserule : Nat → Nat → RouteRule → Step T V := addRule r true

/-- A rule that is added to a path by one of the two functions. -/
def addRouteRule (onResponse : Bool) : Nat → Nat → RouteRule → Step T V :=
  if onResponse then routeTreeAddresponserule r else routePolicyAddrouterule r

/-- A turn of the loop over the rules of a path. -/
def readRouteRule (onResponse : Bool) (path i : Nat) (node : JsonNode) : Step T V := fun f =>
  if !r.memory (.rule onResponse i) then (false, f)
  else
    match r.routeRule node with
    | none => (false, f)
    | some rule => addRouteRule r onResponse path i rule f

/-- The last node of a path, behind so many rules. -/
def finishRules (onResponse : Bool) (path i : Nat) : Step T V := fun f =>
  if !r.memory (.rule onResponse i) then (false, f)
  else addRouteRule r onResponse path i ⟨ROUTE_TARGET_FINISH, none⟩ f

/-- The rules of a path, and its last node. -/
def readRouteRules (onResponse : Bool) (path : Nat) (nodes : List JsonNode) : Step T V :=
  (readEach (readRouteRule r onResponse path) 0 nodes).andThen
    (finishRules r onResponse path nodes.length)

/-- The nodes of the rules of the response. -/
def responseNodes (routePolicyNode : JsonNode) : List JsonNode :=
  ((jsonFindElem "response_policy" routePolicyNode).map JsonNode.childlist).getD []

/-- The part of `route_read_policy` that reads the rules of the response, of a policy for
    queries. -/
def readResponse (routePolicyNode : JsonNode) (path : Nat) : Step T V := fun f =>
  if f.isQuery path then readRouteRules r true path (responseNodes routePolicyNode) f
  else (true, f)

/-- The part of `route_read_policy` that reads the rules of the two paths. -/
def readRoutePolicy (routePolicyNode : JsonNode) (path : Nat) : Step T V := fun f =>
  match jsonFindElem "main_policy" routePolicyNode with
  | none => (false, f)
  | some mainNode =>
    (readRouteRules r false path mainNode.childlist).andThen (readResponse r routePolicyNode path) f

/-- The part of `route_read_policy` that reads the rules of the policy. -/
def readRules (policyNode : JsonNode) (path : Nat) : Step T V := fun f =>
  match jsonFindElem "MATCH_RULES" policyNode with
  | none => (false, f)
  | some matchPolicyNode =>
    match jsonFindElem "ROUTE_RULES" policyNode with
    | none => (false, f)
    | some routePolicyNode =>
      (readEach (readMatchRule r path) 0 matchPolicyNode.childlist).andThen
        (readRoutePolicy r routePolicyNode path) f

/-- `route_read_policy`. -/
def routeReadPolicy (policyNode : JsonNode) (f : Forest T V) : Outcome (Returned × Forest T V) :=
  if !r.memory .path then .done (.null, f)
  else
    let path := f.paths.length
    let f := f.routePathCreate
    match jsonFindElem "policy_head" policyNode with
    | none => .done (.null, f)
    | some tempNode =>
      if !r.memory .head then .done (.null, f)
      else
        match r.policyHead tempNode with
        | none => .done (.null, f)
        | some policy =>
          setHead r policy path f >>= fun (returned, f) =>
            match returned with
            | some returned => .done (returned, f)
            | none =>
              let (read, f) := readRules r policyNode path f
              .done (if read then .path path else .null, f)

/-! ## Rules that load -/

/-- The value of a match rule is one of its type, and can be read. -/
def ValueLoads (i : Nat) (head : MatchHead) (tempNode : JsonNode) : Prop :=
  ∃ template copy marked, r.memdbGetTemplate head.type head.subtype = some template ∧
    r.cloneStructTemplate template = some copy ∧
    r.jsonMarkedStruct tempNode copy matchFlag = some marked ∧ r.memory (.matchValue i) ∧
    (r.json2PartStruct tempNode marked matchFlag).isSome

/-- A match rule can be read, with its value if it has one. -/
def MatchRuleLoads (i : Nat) (node : JsonNode) : Prop :=
  r.memory (.matchRule i) ∧ ∃ head, r.matchHead node = some head ∧
    ∀ tempNode, jsonFindElem "value" node = some tempNode → ValueLoads r i head tempNode

/-- There is a node for a rule. -/
def HasNode (onResponse : Bool) (i : Nat) (rule : RouteRule) : Prop :=
  r.memory (.node onResponse i) ∧ (r.structClone rule).isSome

/-- A rule of a path can be read. -/
def RouteRuleLoads (onResponse : Bool) (i : Nat) (node : JsonNode) : Prop :=
  r.memory (.rule onResponse i) ∧
    ∃ rule, r.routeRule node = some rule ∧ HasNode r onResponse i rule

/-- There is a last node of a path, behind so many rules. -/
def FinishLoads (onResponse : Bool) (i : Nat) : Prop :=
  r.memory (.rule onResponse i) ∧ HasNode r onResponse i ⟨ROUTE_TARGET_FINISH, none⟩

/-- The rules of a path can be read. -/
def RouteRulesLoad (onResponse : Bool) (nodes : List JsonNode) : Prop :=
  (∀ i node, nodes[i]? = some node → RouteRuleLoads r onResponse i node) ∧
    FinishLoads r onResponse nodes.length

/-- The rules of both paths can be read, of the response if it is a policy for queries. -/
def RoutePolicyLoads (routePolicyNode : JsonNode) (query : Prop) : Prop :=
  ∃ mainNode, jsonFindElem "main_policy" routePolicyNode = some mainNode ∧
    RouteRulesLoad r false mainNode.childlist ∧
    (query → RouteRulesLoad r true (responseNodes routePolicyNode))

/-- The rules of a policy can be read. -/
def RulesLoad (policyNode : JsonNode) (query : Prop) : Prop :=
  ∃ matchPolicyNode routePolicyNode,
    jsonFindElem "MATCH_RULES" policyNode = some matchPolicyNode ∧
    jsonFindElem "ROUTE_RULES" policyNode = some routePolicyNode ∧
    (∀ i node, matchPolicyNode.childlist[i]? = some node → MatchRuleLoads r i node) ∧
    RoutePolicyLoads r routePolicyNode query

/-! ## What is added to a path -/

/-- A forest with more in a path, and with more nodes, which have no branches. -/
structure Adds (path : Nat) (f f' : Forest T V) : Prop where
  routeForest : f'.routeForest = f.routeForest
  nodes : ∃ more, f'.nodes = f.nodes ++ more ∧ ∀ node ∈ more, node.aspectBranch = []
  length : f'.paths.length = f.paths.length
  paths : ∀ a ≠ path, f'.paths[a]? = f.paths[a]?
  flow : (f'.paths[path]?).map RoutePath.flow = (f.paths[path]?).map RoutePath.flow

variable {r} {path : Nat} {f f' f'' : Forest T V}

theorem Adds.refl (path : Nat) (f : Forest T V) : Adds path f f where
  routeForest := rfl
  nodes := ⟨[], (List.append_nil _).symm, nofun⟩
  length := rfl
  paths _ _ := rfl
  flow := rfl

theorem Adds.trans (h : Adds path f f') (h' : Adds path f' f'') : Adds path f f'' where
  routeForest := h'.routeForest.trans h.routeForest
  nodes := by
    obtain ⟨more, hnodes, hmore⟩ := h.nodes
    obtain ⟨more', hnodes', hmore'⟩ := h'.nodes
    refine ⟨more ++ more', by rw [hnodes', hnodes, List.append_assoc], fun node hnode => ?_⟩
    exact (List.mem_append.1 hnode).elim (hmore node) (hmore' node)
  length := h'.length.trans h.length
  paths a ha := (h'.paths a ha).trans (h.paths a ha)
  flow := h'.flow.trans h.flow

/-- A node that is there stays. -/
theorem Adds.getElem?_nodes (h : Adds path f f') {n : Nat} {node : RouteNode}
    (hn : f.nodes[n]? = some node) : f'.nodes[n]? = some node := by
  obtain ⟨more, hmore, -⟩ := h.nodes
  rw [hmore, List.getElem?_append_left (List.getElem?_eq_some_iff.1 hn).1, hn]

@[simp] theorem Forest.modifyPath_length (g : RoutePath T V → RoutePath T V) :
    (f.modifyPath path g).paths.length = f.paths.length := List.length_modify _ _ _

theorem Forest.modifyPath_self (g : RoutePath T V → RoutePath T V) :
    (f.modifyPath path g).paths[path]? = (f.paths[path]?).map g := by
  simp [Forest.modifyPath]

theorem Forest.modifyPath_of_ne (g : RoutePath T V → RoutePath T V) {a : Nat} (ha : a ≠ path) :
    (f.modifyPath path g).paths[a]? = f.paths[a]? := by
  simp [Forest.modifyPath, ha.symm]

/-- The path is changed, but for its flow. -/
theorem Adds.modifyPath {g : RoutePath T V → RoutePath T V} (hg : ∀ p, (g p).flow = p.flow) :
    Adds path f (f.modifyPath path g) where
  routeForest := rfl
  nodes := (Adds.refl path f).nodes
  length := Forest.modifyPath_length g
  paths _ ha := Forest.modifyPath_of_ne g ha
  flow := by
    rw [Forest.modifyPath_self, Option.map_map]
    exact congrArg (Option.map · _) (funext hg)

/-- A node is made. -/
theorem Adds.addNode (path : Nat) (f : Forest T V) (target : RouteRule) :
    Adds path f { f with nodes := f.nodes ++ [⟨path, target, []⟩] } :=
  { Adds.refl path f with
    nodes := ⟨[⟨path, target, []⟩], rfl, fun _ hnode => List.mem_singleton.1 hnode ▸ rfl⟩ }

/-- The part adds to a path, and gets through if `P` holds. -/
def DoesAt (path : Nat) (P : Prop) (step : Step T V) (f : Forest T V) : Prop :=
  Adds path f (step f).2 ∧ ((step f).1 = true ↔ P)

variable {P Q : Prop} {first second step : Step T V}

theorem DoesAt.congr (h : DoesAt path P step f) (hPQ : P ↔ Q) : DoesAt path Q step f :=
  ⟨h.1, h.2.trans hPQ⟩

/-- Two parts get through if both do. -/
theorem DoesAt.andThen (h : DoesAt path P first f)
    (h' : ∀ f', Adds path f f' → DoesAt path Q second f') :
    DoesAt path (P ∧ Q) (first.andThen second) f := by
  obtain ⟨hadds, hmore⟩ := h
  obtain ⟨hadds', hmore'⟩ := h' _ hadds
  cases hfirst : (first f).1 with
  | false =>
    rw [hfirst] at hmore
    have hP : ¬ P := fun hP => Bool.false_ne_true (hmore.2 hP)
    have hthen : first.andThen second f = (false, (first f).2) := by simp [Step.andThen, hfirst]
    rw [DoesAt, hthen]
    exact ⟨hadds, iff_of_false Bool.false_ne_true fun h => hP h.1⟩
  | true =>
    rw [hfirst] at hmore
    have hthen : first.andThen second f = second (first f).2 := by simp [Step.andThen, hfirst]
    rw [DoesAt, hthen]
    exact ⟨hadds.trans hadds', hmore'.trans (and_iff_right (hmore.1 rfl)).symm⟩

/-- A loop over rules gets through if each of the rules does. -/
theorem readEach_does {step : Nat → JsonNode → Step T V} {P : Nat → JsonNode → Prop}
    (hstep : ∀ i node f, DoesAt path (P i node) (step i node) f) (i : Nat) (nodes : List JsonNode)
    (f : Forest T V) :
    DoesAt path (∀ k node, nodes[k]? = some node → P (i + k) node) (readEach step i nodes) f := by
  induction nodes generalizing i f with
  | nil => exact ⟨Adds.refl path f, iff_of_true rfl fun k node hk => nomatch hk⟩
  | cons first rest ih =>
    -- The rules of the rest have the numbers behind that of the first.
    refine ((hstep i first f).andThen fun f' _ => ih (i + 1) f').congr ⟨?_, fun h => ⟨?_, ?_⟩⟩
    · rintro ⟨hfirst, hrest⟩ (_ | k) node hk
      · cases hk
        exact hfirst
      · have := hrest k node hk
        rwa [Nat.add_right_comm] at this
    · exact h 0 first rfl
    · intro k node hk
      have := h (k + 1) node hk
      rwa [← Nat.add_assoc, Nat.add_right_comm] at this

/-! ## The rules of a policy -/

/-- The value of a match rule is read if it loads. -/
theorem readValue_isSome_iff {i : Nat} {head : MatchHead} {tempNode : JsonNode} :
    (readValue r i head tempNode).isSome ↔ ValueLoads r i head tempNode := by
  unfold readValue ValueLoads
  cases ht : r.memdbGetTemplate head.type head.subtype with
  | none => simp
  | some template =>
    cases hc : r.cloneStructTemplate template with
    | none => simp [hc]
    | some copy =>
      cases hm : r.jsonMarkedStruct tempNode copy matchFlag with
      | none => simp [hc, hm]
      | some marked =>
        cases r.memory (.matchValue i) <;> simp [hc, hm]

theorem Adds.addmatchrule (i : Nat) (rule : MatchRule T V) :
    Adds path f (routePolicyAddmatchrule r path i rule f) := by
  unfold routePolicyAddmatchrule
  split
  · exact Adds.modifyPath fun _ => rfl
  · exact Adds.refl path f

/-- A match rule is read if it loads. -/
theorem readMatchRule_does (i : Nat) (node : JsonNode) (f : Forest T V) :
    DoesAt path (MatchRuleLoads r i node) (readMatchRule r path i node) f := by
  unfold DoesAt readMatchRule MatchRuleLoads
  cases hmem : r.memory (.matchRule i) with
  | false => exact ⟨Adds.refl path f, by simp⟩
  | true =>
    cases hhead : r.matchHead node with
    | none => exact ⟨Adds.refl path f, by simp⟩
    | some head =>
      cases hfind : jsonFindElem "value" node with
      | none => exact ⟨Adds.addmatchrule i _, by simp⟩
      | some tempNode =>
        have hiff : (readValue r i head tempNode).isSome ↔ _ := readValue_isSome_iff
        cases hvalue : readValue r i head tempNode with
        | none =>
          rw [hvalue] at hiff
          refine ⟨by simpa [hvalue] using Adds.refl path f, ?_⟩
          simpa [hvalue] using hiff
        | some value =>
          rw [hvalue] at hiff
          refine ⟨by simpa [hvalue] using Adds.addmatchrule i _, ?_⟩
          simpa [hvalue] using hiff

theorem RoutePath.addSite_flow (p : RoutePath T V) (onResponse : Bool) (node : Nat) :
    (p.addSite onResponse node).flow = p.flow := by
  cases onResponse <;> rfl

@[simp] theorem addRouteRule_eq (onResponse : Bool) : addRouteRule r onResponse = addRule r onResponse := by
  cases onResponse <;> rfl

/-- A rule is added if there is a node for it. -/
theorem addRule_does (onResponse : Bool) (i : Nat) (rule : RouteRule) (f : Forest T V) :
    DoesAt path (HasNode r onResponse i rule) (addRule r onResponse path i rule) f := by
  unfold DoesAt addRule HasNode
  cases hmem : r.memory (.node onResponse i) with
  | false => exact ⟨Adds.refl path f, by simp⟩
  | true =>
    cases hclone : r.structClone rule with
    | none => exact ⟨Adds.refl path f, by simp⟩
    | some target =>
      have hnode := Adds.addNode path f target
      cases hrecord : r.memory (.record onResponse i) with
      | false => exact ⟨hnode, by simp⟩
      | true =>
        exact ⟨hnode.trans (Adds.modifyPath fun p => p.addSite_flow _ _), by simp⟩

/-- A rule of a path is read if it loads. -/
theorem readRouteRule_does (onResponse : Bool) (i : Nat) (node : JsonNode) (f : Forest T V) :
    DoesAt path (RouteRuleLoads r onResponse i node) (readRouteRule r onResponse path i node) f := by
  unfold DoesAt readRouteRule RouteRuleLoads
  cases hmem : r.memory (.rule onResponse i) with
  | false => exact ⟨Adds.refl path f, by simp⟩
  | true =>
    cases hrule : r.routeRule node with
    | none => exact ⟨Adds.refl path f, by simp⟩
    | some rule => simpa [DoesAt] using addRule_does onResponse i rule f

/-- The last node is added if there is one. -/
theorem finishRules_does (onResponse : Bool) (i : Nat) (f : Forest T V) :
    DoesAt path (FinishLoads r onResponse i) (finishRules r onResponse path i) f := by
  unfold DoesAt finishRules FinishLoads
  cases hmem : r.memory (.rule onResponse i) with
  | false => exact ⟨Adds.refl path f, by simp⟩
  | true => simpa [DoesAt] using addRule_does onResponse i ⟨ROUTE_TARGET_FINISH, none⟩ f

/-- The rules of a path are read if they load. -/
theorem readRouteRules_does (onResponse : Bool) (nodes : List JsonNode) (f : Forest T V) :
    DoesAt path (RouteRulesLoad r onResponse nodes) (readRouteRules r onResponse path nodes) f := by
  have heach : DoesAt path _ (readEach (readRouteRule r onResponse path) 0 nodes) f :=
    readEach_does (readRouteRule_does onResponse) 0 nodes f
  simp only [Nat.zero_add] at heach
  exact heach.andThen fun f' _ => finishRules_does onResponse nodes.length f'

/-- A path that is read to stays one for queries. -/
theorem Adds.isQuery_eq (h : Adds path f f') : f'.isQuery path = f.isQuery path := by
  have hflow : ∀ g : Forest T V, g.isQuery path =
      ((g.paths[path]?).map RoutePath.flow).any (· = MSG_FLOW_QUERY) := by
    intro g
    unfold Forest.isQuery
    cases g.paths[path]? <;> rfl
  rw [hflow, hflow, h.flow]

/-- The rules of the response are read if they load, or need not be. -/
theorem readResponse_does (routePolicyNode : JsonNode) (h : Adds path f f') :
    DoesAt path (f.isQuery path → RouteRulesLoad r true (responseNodes routePolicyNode))
      (readResponse r routePolicyNode path) f' := by
  unfold DoesAt readResponse
  rw [← h.isQuery_eq]
  cases f'.isQuery path with
  | false => exact ⟨Adds.refl path f', by simp⟩
  | true => simpa [DoesAt] using readRouteRules_does true (responseNodes routePolicyNode) f'

/-- The rules of the two paths are read if they load. -/
theorem readRoutePolicy_does (routePolicyNode : JsonNode) (h : Adds path f f') :
    DoesAt path (RoutePolicyLoads r routePolicyNode (f.isQuery path))
      (readRoutePolicy r routePolicyNode path) f' := by
  unfold DoesAt readRoutePolicy RoutePolicyLoads
  cases hmain : jsonFindElem "main_policy" routePolicyNode with
  | none => exact ⟨Adds.refl path f', by simp⟩
  | some mainNode =>
    have hrules : DoesAt path _ (readRouteRules r false path mainNode.childlist) f' :=
      readRouteRules_does false mainNode.childlist f'
    have hboth := hrules.andThen fun f₁ h₁ =>
      readResponse_does (r := r) routePolicyNode (h.trans h₁)
    refine ⟨hboth.1, hboth.2.trans ?_⟩
    simp

/-- The rules of a policy are read if they load. -/
theorem readRules_does (policyNode : JsonNode) (f : Forest T V) :
    DoesAt path (RulesLoad r policyNode (f.isQuery path)) (readRules r policyNode path) f := by
  unfold DoesAt readRules RulesLoad
  cases hmatch : jsonFindElem "MATCH_RULES" policyNode with
  | none => exact ⟨Adds.refl path f, by simp⟩
  | some matchPolicyNode =>
    cases hroute : jsonFindElem "ROUTE_RULES" policyNode with
    | none => exact ⟨Adds.refl path f, by simp⟩
    | some routePolicyNode =>
      have heach : DoesAt path _ (readEach (readMatchRule r path) 0 matchPolicyNode.childlist) f :=
        readEach_does readMatchRule_does 0 matchPolicyNode.childlist f
      simp only [Nat.zero_add] at heach
      have hboth := heach.andThen fun f₁ h₁ => readRoutePolicy_does (r := r) routePolicyNode h₁
      refine ⟨hboth.1, hboth.2.trans ?_⟩
      simp

end Cube.LivePolicy
