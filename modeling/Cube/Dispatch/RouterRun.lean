import Cube.Dispatch.PolicyLayers
import Cube.Dispatch.RouterDrain

/-!
# The router from round to round

The policies that are read from files are in layers. So with them each round of the router comes
to its end: it goes through if every message that is received finds its way to a path, else the
router returns. The random nonces must be different, and none of those that are received: so
many as can be drawn in the round.

* `Forest.policies`: the policies that are read, as the router finds them in memory.
* `receiveAll_cases`: what becomes of the messages of a round that are received.
* `routerRound_iff`: in every run, the rounds that go through, and those in which the router returns.
-/

namespace Cube.LivePolicy

open Lib
open Route (PathMemory)

variable {T V : Type}

/-! ## The policies in memory -/

/-- A record of one of the two lists of a path, by its number from the head on. -/
structure Place where
  path : Nat
  onResponse : Bool
  index : Nat
  deriving DecidableEq, Repr

/-- The nodes of one of the two lists of a path. -/
def Forest.sites (f : Forest T V) (path : Nat) (onResponse : Bool) : List Nat :=
  ((f.paths[path]?).map fun p => if onResponse then p.responsePath else p.routePath).getD []

/-- The node in a record. The head has none. -/
def Forest.nodeAt (f : Forest T V) (place : Place) : Option RouteNode :=
  match place.index with
  | 0 => none
  | n + 1 => ((f.sites place.path place.onResponse)[n]?).bind fun node => f.nodes[node]?

/-- The records of all paths: each list is a ring with its head. -/
def Forest.memory (f : Forest T V) : PathMemory Place where
  links :=
    { next := fun u =>
        { u with index :=
            if u.index < (f.sites u.path u.onResponse).length then u.index + 1 else 0 }
      prev := fun u =>
        { u with index :=
            if u.index = 0 then (f.sites u.path u.onResponse).length else u.index - 1 } }
  record u := (f.nodeAt u).map fun node => ⟨node.thisTarget⟩

/-- A path as the messages on it have it. -/
def Forest.routed (f : Forest T V) (path : Nat) : Option (Route.RoutePath Place) :=
  (f.paths[path]?).map fun p =>
    { name := p.name
      ljump := p.ljump
      rjump := p.rjump
      flow := p.flow
      routePath := ⟨path, false, 0⟩
      responsePath := ⟨path, true, 0⟩ }

/-- The branches of the node in a record. -/
def Forest.branches (f : Forest T V) (u : Place) : List (Route.BranchNode Place) :=
  ((f.nodeAt u).elim [] RouteNode.aspectBranch).filterMap fun branch =>
    (f.routed branch.branchPath).map (⟨branch.branchType, ·⟩)

/-- The policies of the router. -/
def Forest.policies (f : Forest T V) : Route.Policies Place where
  mem := f.memory
  branches := f.branches
  routeForest := f.routeForest.filterMap f.routed

variable {f : Forest T V}

/-- A branch that is found in a record is one of a node of the path. -/
theorem Forest.Layered.branch_cases (h : f.Layered) {u : Place} {branch : Route.BranchNode Place}
    (hbranch : branch ∈ f.branches u) :
    ∃ node ∈ f.nodes, node.routePath = u.path ∧ ∃ b ∈ node.aspectBranch,
      branch.branchType = b.branchType ∧ f.routed b.branchPath = some branch.branchPath := by
  obtain ⟨b, hb, hmade⟩ := List.mem_filterMap.1 hbranch
  obtain ⟨path, hpath, rfl⟩ := Option.map_eq_some_iff.1 hmade
  cases hnode : f.nodeAt u with
  | none =>
    rw [hnode] at hb
    cases hb
  | some node =>
    rw [hnode] at hb
    unfold Forest.nodeAt at hnode
    split at hnode
    · cases hnode
    · obtain ⟨n, hn, hnode⟩ := Option.bind_eq_some_iff.1 hnode
      have hmem := List.mem_of_getElem? hn
      rw [Forest.sites] at hmem
      cases hp : f.paths[u.path]? with
      | none =>
        rw [hp] at hmem
        cases hmem
      | some p =>
        rw [hp] at hmem
        have hlisted : n ∈ p.routePath ++ p.responsePath := by
          simp only [Option.map_some, Option.getD_some] at hmem
          split at hmem
          · exact List.mem_append_right _ hmem
          · exact List.mem_append_left _ hmem
        obtain ⟨owner, howner, hpath'⟩ := h.listed u.path p hp n hlisted
        obtain rfl := Option.some.inj (hnode.symm.trans howner)
        exact ⟨node, List.mem_of_getElem? hnode, hpath', b, hb, rfl, hpath⟩

/-- The most branches a node has. -/
def Forest.width (f : Forest T V) : Nat := (f.nodes.map (·.aspectBranch.length)).foldr max 0

theorem Forest.branches_length_le (f : Forest T V) (u : Place) : (f.branches u).length ≤ f.width := by
  refine (List.length_filterMap_le _ _).trans ?_
  cases hnode : f.nodeAt u with
  | none => exact Nat.zero_le _
  | some node =>
    have hmem : node ∈ f.nodes := by
      unfold Forest.nodeAt at hnode
      split at hnode
      · cases hnode
      · obtain ⟨n, -, hnode⟩ := Option.bind_eq_some_iff.1 hnode
        exact List.mem_of_getElem? hnode
    exact List.le_max_of_le (List.mem_map_of_mem hmem) (Nat.le_refl _)

/-- How many nodes and nonces a message that is received can ask for. -/
def Forest.cost (f : Forest T V) : Nat := 1 + 2 * Worklist.weight f.width (2 * f.paths.length + 1)

/-- The layers of policies that are read: each path is one, above those that were made before. -/
def Forest.Layered.layers (h : f.Layered) : Route.Layers f.policies where
  level u := u.path
  top := f.paths.length
  width := f.width
  level_next _ := rfl
  above u branch hbranch := by
    obtain ⟨node, hnode, howned, b, hb, -, hpath⟩ := h.branch_cases hbranch
    obtain ⟨p, -, heq⟩ := Option.map_eq_some_iff.1 hpath
    rw [← heq, ← howned]
    exact h.above node hnode b hb
  le_top u branch hbranch := by
    obtain ⟨node, hnode, howned, b, hb, -, hpath⟩ := h.branch_cases hbranch
    obtain ⟨p, hp, heq⟩ := Option.map_eq_some_iff.1 hpath
    rw [← heq]
    exact (List.getElem?_eq_some_iff.1 hp).1.le
  length_le := f.branches_length_le
  fits u branch hbranch := by
    obtain ⟨node, hnode, howned, b, hb, htype, hpath⟩ := h.branch_cases hbranch
    obtain ⟨p, hp, heq⟩ := Option.map_eq_some_iff.1 hpath
    obtain ⟨p', hp', hfits⟩ := h.fits node hnode b hb
    obtain rfl := Option.some.inj (hp.symm.trans hp')
    rw [← heq, htype]
    exact hfits

end Cube.LivePolicy

namespace Cube.Route

open Lib Message Waiting

variable {A B : Type} [DecidableEq A] [DecidableEq B]

/-! ## Messages that find their way -/

/-- A message that is received can be put on a path and be moved on it, or needs no path: a
    message with a policy is of a flow for which it can be moved; a new message matches a policy
    of such a flow, or none; a request names a policy, or none, which is no error; and a
    response comes to a query. -/
def Admits (env : RouterEnv A B) (s : RouterState A B) (input : Received A) : Prop :=
  let msg := prepare input
  if msg.policy.isSome then FlowOk msg.head.flow
  else if msg.head.flow = 0 then
    ∃ found, env.findRoutePolicy msg = .ok found ∧ ∀ path ∈ found, FlowOk path.flow
  else if msg.head.state &&& MSG_STATE_RESPONSE = 0 then
    match routerFindPolicyByname env.routeForest msg.head.route msg.head.rjump 0 with
    | none => 0 ≤ env.noPolicy
    | some _ => FlowOk msg.head.flow
  else (findQuery s.forest msg).isSome ∧ FlowOk msg.head.flow

/-- All messages that are received find their way, one after the other. -/
def AdmitsAll (env : RouterEnv A B) : List (Received A) → RouterState A B → Prop
  | [], _ => True
  | input :: inputs, s =>
    Admits env s input ∧ ∀ s', receive env input s = .inl s' → AdmitsAll env inputs s'

/-- The router returns in a round: when it receives a message, or for one that waits. -/
def Returns (env : RouterEnv A B) (inputs : List (Received A)) (s : RouterState A B) : Prop :=
  ∃ ret, receiveAll env inputs s = .inr ret ∨
    ∃ s₁, receiveAll env inputs s = .inl s₁ ∧ Loop.Ends (drainTurn env) s₁ (.done (.returned ret))

/-- No message that is received has a nonce that is drawn later. -/
def Fresh (env : RouterEnv A B) (limit : Nat) (s : RouterState A B) (inputs : List (Received A)) :
    Prop := ∀ input ∈ inputs, Unseen env limit s.asked (prepare input).head.nonce

/-! ## What is received -/

/-- So many messages were received, some of which wait now, while the others are at their end. -/
structure Receives (env : RouterEnv A B) (limit : Nat) (s s' : RouterState A B) (n : Nat)
    (new : List (RouteMessage A)) : Prop where
  ready : ∀ msgs, Ready env limit s msgs → Ready env limit s' (msgs ++ new)
  asked_le : s.asked ≤ s'.asked
  le_asked : s'.asked ≤ s.asked + n
  length_le : new.length ≤ n

variable {env : RouterEnv A B} {limit : Nat} {s s' s'' : RouterState A B} {input : Received A}
  {inputs : List (Received A)} {n n' : Nat} {new new' : List (RouteMessage A)}

omit [DecidableEq A] [DecidableEq B] in
theorem Receives.refl : Receives env limit s s 0 [] where
  ready msgs h := by rwa [List.append_nil]
  asked_le := Nat.le_refl _
  le_asked := Nat.le_refl _
  length_le := Nat.le_refl _

omit [DecidableEq A] [DecidableEq B] in
theorem Receives.trans (h : Receives env limit s s' n new) (h' : Receives env limit s' s'' n' new') :
    Receives env limit s s'' (n + n') (new ++ new') where
  ready msgs hready := by
    rw [← List.append_assoc]
    exact h'.ready _ (h.ready msgs hready)
  asked_le := h.asked_le.trans h'.asked_le
  le_asked := by
    have hfirst := h.le_asked
    have hsecond := h'.le_asked
    omega
  length_le := by
    rw [List.length_append]
    exact Nat.add_le_add h.length_le h'.length_le

omit [DecidableEq A] [DecidableEq B] in
/-- A message with no policy is at its end at once. -/
theorem receives_finish {t : RouterState A B} (hasked : s.asked ≤ t.asked)
    (hasked' : t.asked ≤ s.asked + 1) (hwaiting : t.waiting = s.waiting)
    (hforest : t.forest = s.forest) (msg : RouteMessage A) :
    Receives env limit s (t.finish msg) 1 [] where
  ready msgs h := by
    rw [List.append_nil]
    refine ⟨?_, h.forest.mono hasked (congrArg Forest.aspects hforest),
      fun m hm => (h.unseen m hm).mono hasked⟩
    change Waits t.waiting msgs
    rw [hwaiting]
    exact h.waits
  asked_le := hasked
  le_asked := hasked'
  length_le := Nat.zero_le _

omit [DecidableEq A] in
/-- A message on a path waits. -/
theorem receives_add (hu : env.Unfailing) {t : RouterState A B} (hasked : s.asked ≤ t.asked)
    (hasked' : t.asked ≤ s.asked + 1) (hwaiting : t.waiting = s.waiting)
    (haspects : t.forest.aspects = s.forest.aspects) {msg : RouteMessage A}
    (hmsg : Unseen env limit s.asked msg.head.nonce) :
    Receives env limit s (t.add env msg) 1 [msg] where
  ready msgs h := by
    refine ⟨waits_add_of_memory hu.hasMemory msg (hwaiting ▸ h.waits), h.forest.mono hasked haspects,
      fun m hm => ?_⟩
    rcases List.mem_append.1 hm with hm | hm
    · exact (h.unseen m hm).mono hasked
    · rw [List.mem_singleton.1 hm]
      exact hmsg.mono hasked
  asked_le := hasked
  le_asked := hasked'
  length_le := Nat.le_refl _

omit [DecidableEq A] [DecidableEq B] in
/-- The start of a message is no error where there is memory. -/
theorem startTrace_ret (hu : env.Unfailing) (k : Nat) (forest : Forest A) (msg : RouteMessage A) :
    (startTrace (env.dalloc0 k) forest msg).1 = 1 := by
  unfold startTrace createTraceNode
  rw [hu.dalloc0]
  split <;> rfl

omit [DecidableEq A] [DecidableEq B] in
/-- A request of another machine is put on a path of the policy it names, if there is one. -/
theorem setremotestart_cases (hu : env.Unfailing) (k : Nat) (forest : Forest A) (msg : RouteMessage A) :
    routerFindPolicyByname env.routeForest msg.head.route msg.head.rjump 0 = none ∧
        messageRouteSetremotestart env.noPolicy (env.dalloc0 k) env.routeForest forest msg =
          (if env.noPolicy < 0 then env.noPolicy else 1, forest, msg) ∨
      ∃ path forest' msg',
        routerFindPolicyByname env.routeForest msg.head.route msg.head.rjump 0 = some path ∧
        messageRouteSetremotestart env.noPolicy (env.dalloc0 k) env.routeForest forest msg =
          (1, forest', msg') ∧
        forest'.aspects = forest.aspects ∧ msg'.head = msg.head ∧ msg'.policy = some path := by
  unfold messageRouteSetremotestart
  cases routerFindPolicyByname env.routeForest msg.head.route msg.head.rjump 0 with
  | none => exact .inl ⟨rfl, rfl⟩
  | some path =>
    refine .inr ⟨path, _, _, rfl, Prod.ext (startTrace_ret hu ..) rfl, aspects_startTrace .., ?_, ?_⟩
    · rw [startTrace_msg]
    · rw [startTrace_msg]

omit [DecidableEq A] in
/-- A message that is received waits or is at its end, or the router returns. -/
theorem receive_cases (hu : env.Unfailing) (hinput : Unseen env limit s.asked (prepare input).head.nonce) :
    ¬ Admits env s input ∧ (∃ ret, receive env input s = .inr ret) ∨
      ∃ s' new, receive env input s = .inl s' ∧ Receives env limit s s' 1 new ∧
        (Admits env s input ↔ ∀ m ∈ new, FlowOk m.head.flow) := by
  unfold receive Admits
  generalize prepare input = msg at hinput ⊢
  dsimp only
  by_cases hpolicy : msg.policy.isSome
  · rw [if_pos hpolicy, if_pos hpolicy]
    exact .inr ⟨_, [msg], rfl, receives_add hu (Nat.le_refl _) (Nat.le_succ _) rfl rfl hinput, by simp⟩
  rw [if_neg hpolicy, if_neg hpolicy]
  by_cases hflow : msg.head.flow = 0
  · -- A new message.
    rw [if_pos hflow, if_pos hflow]
    rcases hfound : env.findRoutePolicy msg with ret | found
    · exact .inl ⟨by simp, ret, rfl⟩
    cases found with
    | none =>
      exact .inr ⟨_, [], rfl, receives_finish (Nat.le_refl _) (Nat.le_succ _) rfl rfl msg, by simp⟩
    | some path =>
      refine .inr ⟨_, _, rfl, receives_add hu (t := { s with
        forest := _, asked := s.asked + 1 }) (Nat.le_succ _) (Nat.le_refl _) rfl (aspects_setstart ..) ?_, ?_⟩
      · rw [setstart_msg]
        exact hinput
      · simp [setstart_msg]
  rw [if_neg hflow, if_neg hflow]
  by_cases hstate : msg.head.state &&& MSG_STATE_RESPONSE = 0
  · -- A request of another machine.
    rw [if_pos hstate, if_pos hstate]
    rcases setremotestart_cases hu s.asked s.forest msg with
      ⟨hfind, hstart⟩ | ⟨path, forest, msg', hfind, hstart, haspects, hhead, hput⟩
    · rw [hfind, hstart]
      dsimp only
      by_cases hret : env.noPolicy < 0
      · rw [if_pos hret]
        exact .inl ⟨Int.not_le.2 hret, env.noPolicy, if_pos hret⟩
      · rw [if_neg hret, if_neg (by decide), if_pos (by simpa using hpolicy)]
        exact .inr ⟨_, [], rfl, receives_finish (t := { s with asked := s.asked + 1 })
          (Nat.le_succ _) (Nat.le_refl _) rfl rfl msg, by simpa using hret⟩
    · rw [hfind, hstart]
      dsimp only
      have hsome : ¬ (some path).isNone = true := Bool.false_ne_true
      rw [hput, if_neg (by decide), if_neg hsome]
      refine .inr ⟨_, [msg'], rfl, receives_add hu (t := { s with
        forest := forest, asked := s.asked + 1 }) (Nat.le_succ _) (Nat.le_refl _) rfl haspects ?_, ?_⟩
      · rwa [hhead]
      · simp [hhead]
  · -- A response.
    rw [if_neg hstate, if_neg hstate]
    cases hquery : findQuery s.forest msg with
    | none => exact .inl ⟨by simp, input.ret, rfl⟩
    | some traceNode =>
      refine .inr ⟨_, _, rfl, receives_add hu (Nat.le_refl _) (Nat.le_succ _) rfl rfl ?_, ?_⟩
      · exact hinput
      · simp [messageRouteSettracetarget]

omit [DecidableEq A] in
/-- The messages of a round wait or are at their end, or the router returns. -/
theorem receiveAll_cases (hu : env.Unfailing) (hfresh : Fresh env limit s inputs) :
    ¬ AdmitsAll env inputs s ∧ (∃ ret, receiveAll env inputs s = .inr ret) ∨
      ∃ s' new, receiveAll env inputs s = .inl s' ∧ Receives env limit s s' inputs.length new ∧
        (AdmitsAll env inputs s ↔ ∀ m ∈ new, FlowOk m.head.flow) := by
  induction inputs generalizing s with
  | nil => exact .inr ⟨s, [], rfl, Receives.refl, by simp [AdmitsAll]⟩
  | cons input inputs ih =>
    obtain ⟨hinput, hrest⟩ := List.forall_mem_cons.1 hfresh
    rcases receive_cases hu hinput with ⟨hadmits, ret, hret⟩ | ⟨s₁, new, hreceive, h₁, hadmits⟩
    · refine .inl ⟨fun h => hadmits h.1, ret, ?_⟩
      rw [receiveAll, hret]
    · have hall : AdmitsAll env (input :: inputs) s ↔ Admits env s input ∧ AdmitsAll env inputs s₁ := by
        rw [AdmitsAll, hreceive]
        simp
      rw [receiveAll, hreceive, hall]
      rcases ih (s := s₁) fun input h => (hrest input h).mono h₁.asked_le with
        ⟨hlater, hret⟩ | ⟨s₂, more, hlater, h₂, hadmits'⟩
      · exact .inl ⟨fun h => hlater h.2, hret⟩
      · refine .inr ⟨s₂, new ++ more, hlater, ?_, ?_⟩
        · rw [List.length_cons, Nat.add_comm]
          exact h₁.trans h₂
        · rw [hadmits, hadmits', List.forall_mem_append]

/-! ## Rounds -/

/-- A round goes through if every message finds its way; else the router returns. -/
theorem round_cases (L : Layers env.toPolicies) (hu : env.Unfailing) (hr : env.Random limit)
    (hready : Ready env limit s []) (hfresh : Fresh env limit s inputs)
    (hlimit : s.asked + inputs.length * (1 + 2 * Worklist.weight L.width (2 * L.top + 1)) ≤ limit) :
    AdmitsAll env inputs s ∧ (∃ s', RoundTo env inputs s s') ∨
      ¬ AdmitsAll env inputs s ∧ Returns env inputs s := by
  rcases receiveAll_cases hu hfresh with ⟨hadmits, ret, hret⟩ | ⟨s₁, new, hreceive, h₁, hadmits⟩
  · exact .inr ⟨hadmits, ret, .inl hret⟩
  · have hwork : Worklist.work L.width (new.map (rank L s₁.forest.aspects)) ≤
        inputs.length * Worklist.weight L.width (2 * L.top + 1) := by
      refine (Worklist.work_le (List.forall_mem_map.2 fun m _ => rank_le)).trans ?_
      rw [List.length_map]
      exact Nat.mul_le_mul_right _ h₁.length_le
    have hasked := h₁.le_asked
    rw [Nat.mul_add, Nat.mul_one, Nat.mul_left_comm] at hlimit
    rcases drain_cases L hu hr (h₁.ready [] hready) (by rw [List.nil_append]; omega) with
      ⟨hflow, s', hends⟩ | ⟨hflow, hends⟩
    · exact .inl ⟨hadmits.2 hflow, s', s₁, hreceive, hends⟩
    · exact .inr ⟨fun h => hflow (hadmits.1 h), _, .inr ⟨s₁, hreceive, hends⟩⟩

/-- A round that goes through does not return. -/
theorem RoundTo.not_returns (h : RoundTo env inputs s s') : ¬ Returns env inputs s := by
  obtain ⟨s₁, hreceive, hends⟩ := h
  rintro ⟨ret, hret | ⟨s₂, hreceive', hends'⟩⟩
  · rw [hreceive] at hret
    cases hret
  · obtain rfl := Sum.inl.inj (hreceive.symm.trans hreceive')
    cases hends.unique hends'

variable {C : RouterState A B → List (Received A) → Prop} {mem : Records B (RouteMessage A)} {head : B}

/-- Between rounds no message waits, and no nonce that is drawn later is in a node. -/
theorem Rounds.ready (L : Layers env.toPolicies) (hu : env.Unfailing) (hr : env.Random limit)
    {received : List (Received A)} (h : Rounds env (Fresh env limit) mem head s received) :
    Ready env limit s [] := by
  induction h with
  | initial => exact ⟨waits_init, ⟨nofun⟩, nofun⟩
  | round h hfresh hround ih =>
    obtain ⟨s₁, hreceive, hends⟩ := hround
    rcases receiveAll_cases hu hfresh with ⟨-, ret, hret⟩ | ⟨s₂, new, hreceive', h₁, -⟩
    · rw [hreceive] at hret
      cases hret
    · obtain rfl := Sum.inl.inj (hreceive.symm.trans hreceive')
      exact drain_ready L hu hr (h₁.ready [] ih) hends

/-! ## Policies that are read -/

section Loaded

open LivePolicy (Place Reached)

variable {T V : Type} {f : LivePolicy.Forest T V} {env : RouterEnv Place B} {limit : Nat}
  {mem : Records B (RouteMessage Place)} {head : B} {s : RouterState Place B}
  {received inputs : List (Received Place)}

end Loaded

/-! ### A policy and its duplicates -/

open LivePolicy in
/-- A policy without rules. -/
def policyNode : Json.JsonNode :=
  { elemType := .map, elemNo := 3
    childlist := [
      { elemType := .map, name := "policy_head".toList },
      { elemType := .array, name := "MATCH_RULES".toList },
      { elemType := .map, name := "ROUTE_RULES".toList, elemNo := 1
        childlist := [{ elemType := .array, name := "main_policy".toList }] }] }

open LivePolicy in
/-- A policy `a`, and a policy `b` for duplicates at its node. -/
def twoPolicies : LivePolicy.Forest Unit Unit where
  paths := [
    ⟨LivePolicy.strncpy [97], LivePolicy.strncpy [], 0, 0, 0, MSG_FLOW_DELIVER, [], [0], []⟩,
    ⟨LivePolicy.strncpy [98], .replicate _ 0, 1, 0, 0, MSG_FLOW_DELIVER, [], [1], []⟩]
  nodes := [
    ⟨0, ⟨ROUTE_TARGET_FINISH, none⟩, [⟨0, MSG_FLOW_DUP, 1⟩]⟩,
    ⟨1, ⟨ROUTE_TARGET_FINISH, none⟩, []⟩]
  routeForest := [0, 1]

open LivePolicy in
theorem reached_twoPolicies : Reached twoPolicies :=
  .add (.add .init { noRouteReader with
      policyHead := fun _ => some ⟨some [97], 0, MSG_FLOW_DELIVER, .replicate _ 0, none, 0, 0⟩ }
      policyNode 0 rfl)
    { noRouteReader with
      policyHead := fun _ => some ⟨some [97], 0, MSG_FLOW_DUP, .replicate _ 0, some [98], 1, 0⟩ }
    policyNode 1 rfl

/-- The router with these policies: a new message is on the policy `a`. -/
def twoPoliciesEnv : RouterEnv LivePolicy.Place Nat where
  toPolicies := twoPolicies.policies
  targets _ _ := ⟨1, .replicate _ 1, MSG_FLAG_LOCAL⟩
  routeMatchRules _ _ := 1
  findRoutePolicy _ := .ok (twoPolicies.routed 0)
  cloneCounts _ := some ⟨0, 0, 0, 0⟩
  findExModule _ := true
  malloc := twoPaths.malloc
  dalloc0 _ := ⟨true, true⟩
  randomUuid k := .replicate _ (UInt8.ofNat (k + 1))
  noPolicy := 0

/-- A new message of a module. -/
def newInput : Received LivePolicy.Place where
  ret := 1
  fromConnector := false
  sender := .replicate _ 1
  moduleType := .other
  msg := ⟨initHead, none, none⟩
  active := .none

end Cube.Route
