import Cube.Dispatch.ReadPolicy
import Cube.Dispatch.PolicyFile

/-!
# Policies that cannot be read

What becomes of the policies loaded before, where `route_read_policy` returns no path. The
branch of a policy for duplicates or aspects is put at the node of another policy before the
rules of the new one are read, and is not taken away if they cannot be.

* `Unchanged.routesAlike`: policies that are unchanged route every message as before.
* `routeReadPolicy_allOrNothing_iff`: a policy that is not read leaves them unchanged, unless
  it has been put at a node already.
-/

namespace Cube.LivePolicy

open Lib Json Message
open Route (ROUTE_TARGET_FINISH MSG_FLOW_QUERY MSG_FLOW_ASPECT)
open Dispatch (strncmp routeMatchMessage routeMatchRules)
open Policies (POLICY_CLOSE POLICY_IGNORE)

variable {T V : Type}

/-! ## Routing by the policies -/

section Routing

variable (ops : StructOps T V) (heap : Heap)

/-- The part of a path that its match rules are gone through with. -/
def RoutePath.rules (p : RoutePath T V) : Dispatch.RoutePath T V := ⟨p.name, p.rjump, p.matchList⟩

/-- `route_match_sender`. -/
def RoutePath.matchSender (p : RoutePath T V) (sender : Uuid) : Bool :=
  strncmp p.sender.toList sender.toList DIGEST_SIZE = 0

/-- `route_match_message_jump`. -/
def RoutePath.matchJump (p : RoutePath T V) (head : MsgHead) : Bool :=
  (p.rjump = 0 ∨ p.rjump = head.rjump) ∧ (p.ljump = 0 ∨ p.ljump = head.ljump)

/-- The loop of `router_find_route_policy`, over policies: the value returned, the policy that
    is found, and the message after the call. -/
def routerFindRoutePolicy (f : Forest T V) :
    List Nat → MessageBox T V → Outcome (Int × Option Nat × MessageBox T V)
  | [], box => .done (0, none, box)
  | path :: rest, box =>
    match f.paths[path]? with
    | none => .fault
    | some policy =>
      if policy.state = POLICY_CLOSE ∨ policy.state = POLICY_IGNORE then
        routerFindRoutePolicy f rest box
      else if policy.matchSender box.head.senderUuid && policy.matchJump box.head then
        routeMatchMessage ops heap policy.rules box >>= fun (ret, box) =>
          if ret < 0 then .done (ret, none, box)
          else if 0 < ret then .done (ret, some path, box)
          else routerFindRoutePolicy f rest box
      else routerFindRoutePolicy f rest box

/-- `_route_match_aspect_branch`. -/
def routeMatchAspectBranch (f : Forest T V) (branch : BranchNode) (box : MessageBox T V) :
    Outcome (Int × MessageBox T V) :=
  match f.paths[branch.branchPath]? with
  | none => .fault
  | some path => routeMatchRules ops heap path.rules box

end Routing

/-- Policies are routed by as before: the same one is found for every message, and the same
    branches of the nodes there were are taken. -/
structure RoutesAlike (ops : StructOps T V) (heap : Heap) (f f' : Forest T V) : Prop where
  policy : ∀ box, routerFindRoutePolicy ops heap f' f'.routeForest box =
    routerFindRoutePolicy ops heap f f.routeForest box
  branch : ∀ node ∈ f.nodes, ∀ branch ∈ node.aspectBranch, ∀ box,
    routeMatchAspectBranch ops heap f' branch box = routeMatchAspectBranch ops heap f branch box

/-- The policies loaded, and the branches, have paths. -/
structure Forest.Closed (f : Forest T V) : Prop where
  routeForest : ∀ path ∈ f.routeForest, path < f.paths.length
  branch : ∀ node ∈ f.nodes, ∀ branch ∈ node.aspectBranch, branch.branchPath < f.paths.length

/-- The same policies are loaded, and every path and node there was is as before. -/
structure Unchanged (f f' : Forest T V) : Prop where
  routeForest : f'.routeForest = f.routeForest
  paths : ∀ path < f.paths.length, f'.paths[path]? = f.paths[path]?
  nodes : ∀ node < f.nodes.length, f'.nodes[node]? = f.nodes[node]?

/-- Where `route_read_policy` returns no path, the policies loaded before are unchanged, and
    every message is routed as before. -/
def AllOrNothing (r : Reader T V) (policyNode : JsonNode) (f : Forest T V) : Prop :=
  ∀ returned f', routeReadPolicy r policyNode f = .done (returned, f') →
    (∀ path, returned ≠ .path path) → Unchanged f f' ∧ ∀ ops heap, RoutesAlike ops heap f f'

/-- A policy for duplicates or aspects is put at a node: there is a policy of its name for its
    jumps, which has a node at the jump. The node is one there is, and there is memory for the
    branch; the policy has a name of its own, too. -/
structure Branches (r : Reader T V) (policy : PolicyHead) (f : Forest T V) (insertNode : Nat) :
    Prop where
  type : policy.type = MSG_FLOW_DUP ∨ policy.type = MSG_FLOW_ASPECT
  ljump : policy.ljump ≠ 0
  origin : ∃ normalPath normal,
    routerFindPolicyByname f policy.name policy.rjump policy.ljump f.routeForest =
      .done (some normalPath) ∧
    f.paths[normalPath]? = some normal ∧
    routeGetNodeByjump normal r.insertNode policy.ljump policy.rjump = some insertNode
  node : insertNode < f.nodes.length
  memory : r.memory .branch ∧ r.memory .branchRecord
  newname : policy.newname.isSome

/-! ## Policies unchanged -/

section Unchanged

variable {f f' f'' : Forest T V}

theorem Unchanged.refl (f : Forest T V) : Unchanged f f := ⟨rfl, fun _ _ => rfl, fun _ _ => rfl⟩

/-- A path that is created is a new one. -/
theorem Unchanged.routePathCreate (f : Forest T V) : Unchanged f f.routePathCreate where
  routeForest := rfl
  paths _ h := List.getElem?_append_left h
  nodes _ _ := rfl

/-- A new path is changed. -/
theorem Unchanged.modifyPath (h : Unchanged f f') (g : RoutePath T V → RoutePath T V) :
    Unchanged f (f'.modifyPath f.paths.length g) where
  routeForest := h.routeForest
  paths path hpath := (Forest.modifyPath_of_ne g (Nat.ne_of_lt hpath)).trans (h.paths path hpath)
  nodes := h.nodes

/-- A new path is read to. -/
theorem Unchanged.adds (h : Unchanged f f') (h' : Adds f.paths.length f' f'') : Unchanged f f'' where
  routeForest := h'.routeForest.trans h.routeForest
  paths path hpath := (h'.paths path (Nat.ne_of_lt hpath)).trans (h.paths path hpath)
  nodes node hnode := by
    have hget : f'.nodes[node]? = some f.nodes[node] := by
      rw [h.nodes node hnode, List.getElem?_eq_getElem hnode]
    rw [← h.nodes node hnode, hget]
    exact h'.getElem?_nodes hget

/-- Policies that are unchanged route every message as before. -/
theorem Unchanged.routesAlike (h : Unchanged f f') (hf : f.Closed) (ops : StructOps T V)
    (heap : Heap) : RoutesAlike ops heap f f' where
  policy box := by
    rw [h.routeForest]
    have hpaths : ∀ path ∈ f.routeForest, f'.paths[path]? = f.paths[path]? :=
      fun path hpath => h.paths path (hf.routeForest path hpath)
    generalize f.routeForest = policies at hpaths
    induction policies generalizing box with
    | nil => rfl
    | cons path rest ih =>
      rw [List.forall_mem_cons] at hpaths
      have ih := fun box => ih box hpaths.2
      simp only [routerFindRoutePolicy, hpaths.1, ih]
  branch node hnode branch hbranch box := by
    rw [routeMatchAspectBranch, h.paths _ (hf.branch node hnode branch hbranch)]
    rfl

/-- The search for a policy among those loaded comes to the same. -/
theorem Unchanged.find_eq (h : Unchanged f f') (hf : f.Closed) (name : Option (List UInt8))
    (rjump ljump : Int32) : routerFindPolicyByname f' name rjump ljump f'.routeForest =
      routerFindPolicyByname f name rjump ljump f.routeForest := by
  rw [h.routeForest]
  have hpaths : ∀ path ∈ f.routeForest, f'.paths[path]? = f.paths[path]? :=
    fun path hpath => h.paths path (hf.routeForest path hpath)
  generalize f.routeForest = policies at hpaths
  induction policies with
  | nil => rfl
  | cons path rest ih =>
    rw [List.forall_mem_cons] at hpaths
    simp only [routerFindPolicyByname, hpaths.1, ih hpaths.2]

/-- The policy that is found is one of those searched. -/
theorem routerFindPolicyByname_mem {name : Option (List UInt8)} {rjump ljump : Int32}
    {policies : List Nat} {path : Nat}
    (h : routerFindPolicyByname f name rjump ljump policies = .done (some path)) :
    path ∈ policies := by
  induction policies with
  | nil => cases h
  | cons first rest ih =>
    unfold routerFindPolicyByname at h
    split at h
    · split_ifs at h
      · cases h
        exact List.mem_cons_self
      · exact List.mem_cons_of_mem _ (ih h)
    · cases h

variable {insertNode : Nat}

/-- A policy is put at a node as if its path had not been made. -/
theorem branches_routePathCreate {r : Reader T V} {policy : PolicyHead} (hf : f.Closed) :
    Branches r policy f.routePathCreate insertNode ↔ Branches r policy f insertNode := by
  have hsame := Unchanged.routePathCreate f
  have horigin : ∀ normalPath normal,
      (routerFindPolicyByname f.routePathCreate policy.name policy.rjump policy.ljump
          f.routePathCreate.routeForest = .done (some normalPath) ∧
        f.routePathCreate.paths[normalPath]? = some normal) ↔
      (routerFindPolicyByname f policy.name policy.rjump policy.ljump f.routeForest =
          .done (some normalPath) ∧ f.paths[normalPath]? = some normal) := by
    intro normalPath normal
    rw [hsame.find_eq hf]
    refine and_congr_right fun hfind => ?_
    rw [hsame.paths _ (hf.routeForest _ (routerFindPolicyByname_mem hfind))]
  constructor
  · rintro ⟨htype, hljump, ⟨normalPath, normal, hfind, hpath, hnode⟩, hlt, hmemory, hnew⟩
    obtain ⟨hfind', hpath'⟩ := (horigin normalPath normal).1 ⟨hfind, hpath⟩
    exact ⟨htype, hljump, ⟨normalPath, normal, hfind', hpath', hnode⟩, hlt, hmemory, hnew⟩
  · rintro ⟨htype, hljump, ⟨normalPath, normal, hfind, hpath, hnode⟩, hlt, hmemory, hnew⟩
    obtain ⟨hfind', hpath'⟩ := (horigin normalPath normal).2 ⟨hfind, hpath⟩
    exact ⟨htype, hljump, ⟨normalPath, normal, hfind', hpath', hnode⟩, hlt, hmemory, hnew⟩

end Unchanged

/-! ## The head of the policy -/

section Head

variable {r : Reader T V} {policy : PolicyHead} {path : Nat} {f f' : Forest T V}
  {returned : Option Returned}

/-- A policy for duplicates or aspects is put at a node, or no path is returned. -/
theorem insertBranch_cases (h : insertBranch r policy path f = .done (returned, f'))
    (htype : policy.type = MSG_FLOW_DUP ∨ policy.type = MSG_FLOW_ASPECT) :
    (∃ back, returned = some back ∧ (∀ a, back ≠ .path a) ∧ f' = f) ∨
      returned = none ∧ ∃ insertNode, Branches r policy f insertNode := by
  unfold insertBranch at h
  cases hfind : routerFindPolicyByname f policy.name policy.rjump policy.ljump f.routeForest with
  | fault =>
    rw [hfind] at h
    cases h
  | error e =>
    rw [hfind] at h
    cases h
  | done origin =>
    rw [hfind, Outcome.done_bind] at h
    split at h
    · cases h
      refine .inl ⟨_, rfl, fun a => ?_, rfl⟩
      split_ifs <;> nofun
    · rename_i normalPath normal horigin
      obtain ⟨a, rfl, ha⟩ := Option.bind_eq_some_iff.1 horigin
      obtain ⟨p, hp, hpair⟩ := Option.map_eq_some_iff.1 ha
      cases hpair
      by_cases hljump : policy.ljump = 0
      · simp only [if_pos hljump] at h
        cases h
        exact .inl ⟨_, rfl, nofun, rfl⟩
      simp only [if_neg hljump] at h
      cases hnode : routeGetNodeByjump normal r.insertNode policy.ljump policy.rjump with
      | none =>
        simp only [hnode] at h
        cases h
        exact .inl ⟨_, rfl, nofun, rfl⟩
      | some insertNode =>
        simp only [hnode] at h
        cases hbranch : r.memory .branch with
        | false =>
          simp only [hbranch] at h
          cases h
          exact .inl ⟨_, rfl, nofun, rfl⟩
        | true =>
          cases hrecord : r.memory .branchRecord with
          | false =>
            simp only [hbranch, hrecord] at h
            cases h
            exact .inl ⟨_, rfl, nofun, rfl⟩
          | true =>
            by_cases hlt : f.nodes.length ≤ insertNode
            · simp [hbranch, hrecord, hlt] at h
            cases hnew : policy.newname with
            | none => simp [hbranch, hrecord, hlt, hnew] at h
            | some newname =>
              refine .inr ⟨?_, insertNode, htype, hljump, ⟨normalPath, normal, hfind, hp, hnode⟩,
                Nat.lt_of_not_le hlt, ⟨hbranch, hrecord⟩, hnew ▸ rfl⟩
              simp [hbranch, hrecord, hlt, hnew] at h
              exact h.1.symm

/-- The policies with a branch at a node, to a path which is changed. -/
def Forest.withBranch (f : Forest T V) (insertNode : Nat) (branch : BranchNode)
    (g : RoutePath T V → RoutePath T V) : Forest T V :=
  (f.modifyNode insertNode (·.addBranch branch)).modifyPath branch.branchPath g

/-- A policy that can be put at a node has its path as a branch there, and is one for queries
    if it is for aspects. -/
theorem insertBranch_of_branches (h : Branches r policy f insertNode)
    (hpath : path < f.paths.length) :
    ∃ branch g, branch.branchPath = path ∧
      insertBranch r policy path f = .done (none, f.withBranch insertNode branch g) ∧
      (f.withBranch insertNode branch g).isQuery path = decide (policy.type = MSG_FLOW_ASPECT) := by
  obtain ⟨htype, hljump, ⟨normalPath, normal, hfind, hp, hnode⟩, hlt, ⟨hbranch, hrecord⟩, hnew⟩ := h
  obtain ⟨newname, hnew⟩ := Option.isSome_iff_exists.1 hnew
  refine ⟨⟨normalPath, policy.type, path⟩, policy.setBranch newname, rfl, ?_, ?_⟩
  · simp only [insertBranch, hfind, Outcome.done_bind, Option.bind_some, hp, Option.map_some,
      if_neg hljump, hnode, hbranch, hrecord, Bool.not_true, Bool.false_eq_true, if_false,
      if_neg (Nat.not_le.2 hlt), hnew]
    rfl
  · have hquery : (policy.setBranch newname f.paths[path]).flow = MSG_FLOW_QUERY ↔
        policy.type = MSG_FLOW_ASPECT := by
      rcases htype with htype | htype <;> simp only [PolicyHead.setBranch, htype] <;> decide
    rw [Forest.isQuery, Forest.withBranch, Forest.modifyPath_self]
    simp only [Forest.modifyNode, List.getElem?_eq_getElem hpath, Option.map_some, Option.any_some,
      hquery]

/-- A path whose flow stays is one for queries if it was. -/
theorem isQuery_modifyPath {g : RoutePath T V → RoutePath T V} (hg : ∀ p, (g p).flow = p.flow) :
    (f.modifyPath path g).isQuery path = f.isQuery path := (Adds.modifyPath hg).isQuery_eq

/-- The head of a policy is set: no path is returned, or the policy is put at a node, or
    nothing but its path is changed. -/
theorem setHead_cases (h : setHead r policy path f = .done (returned, f')) :
    (∃ back, returned = some back ∧ (∀ a, back ≠ .path a) ∧ f' = f) ∨
      returned = none ∧
        ((∃ insertNode, Branches r policy f insertNode) ∨ ∃ g, f' = f.modifyPath path g) := by
  unfold setHead at h
  obtain ⟨⟨back, f₁⟩, hset, hjumps⟩ := Outcome.bind_eq_done.1 h
  by_cases htype : policy.type = MSG_FLOW_DUP ∨ policy.type = MSG_FLOW_ASPECT
  · rw [if_pos htype] at hset
    rcases insertBranch_cases hset htype with ⟨back, rfl, hback, rfl⟩ | ⟨rfl, hbranch⟩
    · cases hjumps
      exact .inl ⟨back, rfl, hback, rfl⟩
    · cases hjumps
      exact .inr ⟨rfl, .inl hbranch⟩
  · rw [if_neg htype] at hset
    cases hname : policy.name with
    | none =>
      rw [hname] at hset
      cases hset
    | some name =>
      rw [hname] at hset
      cases hset
      cases hjumps
      refine .inr ⟨rfl, .inr ⟨policy.setJumps ∘ policy.setNormal name, ?_⟩⟩
      simp only [Forest.modifyPath, List.modify_modify_eq]

/-- A policy that can be put at a node is put there as its head is set. -/
theorem setHead_of_branches (h : Branches r policy f insertNode) (hpath : path < f.paths.length) :
    ∃ branch g, branch.branchPath = path ∧
      setHead r policy path f = .done (none, f.withBranch insertNode branch g) ∧
      (f.withBranch insertNode branch g).isQuery path = decide (policy.type = MSG_FLOW_ASPECT) := by
  obtain ⟨branch, g, rfl, hinsert, hquery⟩ := insertBranch_of_branches h hpath
  have hjumps : f.withBranch insertNode branch (policy.setJumps ∘ g) =
      (f.withBranch insertNode branch g).modifyPath branch.branchPath policy.setJumps := by
    simp only [Forest.withBranch, Forest.modifyPath, List.modify_modify_eq]
  refine ⟨branch, policy.setJumps ∘ g, rfl, ?_, ?_⟩
  · rw [setHead, if_pos h.type, hinsert, hjumps]
    rfl
  · rw [hjumps, ← hquery]
    exact isQuery_modifyPath fun _ => rfl

end Head

/-! ## What a call does -/

section Call

variable {r : Reader T V} {policyNode : JsonNode} {f f' f₁ f₂ : Forest T V} {returned : Returned}

/-- The policy of a JSON node is put at a node. -/
structure NodeBranches (r : Reader T V) (policyNode : JsonNode) (f : Forest T V)
    (policy : PolicyHead) (insertNode : Nat) : Prop where
  memory : r.memory .path ∧ r.memory .head
  reads : ∃ tempNode, jsonFindElem "policy_head" policyNode = some tempNode ∧
    r.policyHead tempNode = some policy
  branches : Branches r policy f insertNode

/-- A policy that is put at a node is put there, and its rules are read then. -/
theorem NodeBranches.routeReadPolicy {policy : PolicyHead}
    (h : NodeBranches r policyNode f.routePathCreate policy insertNode) :
    ∃ branch g f₂, branch.branchPath = f.paths.length ∧
      Adds f.paths.length (f.routePathCreate.withBranch insertNode branch g) f₂ ∧
      ∃ read : Bool, (read ↔ RulesLoad r policyNode (policy.type = MSG_FLOW_ASPECT)) ∧
        routeReadPolicy r policyNode f =
          .done (if read then .path f.paths.length else .null, f₂) := by
  obtain ⟨⟨hpath, hhead⟩, ⟨tempNode, hfind, hpolicy⟩, hbranches⟩ := h
  have hlt : f.paths.length < f.routePathCreate.paths.length := by simp [Forest.routePathCreate]
  obtain ⟨branch, g, hbranch, hset, hquery⟩ := setHead_of_branches hbranches hlt
  obtain ⟨hadds, hread⟩ := readRules_does (r := r) policyNode
    (f.routePathCreate.withBranch insertNode branch g)
  refine ⟨branch, g, _, hbranch, hadds, (readRules r policyNode f.paths.length
    (f.routePathCreate.withBranch insertNode branch g)).1, ?_, ?_⟩
  · rw [hread, hquery, decide_eq_true_eq]
  · unfold LivePolicy.routeReadPolicy
    simp only [hpath, hhead, hfind, hpolicy, hset, Bool.not_true, Bool.false_eq_true, if_false,
      Outcome.done_bind]

/-- What a call does: it returns before anything but a new path is made, or it reads to the new
    path only, or it puts the policy at a node. -/
theorem routeReadPolicy_cases (h : routeReadPolicy r policyNode f = .done (returned, f')) :
    ((∀ path, returned ≠ .path path) ∧ (f' = f ∨ f' = f.routePathCreate)) ∨
      (∃ g, Adds f.paths.length (f.routePathCreate.modifyPath f.paths.length g) f' ∧
        (returned = .path f.paths.length ∨ returned = .null)) ∨
      ∃ policy insertNode, NodeBranches r policyNode f.routePathCreate policy insertNode := by
  unfold routeReadPolicy at h
  rcases hmem : r.memory .path
  · simp only [hmem] at h
    cases h
    exact .inl ⟨nofun, .inl rfl⟩
  simp only [hmem, Bool.not_true, Bool.false_eq_true, if_false] at h
  rcases hfind : jsonFindElem "policy_head" policyNode with _ | tempNode
  · simp only [hfind] at h
    cases h
    exact .inl ⟨nofun, .inr rfl⟩
  simp only [hfind] at h
  rcases hmem' : r.memory .head
  · simp only [hmem'] at h
    cases h
    exact .inl ⟨nofun, .inr rfl⟩
  simp only [hmem', Bool.not_true, Bool.false_eq_true, if_false] at h
  rcases hhead : r.policyHead tempNode with _ | policy
  · simp only [hhead] at h
    cases h
    exact .inl ⟨nofun, .inr rfl⟩
  simp only [hhead] at h
  obtain ⟨⟨back, f₁⟩, hset, hrules⟩ := Outcome.bind_eq_done.1 h
  rcases setHead_cases hset with
    ⟨back, rfl, hback, rfl⟩ | ⟨rfl, ⟨insertNode, hbranches⟩ | ⟨g, rfl⟩⟩
  · cases hrules
    exact .inl ⟨hback, .inr rfl⟩
  · exact .inr (.inr ⟨policy, insertNode, ⟨hmem, hmem'⟩, ⟨tempNode, hfind, hhead⟩, hbranches⟩)
  · cases hrules
    refine .inr (.inl ⟨g, (readRules_does policyNode _).1, ?_⟩)
    split_ifs
    · exact .inl rfl
    · exact .inr rfl

/-- A branch that is put at a node is there, whatever is added then. -/
theorem not_unchanged_withBranch {branch : BranchNode}
    {g : RoutePath T V → RoutePath T V} (hlt : insertNode < f.nodes.length)
    (h : Adds branch.branchPath (f.routePathCreate.withBranch insertNode branch g) f₂) :
    ¬ Unchanged f f₂ := by
  intro hsame
  have hget : (f.routePathCreate.withBranch insertNode branch g).nodes[insertNode]? =
      some (f.nodes[insertNode].addBranch branch) := by
    change (f.nodes.modify insertNode (·.addBranch branch))[insertNode]? = _
    rw [List.getElem?_modify_eq, List.getElem?_eq_getElem hlt]
    rfl
  have hsite := hsame.nodes insertNode hlt
  rw [h.getElem?_nodes hget, List.getElem?_eq_getElem hlt] at hsite
  have hbranches := congrArg (fun node => node.aspectBranch.length) (Option.some.inj hsite)
  simp [RouteNode.addBranch] at hbranches

/-- If the policy is put at a node, its rules can be read. -/
def LoadsIfBranch (r : Reader T V) (policyNode : JsonNode) (f : Forest T V) : Prop :=
  ∀ policy insertNode, NodeBranches r policyNode f policy insertNode →
    RulesLoad r policyNode (policy.type = MSG_FLOW_ASPECT)

theorem nodeBranches_routePathCreate (hf : f.Closed) {policy : PolicyHead} :
    NodeBranches r policyNode f.routePathCreate policy insertNode ↔
      NodeBranches r policyNode f policy insertNode :=
  ⟨fun h => { h with branches := (branches_routePathCreate hf).1 h.branches },
    fun h => { h with branches := (branches_routePathCreate hf).2 h.branches }⟩

/-- Where no path is returned, the policy has not been put at a node. -/
theorem unchanged_of_loads (hf : f.Closed) (hloads : LoadsIfBranch r policyNode f)
    (h : routeReadPolicy r policyNode f = .done (returned, f'))
    (hreturned : ∀ path, returned ≠ .path path) : Unchanged f f' := by
  rcases routeReadPolicy_cases h with
    ⟨-, rfl | rfl⟩ | ⟨g, hadds, -⟩ | ⟨policy, insertNode, hbranches⟩
  · exact Unchanged.refl f'
  · exact Unchanged.routePathCreate f
  · exact ((Unchanged.routePathCreate f).modifyPath g).adds hadds
  · -- The rules are read, since the policy is at a node: a path is returned.
    obtain ⟨branch, g, f₂, -, -, read, hread, hpolicy⟩ := hbranches.routeReadPolicy
    have hrules := hloads policy insertNode ((nodeBranches_routePathCreate hf).1 hbranches)
    rw [hpolicy, hread.2 hrules] at h
    cases h
    exact absurd rfl (hreturned f.paths.length)

/-- A policy that is not read leaves the policies loaded before as they are, if and only if its
    rules can be read where it is put at a node of one of them. -/
theorem routeReadPolicy_allOrNothing_iff (hf : f.Closed) :
    AllOrNothing r policyNode f ↔ LoadsIfBranch r policyNode f := by
  constructor
  · intro hall policy insertNode h
    have hbranches := (nodeBranches_routePathCreate hf).2 h
    obtain ⟨branch, g, f₂, hbranch, hadds, read, hread, hpolicy⟩ := hbranches.routeReadPolicy
    by_contra hloads
    -- No path is returned, and the branch is there.
    rw [Bool.eq_false_iff.2 fun hr => hloads (hread.1 hr)] at hpolicy
    rw [← hbranch] at hadds
    exact not_unchanged_withBranch h.branches.node hadds (hall _ _ hpolicy nofun).1
  · intro hloads returned f' h hreturned
    have hsame := unchanged_of_loads hf hloads h hreturned
    exact ⟨hsame, hsame.routesAlike hf⟩

end Call

/-! ## Policies read one after the other -/

section Reached

variable {f f' : Forest T V} {path : Nat}

/-- The policies loaded, from none at first: a JSON node is read, and what is read from it may
    be added to the others (`route_add_policy`). -/
inductive Reached : Forest T V → Prop
  | init : Reached ⟨[], [], []⟩
  | read {f f' : Forest T V} (h : Reached f) (r : Reader T V) (policyNode : JsonNode)
    (returned : Returned) (hread : routeReadPolicy r policyNode f = .done (returned, f')) :
    Reached f'
  | add {f f' : Forest T V} (h : Reached f) (r : Reader T V) (policyNode : JsonNode) (path : Nat)
    (hread : routeReadPolicy r policyNode f = .done (.path path, f')) :
    Reached { f' with routeForest := f'.routeForest ++ [path] }

theorem Forest.Closed.routePathCreate (hf : f.Closed) : f.routePathCreate.Closed where
  routeForest path hpath := by
    have hlt := hf.routeForest path hpath
    simp only [Forest.routePathCreate, List.length_append]
    omega
  branch node hnode branch hbranch := by
    have hlt := hf.branch node hnode branch hbranch
    simp only [Forest.routePathCreate, List.length_append]
    omega

theorem Forest.Closed.modifyPath (hf : f.Closed) (path : Nat) (g : RoutePath T V → RoutePath T V) :
    (f.modifyPath path g).Closed where
  routeForest a ha := (Forest.modifyPath_length g).symm ▸ hf.routeForest a ha
  branch node hnode branch hbranch :=
    (Forest.modifyPath_length g).symm ▸ hf.branch node hnode branch hbranch

/-- What is added to a path has no branches yet. -/
theorem Forest.Closed.adds (hf : f.Closed) (h : Adds path f f') : f'.Closed where
  routeForest a ha := by
    rw [h.routeForest] at ha
    rw [h.length]
    exact hf.routeForest a ha
  branch node hnode branch hbranch := by
    obtain ⟨more, hnodes, hmore⟩ := h.nodes
    rw [h.length]
    rw [hnodes, List.mem_append] at hnode
    rcases hnode with hnode | hnode
    · exact hf.branch node hnode branch hbranch
    · rw [hmore node hnode] at hbranch
      cases hbranch

/-- A branch to a path there is. -/
theorem Forest.Closed.addBranch (hf : f.Closed) {branch : BranchNode}
    (hbranch : branch.branchPath < f.paths.length) (insertNode : Nat) :
    (f.modifyNode insertNode (·.addBranch branch)).Closed where
  routeForest := hf.routeForest
  branch node hnode b hb := by
    obtain ⟨n, hn⟩ := List.mem_iff_getElem?.1 hnode
    rw [Forest.modifyNode, List.getElem?_modify, Option.map_eq_map,
      Option.map_eq_some_iff] at hn
    obtain ⟨node₀, hnode₀, rfl⟩ := hn
    have hmem := List.mem_of_getElem? hnode₀
    split_ifs at hb
    · rcases List.mem_append.1 hb with hb | hb
      · exact hf.branch node₀ hmem b hb
      · rw [List.mem_singleton.1 hb]
        exact hbranch
    · exact hf.branch node₀ hmem b hb

/-- What is read leaves all branches with paths, and the new policy too. -/
theorem Forest.Closed.routeReadPolicy (hf : f.Closed) {r : Reader T V} {policyNode : JsonNode}
    {returned : Returned} (h : routeReadPolicy r policyNode f = .done (returned, f')) :
    f'.Closed ∧ ∀ path, returned = .path path → path < f'.paths.length := by
  have hnew : f.routePathCreate.paths.length = f.paths.length + 1 := by
    simp [Forest.routePathCreate]
  rcases routeReadPolicy_cases h with
    ⟨hreturned, rfl | rfl⟩ | ⟨g, hadds, hreturned⟩ | ⟨policy, insertNode, hbranches⟩
  · exact ⟨hf, fun path hpath => absurd hpath (hreturned path)⟩
  · exact ⟨hf.routePathCreate, fun path hpath => absurd hpath (hreturned path)⟩
  · refine ⟨(hf.routePathCreate.modifyPath _ g).adds hadds, ?_⟩
    rintro path rfl
    obtain hpath | hpath := hreturned <;> cases hpath
    rw [hadds.length, Forest.modifyPath_length, hnew]
    exact Nat.lt_succ_self _
  · obtain ⟨branch, g, f₂, hbranch, hadds, read, -, hpolicy⟩ := hbranches.routeReadPolicy
    rw [hpolicy] at h
    cases h
    have hlt : branch.branchPath < f.routePathCreate.paths.length := by
      rw [hbranch, hnew]
      exact Nat.lt_succ_self _
    refine ⟨((hf.routePathCreate.addBranch hlt insertNode).modifyPath _ g).adds hadds, ?_⟩
    intro path hpath
    obtain rfl : path = f.paths.length := by
      split_ifs at hpath
      cases hpath
      rfl
    rw [hadds.length, ← hbranch]
    exact (Forest.modifyPath_length g).symm ▸ hlt

/-- The policies loaded, and all branches, have paths. -/
theorem Reached.closed (h : Reached f) : f.Closed := by
  induction h with
  | init => exact ⟨nofun, nofun⟩
  | read h r policyNode returned hread ih => exact (ih.routeReadPolicy hread).1
  | add h r policyNode path hread ih =>
    obtain ⟨hclosed, hpath⟩ := ih.routeReadPolicy hread
    refine ⟨fun a ha => ?_, hclosed.branch⟩
    rcases List.mem_append.1 ha with ha | ha
    · exact hclosed.routeForest a ha
    · rw [List.mem_singleton.1 ha]
      exact hpath path rfl

end Reached

/-! ## A policy without rules -/

/-- A member of an object that is a string. -/
def stringNode (name value : String) : JsonNode :=
  { elemType := .string, isValue := true, name := name.toList, valueStr := some value.toList }

/-- A rule for the messages of a type: `{"op":"AND","area":"HEAD","type":"MESSAGE",
    "subtype":"BASE_MSG"}`. -/
def ruleNode : JsonNode :=
  { elemType := .map, elemNo := 4
    childlist := [stringNode "op" "AND", stringNode "area" "HEAD", stringNode "type" "MESSAGE",
      stringNode "subtype" "BASE_MSG"] }

/-- The policy `{"policy_head":{"name":"a","type":"DUP","newname":"b","ljump":1},
    "MATCH_RULES":[…],"ROUTE_RULES":{}}`, which has no `main_policy`. -/
def noRoute : JsonNode :=
  { elemType := .map, elemNo := 3
    childlist := [
      { elemType := .map, name := "policy_head".toList, elemNo := 4
        childlist := [stringNode "name" "a", stringNode "type" "DUP", stringNode "newname" "b",
          { elemType := .num, isValue := true, name := "ljump".toList, value := 1 }] },
      { elemType := .array, name := "MATCH_RULES".toList, elemNo := 1, childlist := [ruleNode] },
      { elemType := .map, name := "ROUTE_RULES".toList }] }

/-- The head of the policy, and its rule, where there is memory for all. -/
def noRouteReader : Reader Unit Unit where
  memory _ := true
  policyHead _ := some ⟨some [97], 0, MSG_FLOW_DUP, .replicate _ 0, some [98], 1, 0⟩
  matchHead _ := some ⟨1, 2, 0x200, 6⟩
  routeRule _ := none
  structClone := some
  memdbGetTemplate _ _ := none
  cloneStructTemplate := some
  jsonMarkedStruct _ template _ := some template
  json2PartStruct _ _ _ := some ()
  ret := 0
  insertNode := none

/-- A policy `a`, with a node for the connector `c` and the last node. -/
def onePolicy : Forest Unit Unit where
  paths := [⟨strncpy [97], .replicate _ 0, 0, 0, 1, MSG_FLOW_DELIVER, [], [0, 1], []⟩]
  nodes := [⟨0, ⟨8, some [99]⟩, []⟩, ⟨0, ⟨ROUTE_TARGET_FINISH, none⟩, []⟩]
  routeForest := [0]

theorem onePolicy_closed : onePolicy.Closed := ⟨by decide, by decide⟩

/-- The policies loaded have paths, and stay as they are if the rules of the policy load. -/
theorem routeReadPolicy_allOrNothing_iff_noRoute :
    onePolicy.Closed ∧ (AllOrNothing noRouteReader noRoute onePolicy ↔
      LoadsIfBranch noRouteReader noRoute onePolicy) :=
  ⟨onePolicy_closed, routeReadPolicy_allOrNothing_iff onePolicy_closed⟩

/-- A policy for duplicates that has no route is not read, and is a branch of the node for the
    connector of `a` then. -/
theorem routeReadPolicy_not_allOrNothing : ¬ ∀ {T V : Type} (r : Reader T V)
    (policyNode : JsonNode) (f : Forest T V), f.Closed → AllOrNothing r policyNode f := by
  intro h
  have hsame := (h noRouteReader noRoute onePolicy onePolicy_closed .null _ rfl nofun).1
  have hnode := hsame.nodes 0 (by decide)
  revert hnode
  decide

end Cube.LivePolicy
