import Cube.Dispatch.PolicyFailure

/-!
# Where a branch is put

A policy for duplicates or aspects becomes a branch of a node of another policy, its origin:
of the node at its jump, on the route path of the origin, or on its response path where the
policy jumps back.

* `Keeps.readRules`, `routeReadPolicy_keeps`: what is kept by each rule that is read is kept by all
  of them, and by the policy.
* `Reached.sited`: the paths of the policies that are read have nodes.
* `putAtSite_iff`: the branch is put at the node at the jump and at no other one, and nowhere
  if there is no such node, unless the path has fewer nodes than the jump counts, or the policy
  is to be a branch and has no name of its own.
-/

namespace Cube.LivePolicy

open Lib Json
open Route (RouteRule MSG_FLOW_ASPECT)

variable {T V : Type}

/-! ## The site of a branch -/

/-- The nodes of the path that a jump counts on. -/
def RoutePath.nodesOn (p : RoutePath T V) (rjump : Int32) : List Nat :=
  if 0 ≤ rjump.toInt then p.routePath else p.responsePath

/-- The origin of a policy: the first loaded policy of the name, for the jumps. -/
def Forest.origin (f : Forest T V) (policy : PolicyHead) (name : List UInt8) :
    Option (Nat × RoutePath T V) :=
  f.routeForest.findSome? fun a =>
    (f.paths[a]?).bind fun p =>
      if p.isNamed name policy.rjump policy.ljump then some (a, p) else none

/-- The node at the jump of the policy, counted from 1. -/
def Forest.branchSite (f : Forest T V) (policy : PolicyHead) (name : List UInt8) : Option Nat :=
  (f.origin policy name).bind fun (_, normal) =>
    if 0 < policy.ljump.toInt then
      (normal.nodesOn policy.rjump)[policy.ljump.toInt.toNat - 1]?
    else none

/-- Nodes there were, and more of them, which have no branches. -/
def Grown (nodes nodes' : List RouteNode) : Prop :=
  ∃ more, nodes' = nodes ++ more ∧ ∀ node ∈ more, node.aspectBranch = []

/-- One node has one more branch, to the path, and no other node has one more. -/
def BranchAt (f f' : Forest T V) (site path : Nat) : Prop :=
  ∃ branch : BranchNode, branch.branchPath = path ∧
    Grown (f.nodes.modify site (·.addBranch branch)) f'.nodes

/-- No path is returned, and no node has one more branch. -/
def Rejected (returned : Returned) (f f' : Forest T V) : Prop :=
  (∀ path, returned ≠ .path path) ∧ Grown f.nodes f'.nodes

/-- There is memory for a branch. -/
def Reader.BranchMemory (r : Reader T V) : Prop := r.memory .branch ∧ r.memory .branchRecord

/-- A policy is put at its site and nowhere else, and rejected if there is none, or no memory
    for the branch; whatever is found in what is not set. -/
def PutAtSite (r : Reader T V) (policyNode : JsonNode) (policy : PolicyHead) (name : List UInt8)
    (f : Forest T V) : Prop :=
  ∀ ret insertNode, ∃ returned f',
    routeReadPolicy { r with ret := ret, insertNode := insertNode } policyNode f =
      .done (returned, f') ∧
    match f.branchSite policy name with
    | some site =>
      (r.BranchMemory → BranchAt f f' site f.paths.length) ∧
        (¬ r.BranchMemory → Rejected returned f f')
    | none => Rejected returned f f'

/-- The jump does not lead beyond the path of the origin, and a policy that is to be a branch
    has a name of its own. -/
def WithinPath (policy : PolicyHead) (name : List UInt8) (f : Forest T V) : Prop :=
  (∀ a normal, f.origin policy name = some (a, normal) →
    policy.ljump.toInt ≤ (normal.nodesOn policy.rjump).length) ∧
  ((f.branchSite policy name).isSome → policy.newname.isSome)

/-- The head of a policy is read from a JSON node. -/
structure ReadsHead (r : Reader T V) (policyNode : JsonNode) (policy : PolicyHead) : Prop where
  memory : r.memory .path ∧ r.memory .head
  reads : ∃ tempNode, jsonFindElem "policy_head" policyNode = some tempNode ∧
    r.policyHead tempNode = some policy

/-! ## The search for the origin -/

section Origin

variable {f f' : Forest T V} {policy : PolicyHead} {name : List UInt8}

/-- The search comes to the origin. -/
theorem routerFindPolicyByname_origin (hf : f.Closed) (policy : PolicyHead) (name : List UInt8) :
    ∃ origin, routerFindPolicyByname f (some name) policy.rjump policy.ljump f.routeForest =
        .done origin ∧
      (origin.bind fun a => (f.paths[a]?).map (a, ·)) = f.origin policy name := by
  have hpaths := hf.routeForest
  rw [Forest.origin]
  generalize f.routeForest = policies at hpaths
  induction policies with
  | nil => exact ⟨none, rfl, rfl⟩
  | cons first rest ih =>
    rw [List.forall_mem_cons] at hpaths
    have hfirst := List.getElem?_eq_getElem hpaths.1
    simp only [routerFindPolicyByname, hfirst, List.findSome?_cons, Option.bind_some]
    by_cases hnamed : f.paths[first].isNamed name policy.rjump policy.ljump
    · refine ⟨some first, by rw [if_pos hnamed], ?_⟩
      simp [hnamed, hfirst]
    · obtain ⟨origin, hfind, horigin⟩ := ih hpaths.2
      refine ⟨origin, by rw [if_neg hnamed, hfind], ?_⟩
      simp only [if_neg hnamed, horigin]

/-- A path that is created is no origin. -/
theorem origin_routePathCreate (hf : f.Closed) (policy : PolicyHead) (name : List UInt8) :
    f.routePathCreate.origin policy name = f.origin policy name := by
  have hpaths : ∀ a ∈ f.routeForest, f.routePathCreate.paths[a]? = f.paths[a]? :=
    fun a ha => (Unchanged.routePathCreate f).paths a (hf.routeForest a ha)
  change f.routeForest.findSome? _ = _
  rw [Forest.origin]
  generalize f.routeForest = policies at hpaths
  induction policies with
  | nil => rfl
  | cons first rest ih =>
    rw [List.forall_mem_cons] at hpaths
    simp only [List.findSome?_cons, hpaths.1, ih hpaths.2]

/-- An origin is the path at its number. -/
theorem origin_getElem? {a : Nat} {normal : RoutePath T V}
    (h : f.origin policy name = some (a, normal)) : f.paths[a]? = some normal := by
  obtain ⟨b, -, hb⟩ := List.exists_of_findSome?_eq_some h
  obtain ⟨p, hp, hpair⟩ := Option.bind_eq_some_iff.1 hb
  split_ifs at hpair
  cases hpair
  exact hp

end Origin

/-! ## Rules that are read -/

section Keeps

variable {r : Reader T V} {path : Nat} {f f' : Forest T V} {P : Forest T V → Prop}
  {first second : Step T V}

/-- What is so of policies is so after the part. -/
def Keeps (P : Forest T V → Prop) (step : Step T V) : Prop := ∀ f, P f → P (step f).2

theorem Keeps.andThen (h : Keeps P first) (h' : Keeps P second) : Keeps P (first.andThen second) := by
  intro f hf
  have hfirst := h f hf
  rw [Step.andThen]
  cases hf₁ : first f with
  | mk more f₁ =>
    rw [hf₁] at hfirst
    cases more with
    | false => exact hfirst
    | true => exact h' f₁ hfirst

theorem Keeps.readEach {step : Nat → JsonNode → Step T V} (h : ∀ i node, Keeps P (step i node))
    (i : Nat) (nodes : List JsonNode) : Keeps P (LivePolicy.readEach step i nodes) := by
  induction nodes generalizing i with
  | nil => exact fun f hf => hf
  | cons node nodes ih => exact (h i node).andThen (ih (i + 1))

theorem Keeps.readRouteRules
    (hadd : ∀ onResponse i rule, Keeps P (addRule r onResponse path i rule)) (onResponse : Bool)
    (nodes : List JsonNode) : Keeps P (LivePolicy.readRouteRules r onResponse path nodes) := by
  refine (Keeps.readEach (fun i node f hf => ?_) 0 nodes).andThen fun f hf => ?_
  · rw [readRouteRule]
    split
    · exact hf
    split
    · exact hf
    · rw [addRouteRule_eq]
      exact hadd onResponse i _ f hf
  · rw [finishRules]
    split
    · exact hf
    · rw [addRouteRule_eq]
      exact hadd onResponse nodes.length _ f hf

theorem Keeps.readMatchRule
    (hmatch : ∀ i rule f, P f → P (routePolicyAddmatchrule r path i rule f)) (i : Nat)
    (node : JsonNode) : Keeps P (LivePolicy.readMatchRule r path i node) := by
  intro f hf
  unfold LivePolicy.readMatchRule
  split
  · exact hf
  split
  · exact hf
  split
  · exact hmatch i _ f hf
  split
  · exact hf
  · exact hmatch i _ f hf

/-- What is kept by each rule is kept when all rules of a policy are read. -/
theorem Keeps.readRules (hmatch : ∀ i rule f, P f → P (routePolicyAddmatchrule r path i rule f))
    (hadd : ∀ onResponse i rule, Keeps P (addRule r onResponse path i rule))
    (policyNode : JsonNode) : Keeps P (LivePolicy.readRules r policyNode path) := by
  intro f hf
  rw [LivePolicy.readRules]
  split
  · exact hf
  split
  · exact hf
  · refine (Keeps.readEach (Keeps.readMatchRule hmatch) 0 _).andThen (fun f hf => ?_) f hf
    rw [readRoutePolicy]
    split
    · exact hf
    · refine (Keeps.readRouteRules hadd false _).andThen (fun f hf => ?_) f hf
      rw [readResponse]
      split
      · exact Keeps.readRouteRules hadd true _ f hf
      · exact hf

/-- Where the part that makes a branch goes on, there is a branch to the path at a node, and
    the path has its flow by the type of the policy. -/
theorem insertBranch_forest {policy : PolicyHead} {returned : Option Returned}
    (h : insertBranch r policy path f = .done (returned, f')) :
    f' = f ∨ ∃ site normalPath newname,
      f' = f.withBranch site ⟨normalPath, policy.type, path⟩ (policy.setBranch newname) := by
  unfold insertBranch at h
  obtain ⟨origin, -, h⟩ := Outcome.bind_eq_done.1 h
  split at h
  · cases h
    exact .inl rfl
  split at h
  · cases h
    exact .inl rfl
  split at h
  · cases h
    exact .inl rfl
  split at h
  · cases h
    exact .inl rfl
  split at h
  · cases h
    exact .inl rfl
  split at h
  · cases h
  split at h
  · cases h
  · cases h
    exact .inr ⟨_, _, _, rfl⟩

/-- What is so of policies is so when the head of a policy is set. -/
theorem setHead_keeps {policy : PolicyHead} {returned : Option Returned} (hf : P f)
    (hbranch : ∀ site normalPath newname, policy.type = MSG_FLOW_DUP ∨ policy.type = MSG_FLOW_ASPECT →
      P (f.withBranch site ⟨normalPath, policy.type, path⟩ (policy.setBranch newname)))
    (hnormal : ∀ name, P (f.modifyPath path (policy.setNormal name)))
    (hjumps : ∀ f, P f → P (f.modifyPath path policy.setJumps))
    (h : setHead r policy path f = .done (returned, f')) : P f' := by
  unfold setHead at h
  obtain ⟨⟨back, f₁⟩, hset, hrest⟩ := Outcome.bind_eq_done.1 h
  have h₁ : P f₁ := by
    split at hset
    · rename_i htype
      rcases insertBranch_forest hset with rfl | ⟨site, normalPath, newname, rfl⟩
      · exact hf
      · exact hbranch site normalPath newname htype
    · split at hset
      · cases hset
      · cases hset
        exact hnormal _
  cases back with
  | none =>
    cases hrest
    exact hjumps f₁ h₁
  | some back =>
    cases hrest
    exact h₁

/-- What is so of a new path, and is kept when its head is set and its rules are read, is so when
    a policy is read. -/
theorem routeReadPolicy_keeps {policyNode : JsonNode} {returned : Returned}
    (hcreate : P f.routePathCreate)
    (hhead : ∀ policy returned f', setHead r policy f.paths.length f.routePathCreate =
      .done (returned, f') → P f')
    (hrules : Keeps P (readRules r policyNode f.paths.length))
    (h : routeReadPolicy r policyNode f = .done (returned, f')) : f' = f ∨ P f' := by
  unfold routeReadPolicy at h
  split at h
  · cases h
    exact .inl rfl
  split at h
  · cases h
    exact .inr hcreate
  split at h
  · cases h
    exact .inr hcreate
  split at h
  · cases h
    exact .inr hcreate
  · obtain ⟨⟨back, f₁⟩, hset, hrest⟩ := Outcome.bind_eq_done.1 h
    have h₁ := hhead _ _ _ hset
    cases back with
    | some back =>
      cases hrest
      exact .inr h₁
    | none =>
      cases hrest
      exact .inr (hrules f₁ h₁)

end Keeps

/-! ## Paths with nodes -/

section Sited

variable {r : Reader T V} {path : Nat} {f f' : Forest T V}

/-- The nodes of the paths are some that were made. -/
def Forest.Sited (f : Forest T V) : Prop :=
  ∀ p ∈ f.paths, ∀ node ∈ p.routePath ++ p.responsePath, node < f.nodes.length

/-- A path whose nodes stay, or are some that were made, is changed. -/
theorem Forest.Sited.modifyPath (hf : f.Sited) {g : RoutePath T V → RoutePath T V}
    (hg : ∀ p, ∀ node ∈ (g p).routePath ++ (g p).responsePath,
      node ∈ p.routePath ++ p.responsePath ∨ node < f.nodes.length) :
    (f.modifyPath path g).Sited := by
  intro p hp node hnode
  obtain ⟨n, hn⟩ := List.mem_iff_getElem?.1 hp
  by_cases hpath : n = path
  · rw [hpath, Forest.modifyPath_self] at hn
    obtain ⟨p₀, hp₀, rfl⟩ := Option.map_eq_some_iff.1 hn
    exact (hg p₀ node hnode).elim (hf p₀ (List.mem_of_getElem? hp₀) node) id
  · rw [Forest.modifyPath_of_ne g hpath] at hn
    exact hf p (List.mem_of_getElem? hn) node hnode

/-- A path is changed, but for its nodes. -/
theorem Forest.Sited.modifyPath_same (hf : f.Sited) {g : RoutePath T V → RoutePath T V}
    (hroute : ∀ p, (g p).routePath = p.routePath)
    (hresponse : ∀ p, (g p).responsePath = p.responsePath) : (f.modifyPath path g).Sited :=
  hf.modifyPath fun p node hnode => .inl (by rwa [hroute, hresponse] at hnode)

theorem sited_addmatchrule (i : Nat) (rule : Dispatch.MatchRule T V) (f : Forest T V)
    (hf : f.Sited) : (routePolicyAddmatchrule r path i rule f).Sited := by
  unfold routePolicyAddmatchrule
  split_ifs
  · exact hf.modifyPath_same (fun _ => rfl) fun _ => rfl
  · exact hf

/-- A node that is added to a path was made before. -/
theorem sited_addRule (onResponse : Bool) (i : Nat) (rule : RouteRule) :
    Keeps Forest.Sited (addRule r onResponse path i rule) := by
  intro f hf
  unfold LivePolicy.addRule
  split
  · exact hf
  split
  · exact hf
  · rename_i target htarget
    have hmore : Forest.Sited { f with nodes := f.nodes ++ [⟨path, target, []⟩] } :=
      fun p hp node hnode => by
        have := hf p hp node hnode
        rw [List.length_append]
        omega
    simp only
    split_ifs
    · refine hmore.modifyPath fun p node hnode => ?_
      have hsite : node ∈ p.routePath ++ p.responsePath ∨ node = f.nodes.length := by
        cases onResponse <;> simp [RoutePath.addSite] at hnode <;> simp <;> grind
      refine hsite.imp id fun h => ?_
      simp [h]
    · exact hmore

/-! ## The site of a policy that is read -/

theorem Grown.refl (nodes : List RouteNode) : Grown nodes nodes :=
  ⟨[], (List.append_nil _).symm, nofun⟩

theorem Forest.Sited.routePathCreate (hf : f.Sited) : f.routePathCreate.Sited := by
  intro p hp node hnode
  rcases List.mem_append.1 hp with hp | hp
  · exact hf p hp node hnode
  · rw [List.mem_singleton.1 hp] at hnode
    cases hnode

theorem Forest.Sited.addBranch (hf : f.Sited) (site : Nat) (branch : BranchNode) :
    (f.modifyNode site (·.addBranch branch)).Sited := by
  intro p hp node hnode
  simpa [Forest.modifyNode] using hf p hp node hnode

/-- Reading a policy leaves the paths with their nodes. -/
theorem Forest.Sited.routeReadPolicy (hf : f.Sited) {policyNode : JsonNode} {returned : Returned}
    (h : routeReadPolicy r policyNode f = .done (returned, f')) : f'.Sited := by
  have hcreate := hf.routePathCreate
  have hread := routeReadPolicy_keeps hcreate (fun policy returned f' hset => ?_)
    (Keeps.readRules sited_addmatchrule sited_addRule policyNode) h
  · rcases hread with rfl | h'
    · exact hf
    · exact h'
  · refine setHead_keeps hcreate (fun site normalPath newname _ => ?_) (fun name => ?_)
      (fun f hf => ?_) hset
    · exact (hcreate.addBranch site _).modifyPath_same
        (fun _ => by simp only [PolicyHead.setBranch]) fun _ => by simp only [PolicyHead.setBranch]
    · exact hcreate.modifyPath_same (fun _ => by simp only [PolicyHead.setNormal])
        fun _ => by simp only [PolicyHead.setNormal]
    · exact hf.modifyPath_same (fun _ => by simp only [PolicyHead.setJumps])
        fun _ => by simp only [PolicyHead.setJumps]

/-- The paths of all policies read have nodes. -/
theorem Reached.sited (h : Reached f) : f.Sited := by
  induction h with
  | init => exact nofun
  | read h r policyNode returned hread ih => exact ih.routeReadPolicy hread
  | add h r policyNode path hread ih =>
    have := ih.routeReadPolicy hread
    exact this

end Sited

/-! ## Where a policy that is read is put -/

section Put

variable {r : Reader T V} {policyNode : JsonNode} {policy : PolicyHead} {name : List UInt8}
  {path : Nat} {f : Forest T V}

/-- How a policy that is to be a branch is read on from where its head is. -/
theorem ReadsHead.routeReadPolicy_eq (h : ReadsHead r policyNode policy)
    (htype : policy.type = MSG_FLOW_DUP ∨ policy.type = MSG_FLOW_ASPECT) (f : Forest T V) :
    routeReadPolicy r policyNode f =
      insertBranch r policy f.paths.length f.routePathCreate >>= fun (returned, f') =>
        match returned with
        | some returned => .done (returned, f')
        | none =>
          let (read, f') := readRules r policyNode f.paths.length
            (f'.modifyPath f.paths.length policy.setJumps)
          .done (if read then .path f.paths.length else .null, f') := by
  obtain ⟨⟨hpath, hhead⟩, tempNode, hfind, hpolicy⟩ := h
  unfold routeReadPolicy setHead
  simp only [hpath, hhead, hfind, hpolicy, if_pos htype, Bool.not_true, Bool.false_eq_true,
    if_false]
  cases insertBranch r policy f.paths.length f.routePathCreate with
  | done back =>
    obtain ⟨returned, f'⟩ := back
    cases returned <;> rfl
  | error e => rfl
  | fault => rfl

/-- The part that makes a branch, told by the origin. -/
theorem insertBranch_eq (hf : f.Closed) (hname : policy.name = some name) :
    insertBranch r policy path f =
      match f.origin policy name with
      | none => .done (some (if r.ret < 0 then .pointer r.ret else .null), f)
      | some (normalPath, normal) =>
        if policy.ljump = 0 then .done (some (.pointer (-EINVAL)), f)
        else
          match routeGetNodeByjump normal r.insertNode policy.ljump policy.rjump with
          | none => .done (some (.pointer (-EINVAL)), f)
          | some insertNode =>
            if !r.memory .branch then .done (some (.pointer (-ENOMEM)), f)
            else if !r.memory .branchRecord then .done (some .null, f)
            else if f.nodes.length ≤ insertNode then .fault
            else
              match policy.newname with
              | none => .fault
              | some newname =>
                .done (none, f.withBranch insertNode ⟨normalPath, policy.type, path⟩
                  (policy.setBranch newname)) := by
  obtain ⟨origin, hfind, horigin⟩ := routerFindPolicyByname_origin hf policy name
  unfold insertBranch
  rw [hname, hfind, Outcome.done_bind, horigin]
  rfl

theorem routeGetNodeByjump_eq (normal : RoutePath T V) (node : Option Nat) (ljump rjump : Int32) :
    routeGetNodeByjump normal node ljump rjump =
      if ((normal.nodesOn rjump).length : Int) < ljump.toInt then node
      else if ljump.toInt ≤ 0 then none
      else (normal.nodesOn rjump)[ljump.toInt.toNat - 1]? := rfl

/-- A jump that does not lead beyond the path leads to the site. -/
theorem routeGetNodeByjump_within {normal : RoutePath T V} {a : Nat} {node : Option Nat}
    (horigin : f.origin policy name = some (a, normal))
    (h : policy.ljump.toInt ≤ (normal.nodesOn policy.rjump).length) :
    routeGetNodeByjump normal node policy.ljump policy.rjump = f.branchSite policy name := by
  rw [routeGetNodeByjump_eq, Forest.branchSite, horigin, if_neg (by omega)]
  simp only [Option.bind_some]
  by_cases hpos : 0 < policy.ljump.toInt
  · rw [if_neg (by omega), if_pos hpos]
  · rw [if_pos (by omega), if_neg hpos]

/-- A jump beyond the path leaves the node as it was. -/
theorem routeGetNodeByjump_beyond {normal : RoutePath T V} {node : Option Nat}
    (h : (normal.nodesOn policy.rjump).length < policy.ljump.toInt) :
    routeGetNodeByjump normal node policy.ljump policy.rjump = node := by
  rw [routeGetNodeByjump_eq, if_pos h]

/-- There is no site beyond a path. -/
theorem branchSite_beyond {normal : RoutePath T V} {a : Nat}
    (horigin : f.origin policy name = some (a, normal))
    (h : (normal.nodesOn policy.rjump).length < policy.ljump.toInt) :
    f.branchSite policy name = none := by
  rw [Forest.branchSite, horigin]
  simp only [Option.bind_some]
  rw [if_pos (by omega)]
  exact List.getElem?_eq_none (by omega)

/-- The site is a node that was made. -/
theorem branchSite_lt (hs : f.Sited) {site : Nat} (h : f.branchSite policy name = some site) :
    site < f.nodes.length := by
  obtain ⟨⟨a, normal⟩, horigin, hsite⟩ := Option.bind_eq_some_iff.1 h
  split_ifs at hsite
  have hmem := List.mem_of_getElem? hsite
  refine hs normal (List.mem_of_getElem? (origin_getElem? horigin)) site ?_
  rw [RoutePath.nodesOn] at hmem
  split_ifs at hmem
  · exact List.mem_append_left _ hmem
  · exact List.mem_append_right _ hmem

/-- A policy that has a site jumps. -/
theorem ljump_ne_zero {site : Nat} (h : f.branchSite policy name = some site) :
    policy.ljump ≠ 0 := by
  intro hzero
  obtain ⟨_, -, hsite⟩ := Option.bind_eq_some_iff.1 h
  simp [hzero] at hsite

/-- What is found in what is not set does not matter for the head that is read. -/
theorem ReadsHead.congr (h : ReadsHead r policyNode policy) (ret : Int) (insertNode : Option Nat) :
    ReadsHead { r with ret := ret, insertNode := insertNode } policyNode policy :=
  ⟨h.memory, h.reads⟩

/-- If no branch is made, the policy is rejected. -/
theorem ReadsHead.rejected (h : ReadsHead r policyNode policy)
    (htype : policy.type = MSG_FLOW_DUP ∨ policy.type = MSG_FLOW_ASPECT) {back : Returned}
    (hback : ∀ a, back ≠ .path a)
    (hinsert : insertBranch r policy f.paths.length f.routePathCreate =
      .done (some back, f.routePathCreate)) :
    ∃ returned f', routeReadPolicy r policyNode f = .done (returned, f') ∧
      Rejected returned f f' := by
  refine ⟨back, f.routePathCreate, ?_, hback, Grown.refl _⟩
  rw [h.routeReadPolicy_eq htype, hinsert, Outcome.done_bind]

/-- If a branch is made, the rest of the policy is read to its path. -/
theorem ReadsHead.branchAt (h : ReadsHead r policyNode policy)
    (htype : policy.type = MSG_FLOW_DUP ∨ policy.type = MSG_FLOW_ASPECT) {site : Nat}
    {branch : BranchNode} {g : RoutePath T V → RoutePath T V}
    (hbranch : branch.branchPath = f.paths.length)
    (hinsert : insertBranch r policy f.paths.length f.routePathCreate =
      .done (none, f.routePathCreate.withBranch site branch g)) :
    ∃ returned f', routeReadPolicy r policyNode f = .done (returned, f') ∧
      BranchAt f f' site f.paths.length := by
  obtain ⟨hadds, -⟩ := readRules_does policyNode
    ((f.routePathCreate.withBranch site branch g).modifyPath f.paths.length policy.setJumps)
  refine ⟨_, _, by rw [h.routeReadPolicy_eq htype, hinsert, Outcome.done_bind], branch, hbranch,
    hadds.nodes⟩

/-- A policy that is to be a branch is put at the node at its jump and at no other one, and
    rejected if there is none, if and only if, where there is memory for the branch, the jump
    does not lead beyond the path of the origin and the policy has a name of its own. -/
theorem putAtSite_iff (hf : f.Closed) (hs : f.Sited) (h : ReadsHead r policyNode policy)
    (htype : policy.type = MSG_FLOW_DUP ∨ policy.type = MSG_FLOW_ASPECT)
    (hname : policy.name = some name) :
    PutAtSite r policyNode policy name f ↔ (r.BranchMemory → WithinPath policy name f) := by
  have hinsert (ret : Int) (node : Option Nat) :
      insertBranch { r with ret := ret, insertNode := node } policy f.paths.length
        f.routePathCreate = _ :=
    insertBranch_eq hf.routePathCreate hname
  simp only [origin_routePathCreate hf] at hinsert
  constructor
  · rintro hput ⟨hbranch, hrecord⟩
    have hwithin : ∀ a normal, f.origin policy name = some (a, normal) →
        policy.ljump.toInt ≤ (normal.nodesOn policy.rjump).length := by
      intro a normal horigin
      by_contra hbeyond
      -- What is not set may be the address of what is no node.
      obtain ⟨returned, f', hread, -⟩ := hput 0 (some f.nodes.length)
      have hzero : policy.ljump ≠ 0 := by
        rintro hzero
        rw [hzero] at hbeyond
        simp at hbeyond
      have hlen : f.routePathCreate.nodes.length ≤ f.nodes.length := Nat.le_refl _
      rw [(h.congr 0 _).routeReadPolicy_eq htype, hinsert, horigin] at hread
      simp only [if_neg hzero, routeGetNodeByjump_beyond (Int.not_le.1 hbeyond), hbranch, hrecord,
        hlen, Bool.not_true, Bool.false_eq_true, if_false, if_true] at hread
      cases hread
    refine ⟨hwithin, fun hsite => ?_⟩
    obtain ⟨site, hsite⟩ := Option.isSome_iff_exists.1 hsite
    obtain ⟨⟨a, normal⟩, horigin, -⟩ := Option.bind_eq_some_iff.1 hsite
    rw [Option.isSome_iff_ne_none]
    intro hnew
    obtain ⟨returned, f', hread, -⟩ := hput 0 none
    rw [(h.congr 0 _).routeReadPolicy_eq htype, hinsert, horigin] at hread
    simp only [if_neg (ljump_ne_zero hsite),
      routeGetNodeByjump_within horigin (hwithin a normal horigin), hsite, hbranch, hrecord, hnew,
      Bool.not_true, Bool.false_eq_true, if_false] at hread
    split_ifs at hread
    · cases hread
    · cases hread
  · intro hcond ret node
    have hreads := h.congr ret node
    have hinsert := hinsert ret node
    cases horigin : f.origin policy name with
    | none =>
      have hnone : f.branchSite policy name = none := by rw [Forest.branchSite, horigin]; rfl
      rw [horigin] at hinsert
      rw [hnone]
      refine hreads.rejected htype (fun a => ?_) hinsert
      split_ifs <;> nofun
    | some origin =>
      obtain ⟨a, normal⟩ := origin
      rw [horigin] at hinsert
      simp only at hinsert
      by_cases hzero : policy.ljump = 0
      · have hnone : f.branchSite policy name = none := by
          by_contra hsome
          obtain ⟨site, hsite⟩ := Option.ne_none_iff_exists'.1 hsome
          exact ljump_ne_zero hsite hzero
        rw [if_pos hzero] at hinsert
        rw [hnone]
        exact hreads.rejected htype (fun _ => by simp) hinsert
      rw [if_neg hzero] at hinsert
      cases hnode : routeGetNodeByjump normal node policy.ljump policy.rjump with
      | none =>
        have hnone : f.branchSite policy name = none := by
          rcases Int.lt_or_le (normal.nodesOn policy.rjump).length policy.ljump.toInt with hlt | hle
          · exact branchSite_beyond horigin hlt
          · rw [← routeGetNodeByjump_within horigin hle, hnode]
        rw [hnode] at hinsert
        rw [hnone]
        exact hreads.rejected htype (fun _ => by simp) hinsert
      | some insertNode =>
        rw [hnode] at hinsert
        simp only at hinsert
        by_cases hmem : r.BranchMemory
        · -- There is memory: the node found is the site.
          obtain ⟨hwithin, hnew⟩ := hcond hmem
          rw [routeGetNodeByjump_within horigin (hwithin a normal horigin)] at hnode
          have hlt : ¬ f.routePathCreate.nodes.length ≤ insertNode :=
            Nat.not_le.2 (branchSite_lt hs hnode)
          obtain ⟨newname, hnew⟩ := Option.isSome_iff_exists.1 (hnew (by rw [hnode]; rfl))
          simp only [hmem.1, hmem.2, hnew, if_neg hlt, Bool.not_true, Bool.false_eq_true,
            if_false] at hinsert
          obtain ⟨returned, f', hread, hat⟩ := hreads.branchAt htype (by rfl) hinsert
          rw [hnode]
          exact ⟨returned, f', hread, fun _ => hat, fun hno => absurd hmem hno⟩
        · obtain ⟨returned, f', hread, hrejected⟩ : ∃ returned f',
              routeReadPolicy { r with ret := ret, insertNode := node } policyNode f =
                .done (returned, f') ∧ Rejected returned f f' := by
            cases hbranch : r.memory .branch with
            | false =>
              rw [hbranch] at hinsert
              exact hreads.rejected htype (fun _ => by simp) hinsert
            | true =>
              have hrecord : r.memory .branchRecord = false :=
                Bool.eq_false_iff.2 fun hrecord => hmem ⟨hbranch, hrecord⟩
              rw [hbranch, hrecord] at hinsert
              exact hreads.rejected htype (fun _ => by simp) hinsert
          refine ⟨returned, f', hread, ?_⟩
          split
          · exact ⟨fun hm => absurd hm hmem, fun _ => hrejected⟩
          · exact hrejected

/-- A policy for duplicates of the messages of `a`, with a jump. -/
def dupPolicy (ljump : Int32) : PolicyHead :=
  ⟨some [97], 0, MSG_FLOW_DUP, .replicate _ 0, some [98], ljump, 0⟩

/-- The JSON node, read as the policy. -/
def dupReader (ljump : Int32) : Reader Unit Unit :=
  { noRouteReader with policyHead := fun _ => some (dupPolicy ljump) }

theorem readsHead_dup (ljump : Int32) : ReadsHead (dupReader ljump) noRoute (dupPolicy ljump) :=
  ⟨⟨rfl, rfl⟩, _, rfl, rfl⟩

theorem onePolicy_sited : onePolicy.Sited := by
  unfold Forest.Sited
  decide

/-- A policy with a jump to the first node of `a` is put there. -/
theorem putAtSite_iff_onePolicy :
    PutAtSite (dupReader 1) noRoute (dupPolicy 1) [97] onePolicy := by
  refine (putAtSite_iff onePolicy_closed onePolicy_sited (readsHead_dup 1) (.inl rfl) rfl).2
    fun _ => ⟨fun a normal horigin => ?_, fun _ => rfl⟩
  obtain rfl : onePolicy.paths[0] = normal := by
    have := origin_getElem? horigin
    cases horigin
    exact Option.some.inj this
  decide

/-- A policy with a jump beyond the nodes of `a` is put at a node of `a`, where the address of
    this node is found in what is not set. -/
theorem not_putAtSite : ¬ ∀ {T V : Type} (r : Reader T V) (policyNode : JsonNode)
    (policy : PolicyHead) (name : List UInt8) (f : Forest T V), f.Closed → f.Sited →
    ReadsHead r policyNode policy → (policy.type = MSG_FLOW_DUP ∨ policy.type = MSG_FLOW_ASPECT) →
    policy.name = some name → PutAtSite r policyNode policy name f := by
  intro h
  obtain ⟨returned, f', hread, hrejected⟩ := h (dupReader 3) noRoute (dupPolicy 3) [97] onePolicy
    onePolicy_closed onePolicy_sited (readsHead_dup 3) (.inl rfl) rfl 0 (some 0)
  have hnone : onePolicy.branchSite (dupPolicy 3) [97] = none := by decide
  rw [hnone] at hrejected
  obtain ⟨-, more, hnodes, -⟩ := hrejected
  have hbranch : (routeReadPolicy { dupReader 3 with ret := 0, insertNode := some 0 } noRoute
      onePolicy).toOption.map (fun back => (back.2.nodes[0]?).map (·.aspectBranch.length)) =
        some (some 1) := by decide
  rw [hread] at hbranch
  simp [Outcome.toOption, hnodes, onePolicy] at hbranch

end Put

end Cube.LivePolicy
