import Cube.Dispatch.BranchSite

/-!
# The layers of the policies

The path of a policy for duplicates or aspects is made after the path whose node it becomes a
branch of. So the branches lead from path to path without coming back, and a message that takes
one after the other comes to an end of them. The path of a branch for duplicates is one to
deliver messages, and that of a branch for aspects is one for queries.

* `Unowned.withBranch`: a branch to a new path keeps the layers.
* `Reached.layered`: the policies that are read are layered.
-/

namespace Cube.LivePolicy

open Lib Json
open Route (RouteRule MSG_FLOW_QUERY MSG_FLOW_ASPECT)

variable {T V : Type}

/-- The type of a branch fits its path, which is one there is. -/
def Forest.Fits (f : Forest T V) (branch : BranchNode) : Prop :=
  ∃ path, f.paths[branch.branchPath]? = some path ∧
    (branch.branchType = MSG_FLOW_DUP ∧ path.flow = MSG_FLOW_DELIVER ∨
      branch.branchType = MSG_FLOW_ASPECT ∧ path.flow = MSG_FLOW_QUERY)

/-- The nodes in the lists of a path are its own, and their branches lead to paths that were
    made later, and fit them. -/
structure Forest.Layered (f : Forest T V) : Prop where
  owned : ∀ node ∈ f.nodes, node.routePath < f.paths.length
  listed : ∀ (p : Nat) (path : RoutePath T V), f.paths[p]? = some path →
    ∀ n ∈ path.routePath ++ path.responsePath,
      ∃ node : RouteNode, f.nodes[n]? = some node ∧ node.routePath = p
  above : ∀ node ∈ f.nodes, ∀ branch ∈ node.aspectBranch, node.routePath < branch.branchPath
  fits : ∀ node ∈ f.nodes, ∀ branch ∈ node.aspectBranch, f.Fits branch

/-! ## What is changed -/

variable {r : Reader T V} {path : Nat} {f f' : Forest T V}

/-- Paths are changed, but not their flows. -/
theorem Forest.Fits.congr {branch : BranchNode} (h : f.Fits branch)
    (hflow : ∀ (p : Nat) (path : RoutePath T V), f.paths[p]? = some path →
      ∃ path' : RoutePath T V, f'.paths[p]? = some path' ∧ path'.flow = path.flow) :
    f'.Fits branch := by
  obtain ⟨p, hp, hkind⟩ := h
  obtain ⟨p', hp', heq⟩ := hflow _ p hp
  exact ⟨p', hp', by rwa [heq]⟩

theorem exists_modifyPath {g : RoutePath T V → RoutePath T V} (hg : ∀ p, (g p).flow = p.flow)
    (a : Nat) (p : RoutePath T V) (hp : f.paths[a]? = some p) :
    ∃ p', (f.modifyPath path g).paths[a]? = some p' ∧ p'.flow = p.flow := by
  by_cases ha : a = path
  · subst ha
    exact ⟨g p, by rw [Forest.modifyPath_self, hp, Option.map_some], hg p⟩
  · exact ⟨p, by rw [Forest.modifyPath_of_ne g ha, hp], rfl⟩

/-- A path gets nodes of its own, and keeps its flow. -/
theorem Forest.Layered.modifyPath (hf : f.Layered) {g : RoutePath T V → RoutePath T V}
    (hflow : ∀ p, (g p).flow = p.flow)
    (hsites : ∀ p, ∀ n ∈ (g p).routePath ++ (g p).responsePath, n ∈ p.routePath ++ p.responsePath ∨
      ∃ node : RouteNode, f.nodes[n]? = some node ∧ node.routePath = path) :
    (f.modifyPath path g).Layered where
  owned node hnode := by
    rw [Forest.modifyPath_length]
    exact hf.owned node hnode
  listed a p hp n hn := by
    by_cases ha : a = path
    · subst ha
      rw [Forest.modifyPath_self] at hp
      obtain ⟨p₀, hp₀, rfl⟩ := Option.map_eq_some_iff.1 hp
      exact (hsites p₀ n hn).elim (hf.listed a p₀ hp₀ n) id
    · rw [Forest.modifyPath_of_ne g ha] at hp
      exact hf.listed a p hp n hn
  above := hf.above
  fits node hnode branch hbranch := (hf.fits node hnode branch hbranch).congr (exists_modifyPath hflow)

/-- A path is changed, but for its nodes and its flow. -/
theorem Forest.Layered.modifyPath_same (hf : f.Layered) {g : RoutePath T V → RoutePath T V}
    (hflow : ∀ p, (g p).flow = p.flow) (hroute : ∀ p, (g p).routePath = p.routePath)
    (hresponse : ∀ p, (g p).responsePath = p.responsePath) : (f.modifyPath path g).Layered :=
  hf.modifyPath hflow fun p n hn => .inl (by rwa [hroute, hresponse] at hn)

/-- A node that is made for a path has no branches yet. -/
theorem Forest.Layered.addNode (hf : f.Layered) (hpath : path < f.paths.length) (target : RouteRule) :
    Forest.Layered { f with nodes := f.nodes ++ [⟨path, target, []⟩] } where
  owned node hnode := by
    rcases List.mem_append.1 hnode with hnode | hnode
    · exact hf.owned node hnode
    · rw [List.mem_singleton.1 hnode]
      exact hpath
  listed a p hp n hn := by
    obtain ⟨node, hnode, hown⟩ := hf.listed a p hp n hn
    exact ⟨node, by rw [List.getElem?_append_left (List.getElem?_eq_some_iff.1 hnode).1, hnode], hown⟩
  above node hnode branch hbranch := by
    rcases List.mem_append.1 hnode with hnode | hnode
    · exact hf.above node hnode branch hbranch
    · rw [List.mem_singleton.1 hnode] at hbranch
      cases hbranch
  fits node hnode branch hbranch := by
    rcases List.mem_append.1 hnode with hnode | hnode
    · exact hf.fits node hnode branch hbranch
    · rw [List.mem_singleton.1 hnode] at hbranch
      cases hbranch

/-- The policies are layered, and the path that is read to is one of them. -/
def LayeredAt (path : Nat) (f : Forest T V) : Prop := f.Layered ∧ path < f.paths.length

theorem layeredAt_addmatchrule (i : Nat) (rule : Dispatch.MatchRule T V) (f : Forest T V)
    (hf : LayeredAt path f) : LayeredAt path (routePolicyAddmatchrule r path i rule f) := by
  rw [routePolicyAddmatchrule]
  split
  · refine ⟨hf.1.modifyPath_same (fun _ => rfl) (fun _ => rfl) fun _ => rfl, ?_⟩
    rw [Forest.modifyPath_length]
    exact hf.2
  · exact hf

/-- A rule gets a node of the path. -/
theorem keeps_addRule (onResponse : Bool) (i : Nat) (rule : RouteRule) :
    Keeps (LayeredAt path) (addRule r onResponse path i rule) := by
  intro f ⟨hf, hpath⟩
  unfold addRule
  split
  · exact ⟨hf, hpath⟩
  split
  · exact ⟨hf, hpath⟩
  · rename_i target _
    have hmore := hf.addNode hpath target
    have hsite : ({ f with nodes := f.nodes ++ [⟨path, target, []⟩] } : Forest T V).nodes[f.nodes.length]? =
        some ⟨path, target, []⟩ := by
      simp
    simp only
    split
    · refine ⟨hmore.modifyPath (fun p => ?_) fun p n hn => ?_, ?_⟩
      · cases onResponse <;> rfl
      · have hn' : n ∈ p.routePath ++ p.responsePath ∨ n = f.nodes.length := by
          cases onResponse <;> simp [RoutePath.addSite] at hn <;> simp <;> grind
        refine hn'.imp id ?_
        rintro rfl
        exact ⟨_, hsite, rfl⟩
      · rw [Forest.modifyPath_length]
        exact hpath
    · exact ⟨hmore, hpath⟩

/-! ## Policies that are read -/

/-- A new path has no nodes. -/
theorem Forest.Layered.routePathCreate (hf : f.Layered) : f.routePathCreate.Layered where
  owned node hnode := by
    have := hf.owned node hnode
    simp only [Forest.routePathCreate, List.length_append]
    omega
  listed a p hp n hn := by
    rw [Forest.routePathCreate, List.getElem?_append] at hp
    split at hp
    · exact hf.listed a p hp n hn
    · obtain rfl := List.mem_singleton.1 (List.mem_of_getElem? hp)
      cases hn
  above := hf.above
  fits node hnode branch hbranch := by
    refine (hf.fits node hnode branch hbranch).congr fun a p hp => ⟨p, ?_, rfl⟩
    rw [Forest.routePathCreate, List.getElem?_append_left (List.getElem?_eq_some_iff.1 hp).1, hp]

/-- The nodes there are belong to other paths. -/
def Unowned (path : Nat) (f : Forest T V) : Prop :=
  LayeredAt path f ∧ (∀ node ∈ f.nodes, node.routePath < path) ∧
    ∀ node ∈ f.nodes, ∀ branch ∈ node.aspectBranch, branch.branchPath < path

theorem unowned_routePathCreate (hf : f.Layered) : Unowned f.paths.length f.routePathCreate := by
  refine ⟨⟨hf.routePathCreate, ?_⟩, hf.owned, fun node hnode branch hbranch => ?_⟩
  · simp [Forest.routePathCreate]
  · obtain ⟨p, hp, -⟩ := hf.fits node hnode branch hbranch
    exact (List.getElem?_eq_some_iff.1 hp).1

/-- A branch to a new path, at a node of another one. -/
theorem Unowned.withBranch (hu : Unowned path f) (site normalPath : Nat) {policy : PolicyHead}
    (htype : policy.type = MSG_FLOW_DUP ∨ policy.type = MSG_FLOW_ASPECT) (newname : List UInt8) :
    (f.withBranch site ⟨normalPath, policy.type, path⟩ (policy.setBranch newname)).Layered := by
  obtain ⟨⟨hf, hpath⟩, hown, hbelow⟩ := hu
  have hnodes (n : Nat) : (f.nodes.modify site (·.addBranch ⟨normalPath, policy.type, path⟩))[n]? =
      (f.nodes[n]?).map fun node =>
        if site = n then node.addBranch ⟨normalPath, policy.type, path⟩ else node := by
    rw [List.getElem?_modify]
    rfl
  have hmem {node : RouteNode}
      (hnode : node ∈ f.nodes.modify site (·.addBranch ⟨normalPath, policy.type, path⟩)) :
      ∃ node₀ ∈ f.nodes, node.routePath = node₀.routePath ∧ ∀ branch ∈ node.aspectBranch,
        branch ∈ node₀.aspectBranch ∨ branch = ⟨normalPath, policy.type, path⟩ := by
    obtain ⟨n, hn⟩ := List.mem_iff_getElem?.1 hnode
    rw [hnodes] at hn
    obtain ⟨node₀, hnode₀, rfl⟩ := Option.map_eq_some_iff.1 hn
    refine ⟨node₀, List.mem_of_getElem? hnode₀, ?_, fun branch hbranch => ?_⟩
    · split <;> rfl
    · split at hbranch
      · exact (List.mem_append.1 hbranch).imp id List.mem_singleton.1
      · exact .inl hbranch
  refine ⟨fun node hnode => ?_, fun a p hp n hn => ?_, fun node hnode branch hbranch => ?_,
    fun node hnode branch hbranch => ?_⟩
  · obtain ⟨node₀, hnode₀, heq, -⟩ := hmem hnode
    rw [heq, Forest.withBranch, Forest.modifyPath_length]
    exact hf.owned node₀ hnode₀
  · have hsites : ∃ p₀, f.paths[a]? = some p₀ ∧
        p₀.routePath ++ p₀.responsePath = p.routePath ++ p.responsePath := by
      by_cases ha : a = path
      · subst ha
        rw [Forest.withBranch, Forest.modifyPath_self] at hp
        obtain ⟨p₀, hp₀, rfl⟩ := Option.map_eq_some_iff.1 hp
        exact ⟨p₀, hp₀, by simp only [PolicyHead.setBranch]⟩
      · rw [Forest.withBranch, Forest.modifyPath_of_ne _ ha] at hp
        exact ⟨p, hp, rfl⟩
    obtain ⟨p₀, hp₀, hsame⟩ := hsites
    obtain ⟨node, hnode, heq⟩ := hf.listed a p₀ hp₀ n (hsame ▸ hn)
    refine ⟨_, (hnodes n).trans (by rw [hnode, Option.map_some]), ?_⟩
    split <;> exact heq
  · obtain ⟨node₀, hnode₀, heq, hbranches⟩ := hmem hnode
    rw [heq]
    rcases hbranches branch hbranch with hold | rfl
    · exact hf.above node₀ hnode₀ branch hold
    · exact hown node₀ hnode₀
  · obtain ⟨node₀, hnode₀, -, hbranches⟩ := hmem hnode
    rcases hbranches branch hbranch with hold | rfl
    · obtain ⟨p, hp, hkind⟩ := hf.fits node₀ hnode₀ branch hold
      refine ⟨p, ?_, hkind⟩
      rw [Forest.withBranch, Forest.modifyPath_of_ne _ (hbelow node₀ hnode₀ branch hold).ne]
      exact hp
    · -- The path of the branch has just got its flow.
      have hp := List.getElem?_eq_getElem hpath
      refine ⟨policy.setBranch newname f.paths[path], ?_, ?_⟩
      · rw [Forest.withBranch, Forest.modifyPath_self]
        exact congrArg _ hp
      · rcases htype with htype | htype
        · exact .inl ⟨htype, by rw [PolicyHead.setBranch, if_pos htype]⟩
        · refine .inr ⟨htype, ?_⟩
          rw [PolicyHead.setBranch, if_neg (by rw [htype]; decide)]

/-- The path of another policy gets its flow, while no branch leads to it. -/
theorem Unowned.setNormal (hu : Unowned path f) (policy : PolicyHead) (name : List UInt8) :
    (f.modifyPath path (policy.setNormal name)).Layered := by
  obtain ⟨⟨hf, hpath⟩, hown, hbelow⟩ := hu
  refine ⟨fun node hnode => ?_, fun a p hp n hn => ?_, hf.above, fun node hnode branch hbranch => ?_⟩
  · rw [Forest.modifyPath_length]
    exact hf.owned node hnode
  · by_cases ha : a = path
    · subst ha
      rw [Forest.modifyPath_self] at hp
      obtain ⟨p₀, hp₀, rfl⟩ := Option.map_eq_some_iff.1 hp
      simp only [PolicyHead.setNormal] at hn
      exact hf.listed a p₀ hp₀ n hn
    · rw [Forest.modifyPath_of_ne _ ha] at hp
      exact hf.listed a p hp n hn
  · obtain ⟨p, hp, hkind⟩ := hf.fits node hnode branch hbranch
    refine ⟨p, ?_, hkind⟩
    rw [Forest.modifyPath_of_ne _ (hbelow node hnode branch hbranch).ne]
    exact hp

/-- Reading a policy keeps the layers. -/
theorem Forest.Layered.routeReadPolicy (hf : f.Layered) {policyNode : JsonNode}
    {returned : Returned} (h : routeReadPolicy r policyNode f = .done (returned, f')) :
    f'.Layered := by
  have hnew := unowned_routePathCreate hf
  have hread := routeReadPolicy_keeps hnew.1 (fun policy returned f' hset => ?_)
    (Keeps.readRules layeredAt_addmatchrule keeps_addRule policyNode) h
  · rcases hread with rfl | h'
    · exact hf
    · exact h'.1
  · refine setHead_keeps hnew.1 (fun site normalPath newname htype => ?_) (fun name => ?_)
      (fun f hf => ?_) hset
    · refine ⟨hnew.withBranch site normalPath htype newname, ?_⟩
      rw [Forest.withBranch, Forest.modifyPath_length]
      exact hnew.1.2
    · refine ⟨hnew.setNormal policy name, ?_⟩
      rw [Forest.modifyPath_length]
      exact hnew.1.2
    · refine ⟨hf.1.modifyPath_same (fun _ => rfl) (fun _ => rfl) fun _ => rfl, ?_⟩
      rw [Forest.modifyPath_length]
      exact hf.2

/-- However policies are read and loaded, and whether or not this fails, they are layered. -/
theorem Reached.layered (h : Reached f) : f.Layered := by
  induction h with
  | init => exact ⟨nofun, nofun, nofun, nofun⟩
  | read h r policyNode returned hread ih => exact ih.routeReadPolicy hread
  | add h r policyNode path hread ih =>
    obtain ⟨howned, hlisted, habove, hfits⟩ := ih.routeReadPolicy hread
    exact ⟨howned, hlisted, habove, hfits⟩

end Cube.LivePolicy
