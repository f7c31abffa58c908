import Cube.Dispatch.RouterCount
import Cube.Lib.Worklist

/-!
# The list of waiting messages is worked off

The branches of the policies lead from layer to layer. So the copies of a message, and the
detours it makes, come to an end, although each of them waits again, and although a message
that comes back from a detour is copied at its node once more.

* `rank`: what is lower for the messages that are made of a message than for itself.
* `branchLoop_grows`, `drainTurn_step`: the messages that the branches of a node make.
* `drain_cases`: the router comes to the end of the list if every message is to be delivered or
  is a query; else it returns.
-/

namespace Cube.Route

open Lib Waiting
open LivePolicy (MSG_FLOW_DELIVER MSG_FLOW_DUP)

variable {A B : Type}

/-! ## Layers -/

/-- The layers of the policies: a path is in one of them, and the branches of its nodes, a
    bounded number, lead to paths in higher ones, of the flows that branches have. -/
structure Layers (P : Policies A) where
  level : A → Nat
  top : Nat
  width : Nat
  level_next : ∀ u, level (P.mem.links.next u) = level u
  above : ∀ u, ∀ branch ∈ P.branches u, level u < level branch.branchPath.routePath
  le_top : ∀ u, ∀ branch ∈ P.branches u, level branch.branchPath.routePath ≤ top
  length_le : ∀ u, (P.branches u).length ≤ width
  fits : ∀ u, ∀ branch ∈ P.branches u,
    branch.branchType = MSG_FLOW_DUP ∧ branch.branchPath.flow = MSG_FLOW_DELIVER ∨
      branch.branchType = MSG_FLOW_ASPECT ∧ branch.branchPath.flow = MSG_FLOW_QUERY

/-- There is memory for all that waits and for all nodes, and every message that matches a branch
    can be copied. -/
structure RouterEnv.Unfailing (env : RouterEnv A B) : Prop where
  hasMemory : env.HasMemory
  dalloc0 : ∀ n, env.dalloc0 n = ⟨true, true⟩
  clone : ∀ u, ∀ branch ∈ env.branches u, ∀ msg,
    0 < env.routeMatchRules branch.branchPath msg → (env.cloneCounts msg).isSome

/-- The random nonces are different, up to a number of them. -/
def RouterEnv.Random (env : RouterEnv A B) (limit : Nat) : Prop :=
  Set.InjOn env.randomUuid (Set.Iio limit)

/-- The flow of a message that the router can move. -/
def FlowOk (flow : Int32) : Prop := flow = MSG_FLOW_DELIVER ∨ flow = MSG_FLOW_QUERY

instance (flow : Int32) : Decidable (FlowOk flow) := inferInstanceAs (Decidable (_ ∨ _))

/-! ## Aspect nodes -/

/-- A node as an aspect node. -/
def Node.aspect? : Node A → Option (AspectNode A)
  | trace _ => none
  | aspect node => some node

/-- The aspect nodes there are. -/
def Forest.aspects (forest : Forest A) : List (AspectNode A) := forest.nodes.filterMap Node.aspect?

theorem aspects_add (forest : Forest A) (dalloc0 : Dalloc0) (node : Node A) :
    (forest.add dalloc0 node).aspects = forest.aspects ++ node.aspect?.toList := by
  rw [Forest.aspects, Forest.add, List.filterMap_append, Forest.aspects]
  cases node <;> rfl

theorem aspects_gettracetarget (forest : Forest A) (msg : RouteMessage A) :
    (forest.gettracetarget msg).aspects = forest.aspects := by
  rcases forest.gettracetarget_cases msg with heq | ⟨p, node, hnode, heq⟩
  · rw [heq]
  · have hsplit := List.getElem?_eq_some_iff.1 hnode
    obtain ⟨hp, hget⟩ := hsplit
    rw [heq, Forest.aspects, Forest.set, Forest.aspects, List.set_eq_take_append_cons_drop, if_pos hp]
    nth_rewrite 3 [← List.take_append_drop p forest.nodes]
    rw [List.drop_eq_getElem_cons hp, hget]
    simp only [List.filterMap_append, List.filterMap_cons, Node.aspect?]

/-- What is found is a node that was made, under the nonce of the message. -/
theorem findFlowtypeNode_mem {nodes : List (Node A)} {list : List Nat} {uuid : Uuid} {flow : Int32}
    {p : Nat} (h : findFlowtypeNode nodes list uuid flow = some p) :
    ∃ node, nodes[p]? = some node ∧ node.msgUuid = uuid := by
  induction list with
  | nil => cases h
  | cons q list ih =>
    rw [findFlowtypeNode] at h
    split at h
    · cases h
    · rename_i node hnode
      split at h
      · rename_i hmatch
        cases h
        exact ⟨node, hnode, hmatch.1⟩
      · exact ih h

theorem findAspect_mem {forest : Forest A} {msg : RouteMessage A} {node : AspectNode A}
    (h : findAspect forest msg = some node) :
    node ∈ forest.aspects ∧ node.msgUuid = msg.head.nonce := by
  obtain ⟨p, hp, hnode⟩ := Option.bind_eq_some_iff.1 h
  obtain ⟨found, hfound, huuid⟩ := findFlowtypeNode_mem hp
  rw [Forest.aspectNode, hfound] at hnode
  cases found with
  | trace node => cases hnode
  | aspect node =>
    cases hnode
    exact ⟨List.mem_filterMap.2 ⟨_, List.mem_of_getElem? hfound, rfl⟩, huuid⟩

/-! ## Ranks -/

section Rank

variable {P : Policies A} (L : Layers P)

/-- The layer of a place, and the top one if there is no place. -/
def siteLevel (site : Option A) : Nat := site.elim L.top fun u => min L.top (L.level u)

/-- The lowest layer that a message comes back to from detours, by the aspect nodes under its
    nonce. -/
def backLevel (aspects : List (AspectNode A)) (msg : RouteMessage A) : Nat :=
  if msg.head.flow = MSG_FLOW_QUERY then
    (aspects.filter fun node => node.msgUuid = msg.head.nonce).foldr
      (fun node => min (siteLevel L node.aspectSite)) L.top
  else L.top

/-- The rank of a message that waits: how many layers are above the lowest one that it can be
    at, and whether it can start a detour there. -/
def rank (aspects : List (AspectNode A)) (msg : RouteMessage A) : Nat :=
  2 * (L.top - min (siteLevel L msg.pathSite) (backLevel L aspects msg)) +
    if siteLevel L msg.pathSite ≤ backLevel L aspects msg then 1 else 0

variable {L} {aspects : List (AspectNode A)} {msg : RouteMessage A}

theorem rank_le : rank L aspects msg ≤ 2 * L.top + 1 := by
  rw [rank]
  split <;> omega

theorem backLevel_le_top (aspects : List (AspectNode A)) (msg : RouteMessage A) :
    backLevel L aspects msg ≤ L.top := by
  rw [backLevel]
  split
  · induction aspects.filter fun node => node.msgUuid = msg.head.nonce with
    | nil => exact Nat.le_refl _
    | cons node nodes ih => exact (Nat.min_le_right ..).trans ih
  · exact Nat.le_refl _

/-- A message that is delivered makes no detour. -/
theorem backLevel_deliver (hflow : msg.head.flow = MSG_FLOW_DELIVER) :
    backLevel L aspects msg = L.top := by
  rw [backLevel, if_neg (by rw [hflow]; decide)]

/-- The place that a message comes back to is in its range. -/
theorem backLevel_le (hflow : msg.head.flow = MSG_FLOW_QUERY) {node : AspectNode A}
    (hnode : node ∈ aspects) (huuid : node.msgUuid = msg.head.nonce) :
    backLevel L aspects msg ≤ siteLevel L node.aspectSite := by
  have hmem : node ∈ aspects.filter fun node => node.msgUuid = msg.head.nonce :=
    List.mem_filter.2 ⟨hnode, decide_eq_true huuid⟩
  rw [backLevel, if_pos hflow]
  generalize (aspects.filter fun node => node.msgUuid = msg.head.nonce) = nodes at hmem
  induction nodes with
  | nil => cases hmem
  | cons first nodes ih =>
    rcases List.mem_cons.1 hmem with rfl | hmem
    · exact Nat.min_le_left ..
    · exact (Nat.min_le_right ..).trans (ih hmem)

/-- An aspect node under another nonce does not matter to a message. -/
theorem backLevel_append {more : List (AspectNode A)}
    (hmore : ∀ node ∈ more, node.msgUuid ≠ msg.head.nonce) :
    backLevel L (aspects ++ more) msg = backLevel L aspects msg := by
  have hnil : (more.filter fun node => node.msgUuid = msg.head.nonce) = [] := by
    rw [List.filter_eq_nil_iff]
    intro node hnode
    simpa using hmore node hnode
  rw [backLevel, backLevel, List.filter_append, hnil, List.append_nil]

theorem rank_append {more : List (AspectNode A)}
    (hmore : ∀ node ∈ more, node.msgUuid ≠ msg.head.nonce) :
    rank L (aspects ++ more) msg = rank L aspects msg := by
  rw [rank, rank, backLevel_append hmore]

/-- A copy of a message starts in a layer above one that the message is at or comes back to. -/
theorem rank_copy_lt {aspects' : List (AspectNode A)} {newMsg : RouteMessage A} {u v : A}
    (hflow : newMsg.head.flow = MSG_FLOW_DELIVER) (hsite : newMsg.pathSite = some v)
    (hv : L.level u < L.level v) (hle : L.level v ≤ L.top)
    (hu : min (siteLevel L msg.pathSite) (backLevel L aspects msg) ≤ L.level u) :
    rank L aspects' newMsg < rank L aspects msg := by
  have hlevel : siteLevel L newMsg.pathSite = L.level v := by
    rw [hsite]
    exact Nat.min_eq_right hle
  rw [rank, rank, backLevel_deliver hflow, hlevel, Nat.min_eq_left hle, if_pos hle]
  split <;> omega

/-- A message that makes a detour starts in a layer above, and comes back to where it is, where
    it starts no other one. -/
theorem rank_detour_lt {aspects' : List (AspectNode A)} {newMsg : RouteMessage A} {u v : A}
    (hsite : newMsg.pathSite = some v) (hv : L.level u < L.level v) (hle : L.level v ≤ L.top)
    (hback : backLevel L aspects' newMsg = L.level u)
    (hu : siteLevel L msg.pathSite ≤ L.level u) :
    rank L aspects' newMsg < rank L aspects msg := by
  have hlevel : siteLevel L newMsg.pathSite = L.level v := by
    rw [hsite]
    exact Nat.min_eq_right hle
  have hmsg := backLevel_le_top (L := L) aspects msg
  rw [rank, rank, hback, hlevel, Nat.min_eq_right hv.le, if_neg (Nat.not_le.2 hv)]
  split <;> omega

end Rank

/-! ## Nonces that are not drawn yet -/

section Drain

variable [DecidableEq A] [DecidableEq B] {env : RouterEnv A B}

/-- The nonce is none of those that will be drawn. -/
def Unseen (env : RouterEnv A B) (limit asked : Nat) (nonce : Uuid) : Prop :=
  ∀ k, asked ≤ k → k < limit → env.randomUuid k ≠ nonce

/-- The nonces in the nodes are none of those that will be drawn. -/
structure ForestUnseen (env : RouterEnv A B) (limit asked : Nat) (forest : Forest A) : Prop where
  aspect : ∀ node ∈ forest.aspects,
    Unseen env limit asked node.msgUuid ∧ Unseen env limit asked node.oldMsguuid

variable {limit asked asked' : Nat}

omit [DecidableEq A] [DecidableEq B] in
theorem Unseen.mono {nonce : Uuid} (h : Unseen env limit asked nonce) (hle : asked ≤ asked') :
    Unseen env limit asked' nonce := fun k hk => h k (hle.trans hk)

omit [DecidableEq A] [DecidableEq B] in
/-- Fewer nonces will be drawn, for a forest with the same aspect nodes. -/
theorem ForestUnseen.mono {forest forest' : Forest A} (h : ForestUnseen env limit asked forest)
    (hle : asked ≤ asked') (haspects : forest'.aspects = forest.aspects) :
    ForestUnseen env limit asked' forest' := by
  refine ⟨fun node hnode => ?_⟩
  rw [haspects] at hnode
  obtain ⟨hmsg, hold⟩ := h.aspect node hnode
  exact ⟨hmsg.mono hle, hold.mono hle⟩

omit [DecidableEq A] [DecidableEq B] in
/-- A nonce that is drawn does not come again. -/
theorem unseen_random (hr : env.Random limit) (h : asked < asked') :
    Unseen env limit asked' (env.randomUuid asked) := by
  intro k hk hlt heq
  have := hr (Set.mem_Iio.2 hlt) (Set.mem_Iio.2 (by omega)) heq
  omega

/-! ## Messages that are moved -/

omit [DecidableEq B] in
/-- The step of a message along its path is made if it has one of the two flows. -/
theorem moveOn_isSome (env : RouterEnv A B) (forest : Forest A) (msg : RouteMessage A) :
    (moveOn env forest msg).isSome ↔ FlowOk msg.head.flow := by
  unfold moveOn FlowOk
  repeat' split
  all_goals simp_all

/-- `message_route_setnext` changes the place, the receiver and the flags of a message. -/
theorem setnext_keeps (targets : Targets A) (mem : PathMemory A) (msg : RouteMessage A) :
    (messageRouteSetnext targets mem msg).2.head.flow = msg.head.flow ∧
      (messageRouteSetnext targets mem msg).2.head.nonce = msg.head.nonce ∧
      ((messageRouteSetnext targets mem msg).2.pathSite = none ∨
        (messageRouteSetnext targets mem msg).2.pathSite = msg.pathSite.map mem.links.next) := by
  unfold messageRouteSetnext setNextPathsite ruleGetTarget
  cases hsite : msg.pathSite with
  | none => simp [hsite]
  | some u =>
    simp only
    split_ifs
    · simp
    · cases mem.record (mem.links.next u) <;> simp

/-- What is so of a message that was moved: it is at a place of its range. -/
structure Moved (L : Layers env.toPolicies) (limit asked : Nat) (forest : Forest A) (msg : RouteMessage A)
    (forest' : Forest A) (msg' : RouteMessage A) (send : Option Bool) : Prop where
  aspects_eq : forest'.aspects = forest.aspects
  unseen : Unseen env limit asked msg'.head.nonce
  back_le : send = some true → ∀ u, msg'.pathSite = some u →
    backLevel L forest.aspects msg ≤ L.level u
  site_le : send ≠ some true → ∀ u, msg'.pathSite = some u → siteLevel L msg.pathSite ≤ L.level u

variable {L : Layers env.toPolicies} {forest forest' : Forest A}
  {msg msg' : RouteMessage A} {send : Option Bool}

omit [DecidableEq B] in
/-- A message that was moved one record on is in the same layer. -/
theorem site_le_setnext (L : Layers env.toPolicies) (msg : RouteMessage A) {u : A}
    (hu : (messageRouteSetnext env.targets env.mem msg).2.pathSite = some u) :
    siteLevel L msg.pathSite ≤ L.level u := by
  rcases (setnext_keeps env.targets env.mem msg).2.2 with hsite | hsite
  · rw [hsite] at hu
    cases hu
  · rw [hsite] at hu
    obtain ⟨v, hv, rfl⟩ := Option.map_eq_some_iff.1 hu
    rw [hv, L.level_next]
    exact Nat.min_le_right ..

omit [DecidableEq B] in
theorem moved (L : Layers env.toPolicies) (hforest : ForestUnseen env limit asked forest)
    (hmsg : Unseen env limit asked msg.head.nonce)
    (h : moveOn env forest msg = some (forest', msg', send)) :
    Moved L limit asked forest msg forest' msg' send := by
  obtain ⟨hflow, hnonce, -⟩ := setnext_keeps env.targets env.mem msg
  have hsite (u : A) := site_le_setnext L msg (u := u)
  have hunseen : Unseen env limit asked (messageRouteSetnext env.targets env.mem msg).2.head.nonce := by
    rwa [hnonce]
  unfold moveOn at h
  generalize messageRouteSetnext env.targets env.mem msg = next at h hflow hnonce hsite hunseen
  obtain ⟨ret, next⟩ := next
  simp only at h hflow hnonce hsite hunseen
  split at h
  · split at h
    · cases h
      exact ⟨rfl, hunseen, nofun, fun _ => hsite⟩
    · cases h
      exact ⟨rfl, hunseen, nofun, fun _ => hsite⟩
  split at h
  · rename_i hquery
    split at h
    · cases h
      exact ⟨rfl, hunseen, nofun, fun _ => hsite⟩
    split at h
    · split at h
      · split at h
        · cases h
          exact ⟨rfl, hunseen, nofun, fun _ => hsite⟩
        · split at h
          · cases h
            exact ⟨rfl, hunseen, nofun, fun _ => hsite⟩
          · cases h
            exact ⟨aspects_gettracetarget _ _, hunseen, nofun, fun _ => hsite⟩
      · split at h
        · cases h
          exact ⟨rfl, hunseen, nofun, fun _ => hsite⟩
        · -- The message comes back from a detour.
          rename_i node hnode
          cases h
          obtain ⟨hmem, huuid⟩ := findAspect_mem hnode
          refine ⟨rfl, (hforest.aspect node hmem).2, fun _ u hu => ?_, fun hne => absurd rfl hne⟩
          have hback := backLevel_le (L := L) hquery hmem (huuid.trans hnonce)
          have hu' : node.aspectSite = some u := hu
          rw [hu'] at hback
          exact hback.trans (Nat.min_le_right ..)
    · cases h
      exact ⟨rfl, hunseen, nofun, fun _ => hsite⟩
  · cases h

/-! ## Messages that the branches of a node make -/

/-- Between two states new messages were added to those that wait. If the nonces that were drawn
    are within the limit, the new messages are of ranks below a bound, and the ranks of other
    messages are as before. -/
structure Grows (L : Layers env.toPolicies) (limit bound : Nat) (s s' : RouterState A B)
    (new : List (RouteMessage A)) : Prop where
  waits : ∀ msgs, Waits s.waiting msgs → Waits s'.waiting (msgs ++ new)
  asked_le : s.asked ≤ s'.asked
  le_asked : s'.asked ≤ s.asked + 2 * new.length
  forest : ForestUnseen env limit s'.asked s'.forest
  unseen : ∀ m ∈ new, Unseen env limit s'.asked m.head.nonce
  flow : ∀ m ∈ new, FlowOk m.head.flow
  rank_eq : s'.asked ≤ limit → ∀ m : RouteMessage A, Unseen env limit s.asked m.head.nonce →
    rank L s'.forest.aspects m = rank L s.forest.aspects m
  rank_lt : s'.asked ≤ limit → ∀ m ∈ new, rank L s'.forest.aspects m < bound

variable {bound : Nat} {s s' s'' : RouterState A B} {new new' : List (RouteMessage A)}

omit [DecidableEq A] [DecidableEq B] in
theorem Grows.refl (L : Layers env.toPolicies) (bound : Nat)
    (hforest : ForestUnseen env limit s.asked s.forest) : Grows L limit bound s s [] where
  waits msgs h := by rwa [List.append_nil]
  asked_le := Nat.le_refl _
  le_asked := Nat.le_refl _
  forest := hforest
  unseen := nofun
  flow := nofun
  rank_eq _ _ _ := rfl
  rank_lt := nofun

omit [DecidableEq A] [DecidableEq B] in
theorem Grows.trans (h : Grows L limit bound s s' new) (h' : Grows L limit bound s' s'' new') :
    Grows L limit bound s s'' (new ++ new') where
  waits msgs hw := by
    rw [← List.append_assoc]
    exact h'.waits _ (h.waits msgs hw)
  asked_le := h.asked_le.trans h'.asked_le
  le_asked := by
    have hfirst := h.le_asked
    have hsecond := h'.le_asked
    rw [List.length_append]
    omega
  forest := h'.forest
  unseen m hm := by
    rcases List.mem_append.1 hm with hm | hm
    · exact (h.unseen m hm).mono h'.asked_le
    · exact h'.unseen m hm
  flow m hm := (List.mem_append.1 hm).elim (h.flow m) (h'.flow m)
  rank_eq hlimit m hm :=
    (h'.rank_eq hlimit m (hm.mono h.asked_le)).trans (h.rank_eq (h'.asked_le.trans hlimit) m hm)
  rank_lt hlimit m hm := by
    rcases List.mem_append.1 hm with hm | hm
    · rw [h'.rank_eq hlimit m (h.unseen m hm)]
      exact h.rank_lt (h'.asked_le.trans hlimit) m hm
    · exact h'.rank_lt hlimit m hm

omit [DecidableEq A] [DecidableEq B] in
/-- The start of a message makes no aspect node. -/
theorem aspects_startTrace (traceMem : Dalloc0) (forest : Forest A) (msg : RouteMessage A) :
    (startTrace traceMem forest msg).2.1.aspects = forest.aspects := by
  rw [startTrace_forest]
  split
  · rw [aspects_add]
    exact List.append_nil _
  · rfl

omit [DecidableEq A] [DecidableEq B] in
theorem aspects_setstart (traceMem : Dalloc0) (forest : Forest A) (msg : RouteMessage A)
    (path : RoutePath A) :
    (messageRouteSetstart traceMem forest msg path).2.1.aspects = forest.aspects :=
  aspects_startTrace ..

omit [DecidableEq A] [DecidableEq B] in
/-- Where a message is put that is started on a path. -/
theorem setstart_msg (traceMem : Dalloc0) (forest : Forest A) (msg : RouteMessage A)
    (path : RoutePath A) : (messageRouteSetstart traceMem forest msg path).2.2 =
      { head := { msg.head with
          flow := path.flow
          state := MSG_STATE_MATCH
          route := strncpy msg.head.route path.name }
        policy := some path
        pathSite := some path.routePath } := startTrace_msg ..

omit [DecidableEq A] in
/-- A copy of a message waits on the path of a branch. -/
theorem takeBranch_copy (hu : env.Unfailing) (isaspect : Bool) {branch : BranchNode A} {u : A}
    (hbranch : branch ∈ env.branches u) (htype : branch.branchType = MSG_FLOW_DUP)
    (hmatch : 0 < env.routeMatchRules branch.branchPath msg')
    (hforest : ForestUnseen env limit s.asked s.forest)
    (hmsg : Unseen env limit s.asked msg'.head.nonce) {aspects : List (AspectNode A)}
    (hlevel : min (siteLevel L msg.pathSite) (backLevel L aspects msg) ≤ L.level u) :
    ∃ s' newMsg, takeBranch env isaspect branch s (some msg') = .done (s', some msg') ∧
      Grows L limit (rank L aspects msg) s s' [newMsg] := by
  obtain ⟨counts, hcounts⟩ := Option.isSome_iff_exists.1 (hu.clone u branch hbranch msg' hmatch)
  have hflow : branch.branchPath.flow = MSG_FLOW_DELIVER := by
    rcases L.fits u branch hbranch with ⟨-, hflow⟩ | ⟨haspect, -⟩
    · exact hflow
    · rw [htype] at haspect
      exact absurd haspect (by decide)
  obtain ⟨forest', newMsg, hdup, haspects, hnonce, hnewflow, hsite⟩ :
      ∃ forest' newMsg, routeDupMessage env s.forest (env.dalloc0 s.asked) msg' branch =
          some (forest', newMsg) ∧ forest'.aspects = s.forest.aspects ∧
        newMsg.head.nonce = msg'.head.nonce ∧ newMsg.head.flow = MSG_FLOW_DELIVER ∧
        newMsg.pathSite = some branch.branchPath.routePath := by
    rw [routeDupMessage, if_neg (not_not.2 htype), messageClone, hcounts]
    refine ⟨_, _, rfl, aspects_setstart .., ?_, ?_, ?_⟩
    · rw [setstart_msg]
    · rw [setstart_msg]
      exact hflow
    · rw [setstart_msg]
  refine ⟨RouterState.add env { s with
    forest := forest', asked := s.asked + 1, log := s.log ++ [.copied newMsg] } newMsg, newMsg, ?_, ?_⟩
  · rw [takeBranch, if_pos htype, routeMatchAspectBranch, if_pos hmatch, Option.bind_some, hdup]
  · exact {
      waits := fun msgs hw => waits_add_of_memory hu.hasMemory newMsg hw
      asked_le := Nat.le_succ _
      le_asked := Nat.le_succ _
      forest := hforest.mono (Nat.le_succ _) haspects
      unseen := fun m hm => by
        rw [List.mem_singleton.1 hm, hnonce]
        exact hmsg.mono (Nat.le_succ _)
      flow := fun m hm => .inl (by rw [List.mem_singleton.1 hm, hnewflow])
      rank_eq := fun _ m _ => congrArg (rank L · m) haspects
      rank_lt := fun _ m hm => by
        rw [List.mem_singleton.1 hm]
        exact rank_copy_lt hnewflow hsite (L.above u branch hbranch) (L.le_top u branch hbranch) hlevel }

omit [DecidableEq A] in
/-- A message that makes a detour waits on the path of a branch. -/
theorem takeBranch_detour (hu : env.Unfailing) (hr : env.Random limit) {branch : BranchNode A} {u : A}
    (hbranch : branch ∈ env.branches u) (htype : branch.branchType = MSG_FLOW_ASPECT)
    (hmatch : 0 < env.routeMatchRules branch.branchPath msg') (hplace : msg'.pathSite = some u)
    (hforest : ForestUnseen env limit s.asked s.forest)
    (hmsg : Unseen env limit s.asked msg'.head.nonce) {aspects : List (AspectNode A)}
    (hlevel : siteLevel L msg.pathSite ≤ L.level u) :
    ∃ s' newMsg, takeBranch env false branch s (some msg') = .done (s', none) ∧
      Grows L limit (rank L aspects msg) s s' [newMsg] := by
  have hdup : ¬ branch.branchType = MSG_FLOW_DUP := by
    rw [htype]
    decide
  have hflow : branch.branchPath.flow = MSG_FLOW_QUERY := by
    rcases L.fits u branch hbranch with ⟨hcopy, -⟩ | ⟨-, hflow⟩
    · exact absurd hcopy hdup
    · exact hflow
  have habove := L.above u branch hbranch
  have htop := L.le_top u branch hbranch
  obtain ⟨forest', newMsg, node, haspect, haspects, hnode, hsaved, hback, hnonce, hnewflow, hsite⟩ :
      ∃ forest' newMsg node, routeAspectMessage (env.dalloc0 s.asked) (env.dalloc0 (s.asked + 1))
          (env.randomUuid s.asked) s.forest msg' branch = (1, forest', newMsg) ∧
        forest'.aspects = s.forest.aspects ++ [node] ∧ node.msgUuid = env.randomUuid s.asked ∧
        node.oldMsguuid = msg'.head.nonce ∧ node.aspectSite = some u ∧
        newMsg.head.nonce = env.randomUuid s.asked ∧ newMsg.head.flow = MSG_FLOW_QUERY ∧
        newMsg.pathSite = some branch.branchPath.routePath := by
    simp only [routeAspectMessage, htype, ne_eq, not_true_eq_false, if_false, createAspectNode,
      hu.dalloc0, if_true]
    refine ⟨_, _, aspectNodeOf (env.randomUuid s.asked) msg', rfl, ?_, rfl, rfl, hplace, ?_, ?_, ?_⟩
    · rw [aspects_setstart, aspects_add]
      rfl
    · rw [setstart_msg]
    · rw [setstart_msg]
      exact hflow
    · rw [setstart_msg]
  refine ⟨RouterState.add env { s with
    forest := forest', asked := s.asked + 2, log := s.log ++ [.detoured newMsg] } newMsg, newMsg, ?_, ?_⟩
  · rw [takeBranch, if_neg hdup, if_pos htype, if_neg Bool.false_ne_true, routeMatchAspectBranch,
      if_pos hmatch, haspect]
  · have hfresh : Unseen env limit (s.asked + 2) (env.randomUuid s.asked) :=
      unseen_random hr (Nat.lt_add_of_pos_right Nat.two_pos)
    exact {
      waits := fun msgs hw => waits_add_of_memory hu.hasMemory newMsg hw
      asked_le := Nat.le_add_right _ _
      le_asked := Nat.le_refl _
      forest := by
        refine ⟨fun other hother => ?_⟩
        have hother' : other ∈ s.forest.aspects ++ [node] := haspects ▸ hother
        rcases List.mem_append.1 hother' with hold | hnew
        · obtain ⟨h, h'⟩ := hforest.aspect other hold
          exact ⟨h.mono (Nat.le_add_right _ _), h'.mono (Nat.le_add_right _ _)⟩
        · rw [List.mem_singleton.1 hnew, hnode, hsaved]
          exact ⟨hfresh, hmsg.mono (Nat.le_add_right _ _)⟩
      unseen := fun m hm => by
        rw [List.mem_singleton.1 hm, hnonce]
        exact hfresh
      flow := fun m hm => .inr (by rw [List.mem_singleton.1 hm, hnewflow])
      rank_eq := fun hlimit m hm => by
        refine (congrArg (rank L · m) haspects).trans (rank_append fun other hother => ?_)
        rw [List.mem_singleton.1 hother, hnode]
        exact hm s.asked (Nat.le_refl _) (Nat.lt_of_lt_of_le (Nat.lt_add_of_pos_right Nat.two_pos) hlimit)
      rank_lt := fun hlimit m hm => by
        rw [List.mem_singleton.1 hm]
        refine rank_detour_lt hsite habove htop ?_ hlevel
        -- The only node under the nonce that was drawn is the one that was just made.
        have hnone : (s.forest.aspects.filter fun other => other.msgUuid = newMsg.head.nonce) = [] := by
          rw [List.filter_eq_nil_iff]
          intro other hother
          rw [hnonce, decide_eq_true_eq]
          exact fun heq => (hforest.aspect other hother).1 s.asked (Nat.le_refl _)
            (Nat.lt_of_lt_of_le (Nat.lt_add_of_pos_right Nat.two_pos) hlimit) heq.symm
        have hself : ([node].filter fun other => other.msgUuid = newMsg.head.nonce) = [node] := by
          rw [List.filter_singleton, hnonce, hnode, decide_eq_true rfl, cond_true]
        change backLevel L forest'.aspects newMsg = _
        rw [backLevel, if_pos hnewflow, haspects, List.filter_append, hnone, hself, List.nil_append,
          List.foldr_cons, List.foldr_nil, hback]
        change min (min L.top (L.level u)) L.top = L.level u
        omega }

omit [DecidableEq A] in
/-- Once a message makes a detour no other branch of its node is taken. -/
theorem branchLoop_none (isaspect : Bool) (branches : List (BranchNode A)) (s : RouterState A B) :
    branchLoop env isaspect branches s none = .done (s, none) := by
  have hmatch (branch : BranchNode A) : ¬ 0 < routeMatchAspectBranch env none branch := by
    change ¬ 0 < -EINVAL
    decide
  induction branches with
  | nil => rfl
  | cons branch branches ih =>
    have htake : takeBranch env isaspect branch s none = .done (s, none) := by
      rw [takeBranch, if_neg (hmatch branch), if_neg (hmatch branch)]
      split_ifs <;> rfl
    rw [branchLoop, htake, Outcome.done_bind]
    exact ih

omit [DecidableEq A] in
/-- The branches of a node make copies of a message, up to one by which it makes a detour. A
    message that comes back from one makes no other. -/
theorem branchLoop_grows (hu : env.Unfailing) (hr : env.Random limit) (isaspect : Bool) {u : A}
    {branches : List (BranchNode A)} (hbranches : ∀ branch ∈ branches, branch ∈ env.branches u)
    (hplace : msg'.pathSite = some u) (hforest : ForestUnseen env limit s.asked s.forest)
    (hmsg : Unseen env limit s.asked msg'.head.nonce) {aspects : List (AspectNode A)}
    (hlevel : min (siteLevel L msg.pathSite) (backLevel L aspects msg) ≤ L.level u)
    (hsite : isaspect = false → siteLevel L msg.pathSite ≤ L.level u) :
    ∃ s' message new, branchLoop env isaspect branches s (some msg') = .done (s', message) ∧
      Grows L limit (rank L aspects msg) s s' new ∧ new.length ≤ branches.length := by
  induction branches generalizing s with
  | nil => exact ⟨s, some msg', [], rfl, Grows.refl L _ hforest, Nat.le_refl _⟩
  | cons branch branches ih =>
    obtain ⟨hbranch, hrest⟩ := List.forall_mem_cons.1 hbranches
    -- A branch that is not taken.
    have hgoes (htake : takeBranch env isaspect branch s (some msg') = .done (s, some msg')) :
        ∃ s' message new,
          branchLoop env isaspect (branch :: branches) s (some msg') = .done (s', message) ∧
          Grows L limit (rank L aspects msg) s s' new ∧
          new.length ≤ (branch :: branches).length := by
      obtain ⟨s', message, new, hloop, hgrows, hlen⟩ := ih hrest hforest hmsg
      refine ⟨s', message, new, ?_, hgrows, hlen.trans (Nat.le_succ _)⟩
      rw [branchLoop, htake, Outcome.done_bind]
      exact hloop
    by_cases hmatch : 0 < env.routeMatchRules branch.branchPath msg'
    · rcases L.fits u branch hbranch with ⟨htype, -⟩ | ⟨htype, -⟩
      · obtain ⟨s₁, newMsg, htake, h₁⟩ :=
          takeBranch_copy hu isaspect hbranch htype hmatch hforest hmsg hlevel
        obtain ⟨s₂, message, new, hloop, h₂, hlen⟩ := ih hrest h₁.forest (hmsg.mono h₁.asked_le)
        refine ⟨s₂, message, _, ?_, h₁.trans h₂, Nat.succ_le_succ hlen⟩
        rw [branchLoop, htake, Outcome.done_bind]
        exact hloop
      · cases isaspect with
        | true =>
          refine hgoes ?_
          have hdup : ¬ branch.branchType = MSG_FLOW_DUP := by
            rw [htype]
            decide
          rw [takeBranch, if_neg hdup, if_pos htype, if_pos rfl]
        | false =>
          obtain ⟨s₁, newMsg, htake, h₁⟩ := takeBranch_detour hu hr hbranch htype hmatch hplace
            hforest hmsg (hsite rfl)
          refine ⟨s₁, none, _, ?_, h₁, Nat.succ_le_succ (Nat.zero_le _)⟩
          rw [branchLoop, htake, Outcome.done_bind]
          exact branchLoop_none false branches s₁
    · refine hgoes ?_
      rw [takeBranch, routeMatchAspectBranch, if_neg hmatch, if_neg hmatch]
      split_ifs <;> rfl

/-! ## A turn -/

omit [DecidableEq A] in
/-- A message that is to be sent is handed over or makes a detour, after it was copied. -/
theorem sendOn_grows (hu : env.Unfailing) (hr : env.Random limit) (isaspect : Bool)
    (aspects : List (AspectNode A)) (hforest : ForestUnseen env limit s.asked s.forest)
    (hmsg : Unseen env limit s.asked msg'.head.nonce)
    (hlevel : ∀ u, msg'.pathSite = some u →
      min (siteLevel L msg.pathSite) (backLevel L aspects msg) ≤ L.level u)
    (hsite : isaspect = false → ∀ u, msg'.pathSite = some u → siteLevel L msg.pathSite ≤ L.level u) :
    ∃ s' new, sendOn env isaspect s msg' = .done s' ∧
      Grows L limit (rank L aspects msg) s s' new ∧ new.length ≤ L.width := by
  obtain ⟨s₁, message, new, hloop, h₁, hlen⟩ :
      ∃ s' message new,
        branchLoop env isaspect (siteBranches env msg') s (some msg') = .done (s', message) ∧
        Grows L limit (rank L aspects msg) s s' new ∧ new.length ≤ L.width := by
    rw [siteBranches]
    cases hu' : msg'.pathSite with
    | none => exact ⟨s, some msg', [], rfl, Grows.refl L _ hforest, Nat.zero_le _⟩
    | some u =>
      dsimp only
      split
      · obtain ⟨s₁, message, new, hloop, h₁, hlen⟩ := branchLoop_grows hu hr isaspect
          (fun branch hbranch => hbranch) hu' hforest hmsg (hlevel u hu') fun hfalse =>
            hsite hfalse u hu'
        exact ⟨s₁, message, new, hloop, h₁, hlen.trans (L.length_le u)⟩
      · exact ⟨s, some msg', [], rfl, Grows.refl L _ hforest, Nat.zero_le _⟩
  -- What the log says does not matter.
  have hlog (entry : Entry A) :
      Grows L limit (rank L aspects msg) s { s₁ with log := s₁.log ++ [entry] } new :=
    ⟨h₁.waits, h₁.asked_le, h₁.le_asked, h₁.forest, h₁.unseen, h₁.flow, h₁.rank_eq, h₁.rank_lt⟩
  rw [sendOn, hloop, Outcome.done_bind]
  cases message with
  | none => exact ⟨s₁, new, rfl, h₁, hlen⟩
  | some msg =>
    dsimp only
    split
    · exact ⟨_, new, rfl, hlog _, hlen⟩
    · exact ⟨_, new, rfl, hlog _, hlen⟩

/-- The messages wait, and no nonce that is drawn later is that of a message or a node. -/
structure Ready (env : RouterEnv A B) (limit : Nat) (s : RouterState A B)
    (msgs : List (RouteMessage A)) : Prop where
  waits : Waits s.waiting msgs
  forest : ForestUnseen env limit s.asked s.forest
  unseen : ∀ m ∈ msgs, Unseen env limit s.asked m.head.nonce

variable {msgs : List (RouteMessage A)} {first : RouteMessage A}

/-- A turn with a message of one of the two flows takes it out of the list, and puts messages of
    lower ranks behind the others. -/
theorem drainTurn_step (L : Layers env.toPolicies) (hu : env.Unfailing) (hr : env.Random limit)
    (h : Ready env limit s (first :: msgs)) (hflow : FlowOk first.head.flow) :
    ∃ s' new, drainTurn env s = .done (.inl s') ∧ Ready env limit s' (msgs ++ new) ∧
      (∀ m ∈ new, FlowOk m.head.flow) ∧ s'.asked ≤ s.asked + 2 * new.length ∧
      new.length ≤ L.width ∧ (s'.asked ≤ limit →
        msgs.map (rank L s'.forest.aspects) = msgs.map (rank L s.forest.aspects) ∧
        ∀ m ∈ new, rank L s'.forest.aspects m < rank L s.forest.aspects first) := by
  obtain ⟨hfirst, hrest⟩ := List.forall_mem_cons.1 h.unseen
  obtain ⟨w, hremove, hwaits⟩ := waits_removehead h.waits
  obtain ⟨⟨forest', msg', send⟩, hmove⟩ :=
    Option.isSome_iff_exists.1 ((moveOn_isSome env s.forest first).2 hflow)
  have hmoved := moved L h.forest hfirst hmove
  have hforest' : ForestUnseen env limit s.asked forest' :=
    h.forest.mono (Nat.le_refl _) hmoved.aspects_eq
  -- What the turn comes to, with the messages that it adds.
  obtain ⟨s', new, hturn, hgrows, hlen⟩ :
      ∃ s' new, drainTurn env s = .done (.inl s') ∧
        Grows L limit (rank L s.forest.aspects first) { s with waiting := w, forest := forest' } s'
          new ∧ new.length ≤ L.width := by
    rw [drainTurn, hremove, Outcome.done_bind]
    dsimp only
    rw [hmove]
    cases send with
    | none =>
      have hsame := Grows.refl (s := { s with waiting := w, forest := forest' }) L
        (rank L s.forest.aspects first) hforest'
      exact ⟨_, [], rfl, ⟨hsame.waits, hsame.asked_le, hsame.le_asked, hsame.forest, hsame.unseen,
        hsame.flow, hsame.rank_eq, hsame.rank_lt⟩, Nat.zero_le _⟩
    | some isaspect =>
      obtain ⟨s', new, hsend, hgrows, hlen⟩ := sendOn_grows (L := L) hu hr isaspect
        (s := { s with waiting := w, forest := forest' }) s.forest.aspects hforest' hmoved.unseen
        (fun u hplace => by
          by_cases haspect : isaspect = true
          · exact (Nat.min_le_right ..).trans (hmoved.back_le (congrArg some haspect) u hplace)
          · exact (Nat.min_le_left ..).trans
              (hmoved.site_le (fun heq => haspect (Option.some.inj heq)) u hplace))
        (fun hfalse u hplace =>
          hmoved.site_le (fun heq => by rw [Option.some.inj heq] at hfalse; cases hfalse) u hplace)
      refine ⟨s', new, ?_, hgrows, hlen⟩
      dsimp only
      rw [hsend]
      rfl
  have hrank (hlimit : s'.asked ≤ limit) (m : RouteMessage A)
      (hm : Unseen env limit s.asked m.head.nonce) :
      rank L s'.forest.aspects m = rank L s.forest.aspects m :=
    (hgrows.rank_eq hlimit m hm).trans (congrArg (rank L · m) hmoved.aspects_eq)
  refine ⟨s', new, hturn, ⟨hgrows.waits _ hwaits, hgrows.forest, fun m hm => ?_⟩, hgrows.flow,
    hgrows.le_asked, hlen, fun hlimit => ⟨?_, hgrows.rank_lt hlimit⟩⟩
  · rcases List.mem_append.1 hm with hm | hm
    · exact (hrest m hm).mono hgrows.asked_le
    · exact hgrows.unseen m hm
  · exact List.map_congr_left fun m hm => hrank hlimit m (hrest m hm)

/-- The loop ends if no message waits. -/
theorem drainTurn_empty (hw : Waits s.waiting []) : drainTurn env s = .done (.inr (.empty s)) := by
  rw [drainTurn, waits_removehead_nil hw, Outcome.done_bind]

/-- The router returns for a message of another flow. -/
theorem drainTurn_returned (hw : Waits s.waiting (first :: msgs)) (hflow : ¬ FlowOk first.head.flow) :
    drainTurn env s = .done (.inr (.returned (-EINVAL))) := by
  obtain ⟨w, hremove, -⟩ := waits_removehead hw
  have hnone : moveOn env s.forest first = none := by
    rw [← Option.not_isSome_iff_eq_none, moveOn_isSome]
    exact hflow
  rw [drainTurn, hremove, Outcome.done_bind]
  dsimp only
  rw [hnone]

/-- What is so in every turn, from a state with messages on: what waits, by its ranks, and how
    many nonces can be drawn. -/
structure DrainInv (L : Layers env.toPolicies) (limit : Nat) (msgs₀ : List (RouteMessage A))
    (s : RouterState A B) (ranks : List Nat) : Prop where
  ready : ∃ msgs, Ready env limit s msgs ∧ ranks = msgs.map (rank L s.forest.aspects) ∧
    ((∀ m ∈ msgs, FlowOk m.head.flow) ↔ ∀ m ∈ msgs₀, FlowOk m.head.flow)
  le_limit : s.asked + 2 * Worklist.work L.width ranks ≤ limit

/-- The loop over the waiting messages comes to its end: to that of the list, if all messages
    have one of the two flows; else the router returns. -/
theorem drain_cases (L : Layers env.toPolicies) (hu : env.Unfailing) (hr : env.Random limit)
    (h : Ready env limit s msgs)
    (hlimit : s.asked + 2 * Worklist.work L.width (msgs.map (rank L s.forest.aspects)) ≤ limit) :
    (∀ m ∈ msgs, FlowOk m.head.flow) ∧
        (∃ s', Loop.Ends (drainTurn env) s (.done (.empty s'))) ∨
      (¬ ∀ m ∈ msgs, FlowOk m.head.flow) ∧
        Loop.Ends (drainTurn env) s (.done (.returned (-EINVAL))) := by
  obtain ⟨s', ranks, h', ⟨ended, hstop⟩, hends⟩ :=
    Worklist.stops_of_work L.width (drainTurn env) (fun s' ranks => DrainInv L limit msgs s' ranks)
      (fun s' => ∃ ended, drainTurn env s' = .done (.inr ended))
      (by
        rintro s' _ ⟨⟨left, hready, rfl, hiff⟩, hle⟩
        cases left with
        | nil => exact .inl ⟨_, drainTurn_empty hready.waits⟩
        | cons first left =>
          by_cases hflow : FlowOk first.head.flow
          · obtain ⟨s'', new, hturn, hready', hnew, hasked, hlen, hranks⟩ :=
              drainTurn_step L hu hr hready hflow
            have hweight : L.width + 1 ≤ Worklist.weight L.width (rank L s'.forest.aspects first) :=
              Worklist.le_weight
            rw [List.map_cons] at hle ⊢
            have hle' := hle
            rw [Worklist.work_cons] at hle'
            obtain ⟨hsame, hlower⟩ := hranks (by omega)
            have hlt := Worklist.work_append_lt (b := L.width) (left.map (rank L s'.forest.aspects))
              (by rwa [List.length_map]) (List.forall_mem_map.2 hlower)
            rw [List.length_map] at hlt
            refine .inr ⟨s'', _, hturn, ⟨⟨left ++ new, hready', ?_, ?_⟩, ?_⟩, lt_of_le_of_lt
              (Nat.le_add_right _ _) hlt⟩
            · rw [List.map_append, hsame]
            · rw [← hiff, List.forall_mem_append, List.forall_mem_cons]
              exact ⟨fun hall => ⟨hflow, hall.1⟩, fun hall => ⟨hall.2, hnew⟩⟩
            · omega
          · exact .inl ⟨_, drainTurn_returned hready.waits hflow⟩)
      ⟨⟨msgs, h, rfl, Iff.rfl⟩, hlimit⟩
  obtain ⟨left, hready, -, hiff⟩ := h'.ready
  cases left with
  | nil =>
    exact .inl ⟨hiff.1 nofun, s', (hends _).2 (Loop.ends_return (drainTurn_empty hready.waits))⟩
  | cons first left =>
    by_cases hflow : FlowOk first.head.flow
    · obtain ⟨s'', new, hturn, -⟩ := drainTurn_step L hu hr hready hflow
      rw [hturn] at hstop
      cases hstop
    · refine .inr ⟨fun hall => hflow ((hiff.2 hall) first List.mem_cons_self), ?_⟩
      exact (hends _).2 (Loop.ends_return (drainTurn_returned hready.waits hflow))

/-- However it is run, the loop ends with nodes and messages of nonces that are not drawn later. -/
theorem drain_ready (L : Layers env.toPolicies) (hu : env.Unfailing) (hr : env.Random limit)
    (h : Ready env limit s msgs) (hends : Loop.Ends (drainTurn env) s (.done (.empty s'))) :
    Ready env limit s' [] := by
  have hkeep (s₁ s₂ : RouterState A B) (h : ∃ msgs, Ready env limit s₁ msgs)
      (hturn : drainTurn env s₁ = .done (.inl s₂)) : ∃ msgs, Ready env limit s₂ msgs := by
    obtain ⟨msgs, h⟩ := h
    cases msgs with
    | nil =>
      rw [drainTurn_empty h.waits] at hturn
      cases hturn
    | cons first msgs =>
      by_cases hflow : FlowOk first.head.flow
      · obtain ⟨s', new, hturn', h', -⟩ := drainTurn_step L hu hr h hflow
        cases hturn'.symm.trans hturn
        exact ⟨_, h'⟩
      · rw [drainTurn_returned h.waits hflow] at hturn
        cases hturn
  obtain ⟨s₁, ⟨msgs, h₁⟩, hturn⟩ := hends.invariant hkeep ⟨msgs, h⟩
  cases msgs with
  | nil =>
    rw [drainTurn_empty h₁.waits] at hturn
    cases hturn
    exact h₁
  | cons first msgs =>
    by_cases hflow : FlowOk first.head.flow
    · obtain ⟨s', new, hturn', -⟩ := drainTurn_step L hu hr h₁ hflow
      cases hturn'.symm.trans hturn
    · rw [drainTurn_returned h₁.waits hflow] at hturn
      cases hturn

end Drain

end Cube.Route
