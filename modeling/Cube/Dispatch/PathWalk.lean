import Cube.Dispatch.RouteTree

/-!
# The walk along a path

A message is put at the head of one of the two paths of its policy, and
`message_route_setnext` moves it on from node to node. The end of the path is
recognised by the head of the *route* path, on both paths.

* `setnext_walks_iff`: the message visits the nodes of its path in order and then
  stays at the end, unless it is on a response path with nodes: there the call
  after the one that reaches the end starts the path again.
-/

namespace Cube.Route

open Lib Message

variable {A : Type} [DecidableEq A]

/-! ## Policies -/

/-- The two paths of a policy in memory: the records of each, and the nodes they
    hold. -/
structure Paths (mem : PathMemory A) (path : RoutePath A) where
  routeSites : List A
  responseSites : List A
  route : List RouteNode
  response : List RouteNode
  holds_route : Holds mem path.routePath routeSites route
  holds_response : Holds mem path.responsePath responseSites response
  disjoint : ∀ u ∈ path.routePath :: routeSites, u ∉ path.responsePath :: responseSites

namespace Paths

variable {mem : PathMemory A} {path : RoutePath A}

/-- The paths of a new policy have no nodes. -/
def create (mem : PathMemory A) (path : RoutePath A) (hne : path.routePath ≠ path.responsePath) :
    Paths (routePathCreate mem path) path where
  routeSites := []
  responseSites := []
  route := []
  response := []
  holds_route := holds_nodeListInit.nodeListInit (by simpa using hne.symm)
  holds_response := holds_nodeListInit
  disjoint := by simpa using hne

/-- The addresses of the records of both paths. -/
def sites (P : Paths mem path) : List A :=
  (path.routePath :: P.routeSites) ++ path.responsePath :: P.responseSites

/-- The paths with a rule added to the route path, in a record at a new address. -/
def addRoute (P : Paths mem path) {x : A} (hx : x ∉ P.sites) (node : A) (rule : RouteRule) :
    Paths (routePolicyAddrouterule (some node) (some x) mem path rule).2 path where
  routeSites := P.routeSites ++ [x]
  responseSites := P.responseSites
  route := P.route ++ [RouteNode.mk rule]
  response := P.response
  holds_route := holds_nodeListAdd P.holds_route (fun h => hx (List.mem_append_left _ h)) ⟨rule⟩
  holds_response := P.holds_response.nodeListAdd_other P.holds_route
    (fun h => hx (List.mem_append_right _ h)) (fun h => hx (List.mem_append_left _ h))
    (fun u hu hu' => P.disjoint u hu' hu) ⟨rule⟩
  disjoint := by
    intro u hu hu'
    rcases List.mem_append.1 (List.cons_append ▸ hu) with hu | hu
    · exact P.disjoint u hu hu'
    · exact hx (List.mem_append_right _ (List.mem_singleton.1 hu ▸ hu'))

/-- The paths with a rule added to the response path, in a record at a new address. -/
def addResponse (P : Paths mem path) {x : A} (hx : x ∉ P.sites) (node : A) (rule : RouteRule) :
    Paths (routeTreeAddresponserule (some node) (some x) mem path rule).2 path where
  routeSites := P.routeSites
  responseSites := P.responseSites ++ [x]
  route := P.route
  response := P.response ++ [RouteNode.mk rule]
  holds_route := P.holds_route.nodeListAdd_other P.holds_response
    (fun h => hx (List.mem_append_left _ h)) (fun h => hx (List.mem_append_right _ h))
    P.disjoint ⟨rule⟩
  holds_response := holds_nodeListAdd P.holds_response
    (fun h => hx (List.mem_append_right _ h)) ⟨rule⟩
  disjoint := by
    intro u hu hu'
    rcases List.mem_append.1 (List.cons_append ▸ hu') with hu' | hu'
    · exact P.disjoint u hu hu'
    · exact hx (List.mem_append_left _ (List.mem_singleton.1 hu' ▸ hu))

/-- The head of the path that a message is on. -/
def head (path : RoutePath A) (onResponse : Bool) : A :=
  if onResponse then path.responsePath else path.routePath

/-- The nodes of the path that a message is on. -/
def nodes (P : Paths mem path) (onResponse : Bool) : List RouteNode :=
  if onResponse then P.response else P.route

/-- The records of the path that a message is on. -/
def pathSites (P : Paths mem path) (onResponse : Bool) : List A :=
  if onResponse then P.responseSites else P.routeSites

omit [DecidableEq A] in
theorem holds (P : Paths mem path) (onResponse : Bool) :
    Holds mem (head path onResponse) (P.pathSites onResponse) (P.nodes onResponse) := by
  cases onResponse with
  | false => exact P.holds_route
  | true => exact P.holds_response

omit [DecidableEq A] in
/-- The head of the route path is none of the records of a path. -/
theorem site_ne_routePath (P : Paths mem path) (onResponse : Bool) {u : A}
    (hu : u ∈ P.pathSites onResponse) : u ≠ path.routePath := by
  rintro rfl
  cases onResponse with
  | false => exact (List.nodup_cons.1 P.holds_route.ring.nodup).1 hu
  | true => exact P.disjoint _ List.mem_cons_self (List.mem_cons_of_mem _ hu)

end Paths

/-! ## Walks -/

/-- The message started on a path of the policy: on the route path by
    `message_route_setstart`, on the response path by
    `message_route_settracetarget`, and by `message_route_setremotestart` on the
    one that its state tells. -/
inductive Started (path : RoutePath A) : Bool → RouteMessage A → Prop
  | setstart (dalloc0 : Dalloc0) (forest : Forest A) (msg : RouteMessage A) :
      Started path false (messageRouteSetstart dalloc0 forest msg path).2.2
  | setremotestart (ret : Int) (dalloc0 : Dalloc0) (routeForest : List (RoutePath A))
      (forest : Forest A) (msg : RouteMessage A)
      (found : routerFindPolicyByname routeForest msg.head.route msg.head.rjump 0 = some path) :
      Started path (msg.head.state = MSG_STATE_RESPONSE)
        (messageRouteSetremotestart ret dalloc0 routeForest forest msg).2.2
  | settracetarget (msg : RouteMessage A) (node : TraceNode A) (own : node.path = some path) :
      Started path true (messageRouteSettracetarget msg (some node)).2

/-- The message after `n` calls of `message_route_setnext`. -/
def afterSetnext (targets : Targets A) (mem : PathMemory A) (msg : RouteMessage A) (n : Nat) :
    RouteMessage A :=
  (fun msg => (messageRouteSetnext targets mem msg).2)^[n] msg

/-- Calls of `message_route_setnext` visit the nodes in order, each once, and then
    none: the receiver is cleared and `0` returned, by this call and all later ones.
    Before each call `get_next_pathsite` tells the node it visits. -/
structure Walks (targets : Targets A) (mem : PathMemory A) (msg : RouteMessage A)
    (nodes : List RouteNode) : Prop where
  announces : ∀ n, getNextPathsite mem (afterSetnext targets mem msg n) = nodes[n]?
  visits : ∀ n, (setNextPathsite mem (afterSetnext targets mem msg n)).1 = nodes[n]?
  at_node : ∀ n, getCurrPathsite mem (afterSetnext targets mem msg (n + 1)) = nodes[n]?
  returns : ∀ n, nodes.length ≤ n →
    (messageRouteSetnext targets mem (afterSetnext targets mem msg n)).1 = 0
  clears : ∀ n, nodes.length ≤ n →
    (afterSetnext targets mem msg (n + 1)).head.receiverUuid = .replicate _ 0

variable {targets : Targets A} {mem : PathMemory A} {path : RoutePath A} {msg : RouteMessage A}

/-! ## One step -/

omit [DecidableEq A] in
/-- A message started is at the head of the path. -/
theorem Started.at_head {onResponse : Bool} (h : Started path onResponse msg) :
    msg.policy = some path ∧ msg.pathSite = some (Paths.head path onResponse) := by
  cases h with
  | setstart dalloc0 forest msg =>
    rw [messageRouteSetstart, startTrace_msg]
    exact ⟨rfl, rfl⟩
  | setremotestart ret dalloc0 routeForest forest msg found =>
    simp only [messageRouteSetremotestart, found, startTrace_msg, Paths.head, true_and]
    by_cases hstate : msg.head.state = MSG_STATE_RESPONSE <;> simp [hstate]
  | settracetarget msg node own =>
    simp [messageRouteSettracetarget, own, Paths.head]

theorem setNextPathsite_policy (mem : PathMemory A) (msg : RouteMessage A) :
    (setNextPathsite mem msg).2.policy = msg.policy := by
  unfold setNextPathsite
  grind

/-- The message moves as `set_next_pathsite` puts it. -/
theorem messageRouteSetnext_moves :
    (messageRouteSetnext targets mem msg).2.policy = msg.policy ∧
      (messageRouteSetnext targets mem msg).2.pathSite = (setNextPathsite mem msg).2.pathSite := by
  have hpolicy := setNextPathsite_policy mem msg
  unfold messageRouteSetnext
  rcases hnext : setNextPathsite mem msg with ⟨_ | node, msg'⟩
  · simp_all
  · simp_all [ruleGetTarget]

theorem afterSetnext_succ (n : Nat) : afterSetnext targets mem msg (n + 1) =
    (messageRouteSetnext targets mem (afterSetnext targets mem msg n)).2 :=
  Function.iterate_succ_apply' _ _ _

theorem afterSetnext_policy (n : Nat) : (afterSetnext targets mem msg n).policy = msg.policy := by
  induction n with
  | zero => rfl
  | succ n ih => rw [afterSetnext_succ, messageRouteSetnext_moves.1, ih]

/-- What is announced is what is visited. -/
theorem getNextPathsite_eq : getNextPathsite mem msg = (setNextPathsite mem msg).1 := by
  unfold getNextPathsite setNextPathsite
  grind

/-- The node visited is the one the message is at afterwards, as long as the head of
    a list is no node. -/
theorem getCurrPathsite_setnext :
    getCurrPathsite mem (messageRouteSetnext targets mem msg).2 = (setNextPathsite mem msg).1 := by
  rw [getCurrPathsite, messageRouteSetnext_moves.2]
  unfold setNextPathsite
  grind

theorem messageRouteSetnext_none (targets : Targets A)
    (h : (setNextPathsite mem msg).1 = none) :
    (messageRouteSetnext targets mem msg).1 = 0 ∧
      (messageRouteSetnext targets mem msg).2.head.receiverUuid = .replicate _ 0 := by
  unfold messageRouteSetnext
  rcases hnext : setNextPathsite mem msg with ⟨_ | node, msg'⟩
  · exact ⟨rfl, rfl⟩
  · simp [hnext] at h

/-- A walk is told by the nodes it visits. -/
theorem walks_iff {nodes : List RouteNode} : Walks targets mem msg nodes ↔
    ∀ n, (setNextPathsite mem (afterSetnext targets mem msg n)).1 = nodes[n]? := by
  constructor
  · exact fun h => h.visits
  · intro h
    have hend (n : Nat) (hn : nodes.length ≤ n) :=
      messageRouteSetnext_none targets ((h n).trans (List.getElem?_eq_none hn))
    refine ⟨fun n => ?_, h, fun n => ?_, fun n hn => (hend n hn).1, fun n hn => ?_⟩
    · rw [getNextPathsite_eq, h n]
    · rw [afterSetnext_succ, getCurrPathsite_setnext, h n]
    · rw [afterSetnext_succ]
      exact (hend n hn).2

/-! ## Whole walks -/

section Walk

variable (targets) (P : Paths mem path) (onResponse : Bool)

/-- Until the end, the message is at one record of its path after the other. -/
theorem pathSite_upto (hpolicy : msg.policy = some path)
    (hsite : msg.pathSite = some (Paths.head path onResponse)) {n : Nat}
    (hn : n ≤ (P.pathSites onResponse).length) :
    (afterSetnext targets mem msg n).pathSite =
      (Paths.head path onResponse :: P.pathSites onResponse)[n]? := by
  induction n with
  | zero => exact hsite
  | succ n ih =>
    obtain ⟨u, hu⟩ : ∃ u, (Paths.head path onResponse :: P.pathSites onResponse)[n]? = some u :=
      ⟨_, List.getElem?_eq_getElem (Nat.lt_succ_of_lt hn)⟩
    have hnext := (P.holds onResponse).ring.seg.next_getElem? hu
    rw [List.getElem?_append_left hn] at hnext
    have hne := P.site_ne_routePath onResponse (List.mem_of_getElem? hnext)
    rw [afterSetnext_succ, messageRouteSetnext_moves.2, setNextPathsite, ih (Nat.le_of_lt hn), hu]
    simp [hnext, afterSetnext_policy, hpolicy, hne]

/-- Past the end of the route path the message is nowhere. -/
theorem pathSite_route_end (hpolicy : msg.policy = some path)
    (hsite : msg.pathSite = some path.routePath) {n : Nat} (hn : P.routeSites.length < n) :
    (afterSetnext targets mem msg n).pathSite = none := by
  induction n, hn using Nat.le_induction with
  | base =>
    have hlast : (afterSetnext targets mem msg P.routeSites.length).pathSite =
        (path.routePath :: P.routeSites)[P.routeSites.length]? :=
      pathSite_upto targets P false hpolicy hsite (Nat.le_refl _)
    obtain ⟨u, hu⟩ : ∃ u, (path.routePath :: P.routeSites)[P.routeSites.length]? = some u :=
      ⟨_, List.getElem?_eq_getElem (Nat.lt_succ_self _)⟩
    have hnext := P.holds_route.ring.seg.next_getElem? hu
    simp only [List.getElem?_concat_length, Option.some.injEq] at hnext
    rw [afterSetnext_succ, messageRouteSetnext_moves.2, setNextPathsite, hlast, hu]
    simp [afterSetnext_policy, hpolicy, ← hnext]
  | succ n hn ih =>
    rw [afterSetnext_succ, messageRouteSetnext_moves.2, setNextPathsite, ih]
    exact ih

/-- Up to the end of its path the message visits the nodes in order, and none at
    the end. -/
theorem visit_upto (hpolicy : msg.policy = some path)
    (hsite : msg.pathSite = some (Paths.head path onResponse)) {n : Nat}
    (hn : n ≤ (P.pathSites onResponse).length) :
    (setNextPathsite mem (afterSetnext targets mem msg n)).1 = (P.nodes onResponse)[n]? := by
  have hholds := P.holds onResponse
  obtain ⟨u, hu⟩ : ∃ u, (Paths.head path onResponse :: P.pathSites onResponse)[n]? = some u :=
    ⟨_, List.getElem?_eq_getElem (Nat.lt_succ_of_le hn)⟩
  have hnext := hholds.ring.seg.next_getElem? hu
  rw [setNextPathsite, pathSite_upto targets P onResponse hpolicy hsite hn, hu]
  rcases Nat.lt_or_eq_of_le hn with hlt | rfl
  · rw [List.getElem?_append_left hlt] at hnext
    have hne := P.site_ne_routePath onResponse (List.mem_of_getElem? hnext)
    simp [afterSetnext_policy, hpolicy, hne, hholds.record_getElem? hnext]
  · have hend : (P.nodes onResponse)[(P.pathSites onResponse).length]? = none :=
      List.getElem?_eq_none hholds.length_eq.ge
    simp only [List.getElem?_concat_length, Option.some.injEq] at hnext
    simp only [← hnext, hend]
    split_ifs
    · rfl
    · exact hholds.head_record

/-- On the route path the nodes are visited in order, and nothing after them. -/
theorem walks_route (hpolicy : msg.policy = some path)
    (hsite : msg.pathSite = some path.routePath) : Walks targets mem msg P.route := by
  refine walks_iff.2 fun n => ?_
  rcases Nat.lt_or_ge P.routeSites.length n with hn | hn
  · have hend : P.route[n]? = none :=
      List.getElem?_eq_none (P.holds_route.length_eq ▸ hn.le)
    rw [setNextPathsite, pathSite_route_end targets P hpolicy hsite hn, hend]
  · exact visit_upto targets P false hpolicy hsite hn

/-- On a response path without nodes the message stays at the head. -/
theorem walks_response_nil (hpolicy : msg.policy = some path)
    (hsite : msg.pathSite = some path.responsePath) (hnil : P.response = []) :
    Walks targets mem msg P.response := by
  have hsites : P.responseSites = [] := by
    simpa [hnil] using P.holds_response.length_eq
  have hnext : mem.links.next path.responsePath = path.responsePath := by
    have hring := P.holds_response.ring.seg
    rw [hsites] at hring
    exact hring.1
  have hhead : path.responsePath ≠ path.routePath := fun he =>
    P.disjoint _ List.mem_cons_self (he ▸ List.mem_cons_self)
  have hstay (n : Nat) : (afterSetnext targets mem msg n).pathSite = some path.responsePath := by
    induction n with
    | zero => exact hsite
    | succ n ih =>
      rw [afterSetnext_succ, messageRouteSetnext_moves.2, setNextPathsite, ih]
      simp [hnext, afterSetnext_policy, hpolicy, hhead]
  refine walks_iff.2 fun n => ?_
  rw [setNextPathsite, hstay]
  simp [hnext, afterSetnext_policy, hpolicy, hhead, hnil, P.holds_response.head_record]

/-- On a response path with nodes, the call after the one that comes to the end
    visits the first node again. -/
theorem visits_first_again {node : RouteNode} {l : List RouteNode}
    (hpolicy : msg.policy = some path) (hsite : msg.pathSite = some path.responsePath)
    (hcons : P.response = node :: l) :
    (setNextPathsite mem (afterSetnext targets mem msg (P.response.length + 1))).1 =
      some node := by
  have hlength := P.holds_response.length_eq
  have hhead : path.responsePath ≠ path.routePath := fun he =>
    P.disjoint _ List.mem_cons_self (he ▸ List.mem_cons_self)
  -- The message is at the last node, and the next call puts it at the head.
  have hlast : (afterSetnext targets mem msg P.responseSites.length).pathSite =
      (path.responsePath :: P.responseSites)[P.responseSites.length]? :=
    pathSite_upto targets P true hpolicy hsite (Nat.le_refl _)
  obtain ⟨u, hu⟩ : ∃ u, (path.responsePath :: P.responseSites)[P.responseSites.length]? = some u :=
    ⟨_, List.getElem?_eq_getElem (Nat.lt_succ_self _)⟩
  have hend := P.holds_response.ring.seg.next_getElem? hu
  simp only [List.getElem?_concat_length, Option.some.injEq] at hend
  have hat : (afterSetnext targets mem msg (P.response.length + 1)).pathSite =
      some path.responsePath := by
    rw [← hlength, afterSetnext_succ, messageRouteSetnext_moves.2, setNextPathsite, hlast, hu]
    simp [afterSetnext_policy, hpolicy, ← hend, hhead]
  obtain ⟨x, sites, hsites⟩ : ∃ x sites, P.responseSites = x :: sites := by
    rcases hsites : P.responseSites with _ | ⟨x, sites⟩
    · simp [hsites, hcons] at hlength
    · exact ⟨x, sites, rfl⟩
  have hfirst : mem.links.next path.responsePath = x :=
    (hsites ▸ P.holds_response.ring).next_head
  have hx : P.responseSites[0]? = some x := by simp [hsites]
  have hne : x ≠ path.routePath :=
    P.site_ne_routePath true (List.mem_of_getElem? hx)
  rw [setNextPathsite, hat]
  simp [hfirst, afterSetnext_policy, hpolicy, hne, P.holds_response.record_getElem? hx, hcons]

variable {targets} {onResponse}

/-- A message started on a path of its policy visits the nodes of the path in order
    and then stays at the end exactly when it is on the route path, or the response
    path has no nodes. -/
theorem setnext_walks_iff (hstart : Started path onResponse msg) :
    Walks targets mem msg (P.nodes onResponse) ↔ onResponse = false ∨ P.response = [] := by
  obtain ⟨hpolicy, hsite⟩ := hstart.at_head
  cases onResponse with
  | false => exact iff_of_true (walks_route targets P hpolicy hsite) (.inl rfl)
  | true =>
    constructor
    · intro hwalks
      rcases hcons : P.response with _ | ⟨node, l⟩
      · exact .inr rfl
      · have hagain := visits_first_again targets P hpolicy hsite hcons
        have hnone : P.response[P.response.length + 1]? = none :=
          List.getElem?_eq_none (Nat.le_succ _)
        rw [hwalks.visits] at hagain
        exact absurd (hagain.symm.trans hnone) (by simp)
    · rintro (hfalse | hnil)
      · simp at hfalse
      · exact walks_response_nil targets P hpolicy hsite hnil

end Walk

/-! ## A query and its response -/

/-- The rule that ends a path. -/
def finishRule : RouteRule where
  targetType := 0x1000
  targetName := none

/-- The policy of a query, its lists headed at `0` and `1`. -/
def queryPath : RoutePath Nat where
  name := .replicate _ 113
  ljump := 0
  rjump := 0
  flow := MSG_FLOW_QUERY
  routePath := 0
  responsePath := 1

/-- The memory with one rule on both paths of the policy. -/
def queryMem : PathMemory Nat :=
  let mem : PathMemory Nat := { links := ⟨id, id⟩, record := fun _ => none }
  let mem := (routePolicyAddrouterule (some 8) (some 2) (routePathCreate mem queryPath) queryPath
    finishRule).2
  (routeTreeAddresponserule (some 9) (some 3) mem queryPath finishRule).2

/-- The paths of the policy. -/
def queryPaths : Paths queryMem queryPath :=
  ((Paths.create _ queryPath (by decide)).addRoute (x := 2) (by decide) 8 finishRule).addResponse
    (x := 3) (by decide) 9 finishRule

/-- The targets of rules that keep the receiver. -/
def finishTargets : Targets Nat := fun rule msg =>
  { ret := rule.targetType.toInt, receiverUuid := msg.head.receiverUuid, flag := msg.head.flag }

/-- A new message. -/
def newMessage : RouteMessage Nat where
  head := initHead
  policy := none
  pathSite := none

theorem setnext_walks_query : Walks finishTargets queryMem
    (messageRouteSetstart ⟨true, true⟩ initHashForest newMessage queryPath).2.2 [⟨finishRule⟩] :=
  (setnext_walks_iff queryPaths (.setstart _ _ _)).2 (.inl rfl)

/-- The trace node of a query of the policy. -/
def queryTrace : TraceNode Nat where
  msgUuid := .replicate _ 0
  sourceUuid := .replicate _ 0
  targetUuid := .replicate _ 0
  path := some queryPath

/-- The response visits the only node of its path again at the third call. -/
theorem setnext_response_wraps : ¬ Walks finishTargets queryMem
    (messageRouteSettracetarget newMessage (some queryTrace)).2 [⟨finishRule⟩] := by
  intro h
  have hthird := h.visits 2
  revert hthird
  decide

end Cube.Route
