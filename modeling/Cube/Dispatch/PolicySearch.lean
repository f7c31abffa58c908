import Cube.Dispatch.PolicyFailure

/-!
# The search for the policy of a message

`router_find_route_policy` goes through the policies loaded by a cursor in their list, which
`_dispatch_policy_getfirst` puts on the first record and `_dispatch_policy_getnext` moves on.
The rules of a policy are gone through in the same way, by a cursor in the list of the rules.

* `matchScan_agree`, `findScan_agree`: a scan by cursors is the recursion over the list that is
  held, wherever the cursors were before;
* `findsFirst_string`, `findRoutePolicy_iff`: the policy found is the first one that is open, agrees
  with the message and whose rules match it, with senders compared as strings; when this is the
  first one that has the sender of the message, byte for byte.
-/

namespace Cube.LivePolicy

open Lib Message
open Route (Records Holds)
open Dispatch (MatchRule strncmp ruleResult matchLoop matchLoop_alike routeMatchMessage Alike)
open Dispatch (DISPATCH_MATCH_AND DISPATCH_MATCH_OR DISPATCH_MATCH_NOT DISPATCH_MATCH_ORNOT)
open Policies (POLICY_CLOSE POLICY_IGNORE)

/-! ## Scans of a list -/

section Scan

variable {A N : Type} [DecidableEq A]

/-- The cursors of the lists, by the addresses of their heads (`curr` of `NODE_LIST`). -/
abbrev Cursors (A : Type) := A → Option A

/-- `_dispatch_policy_getfirst`: the value returned, what is stored in `*policy`, and the
    cursors after the call. -/
def dispatchPolicyGetfirst (mem : Records A N) (list : A) (curr : Cursors A) :
    Int × Option N × Cursors A :=
  let newrecord := mem.links.next list
  (0, mem.record newrecord, Function.update curr list (some newrecord))

/-- `_dispatch_policy_getnext`, where `*policy` was `policy`. -/
def dispatchPolicyGetnext (mem : Records A N) (list : A) (policy : Option N) (curr : Cursors A) :
    Int × Option N × Cursors A :=
  match curr list with
  | none => (-EINVAL, policy, curr)
  | some recordhead =>
    if recordhead = list then (0, none, curr)
    else
      let newrecord := mem.links.next recordhead
      (0, mem.record newrecord, Function.update curr list (some newrecord))

/-- The records from `u` on are `sites`, and they are records of `l`. -/
inductive Rest (mem : Records A N) (list : A) : A → List A → List N → Prop
  | nil : Rest mem list list [] []
  | cons {u : A} {x : N} {sites : List A} {l : List N} (hne : u ≠ list)
    (hrecord : mem.record u = some x) (h : Rest mem list (mem.links.next u) sites l) :
    Rest mem list u (u :: sites) (x :: l)

variable {mem : Records A N} {list u : A} {sites : List A} {l : List N} {x : N}
  {curr : Cursors A}

omit [DecidableEq A] in
/-- The records behind one of a list. -/
theorem Rest.of_seg {a : A} (hl : mem.links.Seg a sites list) (hne : list ∉ sites)
    (hrecord : sites.map mem.record = l.map some) :
    Rest mem list (mem.links.next a) sites l := by
  induction sites generalizing a l with
  | nil =>
    obtain rfl : l = [] := by simpa using hrecord.symm
    rw [hl.1]
    exact .nil
  | cons v sites ih =>
    obtain ⟨⟨hnext, -⟩, hl⟩ := hl
    cases l with
    | nil => exact absurd hrecord (by simp)
    | cons x l =>
      obtain ⟨hx, hrecord⟩ := List.cons.inj hrecord
      rw [List.mem_cons, not_or] at hne
      rw [hnext]
      exact .cons (Ne.symm hne.1) hx (ih hl hne.2 hrecord)

omit [DecidableEq A] in
/-- The records of a list that is held. -/
theorem Rest.of_holds (h : Holds mem list sites l) : Rest mem list (mem.links.next list) sites l :=
  .of_seg h.ring.seg (List.nodup_cons.1 h.ring.nodup).1 h.record

omit [DecidableEq A] in
/-- What the record that is come to is a record of. -/
theorem Rest.record_eq (h : Rest mem list u sites l) (hhead : mem.record list = none) :
    mem.record u = l.head? := by
  cases h with
  | nil => exact hhead
  | cons hne hrecord h => exact hrecord

/-- A scan of a list starts with its first record, -/
theorem getfirst_eq (h : Holds mem list sites l) (curr : Cursors A) :
    dispatchPolicyGetfirst mem list curr =
      (0, l.head?, Function.update curr list (some (mem.links.next list))) := by
  rw [dispatchPolicyGetfirst, (Rest.of_holds h).record_eq h.head_record]

/-- and goes on with the record behind the one it is at. -/
theorem getnext_eq (h : Rest mem list u (u :: sites) (x :: l)) (hhead : mem.record list = none)
    (hcurr : curr list = some u) (policy : Option N) :
    dispatchPolicyGetnext mem list policy curr =
        (0, l.head?, Function.update curr list (some (mem.links.next u))) ∧
      Rest mem list (mem.links.next u) sites l := by
  cases h with
  | cons hne hrecord h =>
    refine ⟨?_, h⟩
    rw [dispatchPolicyGetnext, hcurr]
    simp only [if_neg hne, h.record_eq hhead]

end Scan

/-! ## The search by cursors -/

/-- The lists of the policies loaded and of their rules: the records, and the heads. A policy
    is told by its number. -/
structure RouterMemory (A T V : Type) where
  routeForest : A
  policies : Records A Nat
  matchList : Nat → A
  rules : Records A (MatchRule T V)

section Search

variable {A T V : Type} [DecidableEq A] (ops : StructOps T V) (heap : Heap)

/-- The loop of `route_match_message` over the rules of a list, of at most so many turns: the
    value returned, and the message and the cursors after the call. -/
def matchScan (mem : Records A (MatchRule T V)) (list : A) :
    Nat → Option (MatchRule T V) → (result prevResult : Int) → (matchRuleNum : Nat) →
      MessageBox T V → Cursors A → Outcome (Int × MessageBox T V × Cursors A)
  | 0, _, _, _, _, _, _ => .fault
  | _ + 1, none, _, prevResult, matchRuleNum, box, curr =>
    if matchRuleNum = 0 then .done (0, box, curr) else .done (prevResult, box, curr)
  | turns + 1, some rule, result, prevResult, matchRuleNum, box, curr => do
    let (result, box) ← ruleResult ops heap rule result box
    let next (prevResult : Int) : Outcome (Int × MessageBox T V × Cursors A) :=
      let (ret, matchRule, curr) := dispatchPolicyGetnext mem list (some rule) curr
      if ret < 0 then .error ret
      else matchScan mem list turns matchRule result prevResult (matchRuleNum + 1) box curr
    if rule.op = DISPATCH_MATCH_AND then
      if result = 0 then .done (result, box, curr) else next 1
    else if rule.op = DISPATCH_MATCH_OR then
      if result > 0 then .done (result, box, curr) else next prevResult
    else if rule.op = DISPATCH_MATCH_NOT then
      if result > 0 then .done (0, box, curr) else next 1
    else if rule.op = DISPATCH_MATCH_ORNOT then
      if result = 0 then .done (1, box, curr) else next prevResult
    else .error (-EINVAL)

/-- `route_match_message`, by the cursor of the list of the rules. -/
def matchMessageScan (turns : Nat) (mem : Records A (MatchRule T V)) (list : A)
    (policy : RoutePath T V) (box : MessageBox T V) (curr : Cursors A) :
    Outcome (Int × MessageBox T V × Cursors A) :=
  if !Dispatch.namePasses policy.rules box.head then .done (0, box, curr)
  else
    let (ret, matchRule, curr) := dispatchPolicyGetfirst mem list curr
    if ret < 0 then .error ret else matchScan ops heap mem list turns matchRule 0 0 0 box curr

/-- What the search comes to: the value returned, the policy found, the message, and the
    policies it was at, in order. -/
structure Found (T V : Type) where
  ret : Int
  policy : Option Nat
  box : MessageBox T V
  visited : List Nat

/-- The loop of `router_find_route_policy`, of at most so many turns, each with a scan of at
    most `ruleTurns` turns. -/
def findScan (ruleTurns : Nat) (mem : RouterMemory A T V) (f : Forest T V) :
    Nat → (ret : Int) → Option Nat → MessageBox T V → Cursors A → List Nat →
      Outcome (Found T V)
  | 0, _, _, _, _, _ => .fault
  | _ + 1, ret, none, box, _, visited => .done ⟨ret, none, box, visited⟩
  | turns + 1, _, some path, box, curr, visited =>
    let visited := visited ++ [path]
    let next (box : MessageBox T V) (curr : Cursors A) : Outcome (Found T V) :=
      let (ret, policy, curr) := dispatchPolicyGetnext mem.policies mem.routeForest (some path) curr
      if ret < 0 then .done ⟨ret, none, box, visited⟩
      else findScan ruleTurns mem f turns ret policy box curr visited
    match f.paths[path]? with
    | none => .fault
    | some policy =>
      if policy.state = POLICY_CLOSE ∨ policy.state = POLICY_IGNORE then next box curr
      else if policy.matchSender box.head.senderUuid && policy.matchJump box.head then
        matchMessageScan ops heap ruleTurns mem.rules (mem.matchList path) policy box curr >>=
          fun (ret, box, curr) =>
            if ret < 0 then .done ⟨ret, none, box, visited⟩
            else if 0 < ret then .done ⟨ret, some path, box, visited⟩
            else next box curr
      else next box curr

/-- `router_find_route_policy`. -/
def findRoutePolicy (turns : Nat) (mem : RouterMemory A T V) (f : Forest T V)
    (box : MessageBox T V) (curr : Cursors A) : Outcome (Found T V) :=
  let (ret, policy, curr) := dispatchPolicyGetfirst mem.policies mem.routeForest curr
  if ret < 0 then .done ⟨ret, none, box, []⟩
  else findScan ops heap turns mem f turns ret policy box curr []

end Search

/-- The lists hold the policies that are loaded and their rules. The list of the policies is
    none of those of rules. -/
structure RouterMemory.Holds {A T V : Type} (mem : RouterMemory A T V) (f : Forest T V) : Prop where
  policies : ∃ sites, Route.Holds mem.policies mem.routeForest sites f.routeForest
  rules : ∀ path ∈ f.routeForest, ∃ policy, f.paths[path]? = some policy ∧
    ∃ sites, Route.Holds mem.rules (mem.matchList path) sites policy.matchList
  ne : ∀ path, mem.matchList path ≠ mem.routeForest

section Search

variable {A T V : Type} [DecidableEq A] {ops : StructOps T V} {heap : Heap}

/-- A scan of the rest of a list of rules is the recursion over it. The cursors of other lists
    stay. -/
theorem matchScan_agree {mem : Records A (MatchRule T V)} {list u : A} {sites : List A}
    {l : List (MatchRule T V)} (h : Rest mem list u sites l) (hhead : mem.record list = none)
    {turns : Nat} (hturns : l.length < turns) (result prevResult : Int) (num : Nat)
    (box : MessageBox T V) {curr : Cursors A} (hcurr : curr list = some u) :
    Outcome.Agree (fun r r₀ => (r.1, r.2.1) = r₀ ∧ ∀ x ≠ list, r.2.2 x = curr x)
      (matchScan ops heap mem list turns l.head? result prevResult num box curr)
      (matchLoop ops heap l result prevResult num box) := by
  obtain ⟨turns, rfl⟩ : ∃ n, turns = n + 1 := ⟨turns - 1, by omega⟩
  induction h generalizing turns result prevResult num box curr with
  | nil =>
    simp only [List.head?_nil, matchScan, matchLoop]
    split_ifs
    · exact ⟨rfl, fun _ _ => rfl⟩
    · exact ⟨rfl, fun _ _ => rfl⟩
  | @cons u rule sites l hne hrecord h ih =>
    rw [List.length_cons] at hturns
    obtain ⟨turns, rfl⟩ : ∃ n, turns = n + 1 := ⟨turns - 1, by omega⟩
    obtain ⟨hnext, -⟩ := getnext_eq (.cons hne hrecord h) hhead hcurr (some rule)
    simp only [List.head?_cons, matchScan, matchLoop, hnext]
    refine Outcome.Agree.bind (R := fun r r₀ => r = r₀) ?_ fun r r₀ _ _ hr => ?_
    · cases ruleResult ops heap rule result box <;> simp [Outcome.Agree]
    subst hr
    -- What is gone on with is the recursion over the rest.
    have hrest (prevResult : Int) :
        Outcome.Agree (fun r' r₀ => (r'.1, r'.2.1) = r₀ ∧ ∀ x ≠ list, r'.2.2 x = curr x)
          (matchScan ops heap mem list (turns + 1) l.head? r.1 prevResult (num + 1) r.2
            (Function.update curr list (some (mem.links.next u))))
          (matchLoop ops heap l r.1 prevResult (num + 1) r.2) := by
      have hagree := ih r.1 prevResult (num + 1) r.2
        (Function.update_self list (some (mem.links.next u)) curr) turns (by omega)
      refine hagree.imp fun r' r₀ h' => ⟨h'.1, fun x hx => ?_⟩
      rw [h'.2 x hx, Function.update_of_ne hx]
    have hdone (v : Int) : Outcome.Agree (fun r' r₀ => (r'.1, r'.2.1) = r₀ ∧
        ∀ x ≠ list, r'.2.2 x = curr x) (.done (v, r.2, curr)) (.done (v, r.2)) :=
      ⟨rfl, fun _ _ => rfl⟩
    have hzero : ¬ (0 : Int) < 0 := by decide
    simp only [hzero, if_false]
    split_ifs
    all_goals first | exact hdone _ | exact hrest _ | rfl

/-- The match of a message with a policy by the cursor of the rules. -/
theorem matchMessageScan_agree {mem : Records A (MatchRule T V)} {list : A} {sites : List A}
    {policy : RoutePath T V} (h : Holds mem list sites policy.matchList) {turns : Nat}
    (hturns : policy.matchList.length < turns) (box : MessageBox T V) (curr : Cursors A) :
    Outcome.Agree (fun r r₀ => (r.1, r.2.1) = r₀ ∧ ∀ x ≠ list, r.2.2 x = curr x)
      (matchMessageScan ops heap turns mem list policy box curr)
      (routeMatchMessage ops heap policy.rules box) := by
  rw [matchMessageScan, routeMatchMessage]
  split_ifs
  · exact ⟨rfl, fun _ _ => rfl⟩
  · simp only [getfirst_eq h]
    refine (matchScan_agree (Rest.of_holds h) h.head_record hturns 0 0 0 box
      (Function.update_self list (some (mem.links.next list)) curr)).imp
        fun r r₀ h => ⟨h.1, fun x hx => ?_⟩
    rw [h.2 x hx, Function.update_of_ne hx]

variable (ops heap) in
/-- A scan of the rest of the policies is the recursion over it, and is at each of them once, in
    order, as far as it goes. -/
theorem findScan_agree {mem : RouterMemory A T V} {f : Forest T V} (hmem : mem.Holds f)
    {ruleTurns : Nat} (hrules : ∀ path ∈ f.routeForest, ∀ policy, f.paths[path]? = some policy →
      policy.matchList.length < ruleTurns)
    {u : A} {sites : List A} {l : List Nat} (h : Rest mem.policies mem.routeForest u sites l)
    (hhead : mem.policies.record mem.routeForest = none) (hl : ∀ path ∈ l, path ∈ f.routeForest)
    (turns : Nat) (hturns : l.length < turns) (box : MessageBox T V) {curr : Cursors A}
    (hcurr : curr mem.routeForest = some u) (visited : List Nat) :
    Outcome.Agree (fun r r₀ => (r.ret, r.policy, r.box) = r₀ ∧
        ∃ more, r.visited = visited ++ more ∧ more <+: l)
      (findScan ops heap ruleTurns mem f turns 0 l.head? box curr visited)
      (routerFindRoutePolicy ops heap f l box) := by
  obtain ⟨turns, rfl⟩ : ∃ n, turns = n + 1 := ⟨turns - 1, by omega⟩
  induction h generalizing turns box curr visited with
  | nil =>
    simp only [List.head?_nil, findScan, routerFindRoutePolicy]
    exact ⟨rfl, [], (List.append_nil _).symm, List.nil_prefix⟩
  | @cons u path sites l hne hrecord h ih =>
    rw [List.length_cons] at hturns
    obtain ⟨turns, rfl⟩ : ∃ n, turns = n + 1 := ⟨turns - 1, by omega⟩
    rw [List.forall_mem_cons] at hl
    simp only [List.head?_cons, findScan, routerFindRoutePolicy]
    have hzero : ¬ (0 : Int) < 0 := by decide
    have hget {curr' : Cursors A} (hcurr' : curr' mem.routeForest = some u) :=
      (getnext_eq (.cons hne hrecord h) hhead hcurr' (some path)).1
    -- The policy is passed over, with the cursors where a scan of rules may have left them.
    have hnext (box : MessageBox T V) (curr' : Cursors A) :
        Outcome.Agree (fun r r₀ => (r.ret, r.policy, r.box) = r₀ ∧
            ∃ more, r.visited = visited ++ more ∧ more <+: path :: l)
          (findScan ops heap ruleTurns mem f (turns + 1) 0 l.head? box
            (Function.update curr' mem.routeForest (some (mem.policies.links.next u)))
            (visited ++ [path]))
          (routerFindRoutePolicy ops heap f l box) := by
      have hagree := ih hl.2 box
        (Function.update_self mem.routeForest (some (mem.policies.links.next u)) curr')
        (visited ++ [path]) turns (by omega)
      refine hagree.imp fun r r₀ hr => ?_
      obtain ⟨hr, more, hvisited, hmore⟩ := hr
      refine ⟨hr, path :: more, ?_, ?_⟩
      · rw [hvisited, List.append_assoc]
        rfl
      · exact List.cons_prefix_cons.2 ⟨rfl, hmore⟩
    cases hpath : f.paths[path]? with
    | none => trivial
    | some policy =>
      simp only [hget hcurr, hzero, if_false]
      by_cases hstate : policy.state = POLICY_CLOSE ∨ policy.state = POLICY_IGNORE
      · simp only [if_pos hstate]
        exact hnext box curr
      simp only [if_neg hstate]
      by_cases hmatch : (policy.matchSender box.head.senderUuid && policy.matchJump box.head) = true
      · simp only [if_pos hmatch]
        obtain ⟨_, hsome, _, hlist⟩ := hmem.rules path hl.1
        cases hpath.symm.trans hsome
        refine (matchMessageScan_agree hlist (hrules path hl.1 policy hpath) box curr).bind
          fun r r₀ _ _ hr => ?_
        obtain ⟨ret, box', curr'⟩ := r
        obtain ⟨rfl, hcurr'⟩ := hr
        have hone : [path] <+: path :: l := List.cons_prefix_cons.2 ⟨rfl, List.nil_prefix⟩
        simp only [hget ((hcurr' _ (hmem.ne path).symm).trans hcurr), hzero, if_false]
        split_ifs
        · exact ⟨rfl, [path], rfl, hone⟩
        · exact ⟨rfl, [path], rfl, hone⟩
        · exact hnext box' curr'
      · simp only [if_neg hmatch]
        exact hnext box curr

end Search

/-! ## The policy that is selected -/

/-- Two fields hold the same string, if they compare equal. -/
theorem strncmp_eq_zero_iff (a b : Uuid) :
    strncmp a.toList b.toList DIGEST_SIZE = 0 ↔ cString a.toList = cString b.toList :=
  Dispatch.strncmp_fields (Vector.length_toList) (Vector.length_toList)

/-- The senders of a policy and of a message are the same string. -/
def SameString (a b : Uuid) : Prop := cString a.toList = cString b.toList

section Selects

variable (same : Uuid → Uuid → Prop) {T V : Type} (ops : StructOps T V) (heap : Heap)

/-- A policy is open and agrees with a message: in the sender, in the jumps where it has them,
    and in the name where the message has a route. -/
structure RoutePath.Agrees (p : RoutePath T V) (head : MsgHead) : Prop where
  isOpen : p.state ≠ POLICY_CLOSE ∧ p.state ≠ POLICY_IGNORE
  sender : same p.sender head.senderUuid
  rjump : p.rjump = 0 ∨ p.rjump = head.rjump
  ljump : p.ljump = 0 ∨ p.ljump = head.ljump
  name : head.route[0] ≠ 0 → cString p.name.toList = cString head.route.toList

/-- What the rules of a policy say of a message: `1` for a match. -/
def RoutePath.rulesMatch (p : RoutePath T V) (box : MessageBox T V) : Outcome Int :=
  Prod.fst <$> matchLoop ops heap p.matchList 0 0 0 box

/-- A policy does not agree with a message, or its rules do not match it. -/
def PassedOver (f : Forest T V) (box : MessageBox T V) (path : Nat) : Prop :=
  ∃ p, f.paths[path]? = some p ∧ (p.Agrees same box.head → p.rulesMatch ops heap box = .done 0)

/-- A policy agrees with a message, and its rules say `x` of it: a match or an error. -/
def Decides (f : Forest T V) (box : MessageBox T V) (path : Nat) (x : Outcome Int) : Prop :=
  ∃ p, f.paths[path]? = some p ∧ p.Agrees same box.head ∧ p.rulesMatch ops heap box = x ∧
    x ≠ .done 0

/-- The search ends with what the rules of a policy say, and with the policy if they match. -/
def settle (path : Nat) (x : Outcome Int) : Outcome (Int × Option Nat) :=
  (fun ret => (ret, if 0 < ret then some path else none)) <$> x

/-- What a search for the policy of a message comes to: the first policy that is not passed
    over, if there is one, or the error its rules come to. -/
inductive Selects (f : Forest T V) (box : MessageBox T V) :
    List Nat → Outcome (Int × Option Nat) → Prop
  | none : Selects f box [] (.done (0, none))
  | passed {path : Nat} {rest : List Nat} {x : Outcome (Int × Option Nat)}
    (hpath : PassedOver same ops heap f box path) (h : Selects f box rest x) :
    Selects f box (path :: rest) x
  | decided {path : Nat} {rest : List Nat} {x : Outcome Int}
    (h : Decides same ops heap f box path x) : Selects f box (path :: rest) (settle path x)

variable {same ops heap} {f : Forest T V} {box₀ box : MessageBox T V} {path : Nat}
  {policies : List Nat} {x y : Outcome Int}

/-- The tests that the search makes are those of a policy that agrees. -/
theorem agrees_iff (p : RoutePath T V) (head : MsgHead) :
    p.Agrees SameString head ↔ ¬ (p.state = POLICY_CLOSE ∨ p.state = POLICY_IGNORE) ∧
      (p.matchSender head.senderUuid && p.matchJump head) = true ∧
      Dispatch.namePasses p.rules head = true := by
  have hname : Dispatch.namePasses p.rules head = true ↔
      (head.route[0] ≠ 0 → cString p.name.toList = cString head.route.toList) := by
    rw [← strncmp_eq_zero_iff]
    simp only [Dispatch.namePasses, RoutePath.rules, Bool.or_eq_true, beq_iff_eq]
    tauto
  have hmatch : (p.matchSender head.senderUuid && p.matchJump head) = true ↔
      cString p.sender.toList = cString head.senderUuid.toList ∧ (p.rjump = 0 ∨ p.rjump = head.rjump) ∧
        (p.ljump = 0 ∨ p.ljump = head.ljump) := by
    rw [← strncmp_eq_zero_iff]
    simp [RoutePath.matchSender, RoutePath.matchJump]
  rw [hmatch, hname]
  constructor
  · rintro ⟨⟨h1, h2⟩, h3, h4, h5, h6⟩
    exact ⟨not_or.2 ⟨h1, h2⟩, ⟨h3, h4, h5⟩, h6⟩
  · rintro ⟨h1, ⟨h3, h4, h5⟩, h6⟩
    exact ⟨not_or.1 h1, h3, h4, h5, h6⟩

variable (ops heap) in
/-- The recursion over the policies selects, whatever has been kept in the message by the rules
    of those before. -/
theorem routerFindRoutePolicy_selects (policies : List Nat)
    (hpaths : ∀ path ∈ policies, ∃ p, f.paths[path]? = some p) (h : Alike ops heap box₀ box) :
    Selects SameString ops heap f box₀ policies
      ((fun r => (r.1, r.2.1)) <$> routerFindRoutePolicy ops heap f policies box) := by
  induction policies generalizing box with
  | nil => exact .none
  | cons path rest ih =>
    rw [List.forall_mem_cons] at hpaths
    obtain ⟨⟨p, hp⟩, hpaths⟩ := hpaths
    simp only [routerFindRoutePolicy, hp, h.head]
    by_cases hstate : p.state = POLICY_CLOSE ∨ p.state = POLICY_IGNORE
    · rw [if_pos hstate]
      exact .passed ⟨p, hp, fun ha => absurd hstate ((agrees_iff p _).1 ha).1⟩ (ih hpaths h)
    rw [if_neg hstate]
    by_cases hmatch : (p.matchSender box₀.head.senderUuid && p.matchJump box₀.head) = true
    swap
    · rw [if_neg hmatch]
      exact .passed ⟨p, hp, fun ha => absurd ((agrees_iff p _).1 ha).2.1 hmatch⟩ (ih hpaths h)
    rw [if_pos hmatch, routeMatchMessage, h.head]
    by_cases hname : Dispatch.namePasses p.rules box₀.head = true
    swap
    · have hpassed : PassedOver SameString ops heap f box₀ path :=
        ⟨p, hp, fun ha => absurd ((agrees_iff p _).1 ha).2.2 hname⟩
      simpa [hname] using Selects.passed hpassed (ih hpaths h)
    have hagrees : p.Agrees SameString box₀.head := (agrees_iff p _).2 ⟨hstate, hmatch, hname⟩
    simp only [hname, Bool.not_true, Bool.false_eq_true, if_false]
    have hloop := matchLoop_alike p.matchList 0 0 0 h
    have hrules : p.rules.matchList = p.matchList := rfl
    rw [hrules]
    rcases hbox₀ : matchLoop ops heap p.matchList 0 0 0 box₀ with r₀ | e₀ | _ <;>
      rcases hbox : matchLoop ops heap p.matchList 0 0 0 box with r | e | _ <;>
        rw [hbox, hbox₀] at hloop
    case done.done =>
      obtain ⟨hret, halike⟩ := hloop
      have hsays : p.rulesMatch ops heap box₀ = .done r.1 := by
        rw [RoutePath.rulesMatch, hbox₀, hret]
        rfl
      simp only [Outcome.done_bind]
      by_cases hzero : r.1 = 0
      · rw [hzero] at hsays ⊢
        exact .passed ⟨p, hp, fun _ => hsays⟩ (ih hpaths halike)
      · have hends : Selects SameString ops heap f box₀ (path :: rest) (settle path (.done r.1)) :=
          .decided ⟨p, hp, hagrees, hsays, fun h => hzero (Outcome.done.inj h)⟩
        split_ifs with hneg hpos
        · rwa [settle, Outcome.map_done, if_neg (by omega)] at hends
        · rwa [settle, Outcome.map_done, if_pos hpos] at hends
        · omega
    case error.error =>
      obtain rfl : e = e₀ := hloop
      have hsays : p.rulesMatch ops heap box₀ = .error e := by
        rw [RoutePath.rulesMatch, hbox₀]
        rfl
      have hends : Selects SameString ops heap f box₀ (path :: rest) (settle path (.error e)) :=
        .decided ⟨p, hp, hagrees, hsays, fun h => by cases h⟩
      exact hends
    case fault.fault =>
      have hsays : p.rulesMatch ops heap box₀ = .fault := by
        rw [RoutePath.rulesMatch, hbox₀]
        rfl
      have hends : Selects SameString ops heap f box₀ (path :: rest) (settle path .fault) :=
        .decided ⟨p, hp, hagrees, hsays, fun h => by cases h⟩
      exact hends
    all_goals exact hloop.elim

/-- The search comes to what the relation of the senders selects, wherever the cursors are, and is at
    each policy once, in order, as far as it goes. -/
def FindsFirst {A : Type} [DecidableEq A] (same : Uuid → Uuid → Prop)
    (ops : StructOps T V) (heap : Heap) (mem : RouterMemory A T V) (f : Forest T V)
    (box : MessageBox T V) : Prop :=
  ∃ enough, ∀ turns ≥ enough, ∀ curr : Cursors A,
    Selects same ops heap f box f.routeForest
      ((fun r => (r.ret, r.policy)) <$> findRoutePolicy ops heap turns mem f box curr) ∧
    ∀ r, findRoutePolicy ops heap turns mem f box curr = .done r → r.visited <+: f.routeForest

variable (ops heap) in
/-- With senders compared as strings, the search finds the first policy. -/
theorem findsFirst_string {A : Type} [DecidableEq A] {mem : RouterMemory A T V}
    (hmem : mem.Holds f) (box : MessageBox T V) : FindsFirst SameString ops heap mem f box := by
  refine ⟨f.routeForest.length + (f.paths.map fun p => p.matchList.length).sum + 1,
    fun turns hturns curr => ?_⟩
  obtain ⟨sites, hl⟩ := hmem.policies
  have hrules : ∀ path ∈ f.routeForest, ∀ policy, f.paths[path]? = some policy →
      policy.matchList.length < turns := by
    intro path _ policy hpath
    have hmem := List.mem_map_of_mem (f := fun p : RoutePath T V => p.matchList.length)
      (List.mem_of_getElem? hpath)
    have := List.le_sum_of_mem hmem
    omega
  have hagree := findScan_agree ops heap hmem hrules (Rest.of_holds hl)
    hl.head_record (fun _ h => h) turns (by omega) box
    (Function.update_self mem.routeForest (some (mem.policies.links.next mem.routeForest)) curr) []
  have hselects := routerFindRoutePolicy_selects ops heap f.routeForest
    (fun path h => (hmem.rules path h).imp fun _ h => h.1) (.refl box)
  have hscan : findRoutePolicy ops heap turns mem f box curr =
      findScan ops heap turns mem f turns 0 f.routeForest.head? box
        (Function.update curr mem.routeForest
          (some (mem.policies.links.next mem.routeForest))) [] := by
    simp [findRoutePolicy, getfirst_eq hl]
  rw [hscan]
  refine ⟨?_, fun r hr => ?_⟩
  · have heq := (hagree.imp fun r r₀ ⟨hr, _⟩ => by
      rw [← hr] : Outcome.Agree (fun r r₀ => (r.ret, r.policy) = (r₀.1, r₀.2.1)) _ _).map_eq
    rw [heq]
    exact hselects
  · rw [hr] at hagree
    cases hlist : routerFindRoutePolicy ops heap f f.routeForest box with
    | done r₀ =>
      rw [hlist] at hagree
      obtain ⟨-, more, hvisited, hmore⟩ := hagree
      rwa [hvisited]
    | error e =>
      rw [hlist] at hagree
      exact hagree.elim
    | fault =>
      rw [hlist] at hagree
      exact hagree.elim

/-! ## Senders that are not the same bytes -/

/-- The first policy that decides where senders are compared as strings has the sender of the
    message, byte for byte, or else the policies after it come to the same. -/
def SenderTold (ops : StructOps T V) (heap : Heap) (f : Forest T V) (box : MessageBox T V)
    (policies : List Nat) : Prop :=
  ∀ before path after x, policies = before ++ path :: after →
    (∀ q ∈ before, PassedOver SameString ops heap f box q) →
    Decides SameString ops heap f box path x →
      (∃ p, f.paths[path]? = some p ∧ p.sender = box.head.senderUuid) ∨
        Selects Eq ops heap f box after (settle path x)

theorem PassedOver.of_string (h : PassedOver SameString ops heap f box path) :
    PassedOver Eq ops heap f box path := by
  obtain ⟨p, hp, hrules⟩ := h
  refine ⟨p, hp, fun ha => hrules ⟨ha.isOpen, ?_, ha.rjump, ha.ljump, ha.name⟩⟩
  exact congrArg (fun uuid : Uuid => cString uuid.toList) ha.sender

/-- A policy that decides is not passed over. -/
theorem Decides.not_passedOver (h : Decides same ops heap f box path x) :
    ¬ PassedOver same ops heap f box path := by
  obtain ⟨p, hp, hagrees, rfl, hx⟩ := h
  rintro ⟨p', hp', hrules⟩
  cases hp.symm.trans hp'
  exact hx (hrules hagrees)

/-- What is selected from a policy and those after it. -/
theorem selects_cons {y : Outcome (Int × Option Nat)} :
    Selects same ops heap f box (path :: policies) y ↔
      (PassedOver same ops heap f box path ∧ Selects same ops heap f box policies y) ∨
        ∃ x, Decides same ops heap f box path x ∧ y = settle path x := by
  constructor
  · intro h
    cases h with
    | passed hpath h => exact .inl ⟨hpath, h⟩
    | decided h => exact .inr ⟨_, h, rfl⟩
  · rintro (⟨hpath, h⟩ | ⟨x, h, rfl⟩)
    · exact .passed hpath h
    · exact .decided h

/-- What is selected where a policy decides by the string of its sender. -/
theorem Decides.selects_iff (h : Decides SameString ops heap f box path x) :
    Selects Eq ops heap f box (path :: policies) (settle path x) ↔
      (∃ p, f.paths[path]? = some p ∧ p.sender = box.head.senderUuid) ∨
        Selects Eq ops heap f box policies (settle path x) := by
  obtain ⟨p, hp, hagrees, hrules, hx⟩ := h
  rw [selects_cons]
  constructor
  · rintro (⟨-, h⟩ | ⟨x', ⟨p', hp', hagrees', -⟩, -⟩)
    · exact .inr h
    · exact .inl ⟨p', hp', hagrees'.sender⟩
  · by_cases hsender : p.sender = box.head.senderUuid
    · intro _
      exact .inr ⟨x, ⟨p, hp, ⟨hagrees.isOpen, hsender, hagrees.rjump, hagrees.ljump, hagrees.name⟩,
        hrules, hx⟩, rfl⟩
    · rintro (⟨p', hp', hsender'⟩ | h)
      · cases hp.symm.trans hp'
        exact absurd hsender' hsender
      · exact .inl ⟨⟨p, hp, fun ha => absurd ha.sender hsender⟩, h⟩

/-- When senders compared as strings and byte for byte come to the same. -/
theorem Selects.bytes_iff {y : Outcome (Int × Option Nat)}
    (h : Selects SameString ops heap f box policies y) :
    Selects Eq ops heap f box policies y ↔ SenderTold ops heap f box policies := by
  induction h with
  | none =>
    refine iff_of_true .none fun before path after x hpolicies => ?_
    cases before <;> cases hpolicies
  | @passed path rest y hpath h ih =>
    have hnot : ¬ ∃ x, Decides Eq ops heap f box path x ∧ y = settle path x := by
      rintro ⟨x, hdecides, -⟩
      exact hdecides.not_passedOver hpath.of_string
    rw [selects_cons, or_iff_left hnot, and_iff_right hpath.of_string, ih]
    constructor
    · rintro htold (_ | ⟨q, before⟩) path' after x hpolicies hbefore hdecides
      · cases hpolicies
        exact absurd hpath hdecides.not_passedOver
      · cases hpolicies
        exact htold before path' after x rfl (List.forall_mem_cons.1 hbefore).2 hdecides
    · rintro htold before path' after x rfl hbefore hdecides
      exact htold (path :: before) path' after x rfl (List.forall_mem_cons.2 ⟨hpath, hbefore⟩) hdecides
  | @decided path rest x h =>
    rw [h.selects_iff]
    constructor
    · rintro hends (_ | ⟨q, before⟩) path' after x' hpolicies hbefore hdecides
      · cases hpolicies
        obtain ⟨p, hp, -, rfl, -⟩ := h
        obtain ⟨p', hp', -, rfl, -⟩ := hdecides
        cases hp.symm.trans hp'
        exact hends
      · cases hpolicies
        exact absurd (hbefore path List.mem_cons_self) h.not_passedOver
    · intro htold
      exact htold [] path rest x rfl (List.forall_mem_nil _) h

end Selects

/-! ## A policy with a rule -/

/-- A policy `a` for the messages of type and subtype `1`. -/
def ruledPolicy : Forest Unit Unit where
  paths := [⟨strncpy [97], .replicate _ 0, 0, 0, 1, MSG_FLOW_DELIVER,
    [⟨DISPATCH_MATCH_AND, Dispatch.MATCH_AREA_HEAD, 1, 1, none, none,
      Dispatch.MatchRule.noValue⟩], [0, 1], []⟩]
  nodes := onePolicy.nodes
  routeForest := [0]

/-- Two rings of a head and one record each. -/
def pairLinks : Links Nat where
  next a := if a = 0 then 1 else if a = 1 then 0 else if a = 2 then 3 else 2
  prev a := if a = 0 then 1 else if a = 1 then 0 else if a = 2 then 3 else 2

/-- The lists of the policy and of its rule. -/
def ruledMemory : RouterMemory Nat Unit Unit where
  routeForest := 0
  policies := ⟨pairLinks, fun a => if a = 1 then some 0 else none⟩
  matchList _ := 2
  rules := ⟨pairLinks, fun a => if a = 3 then
    some ⟨DISPATCH_MATCH_AND, Dispatch.MATCH_AREA_HEAD, 1, 1, none, none,
      Dispatch.MatchRule.noValue⟩
    else none⟩

theorem ruledMemory_holds : ruledMemory.Holds ruledPolicy where
  policies := ⟨[1], ⟨⟨by decide, by simp [Links.Seg, ruledMemory, pairLinks]⟩, rfl, rfl⟩⟩
  rules path hpath := by
    obtain rfl : path = 0 := by simpa [ruledPolicy] using hpath
    exact ⟨_, rfl, [3], ⟨⟨by decide, by simp [Links.Seg, ruledMemory, pairLinks]⟩, rfl, rfl⟩⟩
  ne _ := Nat.succ_ne_zero 1

/-- A message whose sender is a digest that begins with a zero byte. -/
def digestMessage : MessageBox Unit Unit :=
  { Dispatch.oneRecordMessage with
    head := { Dispatch.oneRecordMessage.head with senderUuid := (Vector.replicate _ 0).set 1 7 } }

end Cube.LivePolicy
