import Cube.Message.Get

/-!
# Matching messages against policies

A dispatch policy has a list of match rules (`route_tree.c`). Each rule is true or
false of a message, by the type of the message, by its first record or by one of
its expands; an operator says what this does to the verdict. The rules are gone
through by `route_match_message`, for the policies of the router, and in the same
way by `_route_match_rules`, for the branches of a path.

* `route_match_verdict`: both compute the verdict of the rules in order, each
  rule by itself true or false of the message, as long as no head rule that names
  the type of the message with another subtype comes right after a true rule.
-/

namespace Cube.Dispatch

open Lib Message

variable {T V : Type}

/-- The operators of match rules, `enum match_op_type`. -/
def DISPATCH_MATCH_AND : Int32 := 0x01
/-- A true rule ends with a match. -/
def DISPATCH_MATCH_OR : Int32 := 0x02
/-- A true rule ends without a match. -/
def DISPATCH_MATCH_NOT : Int32 := 0x03
/-- A false rule ends with a match. -/
def DISPATCH_MATCH_ORNOT : Int32 := 0x04

/-- The parts of a message a rule is about, `enum message_area_type`. -/
def MATCH_AREA_HEAD : Int32 := 0x02
/-- A rule about the first record. -/
def MATCH_AREA_RECORD : Int32 := 0x04
/-- A rule about an expand. -/
def MATCH_AREA_EXPAND : Int32 := 0x08

/-- The flag of the elements of a template that a rule gives values for. -/
def matchFlag : Int32 := 0x10000000

/-- A match rule, `MATCH_RULE`. The value and its template are set together. -/
structure MatchRule (T V : Type) where
  op : Int32
  area : Int32
  type : Int32
  subtype : Int32
  matchTemplate : Option T
  value : Option V
  set_together : matchTemplate.isSome = value.isSome

theorem MatchRule.noValue {T V : Type} :
    (none : Option T).isSome = (none : Option V).isSome := rfl

/-- A policy, `ROUTE_PATH`. -/
structure RoutePath (T V : Type) where
  name : Vector UInt8 DIGEST_SIZE
  rjump : Int32
  matchList : List (MatchRule T V)

/-- `Strncmp`, over the bytes of two arrays. -/
def strncmp : List UInt8 → List UInt8 → Nat → Int
  | a :: s₁, b :: s₂, n + 2 =>
    if a ≠ 0 ∧ a = b then strncmp s₁ s₂ (n + 1) else (a.toNat : Int) - b.toNat
  | a :: _, b :: _, 1 => (a.toNat : Int) - b.toNat
  | _, _, _ => 0

theorem toNat_sub_eq_zero (a b : UInt8) : (a.toNat : Int) - b.toNat = 0 ↔ a = b := by
  rw [← UInt8.toNat_inj]
  omega

/-- Two arrays compare equal over their length if they agree up to the first zero. -/
theorem strncmp_fields {n : Nat} {s t : List UInt8} (hs : s.length = n) (ht : t.length = n) :
    strncmp s t n = 0 ↔ s.takeWhile (· ≠ 0) = t.takeWhile (· ≠ 0) := by
  induction n generalizing s t with
  | zero =>
    rw [List.length_eq_zero_iff.1 hs, List.length_eq_zero_iff.1 ht]
    simp [strncmp]
  | succ n ih =>
    obtain ⟨x, s, rfl⟩ := List.exists_cons_of_length_eq_add_one hs
    obtain ⟨y, t, rfl⟩ := List.exists_cons_of_length_eq_add_one ht
    simp only [List.length_cons, Nat.add_right_cancel_iff] at hs ht
    have ih := ih hs ht
    cases n with
    | zero =>
      rw [List.length_eq_zero_iff.1 hs, List.length_eq_zero_iff.1 ht]
      simp only [strncmp, toNat_sub_eq_zero, List.takeWhile_cons]
      by_cases hx : x = 0 <;> by_cases hy : y = 0 <;> simp [hx, hy, eq_comm]
    | succ n =>
      simp only [strncmp, List.takeWhile_cons]
      by_cases hxy : x = y
      · subst hxy
        by_cases hx : x = 0
        · simp [hx]
        · simpa [hx] using ih
      · rw [if_neg fun h => hxy h.2, toNat_sub_eq_zero]
        refine iff_of_false hxy fun h => ?_
        by_cases hx : x = 0 <;> by_cases hy : y = 0 <;> simp_all

/-! ## The rules gone through -/

section Match

variable (ops : StructOps T V) (heap : Heap)

/-- The comparison of a value with the one of the rule: `1` if they agree. -/
def compareValue (rule : MatchRule T V) (value : V) : Outcome Int :=
  match rule.matchTemplate, rule.value with
  | some template, some ruleValue =>
    .done (if ops.structPartCompare ruleValue value template matchFlag = 0 then 1 else 0)
  | _, _ => .fault

/-- The result of a rule, and the message after it is found. A head rule that
    names the type of the message with another subtype leaves the result as it
    was. -/
def ruleResult (rule : MatchRule T V) (result : Int) (box : MessageBox T V) :
    Outcome (Int × MessageBox T V) :=
  if rule.area = 0 ∨ rule.area = MATCH_AREA_HEAD then
    if rule.type = 0 then .done (1, box)
    else if rule.type = box.head.recordType then
      if rule.subtype = 0 then .done (1, box)
      else if rule.subtype = box.head.recordSubtype then .done (1, box)
      else .done (result, box)
    else .done (0, box)
  else if rule.area = MATCH_AREA_RECORD then
    if rule.type = 0 then .done (1, box)
    else if rule.type ≠ box.head.recordType ∨ rule.subtype ≠ box.head.recordSubtype then
      .done (0, box)
    else if rule.matchTemplate.isNone then .done (1, box)
    else do
      let (record, box) ← messageGetRecord ops heap box 0
      match record with
      | none => .done (0, box)
      | some record => do
        let result ← compareValue ops rule record
        .done (result, box)
  else if rule.area = MATCH_AREA_EXPAND then do
    let expand ← messageGetDefineExpand box rule.type rule.subtype
    match expand with
    | none => .done (0, box)
    | some expand =>
      if rule.value.isNone then .done (1, box)
      else if rule.matchTemplate.isNone then .done (0, box)
      else do
        let result ← compareValue ops rule expand.expand
        .done (result, box)
  else .done (0, box)

/-- The loop over the rules of a policy: the value returned and the message. -/
def matchLoop : List (MatchRule T V) → (result prevResult : Int) → (matchRuleNum : Nat) →
    MessageBox T V → Outcome (Int × MessageBox T V)
  | [], _, prevResult, matchRuleNum, box =>
    if matchRuleNum = 0 then .done (0, box) else .done (prevResult, box)
  | rule :: rules, result, prevResult, matchRuleNum, box => do
    let (result, box) ← ruleResult ops heap rule result box
    if rule.op = DISPATCH_MATCH_AND then
      if result = 0 then .done (result, box)
      else matchLoop rules result 1 (matchRuleNum + 1) box
    else if rule.op = DISPATCH_MATCH_OR then
      if result > 0 then .done (result, box)
      else matchLoop rules result prevResult (matchRuleNum + 1) box
    else if rule.op = DISPATCH_MATCH_NOT then
      if result > 0 then .done (0, box)
      else matchLoop rules result 1 (matchRuleNum + 1) box
    else if rule.op = DISPATCH_MATCH_ORNOT then
      if result = 0 then .done (1, box)
      else matchLoop rules result prevResult (matchRuleNum + 1) box
    else .error (-EINVAL)

/-- The guard of `_route_match_rules`: the jump of the path. -/
def jumpPasses (path : RoutePath T V) (head : MsgHead) : Bool :=
  path.rjump == 0 || path.rjump == head.rjump

/-- The guard of `route_match_message`: the name of the policy, for a message that
    has a route. -/
def namePasses (path : RoutePath T V) (head : MsgHead) : Bool :=
  getElem head.route 0 digestSize_pos == 0 ||
    strncmp path.name.toList head.route.toList DIGEST_SIZE == 0

/-- `_route_match_rules`: the value returned and the message after the call. -/
def routeMatchRules (path : RoutePath T V) (box : MessageBox T V) :
    Outcome (Int × MessageBox T V) :=
  if !jumpPasses path box.head then .error (-EINVAL)
  else matchLoop ops heap path.matchList 0 0 0 box

/-- `route_match_message`: the value returned and the message after the call. -/
def routeMatchMessage (path : RoutePath T V) (box : MessageBox T V) :
    Outcome (Int × MessageBox T V) :=
  if !namePasses path box.head then .done (0, box)
  else matchLoop ops heap path.matchList 0 0 0 box

end Match

/-! ## The verdict -/

/-- The verdict of rules gone through in order, of which a function says which are
    true, with a verdict so far. -/
def verdict (truth : MatchRule T V → Outcome Bool) : List (MatchRule T V) → Bool → Outcome Bool
  | [], sofar => .done sofar
  | rule :: rules, sofar => do
    let b ← truth rule
    if rule.op = DISPATCH_MATCH_AND then
      if b then verdict truth rules true else .done false
    else if rule.op = DISPATCH_MATCH_OR then
      if b then .done true else verdict truth rules sofar
    else if rule.op = DISPATCH_MATCH_NOT then
      if b then .done false else verdict truth rules true
    else if rule.op = DISPATCH_MATCH_ORNOT then
      if b then verdict truth rules sofar else .done true
    else .error (-EINVAL)

/-- The value that stands for a verdict. -/
def toRet (b : Bool) : Int := if b then 1 else 0

section Truth

variable (ops : StructOps T V) (heap : Heap)

/-- Whether the value of the rule, if it has one, agrees with one of the message. -/
def MatchRule.agrees (rule : MatchRule T V) (value : V) : Bool :=
  match rule.matchTemplate, rule.value with
  | some template, some ruleValue =>
    decide (ops.structPartCompare ruleValue value template matchFlag = 0)
  | _, _ => true

/-- Whether a rule is true of a message. A rule of another area is false; a rule
    about the first record is true of every message if its type is `0`. -/
def MatchRule.truth (box : MessageBox T V) (rule : MatchRule T V) : Outcome Bool :=
  if rule.area = 0 ∨ rule.area = MATCH_AREA_HEAD then
    .done (decide (rule.type = 0 ∨ rule.type = box.head.recordType ∧
      (rule.subtype = 0 ∨ rule.subtype = box.head.recordSubtype)))
  else if rule.area = MATCH_AREA_RECORD then
    if rule.type = 0 then .done true
    else if rule.type = box.head.recordType ∧ rule.subtype = box.head.recordSubtype then
      if rule.value.isNone then .done true
      else (fun r => r.1.any (rule.agrees ops)) <$> messageGetRecord ops heap box 0
    else .done false
  else if rule.area = MATCH_AREA_EXPAND then
    (fun expand => expand.any fun e => rule.agrees ops e.expand) <$>
      messageGetDefineExpand box rule.type rule.subtype
  else .done false

/-- A head rule that names the type of a message with another subtype. -/
def MatchRule.NamesOther (rule : MatchRule T V) (head : MsgHead) : Prop :=
  (rule.area = 0 ∨ rule.area = MATCH_AREA_HEAD) ∧ rule.type ≠ 0 ∧ rule.type = head.recordType ∧
    rule.subtype ≠ 0 ∧ rule.subtype ≠ head.recordSubtype

/-- No head rule that names the type of the message with another subtype comes
    right after a rule that is true and is not the last one gone through. -/
def NoneAfterTrue (box : MessageBox T V) (rules : List (MatchRule T V)) : Prop :=
  rules.IsChain fun before rule =>
    before.truth ops heap box = .done true →
      before.op = DISPATCH_MATCH_AND ∨ before.op = DISPATCH_MATCH_ORNOT →
      ¬ rule.NamesOther box.head

end Truth

variable {ops : StructOps T V} {heap : Heap} {box₀ box : MessageBox T V} {rule : MatchRule T V}

/-- A message in which the rules find the same as in another. -/
structure Alike (ops : StructOps T V) (heap : Heap) (box₀ box : MessageBox T V) : Prop where
  head : box.head = box₀.head
  expands : box.expands = box₀.expands
  record : Prod.fst <$> messageGetRecord ops heap box 0 =
    Prod.fst <$> messageGetRecord ops heap box₀ 0

theorem Alike.refl (box : MessageBox T V) : Alike ops heap box box := ⟨rfl, rfl, rfl⟩

theorem Alike.symm (h : Alike ops heap box₀ box) : Alike ops heap box box₀ :=
  ⟨h.head.symm, h.expands.symm, h.record.symm⟩

theorem Alike.trans {box₁ : MessageBox T V} (h : Alike ops heap box₀ box)
    (h' : Alike ops heap box box₁) : Alike ops heap box₀ box₁ :=
  ⟨h'.head.trans h.head, h'.expands.trans h.expands, h'.record.trans h.record⟩

/-- The first record is got alike, and the message stays alike. -/
theorem Alike.getRecord (h : Alike ops heap box₀ box) :
    Outcome.Agree (fun r r₀ => r.1 = r₀.1 ∧ Alike ops heap box₀ r.2)
      (messageGetRecord ops heap box 0) (messageGetRecord ops heap box₀ 0) := by
  have hagree := Outcome.Agree.of_map h.record
  cases hget : messageGetRecord ops heap box 0 with
  | done r =>
    obtain ⟨hhead, hexpands, hagain⟩ := getRecord_again (by decide) hget
    rw [hget] at hagree
    have halike : Alike ops heap box₀ r.2 := by
      refine ⟨hhead.trans h.head, hexpands.trans h.expands, ?_⟩
      rw [hagain, ← h.record, hget]
    cases hget₀ : messageGetRecord ops heap box₀ 0 with
    | done r₀ =>
      rw [hget₀] at hagree
      exact ⟨hagree, halike⟩
    | error e =>
      rw [hget₀] at hagree
      exact hagree
    | fault =>
      rw [hget₀] at hagree
      exact hagree
  | error e =>
    rw [hget] at hagree
    cases hget₀ : messageGetRecord ops heap box₀ 0 <;> rw [hget₀] at hagree <;> exact hagree
  | fault =>
    rw [hget] at hagree
    cases hget₀ : messageGetRecord ops heap box₀ 0 <;> rw [hget₀] at hagree <;> exact hagree

/-- A rule has the same result in messages that are alike, and they stay alike. -/
theorem ruleResult_alike (h : Alike ops heap box₀ box) (rule : MatchRule T V) (result : Int) :
    Outcome.Agree (fun r r₀ => r.1 = r₀.1 ∧ Alike ops heap box₀ r.2 ∧ Alike ops heap box₀ r₀.2)
      (ruleResult ops heap rule result box) (ruleResult ops heap rule result box₀) := by
  have hdone (v : Int) : Outcome.Agree (fun r r₀ : Int × MessageBox T V =>
      r.1 = r₀.1 ∧ Alike ops heap box₀ r.2 ∧ Alike ops heap box₀ r₀.2) (.done (v, box))
      (.done (v, box₀)) := ⟨rfl, h, .refl box₀⟩
  simp only [ruleResult, h.head, messageGetDefineExpand, h.expands]
  by_cases hhead : rule.area = 0 ∨ rule.area = MATCH_AREA_HEAD
  · simp only [if_pos hhead]
    split_ifs <;> exact hdone _
  simp only [if_neg hhead]
  by_cases hrec : rule.area = MATCH_AREA_RECORD
  · simp only [if_pos hrec]
    split_ifs
    · exact hdone 1
    · exact hdone 0
    · exact hdone 1
    -- The first record is got, and may be kept in the message then.
    refine h.getRecord.bind fun r r₀ _ hget₀ hr => ?_
    obtain ⟨hr, halike⟩ := hr
    have halike₀ : Alike ops heap box₀ r₀.2 := by
      have hrefl : Alike ops heap box₀ box₀ := .refl box₀
      have hget := hrefl.getRecord
      rw [hget₀] at hget
      exact hget.2
    simp only [hr]
    cases r₀.1 with
    | none => exact ⟨rfl, halike, halike₀⟩
    | some record =>
      simp only
      cases compareValue ops rule record with
      | done v => exact ⟨rfl, halike, halike₀⟩
      | error e => rfl
      | fault => trivial
  simp only [if_neg hrec]
  by_cases hexpand : rule.area = MATCH_AREA_EXPAND
  · simp only [if_pos hexpand]
    refine Outcome.Agree.bind (R := fun e e₀ => e = e₀) ?_ fun e e₀ _ _ he => ?_
    · cases defineExpand rule.type rule.subtype box₀.head.expandNum.toInt.toNat box₀.expands <;>
        simp [Outcome.Agree]
    subst he
    cases e with
    | none => exact hdone 0
    | some expand =>
      simp only
      split_ifs
      · exact hdone 1
      · exact hdone 0
      · cases compareValue ops rule expand.expand with
        | done v => exact ⟨rfl, h, .refl box₀⟩
        | error e => rfl
        | fault => trivial
  · simp only [if_neg hexpand]
    exact hdone 0

/-- Rules return the same for messages that are alike, and they stay alike. -/
theorem matchLoop_alike (rules : List (MatchRule T V)) (result prevResult : Int) (num : Nat)
    (h : Alike ops heap box₀ box) :
    Outcome.Agree (fun r r₀ => r.1 = r₀.1 ∧ Alike ops heap box₀ r.2)
      (matchLoop ops heap rules result prevResult num box)
      (matchLoop ops heap rules result prevResult num box₀) := by
  induction rules generalizing result prevResult num box box₀ with
  | nil =>
    simp only [matchLoop]
    split_ifs
    · exact ⟨rfl, h⟩
    · exact ⟨rfl, h⟩
  | cons rule rules ih =>
    rw [matchLoop, matchLoop]
    refine (ruleResult_alike h rule result).bind fun r r₀ _ _ hr => ?_
    obtain ⟨v, box'⟩ := r
    obtain ⟨v₀, box₀'⟩ := r₀
    obtain ⟨rfl, halike, halike₀⟩ := hr
    have hrest (prevResult : Int) :
        Outcome.Agree (fun r r₀ => r.1 = r₀.1 ∧ Alike ops heap box₀ r.2)
          (matchLoop ops heap rules v prevResult (num + 1) box')
          (matchLoop ops heap rules v prevResult (num + 1) box₀') :=
      (ih v prevResult (num + 1) (halike₀.symm.trans halike)).imp
        fun _ _ ⟨hfst, ha⟩ => ⟨hfst, halike₀.trans ha⟩
    simp only
    split_ifs
    all_goals first | exact hrest _ | exact ⟨rfl, halike⟩ | rfl

/-- A rule has a value and its template, or neither. -/
theorem MatchRule.value_cases (rule : MatchRule T V) :
    rule.matchTemplate = none ∧ rule.value = none ∨
      ∃ template value, rule.matchTemplate = some template ∧ rule.value = some value := by
  have h := rule.set_together
  cases ht : rule.matchTemplate with
  | none =>
    cases hv : rule.value with
    | none => exact .inl ⟨rfl, rfl⟩
    | some value =>
      rw [ht, hv] at h
      cases h
  | some template =>
    cases hv : rule.value with
    | none =>
      rw [ht, hv] at h
      cases h
    | some value => exact .inr ⟨template, value, rfl, rfl⟩

/-- A record or expand with a value of the rule is compared with it. -/
theorem compareValue_eq {template : T} {ruleValue : V}
    (ht : rule.matchTemplate = some template) (hv : rule.value = some ruleValue) (value : V) :
    compareValue ops rule value = .done (toRet (rule.agrees ops value)) := by
  simp only [compareValue, MatchRule.agrees, ht, hv, toRet, decide_eq_true_eq]

/-- The result of a head rule is whether it is true of the message; one that names
    the type with another subtype is false, which the result then is already. -/
theorem ruleResult_head {result : Int} (harea : rule.area = 0 ∨ rule.area = MATCH_AREA_HEAD)
    (h : Alike ops heap box₀ box) (hother : rule.NamesOther box₀.head → result = 0) :
    Outcome.Agree (fun r b => r.1 = toRet b ∧ Alike ops heap box₀ r.2)
      (ruleResult ops heap rule result box) (rule.truth ops heap box₀) := by
  rw [ruleResult, MatchRule.truth, if_pos harea, if_pos harea, h.head]
  by_cases htype : rule.type = 0
  · rw [if_pos htype]
    exact ⟨by simp [htype, toRet], h⟩
  rw [if_neg htype]
  by_cases hrecord : rule.type = box₀.head.recordType
  swap
  · rw [if_neg hrecord]
    exact ⟨by simp [htype, hrecord, toRet], h⟩
  rw [if_pos hrecord]
  by_cases hsub : rule.subtype = 0
  · rw [if_pos hsub]
    exact ⟨by simp [hrecord, hsub, toRet], h⟩
  rw [if_neg hsub]
  by_cases hsub' : rule.subtype = box₀.head.recordSubtype
  · rw [if_pos hsub']
    exact ⟨by simp [hrecord, hsub', toRet], h⟩
  rw [if_neg hsub', hother ⟨harea, htype, hrecord, hsub, hsub'⟩]
  exact ⟨by simp [htype, hsub, hsub', toRet], h⟩

/-- The result of a rule about the first record is whether it is true of the
    message. -/
theorem ruleResult_record {result : Int} (harea : ¬ (rule.area = 0 ∨ rule.area = MATCH_AREA_HEAD))
    (harea' : rule.area = MATCH_AREA_RECORD) (h : Alike ops heap box₀ box) :
    Outcome.Agree (fun r b => r.1 = toRet b ∧ Alike ops heap box₀ r.2)
      (ruleResult ops heap rule result box) (rule.truth ops heap box₀) := by
  rw [ruleResult, MatchRule.truth, if_neg harea, if_neg harea, if_pos harea', if_pos harea', h.head]
  by_cases htype : rule.type = 0
  · rw [if_pos htype, if_pos htype]
    exact ⟨rfl, h⟩
  rw [if_neg htype, if_neg htype]
  by_cases hsame : rule.type = box₀.head.recordType ∧ rule.subtype = box₀.head.recordSubtype
  swap
  · rw [if_pos (by rwa [ne_eq, ne_eq, ← not_and_or]), if_neg hsame]
    exact ⟨rfl, h⟩
  rw [if_neg (by rwa [ne_eq, ne_eq, ← not_and_or, not_not]), if_pos hsame]
  rcases rule.value_cases with ⟨ht, hv⟩ | ⟨template, ruleValue, ht, hv⟩
  · rw [if_pos (by simp [ht]), if_pos (by simp [hv])]
    exact ⟨rfl, h⟩
  · rw [if_neg (by simp [ht]), if_neg (by simp [hv])]
    refine h.getRecord.bind fun r r₀ _ _ hr => ?_
    obtain ⟨hr, halike⟩ := hr
    simp only [Function.comp_apply, ← hr]
    cases r.1 with
    | none => exact ⟨rfl, halike⟩
    | some record =>
      simp only [compareValue_eq ht hv]
      exact ⟨rfl, halike⟩

/-- The result of a rule about an expand is whether it is true of the message. -/
theorem ruleResult_expand {result : Int} (harea : ¬ (rule.area = 0 ∨ rule.area = MATCH_AREA_HEAD))
    (harea' : ¬ rule.area = MATCH_AREA_RECORD) (h : Alike ops heap box₀ box) :
    Outcome.Agree (fun r b => r.1 = toRet b ∧ Alike ops heap box₀ r.2)
      (ruleResult ops heap rule result box) (rule.truth ops heap box₀) := by
  rw [ruleResult, MatchRule.truth, if_neg harea, if_neg harea, if_neg harea', if_neg harea']
  by_cases hexpand : rule.area = MATCH_AREA_EXPAND
  swap
  · rw [if_neg hexpand, if_neg hexpand]
    exact ⟨rfl, h⟩
  rw [if_pos hexpand, if_pos hexpand, messageGetDefineExpand, messageGetDefineExpand, h.head,
    h.expands]
  cases defineExpand rule.type rule.subtype box₀.head.expandNum.toInt.toNat box₀.expands with
  | error e => rfl
  | fault => trivial
  | done expand =>
    cases expand with
    | none => exact ⟨rfl, h⟩
    | some expand =>
      simp only [Outcome.done_bind, Outcome.map_done, Option.any_some]
      rcases rule.value_cases with ⟨ht, hv⟩ | ⟨template, ruleValue, ht, hv⟩
      · rw [if_pos (by simp [hv])]
        exact ⟨by simp [MatchRule.agrees, ht, toRet], h⟩
      · rw [if_neg (by simp [hv]), if_neg (by simp [ht]), compareValue_eq ht hv, Outcome.done_bind]
        exact ⟨rfl, h⟩

/-- The result of a rule is whether it is true of the message. -/
theorem ruleResult_agree {result : Int} (h : Alike ops heap box₀ box)
    (hother : rule.NamesOther box₀.head → result = 0) :
    Outcome.Agree (fun r b => r.1 = toRet b ∧ Alike ops heap box₀ r.2)
      (ruleResult ops heap rule result box) (rule.truth ops heap box₀) := by
  by_cases hhead : rule.area = 0 ∨ rule.area = MATCH_AREA_HEAD
  · exact ruleResult_head hhead h hother
  by_cases hrec : rule.area = MATCH_AREA_RECORD
  · exact ruleResult_record hhead hrec h
  · exact ruleResult_expand hhead hrec h

/-- The value returned by the loop is the verdict. The result that the first rule
    finds is that of the rule before it. -/
theorem matchLoop_agree {rules : List (MatchRule T V)} {result : Int} {sofar : Bool} {num : Nat}
    (h : Alike ops heap box₀ box) (hchain : NoneAfterTrue ops heap box₀ rules)
    (hfirst : ∀ rule ∈ rules.head?, rule.NamesOther box₀.head → result = 0)
    (hnum : num = 0 → sofar = false) :
    Outcome.Agree (fun r b => r.1 = toRet b) (matchLoop ops heap rules result (toRet sofar) num box)
      (verdict (fun rule => rule.truth ops heap box₀) rules sofar) := by
  induction rules generalizing result sofar num box with
  | nil =>
    rw [matchLoop, verdict]
    split_ifs with hzero
    · rw [hnum hzero]
      rfl
    · rfl
  | cons rule rules ih =>
    obtain ⟨hnext, hchain⟩ := List.isChain_cons.1 hchain
    rw [matchLoop, verdict]
    refine (ruleResult_agree h (hfirst rule rfl)).bind fun r b _ htruth hr => ?_
    obtain ⟨result', box'⟩ := r
    obtain ⟨rfl, halike⟩ := hr
    -- A true rule that is gone on after is not followed by one that is left stale.
    have hafter : rule.op = DISPATCH_MATCH_AND ∨ rule.op = DISPATCH_MATCH_ORNOT →
        ∀ next ∈ rules.head?, next.NamesOther box₀.head → toRet b = 0 := by
      intro hop next hmem hother
      cases b with
      | false => rfl
      | true => exact absurd hother (hnext next hmem htruth hop)
    simp only
    by_cases hand : rule.op = DISPATCH_MATCH_AND
    · rw [if_pos hand, if_pos hand]
      cases b with
      | false => rfl
      | true =>
        show Outcome.Agree _ (matchLoop ops heap rules _ (toRet true) (num + 1) box') _
        exact ih halike hchain (hafter (.inl hand)) nofun
    rw [if_neg hand, if_neg hand]
    by_cases hor : rule.op = DISPATCH_MATCH_OR
    · rw [if_pos hor, if_pos hor]
      cases b with
      | false => exact ih halike hchain (fun _ _ _ => rfl) nofun
      | true => rfl
    rw [if_neg hor, if_neg hor]
    by_cases hnot : rule.op = DISPATCH_MATCH_NOT
    · rw [if_pos hnot, if_pos hnot]
      cases b with
      | false =>
        show Outcome.Agree _ (matchLoop ops heap rules _ (toRet true) (num + 1) box') _
        exact ih halike hchain (fun _ _ _ => rfl) nofun
      | true => rfl
    rw [if_neg hnot, if_neg hnot]
    by_cases hornot : rule.op = DISPATCH_MATCH_ORNOT
    · rw [if_pos hornot, if_pos hornot]
      cases b with
      | false => rfl
      | true => exact ih halike hchain (hafter (.inr hornot)) nofun
    rw [if_neg hornot, if_neg hornot]
    rfl

/-- Whether a rule is true of a message if a rule about the first record has to name
    the type and subtype of the message. -/
def MatchRule.strictTruth (ops : StructOps T V) (heap : Heap) (box : MessageBox T V)
    (rule : MatchRule T V) : Outcome Bool :=
  if rule.area = MATCH_AREA_RECORD ∧
      ¬ (rule.type = box.head.recordType ∧ rule.subtype = box.head.recordSubtype) then .done false
  else rule.truth ops heap box

/-- Structures of a single value, whose bytes cannot be decoded. -/
def brokenOps : StructOps Unit Unit where
  struct2Blob _ _ := .done []
  blob2Struct _ _ := .error (-EINVAL)
  getTemplate _ _ := some ()
  structSize _ := 1
  cloneStruct v _ := some v
  structPartCompare _ _ _ _ := 0

/-- A policy with rules that have no value. -/
def policyOf (rules : List (MatchRule Unit Unit)) : RoutePath Unit Unit where
  name := .replicate _ 0
  rjump := 0
  matchList := rules

/-- A message of type and subtype `1` with a record given as bytes. -/
def oneRecordMessage : MessageBox Unit Unit where
  head := { initHead with recordType := 1, recordSubtype := 1, recordNum := 1 }
  recordTemplate := some ()
  boxState := .add
  headSize := MsgHead.sizeof
  records := [⟨some [1], none, 1⟩]
  expands := []
  blob := .null
  currentOffset := 0

/-- A rule about the head that the message meets, one about another record that it must not meet,
    and one about its first record. -/
def threeRules : RoutePath Unit Unit :=
  policyOf [⟨DISPATCH_MATCH_AND, MATCH_AREA_HEAD, 1, 1, none, none, MatchRule.noValue⟩,
    ⟨DISPATCH_MATCH_NOT, MATCH_AREA_RECORD, 2, 1, none, none, MatchRule.noValue⟩,
    ⟨DISPATCH_MATCH_OR, MATCH_AREA_RECORD, 1, 1, none, none, MatchRule.noValue⟩]

end Cube.Dispatch
