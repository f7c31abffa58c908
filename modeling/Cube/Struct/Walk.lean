import Cube.Lib.Outcome
import Cube.Struct.Elem

/-!
# The walk over a template

All conversions of structures are one loop, `_convert_frame_func`, that goes
through a template element by element: down into a nested structure, up again at
its end, and down once more while it is to be repeated. What the conversion does
with an element is up to the functions given to the loop.

The loop keeps where it is in the template itself: for every node the index of its
current element (`temp_var`), for every element how often it was gone through
(`index`) and is to be (`limit`).

* `Visits`: the walk as a recursion over nested structures.
* `walk_of_visits`, `visits_of_walk`: the loop comes through a structure exactly if
  the recursion does.
-/

namespace Cube.Struct

open Lib

/-- The variables of the walk in a template. -/
structure Scratch where
  tempVar : Loc → Nat
  index : Loc → Int
  limit : Loc → Int

/-- The variables of a template no walk is in. -/
def Scratch.clean : Scratch := ⟨fun _ => 0, fun _ => 0, fun _ => 0⟩

/-- What the functions given to the loop see: the template, its variables, and what
    they keep themselves. -/
structure Frame (π : Type) where
  tpl : Template
  scr : Scratch
  para : π

namespace Frame

variable {π : Type} (f : Frame π)

/-- The frame with another index of the current element of a node. -/
def setTempVar (p : Loc) (k : Nat) : Frame π :=
  { f with scr := { f.scr with tempVar := Function.update f.scr.tempVar p k } }

/-- The frame with another index of an element. -/
def setIndex (loc : Loc) (i : Int) : Frame π :=
  { f with scr := { f.scr with index := Function.update f.scr.index loc i } }

/-- The frame with another limit of an element. -/
def setLimit (loc : Loc) (i : Int) : Frame π :=
  { f with scr := { f.scr with limit := Function.update f.scr.limit loc i } }

/-- The frame with another template. -/
def setTpl (tpl : Template) : Frame π := { f with tpl := tpl }

/-- The frame with other data of the function. -/
def setPara (para : π) : Frame π := { f with para := para }

@[simp] theorem index_setIndex (loc : Loc) (i : Int) : (f.setIndex loc i).scr.index loc = i :=
  Function.update_self ..

@[simp] theorem limit_setLimit (loc : Loc) (i : Int) : (f.setLimit loc i).scr.limit loc = i :=
  Function.update_self ..

@[simp] theorem limit_setIndex (loc : Loc) (i : Int) : (f.setIndex loc i).scr.limit = f.scr.limit :=
  rfl

@[simp] theorem tpl_setIndex (loc : Loc) (i : Int) : (f.setIndex loc i).tpl = f.tpl := rfl

@[simp] theorem tpl_setLimit (loc : Loc) (i : Int) : (f.setLimit loc i).tpl = f.tpl := rfl

@[simp] theorem tpl_setTempVar (p : Loc) (k : Nat) : (f.setTempVar p k).tpl = f.tpl := rfl

@[simp] theorem tpl_setPara (para : π) : (f.setPara para).tpl = f.tpl := rfl

@[simp] theorem tpl_setTpl (tpl : Template) : (f.setTpl tpl).tpl = tpl := rfl

/-- The current element of a node becomes the next one. -/
def next (p : Loc) : Frame π := f.setTempVar p (f.scr.tempVar p + 1)

/-- An element is gone through once more. -/
def incIndex (loc : Loc) : Frame π := f.setIndex loc (f.scr.index loc + 1)

/-- The walk leaves an element of a node for the next one. -/
def leave (p loc : Loc) : Frame π := ((f.next p).setLimit loc 0).setIndex loc 0

end Frame

/-- A function given to the loop: for an element, the value it returns and the frame
    after it; none if it does what the language leaves undefined. -/
abbrev Callback (π : Type) := Loc → Frame π → Option (Int × Frame π)

/-- The functions given to the loop, `struct struct_deal_ops`. One that is absent
    does nothing; without a test, every element is taken. -/
structure DealOps (π : Type) where
  start : Frame π → Option (Int × Frame π) := fun f => some (0, f)
  testelem : Loc → Frame π → Bool := fun _ _ => true
  enterstruct : Callback π := fun _ f => some (0, f)
  exitstruct : Callback π := fun _ f => some (0, f)
  procFunc : Callback π
  finish : Frame π → Option (Int × Frame π) := fun f => some (0, f)

/-- How a round of the loop ends: in a node, or out of the loop with a value. -/
inductive Next (π : Type)
  | go (p : Loc) (f : Frame π)
  | stop (ret : Int) (f : Frame π)

variable {π : Type} (ops : DealOps π)

/-- What the loop does after a function: it ends with an error, or goes on. -/
def afterCall (r : Option (Int × Frame π)) (cont : Frame π → Option (Next π)) : Option (Next π) :=
  match r with
  | none => none
  | some (ret, f) => if ret < 0 then some (.stop ret f) else cont f

/-- The round at the end of a nested structure, with the node above it. -/
def stepUp (q : Loc) (f : Frame π) : Option (Next π) :=
  let loc := f.scr.tempVar q :: q
  afterCall (ops.exitstruct loc (f.incIndex loc)) fun f =>
    match f.tpl.descOf loc with
    | none => none
    | some d =>
      if !d.type.attr.subset then some (.stop (-EINVAL) f)
      else if f.scr.index loc ≥ f.scr.limit loc then some (.go q (f.leave q loc))
      else some (.go q f)

/-- The round for an element of a node. -/
def stepElem (p loc : Loc) (d : ElemDesc) (f : Frame π) : Option (Next π) :=
  if d.type.attr.subset then
    afterCall (ops.enterstruct loc f) fun f =>
      if d.type.attr.array ∧ f.scr.limit loc = 0 then
        afterCall (ops.exitstruct loc f) fun f => some (.go p (f.next p))
      else some (.go loc (f.setTempVar loc 0))
  else if !d.type.hasOps then some (.stop (-EINVAL) f)
  else afterCall (ops.procFunc loc f) fun f => some (.go p (f.next p))

/-- A round of the loop of `_convert_frame_func`, in a node. -/
def step (p : Loc) (f : Frame π) : Option (Next π) :=
  let k := f.scr.tempVar p
  if k > (f.tpl.node p).elemNo then some (.stop 0 f)
  else if k = (f.tpl.node p).elemNo then
    match p with
    | [] => some (.stop 0 f)
    | _ :: q => stepUp ops q f
  else match f.tpl.descOf (k :: p) with
  | none => none
  | some d =>
    if !ops.testelem (k :: p) f then some (.go p (f.next p))
    else stepElem ops p (k :: p) d f

/-- The loop, in at most so many rounds: the value it ends with and the frame. -/
def walk : Nat → Loc → Frame π → Option (Int × Frame π)
  | 0, _, _ => none
  | n + 1, p, f =>
    match step ops p f with
    | none => none
    | some (.stop ret f) => some (ret, f)
    | some (.go p f) => walk n p f

/-- `_convert_frame_func`, in at most so many rounds. -/
def convertFrame (n : Nat) (f : Frame π) : Option (Int × Frame π) :=
  match ops.start (f.setTempVar [] 0) with
  | none => none
  | some (ret, f) =>
    if ret < 0 then some (ret, f)
    else match walk ops n [] f with
    | none => none
    | some (ret, f) => if ret < 0 then some (ret, f) else ops.finish f

/-- `_convert_frame_func` returns with the value and the frame. -/
def Converts (f : Frame π) (ret : Int) (f' : Frame π) : Prop :=
  ∃ n, convertFrame ops n f = some (ret, f')

/-! ## The walk as a recursion -/

/-- The current element of a node, with its index and description. -/
structure Current (f : Frame π) (p : Loc) (k : Nat) (d : ElemDesc) : Prop where
  tempVar : f.scr.tempVar p = k
  lt : k < (f.tpl.node p).elemNo
  desc : f.tpl.descOf (k :: p) = some d

/-- After a pass through the structure of an element: it is left for the next
    element, or gone through again. -/
def Frame.afterPass (f : Frame π) (p loc : Loc) : Frame π :=
  if f.scr.index loc ≥ f.scr.limit loc then f.leave p loc else f

/-- A node is gone through from its current element to the end, without an error:
    elements that do not pass the test are skipped, an array that is not repeated
    is entered and left, and other structures are gone through in turn. -/
inductive Visits : Loc → Frame π → Frame π → Prop
  | done {p f} (hend : f.scr.tempVar p = (f.tpl.node p).elemNo) : Visits p f f
  | skip {p f f' k d} (cur : Current f p k d) (htest : ops.testelem (k :: p) f = false)
      (rest : Visits p (f.next p) f') : Visits p f f'
  | leaf {p f f₁ f' k d ret} (cur : Current f p k d) (htest : ops.testelem (k :: p) f = true)
      (hsub : d.type.attr.subset = false) (hops : d.type.hasOps = true)
      (hproc : ops.procFunc (k :: p) f = some (ret, f₁)) (hret : 0 ≤ ret)
      (rest : Visits p (f₁.next p) f') : Visits p f f'
  | empty {p f f₁ f₂ f' k d ret ret'} (cur : Current f p k d)
      (htest : ops.testelem (k :: p) f = true) (hsub : d.type.attr.subset = true)
      (henter : ops.enterstruct (k :: p) f = some (ret, f₁)) (hret : 0 ≤ ret)
      (hnone : d.type.attr.array = true ∧ f₁.scr.limit (k :: p) = 0)
      (hexit : ops.exitstruct (k :: p) f₁ = some (ret', f₂)) (hret' : 0 ≤ ret')
      (rest : Visits p (f₂.next p) f') : Visits p f f'
  | pass {p f f₁ f₂ f₃ f' k d ret ret'} (cur : Current f p k d)
      (htest : ops.testelem (k :: p) f = true) (hsub : d.type.attr.subset = true)
      (henter : ops.enterstruct (k :: p) f = some (ret, f₁)) (hret : 0 ≤ ret)
      (hsome : ¬ (d.type.attr.array = true ∧ f₁.scr.limit (k :: p) = 0))
      (inside : Visits (k :: p) (f₁.setTempVar (k :: p) 0) f₂) (hvar : f₂.scr.tempVar p = k)
      (hexit : ops.exitstruct (k :: p) (f₂.incIndex (k :: p)) = some (ret', f₃))
      (hret' : 0 ≤ ret') (hdesc : f₃.tpl.descOf (k :: p) = some d)
      (rest : Visits p (f₃.afterPass p (k :: p)) f') : Visits p f f'

variable {ops} {p : Loc} {f f' f₁ f₂ f₃ : Frame π} {k : Nat} {d : ElemDesc} {ret ret' : Int}

theorem Visits.at_end (h : Visits ops p f f') : f'.scr.tempVar p = (f'.tpl.node p).elemNo := by
  induction h with
  | done hend => exact hend
  | skip _ _ _ ih => exact ih
  | leaf _ _ _ _ _ _ _ ih => exact ih
  | empty _ _ _ _ _ _ _ _ _ ih => exact ih
  | pass _ _ _ _ _ _ _ _ _ _ _ _ _ ih => exact ih

/-! ### Rounds of the loop -/

theorem afterCall_done {cont : Frame π → Option (Next π)} (hret : 0 ≤ ret) :
    afterCall (some (ret, f)) cont = cont f := by
  rw [afterCall, if_neg (Int.not_lt.2 hret)]

/-- The round for the current element of a node. -/
theorem step_current (cur : Current f p k d) :
    step ops p f = if !ops.testelem (k :: p) f then some (.go p (f.next p))
      else stepElem ops p (k :: p) d f := by
  have hlt := cur.lt
  simp only [step, cur.tempVar, cur.desc]
  rw [if_neg (by omega), if_neg (by omega)]

theorem step_skip (cur : Current f p k d) (htest : ops.testelem (k :: p) f = false) :
    step ops p f = some (.go p (f.next p)) := by
  rw [step_current cur, htest]
  rfl

theorem step_leaf (cur : Current f p k d) (htest : ops.testelem (k :: p) f = true)
    (hsub : d.type.attr.subset = false) (hops : d.type.hasOps = true)
    (hproc : ops.procFunc (k :: p) f = some (ret, f₁)) (hret : 0 ≤ ret) :
    step ops p f = some (.go p (f₁.next p)) := by
  rw [step_current cur, htest, stepElem, hsub, hops, hproc]
  simp only [Bool.not_true, Bool.false_eq_true, if_false]
  exact afterCall_done hret

theorem step_empty (cur : Current f p k d) (htest : ops.testelem (k :: p) f = true)
    (hsub : d.type.attr.subset = true)
    (henter : ops.enterstruct (k :: p) f = some (ret, f₁)) (hret : 0 ≤ ret)
    (hnone : d.type.attr.array = true ∧ f₁.scr.limit (k :: p) = 0)
    (hexit : ops.exitstruct (k :: p) f₁ = some (ret', f₂)) (hret' : 0 ≤ ret') :
    step ops p f = some (.go p (f₂.next p)) := by
  rw [step_current cur, htest, stepElem, hsub, henter]
  simp only [Bool.not_true, Bool.false_eq_true, if_false, if_true]
  rw [afterCall_done hret, if_pos hnone, hexit, afterCall_done hret']

theorem step_enter (cur : Current f p k d) (htest : ops.testelem (k :: p) f = true)
    (hsub : d.type.attr.subset = true)
    (henter : ops.enterstruct (k :: p) f = some (ret, f₁)) (hret : 0 ≤ ret)
    (hsome : ¬ (d.type.attr.array = true ∧ f₁.scr.limit (k :: p) = 0)) :
    step ops p f = some (.go (k :: p) (f₁.setTempVar (k :: p) 0)) := by
  rw [step_current cur, htest, stepElem, hsub, henter]
  simp only [Bool.not_true, Bool.false_eq_true, if_false, if_true]
  rw [afterCall_done hret, if_neg hsome]

/-- The round at the end of a nested structure. -/
theorem step_up (hend : f.scr.tempVar (k :: p) = (f.tpl.node (k :: p)).elemNo)
    (hvar : f.scr.tempVar p = k) (hsub : d.type.attr.subset = true)
    (hexit : ops.exitstruct (k :: p) (f.incIndex (k :: p)) = some (ret, f₁)) (hret : 0 ≤ ret)
    (hdesc : f₁.tpl.descOf (k :: p) = some d) :
    step ops (k :: p) f = some (.go p (f₁.afterPass p (k :: p))) := by
  simp only [step, hend, Nat.lt_irrefl, gt_iff_lt, if_false, if_true, stepUp, hvar, hexit]
  rw [afterCall_done hret]
  simp only [hdesc, hsub, Bool.not_true, Bool.false_eq_true, if_false, Frame.afterPass]
  split_ifs <;> rfl

/-- Where the recursion comes through a node, the loop does, and goes on as it would
    from the end of the node. -/
theorem walk_of_visits (h : Visits ops p f f') {n : Nat} {r : Int × Frame π}
    (hwalk : walk ops n p f' = some r) : ∃ m, walk ops m p f = some r := by
  induction h generalizing n with
  | done => exact ⟨n, hwalk⟩
  | skip cur htest _ ih =>
    obtain ⟨m, hm⟩ := ih hwalk
    exact ⟨m + 1, by rw [walk, step_skip cur htest]; exact hm⟩
  | leaf cur htest hsub hops hproc hret _ ih =>
    obtain ⟨m, hm⟩ := ih hwalk
    exact ⟨m + 1, by rw [walk, step_leaf cur htest hsub hops hproc hret]; exact hm⟩
  | empty cur htest hsub henter hret hnone hexit hret' _ ih =>
    obtain ⟨m, hm⟩ := ih hwalk
    exact ⟨m + 1, by rw [walk, step_empty cur htest hsub henter hret hnone hexit hret']; exact hm⟩
  | pass cur htest hsub henter hret hsome inside hvar hexit hret' hdesc _ ihinside ih =>
    obtain ⟨m, hm⟩ := ih hwalk
    -- The end of the nested structure is one round before what follows it.
    obtain ⟨m', hm'⟩ := ihinside (n := m + 1)
      (by rw [walk, step_up inside.at_end hvar hsub hexit hret' hdesc]; exact hm)
    exact ⟨m' + 1, by rw [walk, step_enter cur htest hsub henter hret hsome]; exact hm'⟩

/-! ### The recursion found in the loop -/

/-- A function for an element leaves the nodes above it as they are. -/
structure Keeps (loc : Loc) (f f' : Frame π) : Prop where
  desc : f'.tpl.desc = f.tpl.desc
  tempVar : ∀ q : Loc, q.length < loc.length → f'.scr.tempVar q = f.scr.tempVar q
  elemNo : ∀ q : Loc, q.length < loc.length → (f'.tpl.node q).elemNo = (f.tpl.node q).elemNo

/-- Functions that leave the nodes above an element as they are. -/
structure Tame (ops : DealOps π) : Prop where
  enterstruct : ∀ {loc f ret f'}, ops.enterstruct loc f = some (ret, f') → Keeps loc f f'
  exitstruct : ∀ {loc f ret f'}, ops.exitstruct loc f = some (ret, f') → Keeps loc f f'
  procFunc : ∀ {loc f ret f'}, ops.procFunc loc f = some (ret, f') → Keeps loc f f'

theorem Keeps.refl (loc : Loc) (f : Frame π) : Keeps loc f f := ⟨rfl, fun _ _ => rfl, fun _ _ => rfl⟩

theorem Keeps.trans {loc : Loc} (h₁ : Keeps loc f f₁) (h₂ : Keeps loc f₁ f₂) : Keeps loc f f₂ :=
  ⟨h₂.desc.trans h₁.desc, fun q hq => (h₂.tempVar q hq).trans (h₁.tempVar q hq),
    fun q hq => (h₂.elemNo q hq).trans (h₁.elemNo q hq)⟩

/-- What is kept for an element is kept for its node. -/
theorem Keeps.up (h : Keeps (k :: p) f f') : Keeps p f f' :=
  ⟨h.desc, fun q hq => h.tempVar q (Nat.lt_succ_of_lt hq),
    fun q hq => h.elemNo q (Nat.lt_succ_of_lt hq)⟩

/-- The variables of a node are none of those above it. -/
theorem keeps_setTempVar (loc : Loc) (f : Frame π) (k : Nat) : Keeps loc f (f.setTempVar loc k) := by
  refine ⟨rfl, fun q hq => Function.update_of_ne ?_ _ _, fun _ _ => rfl⟩
  rintro rfl
  exact Nat.lt_irrefl _ hq

@[simp] theorem tempVar_next (f : Frame π) (p : Loc) :
    (f.next p).scr.tempVar p = f.scr.tempVar p + 1 := Function.update_self ..

@[simp] theorem tempVar_setTempVar (f : Frame π) (p : Loc) (k : Nat) :
    (f.setTempVar p k).scr.tempVar p = k := Function.update_self ..

/-- A node goes on to the next element without passing its end. -/
theorem next_le (h : f.scr.tempVar p < (f.tpl.node p).elemNo) :
    (f.next p).scr.tempVar p ≤ ((f.next p).tpl.node p).elemNo := by
  rw [tempVar_next]
  exact h

theorem afterPass_le {loc : Loc} (h : f.scr.tempVar p < (f.tpl.node p).elemNo) :
    (f.afterPass p loc).scr.tempVar p ≤ ((f.afterPass p loc).tpl.node p).elemNo := by
  rw [Frame.afterPass]
  split_ifs
  · exact next_le h
  · exact Nat.le_of_lt h

/-- What is kept for an element: the current element of its node. -/
theorem Current.of_keeps (cur : Current f p k d) (h : Keeps (k :: p) f f') : Current f' p k d := by
  have hlt : p.length < (k :: p).length := Nat.lt_succ_self _
  refine ⟨(h.tempVar p hlt).trans cur.tempVar, ?_, (Template.descOf_congr h.desc _).trans cur.desc⟩
  rw [h.elemNo p hlt]
  exact cur.lt

theorem Current.tempVar_lt (cur : Current f p k d) : f.scr.tempVar p < (f.tpl.node p).elemNo := by
  rw [cur.tempVar]
  exact cur.lt

theorem keeps_incIndex (loc q : Loc) (f : Frame π) : Keeps loc f (f.incIndex q) :=
  ⟨rfl, fun _ _ => rfl, fun _ _ => rfl⟩

theorem keeps_leave (p loc : Loc) (f : Frame π) : Keeps p f (f.leave p loc) :=
  ⟨rfl, (keeps_setTempVar p f _).tempVar, fun _ _ => rfl⟩

theorem keeps_afterPass (p loc : Loc) (f : Frame π) : Keeps p f (f.afterPass p loc) := by
  rw [Frame.afterPass]
  split_ifs
  · exact keeps_leave p loc f
  · exact .refl p f

theorem Visits.keeps (tame : Tame ops) (h : Visits ops p f f') : Keeps p f f' := by
  induction h with
  | done => exact .refl _ _
  | skip _ _ _ ih => exact (keeps_setTempVar _ _ _).trans ih
  | leaf _ _ _ _ hproc _ _ ih =>
    exact ((tame.procFunc hproc).up.trans (keeps_setTempVar _ _ _)).trans ih
  | empty _ _ _ henter _ _ hexit _ _ ih =>
    exact ((tame.enterstruct henter).up.trans (tame.exitstruct hexit).up).trans
      ((keeps_setTempVar _ _ _).trans ih)
  | pass _ _ _ henter _ _ _ _ hexit _ _ _ ihinside ih =>
    have hdown := ((tame.enterstruct henter).trans (keeps_setTempVar _ _ _)).trans ihinside
    have hup := (keeps_incIndex _ _ _).trans (tame.exitstruct hexit)
    exact (hdown.trans hup).up.trans ((keeps_afterPass _ _ _).trans ih)

/-- After a function the loop goes on, if it does not end in an error. -/
theorem afterCall_go {r : Option (Int × Frame π)} {cont : Frame π → Option (Next π)} {n : Nat}
    {res : Int × Frame π} (hres : 0 ≤ res.1)
    (h : (match afterCall r cont with
      | none => none
      | some (.stop ret f) => some (ret, f)
      | some (.go p f) => walk ops n p f) = some res) :
    ∃ ret f, r = some (ret, f) ∧ 0 ≤ ret ∧
      (match cont f with
        | none => none
        | some (.stop ret f) => some (ret, f)
        | some (.go p f) => walk ops n p f) = some res := by
  cases r with
  | none => cases h
  | some r =>
    obtain ⟨ret, f⟩ := r
    rw [afterCall] at h
    by_cases hret : ret < 0
    · rw [if_pos hret] at h
      obtain rfl := Option.some.inj h
      exact absurd hres (Int.not_le.2 hret)
    · rw [if_neg hret] at h
      exact ⟨ret, f, rfl, Int.not_lt.1 hret, h⟩

/-- Where the loop ends without an error, it comes through the node it is in as the
    recursion does. -/
theorem visits_of_walk (tame : Tame ops) {n : Nat} {res : Int × Frame π}
    (hwalk : walk ops n p f = some res) (hres : 0 ≤ res.1)
    (hle : f.scr.tempVar p ≤ (f.tpl.node p).elemNo) :
    ∃ f' m, m ≤ n ∧ Visits ops p f f' ∧ walk ops m p f' = some res := by
  induction n using Nat.strongRecOn generalizing p f with
  | ind n ih =>
    rcases Nat.eq_or_lt_of_le hle with hend | hlt
    · exact ⟨f, n, Nat.le_refl n, .done hend, hwalk⟩
    cases n with
    | zero => cases hwalk
    | succ n =>
      cases hdesc : f.tpl.descOf (f.scr.tempVar p :: p) with
      | none =>
        simp only [walk, step, hdesc] at hwalk
        rw [if_neg (by omega), if_neg (by omega)] at hwalk
        cases hwalk
      | some d =>
        obtain ⟨k, hk⟩ : ∃ k, f.scr.tempVar p = k := ⟨_, rfl⟩
        rw [hk] at hlt hdesc
        have cur : Current f p k d := ⟨hk, hlt, hdesc⟩
        rw [walk, step_current cur] at hwalk
        cases htest : ops.testelem (k :: p) f with
        | false =>
          rw [htest] at hwalk
          obtain ⟨f', m, hm, hvisits, hwalk⟩ :=
            ih n (Nat.lt_succ_self n) hwalk (next_le cur.tempVar_lt)
          exact ⟨f', m, by omega, .skip cur htest hvisits, hwalk⟩
        | true =>
          rw [htest, stepElem] at hwalk
          simp only [Bool.not_true, Bool.false_eq_true, if_false] at hwalk
          cases hsub : d.type.attr.subset with
          | false =>
            cases hops : d.type.hasOps with
            | false =>
              simp only [hsub, hops, Bool.false_eq_true, if_false, Bool.not_false, if_true] at hwalk
              obtain rfl := Option.some.inj hwalk
              exact absurd hres (Int.not_le.2 (show -EINVAL < 0 by decide))
            | true =>
              simp only [hsub, hops, Bool.false_eq_true, if_false, Bool.not_true] at hwalk
              obtain ⟨ret, f₁, hproc, hret, hwalk⟩ := afterCall_go hres hwalk
              have cur₁ := cur.of_keeps (tame.procFunc hproc)
              obtain ⟨f', m, hm, hvisits, hwalk⟩ :=
                ih n (Nat.lt_succ_self n) hwalk (next_le cur₁.tempVar_lt)
              exact ⟨f', m, by omega, .leaf cur htest hsub hops hproc hret hvisits, hwalk⟩
          | true =>
            simp only [hsub, if_true] at hwalk
            obtain ⟨ret, f₁, henter, hret, hwalk⟩ := afterCall_go hres hwalk
            have cur₁ := cur.of_keeps (tame.enterstruct henter)
            by_cases hnone : d.type.attr.array = true ∧ f₁.scr.limit (k :: p) = 0
            · simp only [hnone, and_self, if_true] at hwalk
              obtain ⟨ret', f₂, hexit, hret', hwalk⟩ := afterCall_go hres hwalk
              have cur₂ := cur₁.of_keeps (tame.exitstruct hexit)
              obtain ⟨f', m, hm, hvisits, hwalk⟩ :=
                ih n (Nat.lt_succ_self n) hwalk (next_le cur₂.tempVar_lt)
              exact ⟨f', m, by omega,
                .empty cur htest hsub henter hret hnone hexit hret' hvisits, hwalk⟩
            · simp only [hnone, if_false] at hwalk
              -- Down into the nested structure, and up again at its end.
              obtain ⟨f₂, m, hm, hinside, hwalk⟩ := ih n (Nat.lt_succ_self n) hwalk (by
                rw [tempVar_setTempVar]
                exact Nat.zero_le _)
              have cur₂ := (cur₁.of_keeps (keeps_setTempVar _ _ 0)).of_keeps (hinside.keeps tame)
              cases m with
              | zero => cases hwalk
              | succ m =>
                have hend := hinside.at_end
                simp only [walk, step, hend, Nat.lt_irrefl, gt_iff_lt, if_false, if_true, stepUp,
                  cur₂.tempVar] at hwalk
                obtain ⟨ret', f₃, hexit, hret', hwalk⟩ := afterCall_go hres hwalk
                have cur₃ := (cur₂.of_keeps (keeps_incIndex _ _ _)).of_keeps (tame.exitstruct hexit)
                have hpass : walk ops m p (f₃.afterPass p (k :: p)) = some res := by
                  simp only [cur₃.desc, hsub, Bool.not_true, Bool.false_eq_true, if_false] at hwalk
                  rw [Frame.afterPass]
                  split_ifs with hge
                  · rwa [if_pos hge] at hwalk
                  · rwa [if_neg hge] at hwalk
                obtain ⟨f', m', hm', hvisits, hwalk'⟩ :=
                  ih m (by omega) hpass (afterPass_le cur₃.tempVar_lt)
                exact ⟨f', m', by omega, .pass cur htest hsub henter hret hnone hinside cur₂.tempVar
                  hexit hret' cur₃.desc hvisits, hwalk'⟩

/-! ### Functions that are about one element -/

/-- A function for an element changes nothing of the template but that element and
    its node. -/
structure OnlyAt (loc : Loc) (f f' : Frame π) : Prop where
  desc : f'.tpl.desc = f.tpl.desc
  node : ∀ q, q ≠ loc → f'.tpl.node q = f.tpl.node q
  elem : ∀ q, q ≠ loc → f'.tpl.elem q = f.tpl.elem q
  tempVar : ∀ q, q ≠ loc → f'.scr.tempVar q = f.scr.tempVar q

/-- Functions that are about the element they are given. -/
structure Local (ops : DealOps π) : Prop where
  enterstruct : ∀ {loc f ret f'}, ops.enterstruct loc f = some (ret, f') → OnlyAt loc f f'
  exitstruct : ∀ {loc f ret f'}, ops.exitstruct loc f = some (ret, f') → OnlyAt loc f f'
  procFunc : ∀ {loc f ret f'}, ops.procFunc loc f = some (ret, f') → OnlyAt loc f f'

theorem OnlyAt.refl (loc : Loc) (f : Frame π) : OnlyAt loc f f :=
  ⟨rfl, fun _ _ => rfl, fun _ _ => rfl, fun _ _ => rfl⟩

theorem OnlyAt.keeps {loc : Loc} (h : OnlyAt loc f f') : Keeps loc f f' := by
  have hne : ∀ q : Loc, q.length < loc.length → q ≠ loc := by
    rintro q hq rfl
    exact Nat.lt_irrefl _ hq
  exact ⟨h.desc, fun q hq => h.tempVar q (hne q hq), fun q hq => by rw [h.node q (hne q hq)]⟩

theorem Local.tame (h : Local ops) : Tame ops :=
  ⟨fun h' => (h.enterstruct h').keeps, fun h' => (h.exitstruct h').keeps,
    fun h' => (h.procFunc h').keeps⟩

/-- A place at, or below, an element of the node from the index on. -/
def Beyond (p : Loc) (k : Nat) (loc : Loc) : Prop := ∃ s j, k ≤ j ∧ loc = s ++ j :: p

theorem beyond_iff {loc : Loc} : Beyond p k loc ↔ (∃ s, loc = s ++ k :: p) ∨ Beyond p (k + 1) loc := by
  constructor
  · rintro ⟨s, j, hj, rfl⟩
    rcases Nat.eq_or_lt_of_le hj with rfl | hlt
    · exact .inl ⟨s, rfl⟩
    · exact .inr ⟨s, j, hlt, rfl⟩
  · rintro (⟨s, rfl⟩ | ⟨s, j, hj, rfl⟩)
    · exact ⟨s, k, Nat.le_refl k, rfl⟩
    · exact ⟨s, j, Nat.le_of_succ_le hj, rfl⟩

theorem beyond_self (p : Loc) (k : Nat) : Beyond p k (k :: p) := ⟨[], k, Nat.le_refl k, rfl⟩

/-- A place below an element is at, or below, an element of its structure. -/
theorem beyond_down {loc : Loc} : Beyond (k :: p) 0 loc ↔ ∃ s, s ≠ [] ∧ loc = s ++ k :: p := by
  constructor
  · rintro ⟨s, j, _, rfl⟩
    exact ⟨s ++ [j], by simp, by simp⟩
  · rintro ⟨s, hs, rfl⟩
    obtain ⟨s', j, rfl⟩ : ∃ s' j, s = s' ++ [j] := ⟨_, _, (List.dropLast_concat_getLast hs).symm⟩
    exact ⟨s', j, Nat.zero_le j, by simp⟩

/-- What is at, or below, an element is not at, or below, the next ones. -/
theorem not_beyond_next (p : Loc) (k : Nat) (s : Loc) : ¬ Beyond p (k + 1) (s ++ k :: p) := by
  rintro ⟨s', j, hj, h⟩
  have hlen := congrArg List.length h
  simp only [List.length_append, List.length_cons] at hlen
  have hcons := (List.append_inj h (by omega)).2
  obtain ⟨rfl, _⟩ := List.cons.inj hcons
  omega

/-- A place the walk does not come to from an element of a node on: none at, or below,
    such an element, or none of the template. -/
def Apart (f : Frame π) (p q : Loc) : Prop :=
  ¬ Beyond p (f.scr.tempVar p) q ∨ f.tpl.descOf q = none

variable {loc : Loc}

theorem Apart.ne (h : Apart f p loc) (cur : Current f p k d) : loc ≠ k :: p := by
  rintro rfl
  rcases h with h | h
  · rw [cur.tempVar] at h
    exact h (beyond_self p k)
  · rw [cur.desc] at h
    cases h

/-- What is apart stays so on the way to the next element. -/
theorem Apart.next (h : Apart f p loc) (cur : Current f p k d) (hkeeps : Keeps (k :: p) f f₁) :
    Apart (f₁.next p) p loc := by
  have cur₁ := cur.of_keeps hkeeps
  rcases h with h | h
  · refine .inl fun hb => h ?_
    rw [tempVar_next, cur₁.tempVar] at hb
    rw [cur.tempVar]
    exact beyond_iff.2 (.inr hb)
  · exact .inr ((Template.descOf_congr hkeeps.desc loc).trans h)

/-- What is apart is so from the structure of an element. -/
theorem Apart.down (h : Apart f p loc) (cur : Current f p k d) (hdesc : f₁.tpl.desc = f.tpl.desc) :
    Apart (f₁.setTempVar (k :: p) 0) (k :: p) loc := by
  rcases h with h | h
  · refine .inl fun hb => h ?_
    rw [tempVar_setTempVar] at hb
    obtain ⟨s, _, rfl⟩ := beyond_down.1 hb
    rw [cur.tempVar]
    exact beyond_iff.2 (.inl ⟨s, rfl⟩)
  · exact .inr ((Template.descOf_congr hdesc loc).trans h)

/-- What is apart stays so after a pass through the structure of an element. -/
theorem Apart.afterPass (h : Apart f p loc) (cur : Current f p k d) (hkeeps : Keeps (k :: p) f f₁) :
    Apart (f₁.afterPass p (k :: p)) p loc := by
  rw [Frame.afterPass]
  split_ifs
  · exact h.next cur hkeeps
  · rcases h with h | h
    · refine .inl fun hb => h ?_
      rwa [cur.tempVar, ← (cur.of_keeps hkeeps).tempVar]
    · exact .inr ((Template.descOf_congr hkeeps.desc loc).trans h)

theorem tpl_afterPass (f : Frame π) (p loc : Loc) : (f.afterPass p loc).tpl = f.tpl := by
  rw [Frame.afterPass]
  split_ifs <;> rfl

theorem afterPass_leave {loc : Loc} (h : f.scr.index loc ≥ f.scr.limit loc) :
    f.afterPass p loc = f.leave p loc := by
  rw [Frame.afterPass, if_pos h]

@[simp] theorem tpl_leave (f : Frame π) (p loc : Loc) : (f.leave p loc).tpl = f.tpl := rfl

@[simp] theorem tempVar_leave (f : Frame π) (p loc : Loc) :
    (f.leave p loc).scr.tempVar p = f.scr.tempVar p + 1 := Function.update_self ..

/-- Coming through a node changes nothing of the places apart from it. -/
theorem Visits.frame (hlocal : Local ops) (h : Visits ops p f f') {q : Loc} (hq : Apart f p q) :
    f'.tpl.node q = f.tpl.node q ∧ f'.tpl.elem q = f.tpl.elem q := by
  induction h with
  | done => exact ⟨rfl, rfl⟩
  | skip cur _ _ ih => exact ih (hq.next cur (.refl _ _))
  | leaf cur _ _ _ hproc _ _ ih =>
    have honly := hlocal.procFunc hproc
    obtain ⟨hnode, helem⟩ := ih (hq.next cur honly.keeps)
    exact ⟨hnode.trans (honly.node q (hq.ne cur)), helem.trans (honly.elem q (hq.ne cur))⟩
  | empty cur _ _ henter _ _ hexit _ _ ih =>
    have honly := hlocal.enterstruct henter
    have honly' := hlocal.exitstruct hexit
    obtain ⟨hnode, helem⟩ := ih (hq.next cur (honly.keeps.trans honly'.keeps))
    have hne := hq.ne cur
    exact ⟨(hnode.trans (honly'.node q hne)).trans (honly.node q hne),
      (helem.trans (honly'.elem q hne)).trans (honly.elem q hne)⟩
  | pass cur _ _ henter _ _ inside _ hexit _ _ _ ihinside ih =>
    have honly := hlocal.enterstruct henter
    have honly' := hlocal.exitstruct hexit
    have hdown := (honly.keeps.trans (keeps_setTempVar _ _ 0)).trans (inside.keeps hlocal.tame)
    have hup := (keeps_incIndex _ _ _).trans honly'.keeps
    obtain ⟨hnode, helem⟩ := ih (hq.afterPass cur (hdown.trans hup))
    obtain ⟨hnode', helem'⟩ := ihinside (hq.down cur honly.desc)
    have hne := hq.ne cur
    rw [tpl_afterPass] at hnode helem
    exact ⟨((hnode.trans (honly'.node q hne)).trans hnode').trans (honly.node q hne),
      ((helem.trans (honly'.elem q hne)).trans helem').trans (honly.elem q hne)⟩

/-- What the functions preserve of the template, coming through a node preserves. -/
theorem Visits.preserves {I : Template → Prop}
    (henter : ∀ {loc f ret f'}, ops.enterstruct loc f = some (ret, f') → I f.tpl → I f'.tpl)
    (hexit : ∀ {loc f ret f'}, ops.exitstruct loc f = some (ret, f') → I f.tpl → I f'.tpl)
    (hproc : ∀ {loc f ret f'}, ops.procFunc loc f = some (ret, f') → I f.tpl → I f'.tpl)
    (h : Visits ops p f f') (hI : I f.tpl) : I f'.tpl := by
  induction h with
  | done => exact hI
  | skip _ _ _ ih => exact ih hI
  | leaf _ _ _ _ hcall _ _ ih =>
    have hI₁ := hproc hcall hI
    exact ih hI₁
  | empty _ _ _ hcall _ _ hcall' _ _ ih =>
    have hI₁ := henter hcall hI
    have hI₂ := hexit hcall' hI₁
    exact ih hI₂
  | pass _ _ _ hcall _ _ _ _ hcall' _ _ _ ihinside ih =>
    have hI₁ := henter hcall hI
    have hI₂ := ihinside hI₁
    have hI₃ := hexit hcall' hI₂
    exact ih ((congrArg I (tpl_afterPass _ _ _)).mpr hI₃)

/-! ### Conversions -/

/-- At the end of the root the loop ends. -/
theorem walk_root (hend : f.scr.tempVar [] = (f.tpl.node []).elemNo) (n : Nat) :
    walk ops (n + 1) [] f = some (0, f) := by
  simp only [walk, step, hend, Nat.lt_irrefl, gt_iff_lt, if_false, if_true]

/-- A conversion that goes through the root returns what its last function does. -/
theorem converts_of_visits (hstart : ops.start (f.setTempVar [] 0) = some (ret, f₁)) (hret : 0 ≤ ret)
    (h : Visits ops [] f₁ f₂) (hfinish : ops.finish f₂ = some (ret', f')) :
    Converts ops f ret' f' := by
  obtain ⟨m, hm⟩ := walk_of_visits h (walk_root h.at_end 0)
  refine ⟨m, ?_⟩
  simp only [convertFrame, hstart, hm]
  rw [if_neg (Int.not_lt.2 hret), if_neg (Int.lt_irrefl 0), hfinish]

/-- A conversion without an error goes through the root. -/
theorem visits_of_converts (tame : Tame ops) (h : Converts ops f ret f') (hret : 0 ≤ ret)
    (hroot : ∀ {r f₁}, ops.start (f.setTempVar [] 0) = some (r, f₁) → f₁.scr.tempVar [] = 0) :
    ∃ r f₁ f₂, ops.start (f.setTempVar [] 0) = some (r, f₁) ∧ 0 ≤ r ∧ Visits ops [] f₁ f₂ ∧
      ops.finish f₂ = some (ret, f') := by
  obtain ⟨n, hn⟩ := h
  rw [convertFrame] at hn
  cases hstart : ops.start (f.setTempVar [] 0) with
  | none => simp only [hstart, reduceCtorEq] at hn
  | some s =>
    obtain ⟨r, f₁⟩ := s
    simp only [hstart] at hn
    by_cases hr : r < 0
    · rw [if_pos hr] at hn
      obtain ⟨rfl, _⟩ := Prod.mk.inj (Option.some.inj hn)
      exact absurd hret (Int.not_le.2 hr)
    rw [if_neg hr] at hn
    cases hwalk : walk ops n [] f₁ with
    | none => simp only [hwalk, reduceCtorEq] at hn
    | some res =>
      simp only [hwalk] at hn
      by_cases hres : res.1 < 0
      · rw [if_pos hres] at hn
        obtain ⟨rfl, _⟩ := Prod.mk.inj (Option.some.inj hn)
        exact absurd hret (Int.not_le.2 hres)
      rw [if_neg hres] at hn
      obtain ⟨f₂, m, _, hvisits, hwalk₂⟩ := visits_of_walk tame hwalk (Int.not_lt.1 hres)
        (by rw [hroot hstart]; exact Nat.zero_le _)
      cases m with
      | zero => cases hwalk₂
      | succ m =>
        rw [walk_root hvisits.at_end] at hwalk₂
        obtain rfl := Option.some.inj hwalk₂
        exact ⟨r, f₁, f₂, rfl, Int.not_lt.1 hr, hvisits, hn⟩

/-! ### Loops that come through -/

/-- Functions under which a node that has the invariant is gone through to its end: each
    element of it is taken without an error, and a structure is gone through once or, as
    an empty array, not at all. -/
structure Passes (ops : DealOps π) (I : Loc → Frame π → Prop) : Prop where
  count : ∀ {p f}, I p f → (f.tpl.node p).elemNo = (f.tpl.children p).length
  test : ∀ loc f, ops.testelem loc f = true
  leaf : ∀ {p f k d}, I p f → Current f p k d → d.type.attr.subset = false →
    d.type.hasOps = true ∧ ∃ ret f₁, ops.procFunc (k :: p) f = some (ret, f₁) ∧ 0 ≤ ret ∧
      I p (f₁.next p)
  enter : ∀ {p f k d}, I p f → Current f p k d → d.type.attr.subset = true →
    ∃ ret f₁, ops.enterstruct (k :: p) f = some (ret, f₁) ∧ 0 ≤ ret ∧
      if d.type.attr.array = true ∧ f₁.scr.limit (k :: p) = 0 then
        ∃ ret' f₂, ops.exitstruct (k :: p) f₁ = some (ret', f₂) ∧ 0 ≤ ret' ∧ I p (f₂.next p)
      else I (k :: p) (f₁.setTempVar (k :: p) 0) ∧
        ∀ f₂, Visits ops (k :: p) (f₁.setTempVar (k :: p) 0) f₂ → I (k :: p) f₂ →
          ∃ ret' f₃, ops.exitstruct (k :: p) (f₂.incIndex (k :: p)) = some (ret', f₃) ∧ 0 ≤ ret' ∧
            f₃.scr.index (k :: p) ≥ f₃.scr.limit (k :: p) ∧ I p (f₃.leave p (k :: p))

theorem ElemDesc.sizeOf_sub (d : ElemDesc) : sizeOf d.sub < sizeOf d := by
  cases d
  simp only [ElemDesc.mk.sizeOf_spec]
  omega

/-- A node with the invariant is gone through from each of its elements. The induction is
    on the descriptions of the elements that are left, with those nested in them. -/
theorem Passes.visits {I : Loc → Frame π → Prop} (tame : Tame ops) (h : Passes ops I)
    (ds : List ElemDesc) (p : Loc) (f : Frame π) (hI : I p f)
    (hle : f.scr.tempVar p ≤ (f.tpl.children p).length)
    (hds : (f.tpl.children p).drop (f.scr.tempVar p) = ds) : ∃ f', Visits ops p f f' ∧ I p f' := by
  match ds with
  | [] =>
    have hend := List.drop_eq_nil_iff.1 hds
    exact ⟨f, .done (by rw [h.count hI]; omega), hI⟩
  | d :: ds =>
    obtain ⟨k, hk⟩ : ∃ k, f.scr.tempVar p = k := ⟨_, rfl⟩
    rw [hk] at hds hle
    have hd : f.tpl.descOf (k :: p) = some d := by
      rw [Template.descOf, ← List.head?_drop, hds, List.head?_cons]
    have hlt : k < (f.tpl.children p).length := (List.getElem?_eq_some_iff.1 hd).1
    have cur : Current f p k d := ⟨hk, by rw [h.count hI]; exact hlt, hd⟩
    -- The rest of the node, from any frame that is one element further.
    have hrest : ∀ f₁ : Frame π, I p f₁ → f₁.tpl.desc = f.tpl.desc → f₁.scr.tempVar p = k + 1 →
        ∃ f', Visits ops p f₁ f' ∧ I p f' := fun f₁ hI₁ hdesc hk₁ => by
      refine Passes.visits tame h ds p f₁ hI₁ ?_ ?_
      · rw [Template.children_congr hdesc, hk₁]
        exact hlt
      · rw [Template.children_congr hdesc, hk₁, ← List.drop_drop, hds, List.drop_one, List.tail_cons]
    cases hsub : d.type.attr.subset with
    | false =>
      obtain ⟨hops, ret, f₁, hproc, hret, hI₁⟩ := h.leaf hI cur hsub
      have cur₁ := cur.of_keeps (tame.procFunc hproc)
      obtain ⟨f', hvisits, hI'⟩ := hrest (f₁.next p) hI₁ (tame.procFunc hproc).desc
        (by rw [tempVar_next, cur₁.tempVar])
      exact ⟨f', .leaf cur (h.test _ _) hsub hops hproc hret hvisits, hI'⟩
    | true =>
      obtain ⟨ret, f₁, henter, hret, hinside⟩ := h.enter hI cur hsub
      have hkeeps := tame.enterstruct henter
      split_ifs at hinside with hnone
      · obtain ⟨ret', f₂, hexit, hret', hI₂⟩ := hinside
        have hkeeps₂ := hkeeps.trans (tame.exitstruct hexit)
        obtain ⟨f', hvisits, hI'⟩ := hrest (f₂.next p) hI₂ hkeeps₂.desc
          (by rw [tempVar_next, (cur.of_keeps hkeeps₂).tempVar])
        exact ⟨f', .empty cur (h.test _ _) hsub henter hret hnone hexit hret' hvisits, hI'⟩
      · obtain ⟨hI₁, hexits⟩ := hinside
        obtain ⟨f₂, hvisits₂, hI₂⟩ := Passes.visits tame h d.sub (k :: p) _ hI₁
          (by rw [tempVar_setTempVar]; exact Nat.zero_le _) (by
            rw [tempVar_setTempVar, List.drop_zero]
            exact Template.children_of_desc ((Template.descOf_congr hkeeps.desc _).trans hd) hsub)
        have hkeeps₂ := (hkeeps.trans (keeps_setTempVar _ _ 0)).trans (hvisits₂.keeps tame)
        obtain ⟨ret', f₃, hexit, hret', hpassed, hI₃⟩ := hexits f₂ hvisits₂ hI₂
        have hkeeps₃ := hkeeps₂.trans ((keeps_incIndex _ _ _).trans (tame.exitstruct hexit))
        obtain ⟨f', hvisits, hI'⟩ := hrest (f₃.leave p (k :: p)) hI₃ hkeeps₃.desc
          (by rw [tempVar_leave, (cur.of_keeps hkeeps₃).tempVar])
        refine ⟨f', .pass cur (h.test _ _) hsub henter hret hnone hvisits₂
          (cur.of_keeps hkeeps₂).tempVar hexit hret' (cur.of_keeps hkeeps₃).desc ?_, hI'⟩
        rwa [afterPass_leave hpassed]
termination_by sizeOf ds
decreasing_by
  · simp only [List.cons.sizeOf_spec]
    omega
  · have := d.sizeOf_sub
    simp only [List.cons.sizeOf_spec]
    omega

/-- A whole structure is gone through. -/
theorem Passes.visits_root {I : Loc → Frame π → Prop} (tame : Tame ops) (h : Passes ops I)
    (hI : I [] f) (hk : f.scr.tempVar [] = 0) : ∃ f', Visits ops [] f f' ∧ I [] f' :=
  h.visits tame _ [] f hI (by rw [hk]; exact Nat.zero_le _) rfl

end Cube.Struct
