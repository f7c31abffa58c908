import Cube.Message.RoundTrip

/-!
# Reading, replacing and removing the expands of a message

An expand is held as a structure or only as bytes. `message_get_expand` copies one,
`message_replace_define_expand` puts another one in the place of the first of a type, and
`message_remove_expand` takes that out of the message.

* `getExpand_iff`: only an expand that is held as a structure is read as it should be.
* `replaceExpand_iff`: which expands are replaced.
* `removeExpand_iff`: no expand is removed without an access behind the last one.
-/

namespace Cube.Message

open Lib

variable {T V : Type}

/-- `memdb_get_template`: there is none for a type that is not positive. -/
def memdbGetTemplate (ops : StructOps T V) (type subtype : Int32) : Option T :=
  if type.toInt ≤ 0 then none else ops.getTemplate type subtype

/-- The expands that a message counts. -/
def MessageBox.held (box : MessageBox T V) : List (ExpandSlot V) :=
  box.expands.take box.head.expandNum.toInt.toNat

/-- The type and subtype of an expand, as a structure or in the head of its bytes. -/
def ExpandSlot.kind (slot : ExpandSlot V) : Option (Int32 × Int32) :=
  match slot.pexpand, slot.expand with
  | some pexpand, _ => some (pexpand.type, pexpand.subtype)
  | none, some expand =>
    if expand.length < MsgExpandHead.sizeof then none
    else some ((MsgExpandHead.ofBytes expand).type, (MsgExpandHead.ofBytes expand).subtype)
  | none, none => none

/-- The arrays of a message have a place for each expand that it counts, with a structure or
    with bytes that have a head. -/
structure HoldsExpands (box : MessageBox T V) : Prop where
  nonneg : 0 ≤ box.head.expandNum.toInt
  places : box.head.expandNum.toInt ≤ box.expands.length
  kind : ∀ slot ∈ box.held, slot.kind.isSome = true

/-! ## Removing -/

section Remove

/-- The loop of `message_remove_indexed_expand` over `n` places from one on: each takes over
    what is in the next one. -/
def shiftExpands {S : Type} : Nat → Nat → List S → Outcome (List S)
  | 0, _, slots => .done slots
  | n + 1, i, slots =>
    match slots[i + 1]? with
    | none => .fault
    | some next => shiftExpands n (i + 1) (slots.set i next)

/-- `message_remove_indexed_expand`: what it returns, the structure that is handed over, and
    the message after the call. -/
def messageRemoveIndexedExpand (box : MessageBox T V) (expandNo : Int) :
    Outcome (Int × Option (MsgExpand V) × MessageBox T V) :=
  if expandNo < 0 then .done (-EINVAL, none, box)
  else if expandNo ≥ box.head.expandNum.toInt then .done (-EINVAL, none, box)
  else
    match box.expands[expandNo.toNat]? with
    | none => .fault
    | some slot => do
      let expands ← shiftExpands (box.head.expandNum.toInt - expandNo).toNat expandNo.toNat
        box.expands
      .done (0, slot.pexpand, { box with
        expands := expands
        head := { box.head with expandNum := box.head.expandNum - 1 } })

/-- The loop of `message_remove_expand` over the first `n` expands: the index of the first one
    of the type and subtype. It ends at a place where there is neither a structure nor bytes. -/
def findExpand (type subtype : Int32) : Nat → List (ExpandSlot V) → Outcome (Option Nat)
  | 0, _ => .done none
  | _ + 1, [] => .fault
  | n + 1, slot :: slots =>
    match slot.pexpand, slot.expand with
    | some pexpand, _ =>
      if pexpand.type = type ∧ pexpand.subtype = subtype then .done (some 0)
      else Option.map (· + 1) <$> findExpand type subtype n slots
    | none, some expand =>
      if expand.length < MsgExpandHead.sizeof then .fault
      else
        let head := MsgExpandHead.ofBytes expand
        if head.type = type ∧ head.subtype = subtype then .done (some 0)
        else Option.map (· + 1) <$> findExpand type subtype n slots
    | none, none => .done none

/-- `message_remove_expand`: what it returns, the structure that is handed over, and the
    message after the call. -/
def messageRemoveExpand (box : MessageBox T V) (type subtype : Int32) :
    Outcome (Int × Option (MsgExpand V) × MessageBox T V) := do
  match ← findExpand type subtype box.head.expandNum.toInt.toNat box.expands with
  | none => .done (0, none, box)
  | some i => do
    let (_, expand, box) ← messageRemoveIndexedExpand box i
    .done (0, expand, box)

/-- The message with no more places for expands than it counts, so that an access to one behind
    these is a fault. -/
def MessageBox.cut (box : MessageBox T V) : MessageBox T V := { box with expands := box.held }

/-- The place is that of the first expand of the type and subtype. -/
structure FirstOf (slots : List (ExpandSlot V)) (type subtype : Int32) (i : Nat)
    (slot : ExpandSlot V) : Prop where
  place : slots[i]? = some slot
  kind : slot.kind = some (type, subtype)
  before : ∀ s ∈ slots.take i, s.kind ≠ some (type, subtype)

/-- The first expand of the type and subtype is taken out of the message and handed over, the
    other ones stay in their order; where there is none, nothing changes. No place behind the
    expands that the message counts is accessed. -/
structure RemovesExpand (box : MessageBox T V) (type subtype : Int32) : Prop where
  found : ∀ i slot, FirstOf box.held type subtype i slot → ∃ expand expands,
    messageRemoveExpand box.cut type subtype = .done (0, some expand, { box with
      expands := expands, head := { box.head with expandNum := box.head.expandNum - 1 } }) ∧
    expands.take (box.held.length - 1) = box.held.eraseIdx i ∧
    (expand.type, expand.subtype) = (type, subtype) ∧
    (slot.pexpand = none ∨ slot.pexpand = some expand)
  absent : (∀ slot ∈ box.held, slot.kind ≠ some (type, subtype)) →
    messageRemoveExpand box.cut type subtype = .done (0, none, box.cut)

variable {box : MessageBox T V} {type subtype : Int32} {slots : List (ExpandSlot V)}
  {slot : ExpandSlot V} {i n : Nat}

/-- A place with a type and subtype is compared with those looked for. -/
theorem findExpand_cons (hkind : slot.kind.isSome = true) :
    findExpand type subtype (n + 1) (slot :: slots) =
      if slot.kind = some (type, subtype) then .done (some 0)
      else Option.map (· + 1) <$> findExpand type subtype n slots := by
  obtain ⟨expand, pexpand, size⟩ := slot
  rw [findExpand]
  rcases pexpand with _ | pexpand
  · rcases expand with _ | expand
    · cases hkind
    · by_cases hlen : expand.length < MsgExpandHead.sizeof
      · simp only [ExpandSlot.kind, if_pos hlen, Option.isSome_none, Bool.false_eq_true] at hkind
      · simp only [ExpandSlot.kind, if_neg hlen, Option.some.injEq, Prod.mk.injEq]
  · simp only [ExpandSlot.kind, Option.some.injEq, Prod.mk.injEq]

/-- The search finds the first place of the type and subtype, if there is one. -/
theorem findExpand_held (hkinds : ∀ slot ∈ slots, slot.kind.isSome = true) :
    findExpand type subtype slots.length slots =
      .done (slots.findIdx? fun slot => slot.kind = some (type, subtype)) := by
  induction slots with
  | nil => rfl
  | cons slot slots ih =>
    rw [List.length_cons, findExpand_cons (hkinds slot List.mem_cons_self),
      ih fun s hs => hkinds s (List.mem_cons_of_mem slot hs), List.findIdx?_cons]
    by_cases hkind : slot.kind = some (type, subtype)
    · rw [if_pos hkind, if_pos (decide_eq_true hkind)]
    · rw [if_neg hkind, if_neg (by simpa using hkind), Outcome.map_done]

theorem FirstOf.findIdx? (h : FirstOf slots type subtype i slot) :
    (slots.findIdx? fun slot => slot.kind = some (type, subtype)) = some i := by
  obtain ⟨hlt, hslot⟩ := List.getElem?_eq_some_iff.1 h.place
  refine List.findIdx?_eq_some_iff_getElem.2 ⟨hlt, ?_, fun j hj => ?_⟩
  · rw [hslot]
    exact decide_eq_true h.kind
  · rw [decide_eq_true_eq]
    exact h.before _ (List.mem_take_iff_getElem.2 ⟨j, by omega, rfl⟩)

theorem exists_firstOf (h : ∃ slot ∈ slots, slot.kind = some (type, subtype)) :
    ∃ i slot, FirstOf slots type subtype i slot := by
  induction slots with
  | nil => simp at h
  | cons s slots ih =>
    by_cases hs : s.kind = some (type, subtype)
    · exact ⟨0, s, rfl, hs, by simp⟩
    · obtain ⟨slot, hslot, hkind⟩ := h
      have hmem := (List.mem_cons.1 hslot).resolve_left fun heq => hs (heq ▸ hkind)
      obtain ⟨i, slot, hfirst⟩ := ih ⟨slot, hmem, hkind⟩
      refine ⟨i + 1, slot, by simpa using hfirst.place, hfirst.kind, ?_⟩
      rw [List.take_succ_cons]
      exact List.forall_mem_cons.2 ⟨hs, hfirst.before⟩

/-- The loop up to the last place reads the one behind it. -/
theorem shiftExpands_fault {S : Type} {n i : Nat} {slots : List S} (h : i + n = slots.length)
    (hn : n ≠ 0) : shiftExpands n i slots = .fault := by
  induction n generalizing i slots with
  | zero => exact absurd rfl hn
  | succ n ih =>
    rw [shiftExpands]
    rcases Nat.eq_zero_or_pos n with rfl | hpos
    · rw [List.getElem?_eq_none (by omega)]
    · rw [List.getElem?_eq_getElem (by omega)]
      exact ih (by rw [List.length_set]; omega) (Nat.ne_of_gt hpos)

theorem HoldsExpands.length_held (h : HoldsExpands box) :
    (box.held.length : Int) = box.head.expandNum.toInt := by
  have hle := h.places
  have hnn := h.nonneg
  rw [MessageBox.held, List.length_take]
  omega

/-- An expand is removed as it should be exactly if there is none of its type: to take one out,
    the place behind the last one is read. -/
theorem removeExpand_iff (h : HoldsExpands box) (type subtype : Int32) :
    RemovesExpand box type subtype ↔ ∀ slot ∈ box.held, slot.kind ≠ some (type, subtype) := by
  have hlen := h.length_held
  have hnum : box.head.expandNum.toInt.toNat = box.held.length := by omega
  have hfind : findExpand type subtype box.cut.head.expandNum.toInt.toNat box.cut.expands =
      .done (box.held.findIdx? fun slot => slot.kind = some (type, subtype)) := by
    rw [MessageBox.cut, hnum]
    exact findExpand_held h.kind
  constructor
  · intro hremoves
    by_contra hsome
    push Not at hsome
    obtain ⟨i, slot, hfirst⟩ := exists_firstOf hsome
    obtain ⟨expand, expands, hdone, -⟩ := hremoves.found i slot hfirst
    have hlt := (List.getElem?_eq_some_iff.1 hfirst.place).1
    have hshift : shiftExpands (box.head.expandNum.toInt - i).toNat i box.held = .fault :=
      shiftExpands_fault (by omega) (by omega)
    have hfault : messageRemoveIndexedExpand box.cut i = .fault := by
      rw [messageRemoveIndexedExpand, if_neg (by omega), if_neg (by simp only [MessageBox.cut]; omega)]
      simp only [MessageBox.cut, Int.toNat_natCast, hfirst.place, hshift, Outcome.fault_bind]
    rw [messageRemoveExpand, hfind, hfirst.findIdx?, Outcome.done_bind] at hdone
    simp only [hfault, Outcome.fault_bind, reduceCtorEq] at hdone
  · intro hnone
    have hfound : (box.held.findIdx? fun slot => slot.kind = some (type, subtype)) = none :=
      List.findIdx?_eq_none_iff.2 fun slot hslot => decide_eq_false (hnone slot hslot)
    refine ⟨fun i slot hfirst => ?_, fun _ => ?_⟩
    · exact absurd hfirst.kind (hnone slot (List.mem_of_getElem? hfirst.place))
    · rw [messageRemoveExpand, hfind, hfound, Outcome.done_bind]

end Remove

/-! ## Replacing -/

/-- What replacing an expand needs of struct templates: the offsets of the pointers that
    `struct_free` frees in a structure. -/
structure FreeOps (T V : Type) extends StructOps T V where
  pointersOf : T → List Nat

section Replace

variable (ops : FreeOps T V)

/-- The offset of the pointer in a `MSG_EXPAND`. -/
def expandOffset : Nat := 12

/-- `struct_free` of a `MSG_EXPAND` under the template of its content: what is at the offsets of
    that template is freed, which is a pointer at one of them only. -/
def structFreeExpand (template : T) : Outcome Unit :=
  if ∀ offset ∈ ops.pointersOf template, offset = expandOffset then .done () else .fault

/-- The loop of `message_get_define_expand` over the first `n` expands, with the index of the
    one that it finds. -/
def defineExpandAt (type subtype : Int32) :
    Nat → List (ExpandSlot V) → Outcome (Option (Nat × MsgExpand V))
  | 0, _ => .done none
  | _ + 1, [] => .fault
  | n + 1, slot :: slots =>
    match slot.pexpand with
    | none => Option.map (fun (i, e) => (i + 1, e)) <$> defineExpandAt type subtype n slots
    | some expand =>
      if expand.type ≠ type ∨ expand.subtype ≠ subtype then
        Option.map (fun (i, e) => (i + 1, e)) <$> defineExpandAt type subtype n slots
      else .done (some (0, expand))

/-- The index and the structure that `message_get_define_expand` finds. -/
def messageGetDefineExpandAt (box : MessageBox T V) (type subtype : Int32) :
    Outcome (Option (Nat × MsgExpand V)) :=
  defineExpandAt type subtype box.head.expandNum.toInt.toNat box.expands

/-- The loop of `message_replace_define_expand` over the first `n` expands: the index of the one
    to replace, none where the function returns 0. -/
def replaceSite (type subtype : Int32) : Nat → List (ExpandSlot V) → Outcome (Option Nat)
  | 0, _ => .done none
  | _ + 1, [] => .fault
  | n + 1, slot :: slots =>
    match slot.pexpand with
    | none => .done none
    | some expand =>
      if expand.type ≠ type ∨ expand.subtype ≠ subtype then
        Option.map (· + 1) <$> replaceSite type subtype n slots
      else .done (some 0)

/-- `message_replace_define_expand`: what it returns, and the message after the call. -/
def messageReplaceDefineExpand (box : MessageBox T V) (addr : MsgExpand V) (type subtype : Int32) :
    Outcome (Int × MessageBox T V) := do
  match ← replaceSite type subtype box.head.expandNum.toInt.toNat box.expands with
  | none => .done (0, box)
  | some i => match box.expands[i]? with
    | none => .fault
    | some slot =>
      let size := if slot.expand.isSome then 0 else slot.size
      let box := { box with expands := box.expands.set i ⟨none, some addr, size⟩ }
      match memdbGetTemplate ops.toStructOps type subtype with
      | none => .done (i, box)
      | some template => do
        structFreeExpand ops template
        .done (i, box)

/-- The expand that `message_get_define_expand` finds is replaced where it is found, so that it
    finds the new one there, and no other one changes; where it finds none, nothing changes. -/
structure ReplacesExpand (box : MessageBox T V) (addr : MsgExpand V) (type subtype : Int32) :
    Prop where
  found : ∀ i e, messageGetDefineExpandAt box type subtype = .done (some (i, e)) → ∃ expands,
    messageReplaceDefineExpand ops box addr type subtype =
      .done (i, { box with expands := expands }) ∧
    messageGetDefineExpandAt { box with expands := expands } type subtype =
      .done (some (i, addr)) ∧
    (∃ size, expands[i]? = some ⟨none, some addr, size⟩) ∧
    ∀ j, j ≠ i → expands[j]? = box.expands[j]?
  absent : messageGetDefineExpandAt box type subtype = .done none →
    messageReplaceDefineExpand ops box addr type subtype = .done (0, box)

variable {ops} {box : MessageBox T V} {addr e : MsgExpand V} {type subtype : Int32}
  {slots : List (ExpandSlot V)} {slot : ExpandSlot V} {i n : Nat}

/-- The search with the index is that of `messageGetDefineExpand`. -/
theorem defineExpandAt_map (n : Nat) (slots : List (ExpandSlot V)) :
    defineExpand type subtype n slots =
      Option.map Prod.snd <$> defineExpandAt type subtype n slots := by
  have hmap (x : Outcome (Option (Nat × MsgExpand V))) :
      Option.map Prod.snd <$> Option.map (fun (i, e) => (i + 1, e)) <$> x =
        Option.map Prod.snd <$> x := by
    rcases x with (_ | _) | _ | _ <;> rfl
  induction n generalizing slots with
  | zero => rfl
  | succ n ih =>
    rcases slots with _ | ⟨slot, slots⟩
    · rfl
    · rw [defineExpand, defineExpandAt]
      rcases slot.pexpand with _ | expand
      · simp only [ih, hmap]
      · simp only
        split_ifs
        · rw [ih, hmap]
        · rfl

theorem messageGetDefineExpandAt_map (box : MessageBox T V) (type subtype : Int32) :
    messageGetDefineExpand box type subtype =
      Option.map Prod.snd <$> messageGetDefineExpandAt box type subtype :=
  defineExpandAt_map _ _

/-- The structure at the place is one of the type and subtype. -/
def ExpandSlot.Defines (slot : ExpandSlot V) (type subtype : Int32) : Prop :=
  ∃ e, slot.pexpand = some e ∧ e.type = type ∧ e.subtype = subtype

/-- What the search finds is at its place, is of the type and subtype, and is the first such
    structure. -/
theorem defineExpandAt_eq_some : defineExpandAt type subtype n slots = .done (some (i, e)) ↔
    i < n ∧ (∃ slot, slots[i]? = some slot ∧ slot.pexpand = some e) ∧ e.type = type ∧
      e.subtype = subtype ∧ ∀ s ∈ slots.take i, ¬ s.Defines type subtype := by
  induction n generalizing slots i with
  | zero => simp [defineExpandAt]
  | succ n ih =>
    rcases slots with _ | ⟨slot, slots⟩
    · simp [defineExpandAt]
    -- An expand of another kind is passed.
    have hpass (hslot : ¬ slot.Defines type subtype) :
        Option.map (fun (i, e) => (i + 1, e)) <$> defineExpandAt type subtype n slots =
          .done (some (i, e)) ↔
        i < n + 1 ∧ (∃ s, (slot :: slots)[i]? = some s ∧ s.pexpand = some e) ∧ e.type = type ∧
          e.subtype = subtype ∧ ∀ s ∈ (slot :: slots).take i, ¬ s.Defines type subtype := by
      simp only [Outcome.map_eq_done, Option.map_eq_some_iff]
      constructor
      · rintro ⟨_, hfound, ⟨j, e'⟩, rfl, heq⟩
        obtain ⟨rfl, rfl⟩ := Prod.mk.inj heq
        obtain ⟨hlt, hplace, htype, hsubtype, hbefore⟩ := ih.1 hfound
        refine ⟨Nat.succ_lt_succ hlt, hplace, htype, hsubtype, ?_⟩
        rw [List.take_succ_cons]
        exact List.forall_mem_cons.2 ⟨hslot, hbefore⟩
      · rintro ⟨hlt, ⟨s, hs, he⟩, htype, hsubtype, hbefore⟩
        rcases i with _ | i
        · obtain rfl := Option.some.inj hs
          exact absurd ⟨e, he, htype, hsubtype⟩ hslot
        · rw [List.take_succ_cons] at hbefore
          exact ⟨_, ih.2 ⟨Nat.lt_of_succ_lt_succ hlt, ⟨s, hs, he⟩, htype, hsubtype,
            (List.forall_mem_cons.1 hbefore).2⟩, (i, e), rfl, rfl⟩
    rw [defineExpandAt]
    rcases hpexpand : slot.pexpand with _ | expand
    · exact hpass fun ⟨e, he, _⟩ => Option.some_ne_none e (he.symm.trans hpexpand)
    · simp only
      split_ifs with hother
      · refine hpass fun ⟨e, he, htype, hsubtype⟩ => ?_
        obtain rfl := Option.some.inj (hpexpand.symm.trans he)
        exact hother.elim (· htype) (· hsubtype)
      · obtain ⟨htype, hsubtype⟩ := not_or.1 hother
        constructor
        · intro h
          obtain ⟨rfl, rfl⟩ := Prod.mk.inj (Option.some.inj (Outcome.done.inj h))
          exact ⟨Nat.succ_pos n, ⟨slot, rfl, hpexpand⟩, not_not.1 htype, not_not.1 hsubtype, by simp⟩
        · rintro ⟨-, ⟨s, hs, he⟩, -, -, hbefore⟩
          rcases i with _ | i
          · obtain rfl := Option.some.inj hs
            rw [Option.some.inj (hpexpand.symm.trans he)]
          · rw [List.take_succ_cons] at hbefore
            exact absurd ⟨expand, hpexpand, not_not.1 htype, not_not.1 hsubtype⟩
              (hbefore slot List.mem_cons_self)

/-- The loop that replaces stops at the first expand that is only bytes, where the one that
    searches goes on. -/
theorem replaceSite_of_found (h : defineExpandAt type subtype n slots = .done (some (i, e))) :
    replaceSite type subtype n slots =
      if ∀ s ∈ slots.take i, s.pexpand.isSome = true then .done (some i) else .done none := by
  induction n generalizing slots i with
  | zero => cases h
  | succ n ih =>
    rcases slots with _ | ⟨slot, slots⟩
    · cases h
    rw [defineExpandAt] at h
    rw [replaceSite]
    rcases hpexpand : slot.pexpand with _ | expand
    · simp only [hpexpand] at h
      obtain ⟨_, hfound, hmap⟩ := Outcome.map_eq_done.1 h
      obtain ⟨⟨j, e'⟩, rfl, heq⟩ := Option.map_eq_some_iff.1 hmap
      obtain ⟨rfl, rfl⟩ := Prod.mk.inj heq
      rw [if_neg fun hall => ?_]
      have hslot := hall slot (by simp)
      simp [hpexpand] at hslot
    · simp only [hpexpand] at h ⊢
      split_ifs at h ⊢ with hother hall hall
      all_goals first
        | obtain ⟨_, hfound, hmap⟩ := Outcome.map_eq_done.1 h
          obtain ⟨⟨j, e'⟩, rfl, heq⟩ := Option.map_eq_some_iff.1 hmap
          obtain ⟨rfl, rfl⟩ := Prod.mk.inj heq
          rw [ih hfound]
          simp only [List.take_succ_cons, List.forall_mem_cons, hpexpand] at hall
        | obtain ⟨rfl, rfl⟩ := Prod.mk.inj (Option.some.inj (Outcome.done.inj h))
      · rw [if_pos hall.2]
        rfl
      · rw [if_neg fun hrest => hall ⟨rfl, hrest⟩]
        rfl
      · rfl
      · simp at hall

theorem replaceSite_of_absent (h : defineExpandAt type subtype n slots = .done none) :
    replaceSite type subtype n slots = .done none := by
  induction n generalizing slots with
  | zero => rfl
  | succ n ih =>
    rcases slots with _ | ⟨slot, slots⟩
    · cases h
    rw [defineExpandAt] at h
    rw [replaceSite]
    rcases hpexpand : slot.pexpand with _ | expand
    · rfl
    · simp only [hpexpand] at h ⊢
      split_ifs at h ⊢
      · obtain ⟨_, hfound, hmap⟩ := Outcome.map_eq_done.1 h
        obtain rfl := Option.map_eq_none_iff.1 hmap
        rw [ih hfound]
        rfl
      · cases h

/-- An expand is replaced as it should be exactly if the ones before it are held as structures,
    the new one is of its type and subtype, and their template has no pointer that is none in a
    `MSG_EXPAND`. -/
theorem replaceExpand_iff (box : MessageBox T V) (addr : MsgExpand V) (type subtype : Int32) :
    ReplacesExpand ops box addr type subtype ↔ ∀ i e,
      messageGetDefineExpandAt box type subtype = .done (some (i, e)) →
      (∀ slot ∈ box.expands.take i, slot.pexpand.isSome = true) ∧
      addr.type = type ∧ addr.subtype = subtype ∧
      ∀ template, memdbGetTemplate ops.toStructOps type subtype = some template →
        ∀ offset ∈ ops.pointersOf template, offset = expandOffset := by
  have hat (expands : List (ExpandSlot V)) :
      messageGetDefineExpandAt { box with expands := expands } type subtype =
        defineExpandAt type subtype box.head.expandNum.toInt.toNat expands := rfl
  constructor
  · intro hreplaces i e hfound
    obtain ⟨expands, hdone, hagain, -, -⟩ := hreplaces.found i e hfound
    rw [hat, defineExpandAt_eq_some] at hagain
    have hsite := replaceSite_of_found hfound
    rw [messageReplaceDefineExpand, hsite] at hdone
    split_ifs at hdone with hstructs
    · refine ⟨hstructs, hagain.2.2.1, hagain.2.2.2.1, fun template htemplate => ?_⟩
      obtain ⟨-, ⟨slot, hslot, -⟩, -⟩ := defineExpandAt_eq_some.1 hfound
      simp only [Outcome.done_bind, hslot, htemplate, structFreeExpand] at hdone
      by_contra hpointers
      rw [if_neg hpointers, Outcome.fault_bind] at hdone
      cases hdone
    · -- The function has returned 0 with the message as it was, and the old expand is found.
      obtain ⟨hzero, hbox⟩ := Outcome.pair_inj hdone
      have hexpands : expands = box.expands := congrArg MessageBox.expands hbox.symm
      obtain rfl : i = 0 := by omega
      exact absurd (fun s hs => by simp at hs) hstructs
  · intro hcond
    refine ⟨fun i e hfound => ?_, fun habsent => ?_⟩
    · obtain ⟨hstructs, htype, hsubtype, hpointers⟩ := hcond i e hfound
      obtain ⟨hlt, ⟨slot, hslot, he⟩, -, -, hbefore⟩ := defineExpandAt_eq_some.1 hfound
      have hlen := (List.getElem?_eq_some_iff.1 hslot).1
      have hset (size : Int32) : (box.expands.set i ⟨none, some addr, size⟩)[i]? =
          some ⟨none, some addr, size⟩ := List.getElem?_set_self hlen
      refine ⟨box.expands.set i ⟨none, some addr, if slot.expand.isSome then 0 else slot.size⟩,
        ?_, ?_, ⟨_, hset _⟩, fun j hj => List.getElem?_set_ne hj.symm⟩
      · rw [messageReplaceDefineExpand, replaceSite_of_found hfound, if_pos hstructs]
        simp only [Outcome.done_bind, hslot]
        rcases htemplate : memdbGetTemplate ops.toStructOps type subtype with _ | template
        · rfl
        · simp only [structFreeExpand, if_pos (hpointers template htemplate), Outcome.done_bind]
      · rw [hat, defineExpandAt_eq_some]
        refine ⟨hlt, ⟨_, hset _, rfl⟩, htype, hsubtype, ?_⟩
        rwa [List.take_set_of_le (Nat.le_refl i)]
    · rw [messageReplaceDefineExpand, replaceSite_of_absent habsent, Outcome.done_bind]

end Replace

/-- Two expands, of which the first is only bytes: the second one is found, but not replaced. -/
theorem replaceExpand_not : ∃ (ops : FreeOps Unit (List UInt8)) (box : MessageBox Unit (List UInt8)),
    messageGetDefineExpandAt box 1 1 = .done (some (1, ⟨0, 1, 1, []⟩)) ∧
    messageReplaceDefineExpand ops box ⟨0, 1, 1, [7]⟩ 1 1 = .done (0, box) ∧
    ¬ ReplacesExpand ops box ⟨0, 1, 1, [7]⟩ 1 1 := by
  refine ⟨{ wordOps.toStructOps with pointersOf := fun _ => [] }, {
    head := { initHead with expandNum := 2 }, recordTemplate := none, boxState := .expand,
    headSize := 0, records := [], blob := .null, currentOffset := 0,
    expands := [⟨some (MsgExpandHead.toBytes ⟨0, 2, 1⟩), none, 12⟩,
      ⟨none, some ⟨0, 1, 1, []⟩, 0⟩] }, rfl, rfl, fun h => ?_⟩
  obtain ⟨expands, hdone, -⟩ := h.found 1 ⟨0, 1, 1, []⟩ rfl
  exact absurd (Outcome.pair_inj hdone).1 (by decide)

/-! ## Reading -/

/-- What reading an expand needs of struct templates: the content of the template of expands,
    the copy of bytes taken for a structure, and decoding from zeros over a block. -/
structure ReadOps (T V : Type) extends MessageOps T V where
  decodeExpand : T → List UInt8 → Outcome (MsgExpandHead × List UInt8)
  cloneBytes : List UInt8 → T → Outcome (Option V)
  zerosOver : T → List UInt8 → Outcome (Int × List UInt8)
  null : V

section Read

variable (ops : ReadOps T V) (heap : Heap)

/-- The type of messages, `DTYPE_MESSAGE`. -/
def DTYPE_MESSAGE : Int32 := 0x200

/-- The subtype of expands, `SUBTYPE_EXPAND`. -/
def SUBTYPE_EXPAND : Int32 := 2

/-- Whether `Talloc0` finds a block of the size, with 4 bytes before it. -/
def talloc0 (size : Nat) : Bool := heap.ok (size + 4)

/-- `sizeof(MSG_EXPAND)`. -/
def MsgExpand.sizeof : Nat := 20

/-- The copy of an expand that `message_get_expand` makes at its end. That of the content may be
    missing, which is not looked at. -/
def copyExpand (head : MsgExpandHead) (content : Option V) : Option (MsgExpand V) :=
  some ⟨head.dataSize, head.type, head.subtype, content.getD ops.null⟩

/-- The message with a structure in the place of an expand, and its size. -/
def MessageBox.setExpand (box : MessageBox T V) (i : Nat) (slot : ExpandSlot V) : MessageBox T V :=
  { box with expands := box.expands.set i slot }

/-- `message_get_expand` of an expand that is only bytes. What is decoded is the zeroed structure
    made for it, and it is decoded over the bytes. -/
def getExpandBytes (box : MessageBox T V) (i : Nat) (slot : ExpandSlot V) :
    Outcome (Int × Option (MsgExpand V) × MessageBox T V) :=
  if !talloc0 heap MsgExpand.sizeof then .done (-ENOMEM, none, box)
  else match memdbGetTemplate ops.toStructOps DTYPE_MESSAGE SUBTYPE_EXPAND, slot.expand with
  | some expandTemplate, some bytes =>
    match ops.decodeExpand expandTemplate bytes with
    | .fault => .fault
    | .error ret => .done (ret, none, box)
    | .done (head, data) =>
      match memdbGetTemplate ops.toStructOps head.type head.subtype with
      | none => .done (0, none, box)
      | some template => do
        let pexpand : MsgExpand V := ⟨0, 0, 0, ops.null⟩
        let (ret, bytes) ← ops.zerosOver template bytes
        if ret < 0 then
          .done (ret, none, box.setExpand i ⟨some bytes, some pexpand, slot.size⟩)
        else do
          let content ← ops.cloneBytes data template
          .done (0, copyExpand ops head content,
            box.setExpand i ⟨some bytes, some pexpand, Int32.ofInt ret⟩)
  | _, _ => .fault

/-- `message_get_expand`: what it returns, the copy of the expand, if any, and the message after
    the call. -/
def messageGetExpand (box : MessageBox T V) (expandNo : Int) :
    Outcome (Int × Option (MsgExpand V) × MessageBox T V) :=
  if expandNo < 0 then .done (-EINVAL, none, box)
  else if expandNo ≥ box.head.expandNum.toInt then .done (0, none, box)
  else match box.expands[expandNo.toNat]? with
  | none => .fault
  | some slot => match slot.pexpand with
    | none => getExpandBytes ops heap box expandNo.toNat slot
    | some pexpand => match memdbGetTemplate ops.toStructOps pexpand.type pexpand.subtype with
      | none => .done (-EINVAL, none, box)
      | some template =>
        if !talloc0 heap MsgExpand.sizeof then .done (-ENOMEM, none, box)
        else .done (0, copyExpand ops ⟨pexpand.dataSize, pexpand.type, pexpand.subtype⟩
          (ops.cloneStruct pexpand.expand template), box)

/-- The expand is read with its type, its subtype and a copy of its content, again and again; in
    the message nothing changes but that it may get the structure. -/
structure ReadsExpand (box : MessageBox T V) (i : Nat) (template : T) (e : ExpandPiece V) : Prop where
  reads : ∃ out box', messageGetExpand ops heap box i = .done (0, some out, box') ∧
    (out.type, out.subtype) = (e.type, e.subtype) ∧
    ops.cloneStruct e.value template = some out.expand ∧
    (∃ slot pexpand, box.expands[i]? = some slot ∧
      box' = box.setExpand i { slot with pexpand := pexpand }) ∧
    ∃ out' box'', messageGetExpand ops heap box' i = .done (0, some out', box'') ∧
      (out'.type, out'.subtype, out'.expand) = (out.type, out.subtype, out.expand)

variable {ops heap} {box box' : MessageBox T V} {i : Nat} {slot : ExpandSlot V} {template : T}
  {e : ExpandPiece V}

/-- After an expand was read from its bytes, it is held as a structure without a type. -/
theorem getExpandBytes_done {out : MsgExpand V}
    (h : getExpandBytes ops heap box i slot = .done (0, some out, box')) :
    ∃ bytes size, box' = box.setExpand i ⟨bytes, some ⟨0, 0, 0, ops.null⟩, size⟩ := by
  rw [getExpandBytes] at h
  split_ifs at h
  · cases h
  split at h
  · split at h
    · cases h
    · cases h
    · split at h
      · cases h
      · obtain ⟨⟨ret, bytes⟩, -, h⟩ := Outcome.bind_eq_done.1 h
        simp only at h
        split_ifs at h
        · obtain ⟨-, hnone, -⟩ := Outcome.pair_inj h
        · obtain ⟨content, -, h⟩ := Outcome.bind_eq_done.1 h
          obtain ⟨-, hout⟩ := Outcome.pair_inj h
          exact ⟨_, _, (Prod.mk.inj hout).2.symm⟩
  · cases h

variable (ops heap) in
/-- `message_get_expand` of an expand that the message counts. -/
theorem messageGetExpand_eq (hlt : (i : Int) < box.head.expandNum.toInt)
    (hslot : box.expands[i]? = some slot) : messageGetExpand ops heap box i =
      match slot.pexpand with
      | none => getExpandBytes ops heap box i slot
      | some pexpand => match memdbGetTemplate ops.toStructOps pexpand.type pexpand.subtype with
        | none => .done (-EINVAL, none, box)
        | some template =>
          if !talloc0 heap MsgExpand.sizeof then .done (-ENOMEM, none, box)
          else .done (0, copyExpand ops ⟨pexpand.dataSize, pexpand.type, pexpand.subtype⟩
            (ops.cloneStruct pexpand.expand template), box) := by
  rw [messageGetExpand, if_neg (by omega), if_neg (by omega), Int.toNat_natCast, hslot]

/-- An expand that is only bytes is not read as it should be. -/
theorem not_readsExpand_of_bytes (hlt : (i : Int) < box.head.expandNum.toInt)
    (hslot : box.expands[i]? = some slot) (hpexpand : slot.pexpand = none) :
    ¬ ReadsExpand ops heap box i template e := by
  rintro ⟨out, box', hfirst, -, -, -, out', box'', hagain, -⟩
  rw [messageGetExpand_eq ops heap hlt hslot] at hfirst
  simp only [hpexpand] at hfirst
  obtain ⟨bytes, size, rfl⟩ := getExpandBytes_done hfirst
  -- The second call finds a structure of the type 0, which is not registered.
  have hset := List.getElem?_set_self (a := (⟨bytes, some ⟨0, 0, 0, ops.null⟩, size⟩ :
    ExpandSlot V)) (List.getElem?_eq_some_iff.1 hslot).1
  have hnone : memdbGetTemplate ops.toStructOps 0 0 = none := if_pos (by decide)
  have hnum : (i : Int) < (box.setExpand i ⟨bytes, some ⟨0, 0, 0, ops.null⟩, size⟩).head.expandNum.toInt :=
    hlt
  rw [messageGetExpand_eq ops heap hnum hset] at hagain
  simp only [hnone] at hagain
  cases hagain

/-- An expand is read as it should be exactly if it is held as a structure, that can be copied, and
    there is memory for the copy: one that is only bytes is overwritten, and is not read again. -/
theorem getExpand_iff (hlt : (i : Int) < box.head.expandNum.toInt)
    (hslot : box.expands[i]? = some slot) (hstands : ExpandStands ops.toMessageOps slot e)
    (hregistered : memdbGetTemplate ops.toStructOps e.type e.subtype = some template) :
    ReadsExpand ops heap box i template e ↔ slot.pexpand.isSome = true ∧
      (ops.cloneStruct e.value template).isSome = true ∧ talloc0 heap MsgExpand.sizeof = true := by
  rcases hpexpand : slot.pexpand with _ | pexpand
  · exact iff_of_false (not_readsExpand_of_bytes hlt hslot hpexpand) (by simp)
  have hcall := messageGetExpand_eq ops heap hlt hslot
  have hsame : (pexpand.type, pexpand.subtype, pexpand.expand) = (e.type, e.subtype, e.value) := by
    rcases hstands with ⟨hstruct, hcontent, -, -⟩ | ⟨hbytes, -⟩
    · obtain rfl := Option.some.inj (hpexpand.symm.trans hstruct)
      exact hcontent
    · cases hpexpand.symm.trans hbytes
  obtain ⟨htype, hrest⟩ := Prod.mk.inj hsame
  obtain ⟨hsubtype, hvalue⟩ := Prod.mk.inj hrest
  simp only [hpexpand, htype, hsubtype, hvalue, hregistered] at hcall
  rw [Option.isSome_some, eq_self_iff_true, true_and]
  constructor
  · rintro ⟨out, box', hfirst, -, hclone, -⟩
    refine ⟨Option.isSome_iff_exists.2 ⟨_, hclone⟩, ?_⟩
    by_contra hmem
    rw [hcall, if_pos (by simpa using hmem)] at hfirst
    cases hfirst
  · rintro ⟨hclone, hmem⟩
    obtain ⟨content, hcontent⟩ := Option.isSome_iff_exists.1 hclone
    rw [hcontent, hmem, Bool.not_true, if_neg Bool.false_ne_true] at hcall
    have hbox : box = box.setExpand i { slot with pexpand := slot.pexpand } := by
      obtain ⟨hlen, rfl⟩ := List.getElem?_eq_some_iff.1 hslot
      rw [MessageBox.setExpand, List.set_getElem_self]
    exact ⟨_, _, hcall, rfl, hcontent, ⟨slot, slot.pexpand, hslot, hbox⟩, _, _, hcall, rfl⟩

end Read

/-- Structures of one field of two bytes. -/
def readWords : ReadOps Unit (List UInt8) where
  toMessageOps := wordOps
  decodeExpand _ bytes :=
    let head := MsgExpandHead.ofBytes bytes
    let data := bytes.drop MsgExpandHead.sizeof
    if bytes.length < MsgExpandHead.sizeof ∨ data.length < head.dataSize.toInt then .fault
    else .done (head, data.take head.dataSize.toInt.toNat)
  cloneBytes data _ := if data.length < 2 then .fault else .done (some (data.take 2))
  zerosOver _ block := if block.length < 2 then .fault else .done (2, 0 :: 0 :: block.drop 2)
  null := []

/-- A message of one expand. -/
def oneExpand (slot : ExpandSlot (List UInt8)) : MessageBox Unit (List UInt8) where
  head := { initHead with expandNum := 1 }
  recordTemplate := none
  boxState := .expand
  headSize := 0
  records := []
  expands := [slot]
  blob := .null
  currentOffset := 0

/-- An expand that is held as a structure is read. -/
theorem getExpand_iff_struct : ReadsExpand readWords Heap.ample
    (oneExpand ⟨none, some ⟨0, 1, 1, [5, 6]⟩, 0⟩) 0 () ⟨1, 1, [5, 6], [5, 6]⟩ := by
  have hstands : ExpandStands wordOps ⟨none, some ⟨0, 1, 1, [5, 6]⟩, 0⟩ ⟨1, 1, [5, 6], [5, 6]⟩ :=
    .struct rfl rfl rfl rfl
  exact (getExpand_iff (by decide) rfl hstands rfl).2 ⟨rfl, rfl, rfl⟩

/-- The same expand is not read when it is held as bytes. -/
theorem getExpand_not : ¬ ReadsExpand readWords Heap.ample
    (oneExpand ⟨some (ExpandPiece.toBytes ⟨1, 1, [5, 6], [5, 6]⟩), none, 14⟩) 0 ()
    ⟨1, 1, [5, 6], [5, 6]⟩ :=
  not_readsExpand_of_bytes (by decide) rfl rfl

/-- An expand of another type stays. -/
theorem removeExpand_iff_other :
    RemovesExpand (oneExpand ⟨none, some ⟨0, 1, 1, [5, 6]⟩, 0⟩) 2 1 :=
  (removeExpand_iff ⟨by decide, by decide, by decide⟩ 2 1).2 (by decide)

/-- An expand whose type is looked for is not taken out without reading behind it. -/
theorem removeExpand_not : HoldsExpands (oneExpand ⟨none, some ⟨0, 1, 1, [5, 6]⟩, 0⟩) ∧
    ¬ RemovesExpand (oneExpand ⟨none, some ⟨0, 1, 1, [5, 6]⟩, 0⟩) 1 1 := by
  refine ⟨⟨by decide, by decide, by decide⟩, fun h => ?_⟩
  obtain ⟨expand, expands, hdone, -⟩ := h.found 0 ⟨none, some ⟨0, 1, 1, [5, 6]⟩, 0⟩
    ⟨rfl, rfl, fun s hs => nomatch hs⟩
  cases hdone

end Cube.Message
