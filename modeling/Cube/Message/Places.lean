import Cube.Message.Expand

/-!
# The loops over the parts of a message that are written

What `message_output_blob` does for the records, and for the expands: a step for each of the places,
which gives it bytes, and then a copy of these. Where a step fails, the places before it have theirs.

* `structs2BlobRun_same`, `blobsRun_same`: when places and size stay as they are.
* `WritesAsIs.told_eq`: the size that is told is that of the bytes.
-/

namespace Cube.Message

open Lib

variable {S : Type}

/-- The loops of `message_record_struct2blob` and `message_expand_struct2blob`: the error
    that they return, if any, and the places after it. Of a place where the step fails,
    `left` is what is left. -/
def structs2BlobRun (step : S → Outcome S) (left : S → S) : Nat → List S →
    Outcome (Option Int × List S)
  | 0, slots => .done (none, slots)
  | _ + 1, [] => .fault
  | n + 1, slot :: slots =>
    match step slot with
    | .fault => .fault
    | .error e => .done (some e, left slot :: slots)
    | .done slot => do
      let (err, slots) ← structs2BlobRun step left n slots
      .done (err, slot :: slots)

/-- `message_record_struct2blob` with the loop that copies the bytes of the records, and
    `message_expand_struct2blob` with that of the expands: the error, if any, the bytes, the
    places and the size that is then told in the head. A sum of sizes that is negative is
    returned for an error. -/
def blobsRun (step : S → Outcome S) (left : S → S) (block : S → Option (List UInt8))
    (size : S → Int32) (n : Nat) (slots : List S) (told : Int32) :
    Outcome (Option Int × List UInt8 × List S × Int32) := do
  let (err, slots) ← structs2BlobRun step left n slots
  match err with
  | some e => .done (some e, [], slots, told)
  | none =>
    let total := ((slots.take n).map size).sum
    if total.toInt < 0 then .done (some total.toInt, [], slots, total)
    else do
      let bytes ← copyBlocks n (slots.map fun slot => (block slot, size slot))
      .done (none, bytes, slots, total)

/-! ## Places that stay as they are -/

section Loop

variable {step : S → Outcome S} {left : S → S} {block : S → Option (List UInt8)} {size : S → Int32}
  {n : Nat} {slot : S} {slots : List S} {err : Option Int} {e : Int} {bytes : List UInt8}
  {told : Int32}

/-- The first `n` places are there, and their step leaves them as they are. -/
def Stays (step : S → Outcome S) (n : Nat) (slots : List S) : Prop :=
  n ≤ slots.length ∧ ∀ slot ∈ slots.take n, step slot = .done slot

/-- The step fails for one of the first `n` places, and leaves it as it is, like those before. -/
def BreaksAsIs (step : S → Outcome S) (left : S → S) (n : Nat) (slots : List S) (e : Int) : Prop :=
  ∃ before slot after, slots = before ++ slot :: after ∧ before.length < n ∧
    (∀ s ∈ before, step s = .done s) ∧ step slot = .error e ∧ left slot = slot

theorem stays_cons : Stays step (n + 1) (slot :: slots) ↔
    step slot = .done slot ∧ Stays step n slots := by
  rw [Stays, Stays, List.length_cons, Nat.succ_le_succ_iff, List.take_succ_cons,
    List.forall_mem_cons]
  exact and_left_comm

theorem breaksAsIs_cons : BreaksAsIs step left (n + 1) (slot :: slots) e ↔
    (step slot = .error e ∧ left slot = slot) ∨
      step slot = .done slot ∧ BreaksAsIs step left n slots e := by
  constructor
  · rintro ⟨_ | ⟨s, before⟩, slot', after, heq, hlen, hbefore, hslot⟩
    · cases heq
      exact .inl hslot
    · cases heq
      rw [List.forall_mem_cons] at hbefore
      exact .inr ⟨hbefore.1, before, slot', after, rfl, Nat.lt_of_succ_lt_succ hlen, hbefore.2, hslot⟩
  · rintro (hslot | ⟨hdone, before, slot', after, rfl, hlen, hbefore, hslot⟩)
    · exact ⟨[], slot, slots, rfl, Nat.succ_pos n, nofun, hslot⟩
    · exact ⟨slot :: before, slot', after, rfl, Nat.succ_lt_succ hlen,
        List.forall_mem_cons.2 ⟨hdone, hbefore⟩, hslot⟩

/-- When the loop leaves all places as they are. -/
theorem structs2BlobRun_same : structs2BlobRun step left n slots = .done (err, slots) ↔
    (err = none ∧ Stays step n slots) ∨ ∃ e, err = some e ∧ BreaksAsIs step left n slots e := by
  induction n generalizing slots with
  | zero =>
    constructor
    · intro h
      cases h
      exact .inl ⟨rfl, Nat.zero_le _, nofun⟩
    · rintro (⟨rfl, -⟩ | ⟨e, -, before, slot, after, -, hlen, -⟩)
      · rfl
      · exact absurd hlen (Nat.not_lt_zero _)
  | succ n ih =>
    rcases slots with _ | ⟨slot, slots⟩
    · constructor
      · nofun
      · rintro (⟨-, hlen, -⟩ | ⟨e, -, before, slot, after, heq, -⟩)
        · exact absurd hlen (Nat.not_succ_le_zero n)
        · cases before <;> cases heq
    rw [structs2BlobRun, stays_cons]
    simp only [breaksAsIs_cons]
    rcases hslot : step slot with slot' | e | _
    · simp only [Outcome.bind_eq_done, Outcome.done.injEq, Prod.mk.injEq, List.cons.injEq, reduceCtorEq,
        false_and, false_or]
      constructor
      · rintro ⟨⟨err', slots'⟩, hloop, rfl, rfl, rfl⟩
        exact (ih.1 hloop).imp (fun h => ⟨h.1, rfl, h.2⟩) fun ⟨e, he, h⟩ => ⟨e, he, rfl, h⟩
      · rintro (⟨herr, rfl, h⟩ | ⟨e, herr, rfl, h⟩)
        · exact ⟨_, ih.2 (.inl ⟨herr, h⟩), rfl, rfl, rfl⟩
        · exact ⟨_, ih.2 (.inr ⟨e, herr, h⟩), rfl, rfl, rfl⟩
    · simp only [Outcome.done.injEq, Prod.mk.injEq, List.cons.injEq, and_true, reduceCtorEq,
        false_and, and_false, false_or, or_false, Outcome.error.injEq]
      constructor
      · rintro ⟨rfl, hleft⟩
        exact ⟨e, rfl, rfl, hleft⟩
      · rintro ⟨_, rfl, rfl, hleft⟩
        exact ⟨rfl, hleft⟩
    · simp

/-- The step fails for a place, or the sizes add up to a negative number, and everything stays as it
    is. -/
def FailsAsIs (step : S → Outcome S) (left : S → S) (size : S → Int32) (n : Nat) (slots : List S)
    (told : Int32) : Prop :=
  (∃ e, BreaksAsIs step left n slots e) ∨
    Stays step n slots ∧ told = ((slots.take n).map size).sum ∧ told.toInt < 0

/-- The places stay as they are, with the sizes and the bytes that they have. -/
structure WritesAsIs (step : S → Outcome S) (block : S → Option (List UInt8)) (size : S → Int32)
    (n : Nat) (slots : List S) (told : Int32) (bytes : List UInt8) : Prop where
  stays : Stays step n slots
  sizes : told = ((slots.take n).map size).sum
  nonneg : ¬ told.toInt < 0
  bytes : copyBlocks n (slots.map fun slot => (block slot, size slot)) = .done bytes

/-- The sum of the sizes is that of the bytes copied. -/
theorem WritesAsIs.told_eq (h : WritesAsIs step block size n slots told bytes) :
    told = Int32.ofNat bytes.length := by
  rw [h.sizes]
  have hcopy := h.bytes
  clear h
  induction n generalizing slots bytes with
  | zero =>
    obtain rfl := Outcome.done.inj hcopy
    rfl
  | succ n ih =>
    rcases slots with _ | ⟨slot, slots⟩
    · cases hcopy
    rw [List.map_cons, copyBlocks, Outcome.bind_eq_done] at hcopy
    obtain ⟨first, hfirst, hcopy⟩ := hcopy
    obtain ⟨rest, hrest, hcopy⟩ := Outcome.bind_eq_done.1 hcopy
    obtain rfl := Outcome.done.inj hcopy
    rw [List.take_succ_cons, List.map_cons, List.sum_cons, ih hrest, List.length_append,
      Int32.ofNat_add, int32_ofNat_of_copy hfirst]

/-- When places and size stay as they are. -/
theorem blobsRun_same : blobsRun step left block size n slots told = .done (err, bytes, slots, told) ↔
    (∃ e, err = some e ∧ bytes = [] ∧
      (BreaksAsIs step left n slots e ∨
        Stays step n slots ∧ told = ((slots.take n).map size).sum ∧ told.toInt = e ∧ e < 0)) ∨
      (err = none ∧ WritesAsIs step block size n slots told bytes) := by
  constructor
  · intro h
    obtain ⟨⟨err', slots'⟩, hloop, h⟩ := Outcome.bind_eq_done.1 h
    rcases err' with _ | e
    · simp only at h
      split_ifs at h with hneg
      · simp only [Outcome.done.injEq, Prod.mk.injEq] at h
        obtain ⟨rfl, rfl, rfl, htold⟩ := h
        obtain ⟨-, hstays⟩ | ⟨e, he, -⟩ := structs2BlobRun_same.1 hloop
        · exact .inl ⟨_, rfl, rfl, .inr ⟨hstays, htold.symm, by rw [htold], hneg⟩⟩
        · cases he
      · obtain ⟨bytes', hcopy, h⟩ := Outcome.bind_eq_done.1 h
        simp only [Outcome.done.injEq, Prod.mk.injEq] at h
        obtain ⟨rfl, rfl, rfl, htold⟩ := h
        obtain ⟨-, hstays⟩ | ⟨e, he, -⟩ := structs2BlobRun_same.1 hloop
        · exact .inr ⟨rfl, hstays, htold.symm, htold ▸ hneg, hcopy⟩
        · cases he
    · simp only [Outcome.done.injEq, Prod.mk.injEq] at h
      obtain ⟨rfl, rfl, rfl, -⟩ := h
      obtain ⟨he, -⟩ | ⟨e', he, hbreaks⟩ := structs2BlobRun_same.1 hloop
      · cases he
      · cases he
        exact .inl ⟨e, rfl, rfl, .inl hbreaks⟩
  · rintro (⟨e, rfl, rfl, hbreaks | ⟨hstays, htold, rfl, hneg⟩⟩ | ⟨rfl, hstays, htold, hneg, hcopy⟩)
    · rw [blobsRun, structs2BlobRun_same.2 (.inr ⟨e, rfl, hbreaks⟩)]
      rfl
    · rw [blobsRun, structs2BlobRun_same.2 (.inl ⟨rfl, hstays⟩), Outcome.done_bind]
      simp only [← htold, if_pos hneg]
    · rw [blobsRun, structs2BlobRun_same.2 (.inl ⟨rfl, hstays⟩), Outcome.done_bind]
      simp only [← htold, if_neg hneg, hcopy, Outcome.done_bind]

theorem failsAsIs_of_run
    (h : blobsRun step left block size n slots told = .done (some e, bytes, slots, told)) :
    FailsAsIs step left size n slots told := by
  obtain ⟨_, -, -, hbreaks | ⟨hstays, htold, rfl, hneg⟩⟩ | ⟨he, -⟩ := blobsRun_same.1 h
  · exact .inl ⟨_, hbreaks⟩
  · exact .inr ⟨hstays, htold, hneg⟩
  · cases he

theorem writesAsIs_of_run
    (h : blobsRun step left block size n slots told = .done (none, bytes, slots, told)) :
    WritesAsIs step block size n slots told bytes := by
  obtain ⟨_, he, -⟩ | ⟨-, hwrites⟩ := blobsRun_same.1 h
  · cases he
  · exact hwrites

variable (block) in
theorem FailsAsIs.run (h : FailsAsIs step left size n slots told) : ∃ e,
    blobsRun step left block size n slots told = .done (some e, [], slots, told) := by
  rcases h with ⟨e, hbreaks⟩ | ⟨hstays, htold, hneg⟩
  · exact ⟨e, blobsRun_same.2 (.inl ⟨e, rfl, rfl, .inl hbreaks⟩)⟩
  · exact ⟨_, blobsRun_same.2 (.inl ⟨_, rfl, rfl, .inr ⟨hstays, htold, rfl, hneg⟩⟩)⟩

end Loop

end Cube.Message
