import Cube.Struct.Conversions
import Cube.Struct.Rounds

/-!
# Cloning a part of a structure

`struct_clone` and `struct_part_clone` give the same functions to the loop, which copy from
the first structure it is given to the second one, with or without a test of the flags.
`struct_clone` gives it the source first, `struct_part_clone` the destination.

* `structPartClone_swap`: with the flag on all elements, a partial clone is a clone with the
  source and the destination exchanged.
* `structClone_of_same`, `same_of_structClone`: a clone leaves the destination as it is if
  every leaf is in it already and no array needs memory, and only then.
* `partClone_iff`: when a partial clone is a clone all the same, and when it copies the leaves
  with the flag.
-/

namespace Cube.Struct

open Lib

section PartClone

variable {σ : Type} (t : Template) (defvalue : Loc → Indices → σ → Option Int)
  (alloc : Loc → Indices → Int → σ → Option (Int × σ))
  (cloneValue : Loc → Indices → σ → σ → Option (Int × Option Int × σ))

/-- `clone_struct_enterstruct` and `proc_clone_struct`, for the two structures the loop is
    given, `addr` and `data`. The numbers are read from `data`, memory for arrays is given to
    it, and `_elem_clone_value` copies a leaf of `addr` to it. -/
def cloneStruct (flag : Option Int32) : Counting (σ × σ) :=
  structClone t flag (fun loc idx m => defvalue loc idx m.2)
    (fun loc idx limit m => (alloc loc idx limit m.2).map fun (ret, data) => (ret, m.1, data))
    (fun loc idx m => (cloneValue loc idx m.1 m.2).map fun (ret, i, data) => (ret, i, m.1, data))

/-- `struct_clone` returns the value, with the structures after it: the loop is given the
    source as `addr`. -/
def StructClone (scr : Scratch) (src destr : σ) (ret : Int) (src' destr' : σ) : Prop :=
  ∃ scr', Converts ((cloneStruct t defvalue alloc cloneValue none).visitor t).ops
    ⟨t, scr, (src, destr)⟩ ret ⟨t, scr', (src', destr')⟩

/-- `struct_part_clone` returns the value, with the structures after it: the loop is given the
    destination as `addr`. -/
def StructPartClone (flag : Int32) (scr : Scratch) (src destr : σ) (ret : Int)
    (src' destr' : σ) : Prop :=
  ∃ scr', Converts ((cloneStruct t defvalue alloc cloneValue (some flag)).visitor t).ops
    ⟨t, scr, (destr, src)⟩ ret ⟨t, scr', (destr', src')⟩

/-- A partial clone does what a clone does, where that one returns: the source is unchanged,
    and the destination is made the same. -/
def ClonesAlike (flag : Int32) (scr : Scratch) (src destr : σ) : Prop :=
  ∀ ret src' destr', StructClone t defvalue alloc cloneValue scr src destr ret src' destr' →
    StructPartClone t defvalue alloc cloneValue flag scr src destr ret src destr'

/-- What the functions of a clone that change the destination are called for. -/
inductive CloneCall
  | array (loc : Loc) (idx : Indices) (limit : Int)
  | leaf (loc : Loc) (idx : Indices)

/-- The destination stays as it is: no memory is given to the array, or the leaf is in the
    destination what it is in the source. -/
def CloneCall.Spares (src destr : σ) : CloneCall → Prop
  | .array loc idx limit => ∀ ret destr', alloc loc idx limit destr = some (ret, destr') →
    destr' = destr
  | .leaf loc idx => ∀ ret i destr', cloneValue loc idx src destr = some (ret, i, destr') →
    destr' = destr

/-- The functions of a clone, for two structures as they are: arrays are entered as often as
    `destr` counts them, and the calls are noted. -/
def listCalls (src destr : σ) : Counting (List CloneCall) :=
  structClone t none (fun loc idx _ => defvalue loc idx destr)
    (fun loc idx limit calls => (alloc loc idx limit destr).map fun (ret, _) =>
      (ret, calls ++ [.array loc idx limit]))
    (fun loc idx calls => (cloneValue loc idx src destr).map fun (ret, i, _) =>
      (ret, i, calls ++ [.leaf loc idx]))

/-- The loop over two structures as they are comes to an end, with the value, and the leaves
    and arrays that it comes to leave the destination as it is. -/
def SameFor (scr : Scratch) (src destr : σ) (ret : Int) : Prop :=
  ∃ scr' calls, Converts ((listCalls t defvalue alloc cloneValue src destr).visitor t).ops
      ⟨t, scr, []⟩ ret ⟨t, scr', calls⟩ ∧
    ∀ call ∈ calls, call.Spares alloc cloneValue src destr

/-- Two structures are the same: each has the leaves of the other, arrays of which memory would
    have to be given are in none, and the loop over the one ends like that over the other. -/
def SameAlready (scr : Scratch) (src destr : σ) : Prop :=
  ∃ ret, SameFor t defvalue alloc cloneValue scr src destr ret ∧
    SameFor t defvalue alloc cloneValue scr destr src ret

/-- What a clone does to the destination, it does not undo. -/
def Lasting : Prop :=
  ∃ R : σ × σ → σ × σ → Prop,
    ((cloneStruct t defvalue alloc cloneValue none).visitor t).Relates R ∧
    ∀ {m m'}, R m m' → R m' m → m' = m

/-- The leaves with the flag are copied, and the others unchanged, for what is read of a leaf
    in the structures of arrays with the indices. -/
def CopiesFlagged {β : Type} (flag : Int32) (read : LeafCall → σ → β) (src destr destr' : σ) : Prop :=
  ∀ call d, t.descOf call.1 = some d → d.type.attr.subset = false →
    read call destr' = read call (if partDealTest t (some flag) call.1 then src else destr)

variable {t defvalue alloc cloneValue}

/-- The functions of a clone leave `addr` as it is. -/
theorem cloneStruct_relates (flag : Option Int32) :
    ((cloneStruct t defvalue alloc cloneValue flag).visitor t).Relates
      fun m m' => m'.1 = m.1 where
  refl _ := rfl
  trans h₁ h₂ := h₂.trans h₁
  enter {loc idx limit m e} henter := by
    simp only [Counting.visitor, Counting.enter] at henter
    split_ifs at henter
    · split at henter
      · cases henter
      · obtain ⟨r, hr, rfl⟩ := Option.map_eq_some_iff.1 henter
        simp only [cloneStruct, structClone, allocElems] at hr
        split_ifs at hr
        · obtain ⟨r', _, rfl⟩ := Option.map_eq_some_iff.1 hr
          rfl
        · obtain rfl := Option.some.inj hr
          rfl
    · obtain ⟨r, hr, rfl⟩ := Option.map_eq_some_iff.1 henter
      obtain rfl := Option.some.inj hr
      rfl
  exit hexit := by
    obtain rfl := Option.some.inj hexit
    rfl
  leaf hleaf := by
    obtain ⟨r, _, rfl⟩ := Option.map_eq_some_iff.1 hleaf
    rfl

variable {flag : Int32} {scr : Scratch} {src destr src' destr' : σ} {ret : Int}

/-- A clone leaves the source as it is. -/
theorem StructClone.source (h : StructClone t defvalue alloc cloneValue scr src destr ret src' destr') :
    src' = src := by
  obtain ⟨scr', hconverts⟩ := h
  refine ((cloneStruct_relates none).converts ?_ ?_ hconverts).1 <;>
  · intro m r hcall
    obtain rfl := Option.some.inj hcall
    rfl

/-- A partial clone leaves the destination as it is. -/
theorem StructPartClone.destination
    (h : StructPartClone t defvalue alloc cloneValue flag scr src destr ret src' destr') :
    destr' = destr := by
  obtain ⟨scr', hconverts⟩ := h
  refine ((cloneStruct_relates (some flag)).converts ?_ ?_ hconverts).1 <;>
  · intro m r hcall
    obtain rfl := Option.some.inj hcall
    rfl

/-- With the flag on all elements, a partial clone is a clone of the destination to the
    source. -/
theorem structPartClone_swap
    (hall : ∀ loc d, t.descOf loc = some d → partDealTest t (some flag) loc = true) :
    StructPartClone t defvalue alloc cloneValue flag scr src destr ret src' destr' ↔
      StructClone t defvalue alloc cloneValue scr destr src ret destr' src' := by
  have htest : ∀ loc d (m : σ × σ), t.descOf loc = some d →
      (fun loc (_ : σ × σ) => partDealTest t (some flag) loc) loc m =
        ((cloneStruct t defvalue alloc cloneValue none).visitor t).test loc m :=
    fun loc d _ hd => hall loc d hd
  exact exists_congr fun _ => converts_test_congr htest rfl ret _

variable (t defvalue alloc cloneValue) in
/-- A structure is entered alike by a clone and by the functions that note its calls: it gets a
    limit, or memory for an array. -/
theorem enter_cases (src destr : σ) (loc : Loc) (idx : Indices) (limit : Int)
    (calls : List CloneCall) :
    (((listCalls t defvalue alloc cloneValue src destr).visitor t).enter loc idx limit calls = none ∧
      ((cloneStruct t defvalue alloc cloneValue none).visitor t).enter loc idx limit (src, destr) =
        none) ∨
    (∃ ret index limit',
      ((listCalls t defvalue alloc cloneValue src destr).visitor t).enter loc idx limit calls =
        some ⟨ret, index, limit', calls⟩ ∧
      ((cloneStruct t defvalue alloc cloneValue none).visitor t).enter loc idx limit (src, destr) =
        some ⟨ret, index, limit', (src, destr)⟩) ∨
    ∃ idx' limit',
      ((listCalls t defvalue alloc cloneValue src destr).visitor t).enter loc idx limit calls =
        (alloc loc idx' limit' destr).map (fun r =>
          ⟨r.1, 0, limit', calls ++ [.array loc idx' limit']⟩) ∧
      ((cloneStruct t defvalue alloc cloneValue none).visitor t).enter loc idx limit (src, destr) =
        (alloc loc idx' limit' destr).map fun r => ⟨r.1, 0, limit', (src, r.2)⟩ := by
  have hlimit (idx : Indices) :
      (cloneStruct t defvalue alloc cloneValue none).limitOf t loc idx (src, destr) =
        (listCalls t defvalue alloc cloneValue src destr).limitOf t loc idx calls := rfl
  simp only [Counting.visitor, Counting.enter, hlimit]
  by_cases hzero : limit = 0
  · simp only [if_pos hzero]
    cases (listCalls t defvalue alloc cloneValue src destr).limitOf t loc
        (Function.update idx loc 0) calls with
    | none => exact .inl ⟨rfl, rfl⟩
    | some limit' =>
      simp only [listCalls, cloneStruct, structClone, allocElems]
      by_cases harray : t.isArray loc = true ∧ limit' > 0
      · simp only [if_pos harray, Option.map_map]
        exact .inr (.inr ⟨_, limit', rfl, rfl⟩)
      · simp only [if_neg harray]
        exact .inr (.inl ⟨_, _, _, rfl, rfl⟩)
  · simp only [if_neg hzero]
    exact .inr (.inl ⟨_, _, _, rfl, rfl⟩)

/-- Where the leaves and arrays leave the destination as it is, a clone does. -/
theorem listCalls_simulates (src destr : σ) :
    ((listCalls t defvalue alloc cloneValue src destr).visitor t).Simulates
      ((cloneStruct t defvalue alloc cloneValue none).visitor t)
      (fun calls => ∀ call ∈ calls, call.Spares alloc cloneValue src destr)
      (fun _ m => m = (src, destr)) where
  back := by
    refine ⟨fun _ h => h, fun h₁ h₂ h => h₁ (h₂ h), fun {loc idx limit calls e} henter h => ?_,
      fun hexit => ?_, fun hleaf h => ?_⟩
    · rcases enter_cases t defvalue alloc cloneValue src destr loc idx limit calls with
        ⟨hnone, -⟩ | ⟨_, _, _, hsome, -⟩ | ⟨_, _, harray, -⟩
      · cases hnone.symm.trans henter
      · cases hsome.symm.trans henter
        exact h
      · obtain ⟨r, _, rfl⟩ := Option.map_eq_some_iff.1 (harray.symm.trans henter)
        exact (List.forall_mem_append.1 h).1
    · cases hexit
      exact id
    · obtain ⟨r, _, rfl⟩ := Option.map_eq_some_iff.1 hleaf
      exact (List.forall_mem_append.1 h).1
  back_start h := by
    cases h
    exact id
  back_finish h := by
    cases h
    exact id
  start hm h _ := by
    cases h
    exact ⟨_, rfl, hm⟩
  test _ _ := rfl
  enter {calls m loc idx limit e} hm henter hfit := by
    subst hm
    rcases enter_cases t defvalue alloc cloneValue src destr loc idx limit calls with
      ⟨hnone, -⟩ | ⟨_, _, _, hsome, hclone⟩ | ⟨idx', limit', harray, hclone⟩
    · cases hnone.symm.trans henter
    · cases hsome.symm.trans henter
      exact ⟨_, hclone, rfl⟩
    · obtain ⟨⟨ret, destr'⟩, halloc, rfl⟩ := Option.map_eq_some_iff.1 (harray.symm.trans henter)
      have hspares := (List.forall_mem_append.1 hfit).2 _ (List.mem_singleton_self _)
      refine ⟨_, hclone.trans (congrArg (Option.map _) halloc), ?_⟩
      rw [hspares ret destr' halloc]
  exit hm h _ := by
    cases h
    exact ⟨_, rfl, hm⟩
  leaf {calls m loc idx r} hm hleaf hfit := by
    subst hm
    obtain ⟨⟨ret, i, destr'⟩, hclone, rfl⟩ := Option.map_eq_some_iff.1 hleaf
    have hspares := (List.forall_mem_append.1 hfit).2 _ (List.mem_singleton_self _)
    refine ⟨_, congrArg (Option.map _) hclone, ?_⟩
    rw [hspares ret i destr' hclone]
  finish hm h _ := by
    cases h
    exact ⟨_, rfl, hm⟩

/-- Where a clone leaves the destination as it is in the end, and undoes nothing, its calls do. -/
theorem cloneStruct_simulates (src destr : σ) {R : σ × σ → σ × σ → Prop}
    (hR : ((cloneStruct t defvalue alloc cloneValue none).visitor t).Relates R)
    (hanti : ∀ {m m'}, R m m' → R m' m → m' = m) :
    ((cloneStruct t defvalue alloc cloneValue none).visitor t).Simulates
      ((listCalls t defvalue alloc cloneValue src destr).visitor t)
      (fun m => R m (src, destr))
      (fun m calls => m = (src, destr) ∧ ∀ call ∈ calls, call.Spares alloc cloneValue src destr) where
  back := by
    refine ⟨fun _ h => h, fun h₁ h₂ h => h₁ (h₂ h), fun henter h => ?_, fun hexit h => ?_,
      fun hleaf h => ?_⟩
    · exact hR.trans (hR.enter henter) h
    · exact hR.trans (hR.exit hexit) h
    · exact hR.trans (hR.leaf hleaf) h
  back_start h := by
    cases h
    exact id
  back_finish h := by
    cases h
    exact id
  start hm h _ := by
    cases h
    exact ⟨_, rfl, hm⟩
  test _ _ := rfl
  enter {m calls loc idx limit e} hm henter hfit := by
    obtain ⟨rfl, hspares⟩ := hm
    have hsame := hanti (hR.enter henter) hfit
    rcases enter_cases t defvalue alloc cloneValue src destr loc idx limit calls with
      ⟨-, hnone⟩ | ⟨_, _, _, hlist, hsome⟩ | ⟨idx', limit', hlist, harray⟩
    · cases hnone.symm.trans henter
    · cases hsome.symm.trans henter
      exact ⟨_, hlist, rfl, hspares⟩
    · obtain ⟨⟨ret, destr'⟩, halloc, rfl⟩ := Option.map_eq_some_iff.1 (harray.symm.trans henter)
      refine ⟨_, hlist.trans (congrArg (Option.map _) halloc), hsame, List.forall_mem_append.2
        ⟨hspares, List.forall_mem_singleton.2 fun ret' destr'' halloc' => ?_⟩⟩
      cases halloc.symm.trans halloc'
      exact (Prod.mk.inj hsame).2
  exit hm h _ := by
    cases h
    exact ⟨_, rfl, hm⟩
  leaf {m calls loc idx r} hm hleaf hfit := by
    obtain ⟨rfl, hspares⟩ := hm
    have hsame := hanti (hR.leaf hleaf) hfit
    obtain ⟨⟨ret, i, destr'⟩, hclone, rfl⟩ := Option.map_eq_some_iff.1 hleaf
    refine ⟨_, congrArg (Option.map _) hclone, hsame, List.forall_mem_append.2
      ⟨hspares, List.forall_mem_singleton.2 fun ret' i' destr'' hclone' => ?_⟩⟩
    cases hclone.symm.trans hclone'
    exact (Prod.mk.inj hsame).2
  finish hm h _ := by
    cases h
    exact ⟨_, rfl, hm⟩

/-- A clone leaves the destination as it is, if every leaf is in it already and no array needs
    memory. -/
theorem structClone_of_same (h : SameFor t defvalue alloc cloneValue scr src destr ret) :
    StructClone t defvalue alloc cloneValue scr src destr ret src destr := by
  obtain ⟨scr', calls, hlist, hspares⟩ := h
  obtain ⟨m, hclone, rfl⟩ :=
    (listCalls_simulates src destr).converts (b := (src, destr)) rfl hlist hspares
  exact ⟨scr', hclone⟩

/-- A clone that undoes nothing leaves the destination as it is only then. -/
theorem same_of_structClone (hlasting : Lasting t defvalue alloc cloneValue)
    (h : StructClone t defvalue alloc cloneValue scr src destr ret src destr) :
    SameFor t defvalue alloc cloneValue scr src destr ret := by
  obtain ⟨R, hR, hanti⟩ := hlasting
  obtain ⟨scr', hclone⟩ := h
  obtain ⟨calls, hlist, -, hspares⟩ := (cloneStruct_simulates src destr hR hanti).converts
    (b := []) ⟨rfl, nofun⟩ hclone (hR.refl _)
  exact ⟨scr', calls, hlist, hspares⟩

theorem StructClone.unique {src₁ src₂ destr₁ destr₂ : σ} {ret₁ ret₂ : Int}
    (h₁ : StructClone t defvalue alloc cloneValue scr src destr ret₁ src₁ destr₁)
    (h₂ : StructClone t defvalue alloc cloneValue scr src destr ret₂ src₂ destr₂) :
    ret₁ = ret₂ ∧ destr₁ = destr₂ := by
  obtain ⟨_, h₁⟩ := h₁
  obtain ⟨_, h₂⟩ := h₂
  obtain ⟨rfl, hframe⟩ := h₁.unique h₂
  exact ⟨rfl, congrArg (fun f => f.para.2) hframe⟩

/-- With the flag on all elements, a partial clone does what a clone does if the two structures
    are the same already, and only then where a clone returns and undoes nothing. Leaves with the
    flag are copied exactly if the destination has what the source has of them. -/
theorem partClone_iff {β : Type} (read : LeafCall → σ → β) :
    ((∀ loc d, t.descOf loc = some d → partDealTest t (some flag) loc = true) →
      (SameAlready t defvalue alloc cloneValue scr src destr →
        ClonesAlike t defvalue alloc cloneValue flag scr src destr) ∧
      (Lasting t defvalue alloc cloneValue →
        (∃ ret src' destr', StructClone t defvalue alloc cloneValue scr src destr ret src' destr') →
        ClonesAlike t defvalue alloc cloneValue flag scr src destr →
        SameAlready t defvalue alloc cloneValue scr src destr)) ∧
    ∀ ret src' destr',
      StructPartClone t defvalue alloc cloneValue flag scr src destr ret src' destr' →
      (CopiesFlagged t flag read src destr destr' ↔
        ∀ call d, t.descOf call.1 = some d → d.type.attr.subset = false →
          partDealTest t (some flag) call.1 = true → read call destr = read call src) := by
  refine ⟨fun hall => ⟨fun ⟨ret, hsame, hback⟩ ret' src' destr' hclone => ?_,
    fun hlasting ⟨ret, src', destr', hclone⟩ halike => ?_⟩, fun ret src' destr' hpart => ?_⟩
  · obtain ⟨rfl, rfl⟩ := (structClone_of_same hsame).unique hclone
    exact (structPartClone_swap hall).2 (structClone_of_same hback)
  · obtain rfl := hclone.source
    have hswapped := (structPartClone_swap hall).1 (halike _ _ _ hclone)
    obtain rfl := hswapped.source
    exact ⟨ret, same_of_structClone hlasting hclone, same_of_structClone hlasting hswapped⟩
  · obtain rfl := hpart.destination
    refine forall₄_congr fun call d _ _ => ?_
    cases hflag : partDealTest t (some flag) call.1 with
    | true => simp
    | false => simp

/-! ### Structures of words -/

/-- A structure of words in memory: the words, by the indices of the structures they are in, and
    how many times memory was given to it. -/
structure Words where
  word : LeafCall → Int
  blocks : Nat

/-- `Dalloc0` for an array: its words are zero. -/
def wordAlloc (loc : Loc) (idx : Indices) (_ : Int) (m : Words) : Option (Int × Words) :=
  some (0, {
    word := fun call =>
      if loc <:+ call.1 ∧ pathIndices loc.tail idx <:+ call.2 then 0 else m.word call
    blocks := m.blocks + 1 })

/-- `_elem_clone_value` for a word. -/
def wordCloneValue (loc : Loc) (idx : Indices) (src destr : Words) :
    Option (Int × Option Int × Words) :=
  some (4, none, { destr with
    word := Function.update destr.word (leafCall loc idx) (src.word (leafCall loc idx)) })

/-- The destination has been given memory, or words of the source. -/
def WordsSet (m m' : Words × Words) : Prop :=
  m'.1 = m.1 ∧ (m.2.blocks < m'.2.blocks ∨ m'.2.blocks = m.2.blocks ∧
    ∀ call, m'.2.word call = m.2.word call ∨ m'.2.word call = m.1.word call)

theorem WordsSet.refl (m : Words × Words) : WordsSet m m := ⟨rfl, .inr ⟨rfl, fun _ => .inl rfl⟩⟩

theorem WordsSet.trans {a b c : Words × Words} (h₁ : WordsSet a b) (h₂ : WordsSet b c) :
    WordsSet a c := by
  obtain ⟨hsrc₁, hset₁⟩ := h₁
  obtain ⟨hsrc₂, hset₂⟩ := h₂
  refine ⟨hsrc₂.trans hsrc₁, ?_⟩
  rcases hset₁ with hlt₁ | ⟨heq₁, hwords₁⟩
  · rcases hset₂ with hlt₂ | ⟨heq₂, -⟩
    · exact .inl (hlt₁.trans hlt₂)
    · exact .inl (heq₂ ▸ hlt₁)
  · rcases hset₂ with hlt₂ | ⟨heq₂, hwords₂⟩
    · exact .inl (heq₁ ▸ hlt₂)
    · refine .inr ⟨heq₂.trans heq₁, fun call => ?_⟩
      rcases hwords₂ call with h | h
      · rw [h]
        exact hwords₁ call
      · exact .inr (h.trans (by rw [hsrc₁]))

theorem WordsSet.antisymm {m m' : Words × Words} (h : WordsSet m m') (h' : WordsSet m' m) :
    m' = m := by
  obtain ⟨hsrc, hset⟩ := h
  obtain ⟨-, hset'⟩ := h'
  rcases hset with hlt | ⟨heq, hwords⟩
  · rcases hset' with hlt' | ⟨heq', -⟩ <;> omega
  rcases hset' with hlt' | ⟨-, hwords'⟩
  · omega
  have hword : m'.2.word = m.2.word := by
    funext call
    rcases hwords call with h | h
    · exact h
    rcases hwords' call with h' | h'
    · exact h'.symm
    · rw [h, h', hsrc]
  obtain ⟨src, ⟨word, blocks⟩⟩ := m
  obtain ⟨src', ⟨word', blocks'⟩⟩ := m'
  obtain rfl : src' = src := hsrc
  obtain rfl : word' = word := hword
  obtain rfl : blocks' = blocks := heq
  rfl

/-- A clone of words undoes nothing. -/
theorem words_lasting (t : Template) (defvalue : Loc → Indices → Words → Option Int) :
    Lasting t defvalue wordAlloc wordCloneValue := by
  refine ⟨WordsSet, ⟨WordsSet.refl, WordsSet.trans, fun {loc idx limit m e} henter => ?_,
    fun hexit => ?_, fun hleaf => ?_⟩, WordsSet.antisymm⟩
  · rcases enter_cases t defvalue wordAlloc wordCloneValue m.1 m.2 loc idx limit [] with
      ⟨-, hnone⟩ | ⟨_, _, _, -, hsome⟩ | ⟨_, _, -, harray⟩
    · cases hnone.symm.trans henter
    · cases hsome.symm.trans henter
      exact .refl m
    · cases harray.symm.trans henter
      exact ⟨rfl, .inl (Nat.lt_succ_self _)⟩
  · cases hexit
    exact .refl _
  · cases hleaf
    refine ⟨rfl, .inr ⟨rfl, fun call => ?_⟩⟩
    simp only [Function.update_apply]
    split_ifs with hcall
    · exact .inr (by rw [hcall])
    · exact .inl rfl

/-- A structure of one word, with the flag 1. -/
def flaggedWord : Template := ⟨[intElem 'x'], fun _ => ⟨1, 1⟩, fun _ => { size := 4, flag := 1 }⟩

/-- The memory of a structure of one word. -/
def Words.one (x : Int) : Words := ⟨fun _ => x, 0⟩

theorem flaggedWord_clone (x y : Int) : StructClone flaggedWord (fun _ _ _ => none) wordAlloc
    wordCloneValue .clean (.one x) (.one y) 0 (.one x)
      { Words.one y with word := Function.update (Words.one y).word ([0], []) x } := ⟨_, 2, rfl⟩

theorem flaggedWord_flag (loc : Loc) (d : ElemDesc) (_ : flaggedWord.descOf loc = some d) :
    partDealTest flaggedWord (some 1) loc = true :=
  (by decide : ((1 : Int32) &&& 1 != 0) = true)

theorem flaggedWord_same (x : Int) : SameFor flaggedWord (fun _ _ _ => none) wordAlloc
    wordCloneValue .clean (.one x) (.one x) 0 := by
  refine ⟨_, [.leaf [0] (Frame.indices ⟨flaggedWord, .clean, ()⟩)], ⟨2, rfl⟩, ?_⟩
  refine List.forall_mem_singleton.2 fun _ _ _ hclone => ?_
  cases hclone
  exact congrArg (Words.mk · 0) (Function.update_eq_self _ _)

/-- A word that is in both structures is cloned, as it is in the destination already. -/
theorem partClone_iff_word :
    ClonesAlike flaggedWord (fun _ _ _ => none) wordAlloc wordCloneValue 1 .clean (.one 5)
      (.one 5) ∧
    SameAlready flaggedWord (fun _ _ _ => none) wordAlloc wordCloneValue .clean (.one 5)
      (.one 5) := by
  have halike : ClonesAlike flaggedWord (fun _ _ _ => none) wordAlloc wordCloneValue 1 .clean
      (.one 5) (.one 5) := ((partClone_iff fun call m => m.word call).1 flaggedWord_flag).1
    ⟨0, flaggedWord_same 5, flaggedWord_same 5⟩
  exact ⟨halike, ((partClone_iff fun call m => m.word call).1 flaggedWord_flag).2
    (words_lasting _ _) ⟨_, _, _, flaggedWord_clone 5 5⟩ halike⟩

/-- The word 7 of the destination is copied to the source, which has the word 5. -/
theorem partClone_not : ¬ ∀ (t : Template) (flag : Int32) (scr : Scratch) (src destr : Words),
    (∀ loc d, t.descOf loc = some d → partDealTest t (some flag) loc = true) →
    ClonesAlike t (fun _ _ _ => none) wordAlloc wordCloneValue flag scr src destr := by
  intro h
  have hpart := h flaggedWord 1 .clean (.one 5) (.one 7) flaggedWord_flag 0 _ _
    (flaggedWord_clone 5 7)
  have hword : (5 : Int) = 7 := congrFun (congrArg Words.word hpart.destination) ([0], [])
  exact absurd hword (by decide)

end PartClone

end Cube.Struct
