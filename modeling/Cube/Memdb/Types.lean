import Cube.Lib.Run
import Cube.Memdb.Registry

/-!
# Types resolve

Runs of loads: name lists are stored, and type lists are merged into the registry, in any
order. The *history* of a run keeps which type lists have been merged.

* `Registered.mergeTypelist`: what one type list does to the registry;
* `types_resolve`: after every load its types resolve, those that did before still do,
  the merged list is in order and counted, and no other name has the number of a type.
-/

namespace Cube.Memdb

open Lib Message

/-- A list read into the database: a name list, or a type list. -/
inductive LoadEvent
  | namelist (mem : LoadMem) (name : Name) (list : Namelist)
  | typelist (mem : LoadMem) (name : Name) (desc : TypelistDesc)

/-- The list that a type list is about: its own, or the one found under the uuid. -/
def TypelistDesc.list (base : MemdbBase) : TypelistDesc → Option Namelist
  | .elemlist list => some list
  | .uuid u _ => (memdbFind base.namelists u).bind fun r => (base.namelists.record r).record

/-- The list of types that is merged. -/
def LoadEvent.types (base : MemdbBase) : LoadEvent → Option Namelist
  | .namelist _ _ _ => none
  | .typelist _ _ desc => desc.list base

/-- The list merged of the registry and another. -/
def MemdbBase.merged (base : MemdbBase) (list : Namelist) : Namelist :=
  .ofEntries (mergeKeyed Name2Value.value base.typeenumlist.elemlist list.elemlist)

/-- The databases, and the lists of types loaded so far. -/
structure Loaded where
  base : MemdbBase
  lists : List Namelist

section Run

variable (sm3 : List UInt8 → Uuid)

namespace Loaded

/-- A load. A list of types has been loaded unless an error is returned. -/
def step (s : Loaded) : LoadEvent → Outcome Loaded
  | .namelist mem name list => do
    let (_, _, namelists) ← readNamelistJsonDesc sm3 mem s.base.namelists name list
    .done { s with base := { s.base with namelists := namelists } }
  | .typelist mem name desc => do
    let (ret, base) ← readTypelistJsonDesc sm3 mem s.base name desc
    .done
      { base := base
        lists := if ret < 0 then s.lists else s.lists ++ (desc.list s.base).toList }

/-- A load, where the ones before it came to an end. -/
def next (s : Outcome Loaded) (e : LoadEvent) : Outcome Loaded :=
  s >>= fun s => s.step sm3 e

/-- The databases as they are from the start, with the list of the base types. -/
def init (mem : StoreMem) (elemenumlist : Namelist) : Outcome Loaded := do
  let base ← memdbInit sm3 mem elemenumlist
  .done { base := base, lists := [base.typeenumlist] }

end Loaded

/-- A list may be merged into the registry: it is a list of types, no name that resolves
    already has an unused number in it, and the merged list fits and has a uuid of its
    own, or that of the registry that goes with its only name. -/
structure Mergeable (base : MemdbBase) (list : Namelist) : Prop where
  types : ∃ types : TypeList, list = types.namelist
  apart : ∀ e ∈ list.elemlist, (∀ x ∈ base.typeenumlist.elemlist, x.value ≠ e.value) →
    ∀ x ∈ base.typeenumlist.elemlist, x.name ≠ e.name
  fits : (base.merged list).Fits
  fresh : ∀ x, memdbFind base.namelists (listUuid sm3 (base.merged list)) = some x →
    memdbFindByname base.namelists typeenumlistName = .done (some x) ∧
      (base.namelists.record x).nameNo = 1

/-- The loads that do not meet with the name of the registry in another place than the
    head of its record: what is stored and merged has a uuid of its own. -/
def Allowed (s : Loaded) : LoadEvent → Prop
  | .namelist mem name list => mem.Enough ∧ Storable sm3 s.base.namelists name list
  | .typelist mem _ (.elemlist list) =>
    mem.Enough ∧ Storable sm3 s.base.namelists .empty list ∧ Mergeable sm3 s.base list ∧
      listUuid sm3 (s.base.merged list) ≠ listUuid sm3 list
  | .typelist mem _ (.uuid uuid elemNo) =>
    mem.Enough ∧ ∀ list, (TypelistDesc.uuid uuid elemNo).list s.base = some list →
      Mergeable sm3 s.base list

/-- The merged list is in order and counted, and a name of no list does not have the number
    of a type. -/
structure InOrder (s : Loaded) : Prop where
  increasing : Increasing Name2Value.value s.base.typeenumlist.elemlist
  counted : s.base.typeenumlist.elemNo = s.base.typeenumlist.elemlist.length
  unlisted : ∀ name, (∀ list ∈ s.lists, ∀ e ∈ list.elemlist, e.name ≠ name) →
    ∃ value, memdbGetTypeno s.base name = .done value ∧
      ∀ list ∈ s.lists, ∀ e ∈ list.elemlist, e.value ≠ value

/-- A load accepts the list that there is, its types with unused numbers resolve both
    ways, and names that resolved before still do. -/
structure Resolves (s : Loaded) (e : LoadEvent) (s' : Loaded) : Prop where
  accepted : s'.lists = s.lists ++ (e.types s.base).toList
  new : ∀ list, e.types s.base = some list → ∀ x ∈ list.elemlist,
    (∀ y ∈ s.base.typeenumlist.elemlist, y.value ≠ x.value) →
      memdbGetTypeno s'.base x.name = .done x.value ∧
        memdbGetTypestr s'.base x.value = .done (some x.name)
  old : ∀ name value, value ≠ 0 → memdbGetTypeno s.base name = .done value →
    memdbGetTypeno s'.base name = .done value

/-- The registry is the only record with its name, its types are those of the lists
    loaded, and type lists are indexed. -/
structure Loaded.Inv (s : Loaded) : Prop where
  registered : ∃ live r, Registered s.base.namelists live r s.base.typeenumlist
  typelists : ∃ live, Stored.Inv ⟨s.base.typelists, live⟩
  types : ∃ types : TypeList, s.base.typeenumlist = types.namelist
  listed : ∀ e ∈ s.base.typeenumlist.elemlist, ∃ list ∈ s.lists, e ∈ list.elemlist
  value_ne_zero : ∀ list ∈ s.lists, ∀ e ∈ list.elemlist, e.value ≠ 0

variable {sm3} {s : Loaded}

theorem Loaded.Inv.inOrder (h : s.Inv) : InOrder s := by
  obtain ⟨types, htypes⟩ := h.types
  refine ⟨htypes ▸ types.increasing, htypes ▸ rfl, fun name hname => ⟨0, ?_, h.value_ne_zero⟩⟩
  have hnone : ∀ e ∈ types.entries, e.name ≠ name := by
    intro e he
    obtain ⟨list, hlist, hmem⟩ := h.listed e (htypes ▸ he)
    exact hname list hlist e hmem
  rw [memdbGetTypeno, htypes]
  exact TypeList.getValue_eq_zero hnone

/-- A record of the caller's own is stored somehow. -/
theorem Stored.Inv.storeOwn {D : Type} (ops : DbOps D) {db : Database D} {live : List Nat}
    (h : Stored.Inv ⟨db, live⟩) (mem : StoreMem) (hmem : mem.name.array = true)
    (record : DbRecord D) (hnames : record.names = none) :
    ∃ ret db' live', memdbStoreRecord ops mem (db.alloc record) db.allocated = .done (ret, db') ∧
      Stored.Inv ⟨db', live'⟩ := by
  have hdead : db.allocated ∉ live := fun hlive =>
    absurd (h.allocated _ hlive) (Nat.lt_irrefl _)
  have halloc : Stored.Inv ⟨db.alloc record, live⟩ := h.alloc fun _ hsome => by
    rw [hnames] at hsome
    cases hsome
  have hkeeps : Stored.KeepsUuid ops ⟨db.alloc record, live⟩ (.storeRecord mem db.allocated) :=
    ⟨hmem, fun hlive => absurd hlive hdead⟩
  obtain ⟨ret, db', hstore, hinv⟩ := halloc.storeRecord (Nat.lt_succ_self db.allocated) hkeeps
  exact ⟨ret, db', _, hstore, hinv⟩

/-- A type list that is found in the database is merged into the registry. -/
theorem Registered.mergeTypelist {base : MemdbBase} {live tlive : List Nat} {r : Nat}
    (h : Registered base.namelists live r base.typeenumlist)
    (htypelists : Stored.Inv ⟨base.typelists, tlive⟩) {registry types : TypeList}
    (hregistry : base.typeenumlist = registry.namelist) (hapart : registry.Apart types)
    {mem : LoadMem} (hmem : mem.Enough) (name : Name) (typelist : Typelist) {x : Nat}
    (hfind : memdbFind base.namelists typelist.uuid = some x)
    (hcontent : (base.namelists.record x).record = some types.namelist)
    (hfits : (base.merged types.namelist).Fits)
    (hfresh : ∀ x, memdbFind base.namelists (listUuid sm3 (base.merged types.namelist)) = some x →
      x = r ∧ (base.namelists.record r).nameNo = 1) :
    ∃ base', Memdb.mergeTypelist sm3 mem base name typelist = .done (1, base') ∧
      base'.typeenumlist = (registry.merge types hapart).namelist ∧
      (∃ live r, Registered base'.namelists live r base'.typeenumlist) ∧
      ∃ live, Stored.Inv ⟨base'.typelists, live⟩ := by
  have htail : typelistTailFunc base.namelists typelist = (0, some types.namelist) := by
    simp [typelistTailFunc, hfind, hcontent]
  have hmerged : base.merged types.namelist = (registry.merge types hapart).namelist := by
    rw [MemdbBase.merged, hregistry]
    rfl
  rw [hmerged] at hfits hfresh
  -- The type list itself is stored in a database of its own.
  obtain ⟨ret, tdb, tlive', htstore, htinv⟩ := htypelists.storeOwn (typelistOps sm3)
    { mem.storeTypelist with tail := 0 } hmem.storeTypelist.name.2
    { uuid := .replicate _ 0, name := name.strncpy, nameNo := 0, names := none
      record := some typelist } rfl
  obtain ⟨db₁, y, db₂, live', r', hremove, hstore, hreg⟩ :=
    h.replace hmem.storeMerged hfits hfresh
  refine ⟨{ namelists := db₂, typelists := tdb
            typeenumlist := (registry.merge types hapart).namelist }, ?_, rfl, ⟨live', r', hreg⟩,
    tlive', htinv⟩
  have hmerge := TypeList.mergeNamelist_merge hapart
  have hcontent' : (base.namelists.record r).record = some registry.namelist :=
    hregistry ▸ h.content
  simp only [Memdb.mergeTypelist, htail, htstore, Outcome.done_bind, h.find, hcontent', hmem.merge,
    hmerge, hmem.remove, hremove, hfits.compUuidBuf, hstore]
  rfl

/-- What merging a list of types does for the names and numbers of types. -/
theorem resolves_merge {registry types : TypeList} (hapart : registry.Apart types)
    {base base' : MemdbBase} (hbase : base.typeenumlist = registry.namelist)
    (hbase' : base'.typeenumlist = (registry.merge types hapart).namelist) :
    (∀ x ∈ types.entries, (∀ y ∈ base.typeenumlist.elemlist, y.value ≠ x.value) →
      memdbGetTypeno base' x.name = .done x.value ∧
        memdbGetTypestr base' x.value = .done (some x.name)) ∧
      ∀ name value, value ≠ 0 → memdbGetTypeno base name = .done value →
        memdbGetTypeno base' name = .done value := by
  constructor
  · intro x hx hnew
    rw [hbase] at hnew
    have hmem : x ∈ (registry.merge types hapart).entries :=
      TypeList.mem_merge.2 (.inr ⟨hx, hnew⟩)
    rw [memdbGetTypeno, memdbGetTypestr, hbase']
    exact ⟨TypeList.getValue_eq hmem, TypeList.getStr_eq hmem⟩
  · intro name value hvalue hold
    rw [memdbGetTypeno, hbase, TypeList.getValue_eq_iff hvalue] at hold
    obtain ⟨e, he, rfl, rfl⟩ := hold
    rw [memdbGetTypeno, hbase']
    exact TypeList.getValue_eq (TypeList.mem_merge.2 (.inl he))

/-- The invariant after a list of types has been merged. -/
theorem Loaded.Inv.merged (h : s.Inv) {registry types : TypeList} (hapart : registry.Apart types)
    {base' : MemdbBase} (hbase : s.base.typeenumlist = registry.namelist)
    (hbase' : base'.typeenumlist = (registry.merge types hapart).namelist)
    (hreg : ∃ live r, Registered base'.namelists live r base'.typeenumlist)
    (htypelists : ∃ live, Stored.Inv ⟨base'.typelists, live⟩) :
    Loaded.Inv { base := base', lists := s.lists ++ [types.namelist] } where
  registered := hreg
  typelists := htypelists
  types := ⟨_, hbase'⟩
  listed e he := by
    change e ∈ base'.typeenumlist.elemlist at he
    rw [hbase'] at he
    rcases (TypeList.mem_merge (h := hapart)).1 he with he | ⟨he, _⟩
    · obtain ⟨list, hlist, hmem⟩ := h.listed e (hbase ▸ he)
      exact ⟨list, List.mem_append_left _ hlist, hmem⟩
    · exact ⟨types.namelist, List.mem_append_right _ (List.mem_singleton_self _), he⟩
  value_ne_zero list hlist := by
    rcases List.mem_append.1 hlist with hlist | hlist
    · exact h.value_ne_zero list hlist
    · obtain rfl := List.mem_singleton.1 hlist
      exact types.value_ne_zero

/-- Every load that is allowed comes to an end, keeps the invariant and resolves. -/
theorem Loaded.Inv.step (h : s.Inv) {e : LoadEvent} (hallowed : Allowed sm3 s e) :
    ∃ s', s.step sm3 e = .done s' ∧ s'.Inv ∧ Resolves s e s' := by
  obtain ⟨live, r, hreg⟩ := h.registered
  obtain ⟨tlive, htinv⟩ := h.typelists
  obtain ⟨registry, hregistry⟩ := h.types
  rcases e with ⟨mem, name, list⟩ | ⟨mem, name, list | ⟨u, elemNo⟩⟩
  · -- A name list leaves the registry as it is.
    obtain ⟨hmem, hlist⟩ := hallowed
    obtain ⟨ret, x, db', live', hread, -, hreg', -⟩ := hreg.store hmem hlist
    refine ⟨{ s with base := { s.base with namelists := db' } }, ?_,
      ⟨⟨live', r, hreg'⟩, h.typelists, h.types, h.listed, h.value_ne_zero⟩, ?_⟩
    · simp only [Loaded.step, hread, Outcome.done_bind]
    · exact ⟨(List.append_nil _).symm, fun _ hnone => (by cases hnone), fun _ _ _ hold => hold⟩
  · -- A type list with a list of its own, which is stored first.
    obtain ⟨hmem, hlist, hmergeable, hne⟩ := hallowed
    obtain ⟨types, rfl⟩ := hmergeable.types
    have hapart : registry.Apart types := by
      have hapart := hmergeable.apart
      rwa [hregistry] at hapart
    obtain ⟨ret, x, db', live', hread, hret, hreg', hnameNo, huuid, ⟨y, hy, hcontent⟩, hfind⟩ :=
      hreg.store hmem hlist
    have hfresh (z : Nat) (hz : memdbFind db' (listUuid sm3 (s.base.merged types.namelist)) =
        some z) : z = r ∧ (db'.record r).nameNo = 1 := by
      rw [hfind _ hne] at hz
      obtain ⟨hz, hone⟩ := hmergeable.fresh z hz
      obtain rfl : r = z := Option.some.inj (Outcome.done.inj (hreg.find.symm.trans hz))
      exact ⟨rfl, hnameNo.trans hone⟩
    let typelist : Typelist := { elemNo := types.namelist.elemNo, uuid := db'.uuid x }
    have hy' : memdbFind db' typelist.uuid = some y := by
      rw [← hy, ← huuid]
    let base : MemdbBase := { s.base with namelists := db' }
    have hreg₁ : Registered base.namelists live' r base.typeenumlist := hreg'
    obtain ⟨base', hmerge, hbase', hreg₂, htinv'⟩ := hreg₁.mergeTypelist htinv hregistry hapart hmem
      name typelist hy' hcontent hmergeable.fits hfresh
    have hmerge' : mergeTypelist sm3 mem
        { namelists := db', typelists := s.base.typelists, typeenumlist := s.base.typeenumlist } name
        { elemNo := types.namelist.elemNo, uuid := db'.uuid x } = .done (1, base') := hmerge
    obtain ⟨hnew, hold⟩ := resolves_merge hapart hregistry hbase'
    refine ⟨_, ?_, h.merged hapart hregistry hbase' hreg₂ htinv', ⟨rfl, ?_, hold⟩⟩
    · simp only [Loaded.step, readTypelistJsonDesc, hmem.typelist, hmem.record, not_true_eq_false,
        or_self, if_false, hread, Outcome.done_bind, if_neg (not_lt.2 hret), hmerge']
      rfl
    · rintro list ⟨⟩
      exact hnew
  · -- A type list about a list that is stored, or is not.
    obtain ⟨hmem, hmergeable⟩ := hallowed
    rcases hfind : memdbFind s.base.namelists u with _ | x
    · have hlist : (TypelistDesc.uuid u elemNo).list s.base = none := by
        simp [TypelistDesc.list, hfind]
      refine ⟨s, ?_, h, ⟨?_, fun list hsome => ?_, fun _ _ _ hold => hold⟩⟩
      · simp only [Loaded.step, readTypelistJsonDesc, hmem.typelist, not_true_eq_false, if_false,
          hfind, Outcome.done_bind]
        rfl
      · simp [LoadEvent.types, hlist]
      · rw [LoadEvent.types, hlist] at hsome
        cases hsome
    · -- A record that is found has a list.
      have hx := ((memdbFind_eq_some_iff hreg.stored).1 hfind).1
      obtain ⟨list, hcontent⟩ := Option.ne_none_iff_exists'.1 (hreg.filled x hx)
      have hlist : (TypelistDesc.uuid u elemNo).list s.base = some list := by
        simp [TypelistDesc.list, hfind, hcontent]
      have hmergeable := hmergeable list hlist
      obtain ⟨types, rfl⟩ := hmergeable.types
      have hapart : registry.Apart types := by
        have hapart := hmergeable.apart
        rwa [hregistry] at hapart
      have hfresh (z : Nat) (hz : memdbFind s.base.namelists
          (listUuid sm3 (s.base.merged types.namelist)) = some z) :
          z = r ∧ (s.base.namelists.record r).nameNo = 1 := by
        obtain ⟨hz, hone⟩ := hmergeable.fresh z hz
        obtain rfl : r = z := Option.some.inj (Outcome.done.inj (hreg.find.symm.trans hz))
        exact ⟨rfl, hone⟩
      obtain ⟨base', hmerge, hbase', hreg', htinv'⟩ := hreg.mergeTypelist htinv hregistry hapart
        hmem name { elemNo := if elemNo = 0 then types.namelist.elemNo else elemNo, uuid := u }
        hfind hcontent hmergeable.fits hfresh
      obtain ⟨hnew, hold⟩ := resolves_merge hapart hregistry hbase'
      have hread : readTypelistJsonDesc sm3 mem s.base name (.uuid u elemNo) =
          .done (1, base') := by
        rw [← hmerge]
        by_cases hzero : elemNo = 0 <;>
          simp [readTypelistJsonDesc, hmem.typelist, hfind, hcontent, hzero]
      refine ⟨_, ?_, h.merged hapart hregistry hbase' hreg' htinv', ⟨?_, ?_, hold⟩⟩
      · simp only [Loaded.step, hread, hlist, Outcome.done_bind]
        rfl
      · simp only [LoadEvent.types, hlist, Option.toList_some]
      · intro list hsome
        rw [LoadEvent.types, hlist] at hsome
        obtain rfl := Option.some.inj hsome
        exact hnew

/-- The types there are from the start. -/
def baseTypes : TypeList where
  entries := structTypeBaselist
  increasing := by
    unfold Increasing
    decide
  nodup := by decide
  value_ne_zero := by decide

theorem baseTypes_fits : baseTypes.namelist.Fits := by decide

/-- The databases start with the registry, where the two lists stored have uuids of their
    own. -/
theorem Loaded.inv_init {mem : StoreMem} (hmem : mem.Enough) {elemenumlist : Namelist}
    (hfits : elemenumlist.Fits)
    (hne : listUuid sm3 elemenumlist ≠ listUuid sm3 baseTypes.namelist) :
    ∃ s, Loaded.init sm3 mem elemenumlist = .done s ∧ s.Inv := by
  let record := newRecord (namelistOps sm3) (listUuid sm3 elemenumlist) elemenumlist
    (some elemenumlistName)
  let db₁ : Database Namelist := { (emptyDb.alloc record).link 0 with recordNo := 1 }
  have hfirst : memdbStore (namelistOps sm3) mem emptyDb elemenumlist (some elemenumlistName) =
      .done (some 0, db₁) := memdbStore_new hmem hfits rfl _
  have hinv : Stored.Inv ⟨db₁, [0]⟩ := by
    have hlink : Stored.Inv ⟨{ (emptyDb.alloc record).link 0 with recordNo := 0 + 1 }, [0]⟩ :=
      Stored.inv_empty.linkNew (fun _ hnames => by cases hnames) rfl
    exact hlink
  have hrecord : db₁.record 0 = record := by
    simp [db₁, Database.link, Database.alloc, Database.set, emptyDb]
  have hfind : memdbFind db₁ (listUuid sm3 baseTypes.namelist) = none := by
    refine hinv.find_eq_none fun x hx hxu => hne ?_
    obtain rfl := List.mem_singleton.1 hx
    rw [← hxu]
    exact (congrArg DbRecord.uuid hrecord).symm
  obtain ⟨db₂, hsecond, hreg, huuid⟩ := Registered.of_new hinv
    (fun x hx => by
      obtain rfl := List.mem_singleton.1 hx
      rw [hrecord]
      have hother : elemenumlistName.strncpy ≠ typeenumlistName := by decide
      exact ⟨hother, List.not_mem_nil⟩)
    (fun x hx => by
      obtain rfl := List.mem_singleton.1 hx
      rw [hrecord]
      exact Option.some_ne_none elemenumlist) hmem baseTypes_fits hfind
  obtain ⟨db₃, hthird, hreg'⟩ := hreg.addName hmem baseTypes_fits huuid
    (show baseenumlistName.Valid from ⟨by decide, by decide⟩) (by decide)
  have hbase : Namelist.ofEntries structTypeBaselist = baseTypes.namelist := rfl
  refine ⟨⟨{ namelists := db₃, typelists := emptyDb, typeenumlist := baseTypes.namelist },
    [baseTypes.namelist]⟩, ?_, ⟨⟨_, _, hreg'⟩, ⟨[], Stored.inv_empty⟩, ⟨baseTypes, rfl⟩,
      fun e he => ⟨_, List.mem_singleton_self _, he⟩, fun list hlist => ?_⟩⟩
  · simp only [Loaded.init, memdbInit, hbase, hfits.compUuidBuf, Outcome.done_bind, hfirst,
      reduceCtorEq, if_false, baseTypes_fits.compUuidBuf, hsecond, hthird]
  · obtain rfl := List.mem_singleton.1 hlist
    exact baseTypes.value_ne_zero

variable (sm3) in
/-- In every run of loads that are allowed, each load accepts its list of types; the types
    with unused numbers resolve both ways, those that resolved before still do; the merged
    list is in order and counted, and a name of no list does not have the number of a
    type. -/
theorem types_resolve {mem : StoreMem} (hmem : mem.Enough) {elemenumlist : Namelist}
    (hfits : elemenumlist.Fits)
    (hne : listUuid sm3 elemenumlist ≠ listUuid sm3 baseTypes.namelist) {events : List LoadEvent}
    (hallowed : Steps (Loaded.next sm3) (fun x e => ∀ s, x = .done s → Allowed sm3 s e)
      (Loaded.init sm3 mem elemenumlist) events) :
    Throughout (Loaded.next sm3) (fun x => ∃ s, x = .done s ∧ InOrder s)
        (Loaded.init sm3 mem elemenumlist) events ∧
      Steps (Loaded.next sm3) (fun x e => ∃ s s', x = .done s ∧ s.step sm3 e = .done s' ∧
        Resolves s e s') (Loaded.init sm3 mem elemenumlist) events := by
  have hinv : Throughout (Loaded.next sm3) (fun x => ∃ s, x = .done s ∧ s.Inv)
      (Loaded.init sm3 mem elemenumlist) events := by
    refine run_invariant ?_ (Loaded.inv_init hmem hfits hne) hallowed
    rintro _ e ⟨s, rfl, hs⟩ hok
    obtain ⟨s', hstep, hinv, -⟩ := hs.step (hok s rfl)
    exact ⟨s', hstep, hinv⟩
  constructor
  · intro pre hpre
    obtain ⟨s, hs, h⟩ := hinv pre hpre
    exact ⟨s, hs, h.inOrder⟩
  · intro pre e hpre
    obtain ⟨s, hs, h⟩ := hinv pre ((List.prefix_append pre [e]).trans hpre)
    obtain ⟨s', hstep, -, hresolves⟩ := h.step (hallowed pre e hpre s hs)
    exact ⟨s, s', hs, hstep, hresolves⟩

end Run

/-! ## A type under two numbers -/

/-- The first bytes of a content. -/
def firstBytes (data : List UInt8) : Uuid := Vector.ofFn fun i => data.getD i.val 0

/-- All the memory there is to be had. -/
def fullLoad : LoadMem := ⟨true, true, true, fullMem, fullMem, true, true, fullMem⟩

theorem fullMem_enough : fullMem.Enough := ⟨rfl, rfl, ⟨rfl, rfl⟩, Int.le_refl 0⟩

theorem fullLoad_enough : fullLoad.Enough :=
  ⟨rfl, rfl, rfl, fullMem_enough, fullMem_enough, rfl, rfl, fullMem_enough⟩

/-- A list of one type, `"A"`. -/
def typeA (value : Int) (h : value ≠ 0) : TypeList where
  entries := [entry "A" value (by decide) (by decide)]
  increasing := List.pairwise_singleton _ _
  nodup := List.nodup_singleton _
  value_ne_zero e he := by
    obtain rfl := List.mem_singleton.1 he
    exact h

/-- A load of a list of types, with all the memory there is. -/
def loadTypes (types : TypeList) : LoadEvent :=
  .typelist fullLoad .empty (.elemlist types.namelist)

/-- A list of one element type. -/
def elemTypes : Namelist := .ofEntries [entry "STRING" 1 (by decide) (by decide)]

/-- The base types with the type `"A"` behind them. -/
theorem merged_typeA :
    mergeKeyed Name2Value.value structTypeBaselist (typeA 258 (by decide)).entries =
      structTypeBaselist ++ (typeA 258 (by decide)).entries := by
  simp [structTypeBaselist, typeA, mergeKeyed, entry]

/-- The type `"A"` loaded with a number. -/
theorem types_resolve_one :
    Throughout (Loaded.next firstBytes) (fun x => ∃ s, x = .done s ∧ InOrder s)
        (Loaded.init firstBytes fullMem elemTypes) [loadTypes (typeA 258 (by decide))] ∧
      Steps (Loaded.next firstBytes) (fun x e => ∃ s s', x = .done s ∧
        s.step firstBytes e = .done s' ∧ Resolves s e s')
        (Loaded.init firstBytes fullMem elemTypes) [loadTypes (typeA 258 (by decide))] := by
  refine types_resolve firstBytes fullMem_enough (by decide) (by decide)
    (steps_cons.2 ⟨?_, steps_nil⟩)
  intro s hs
  -- No record has the uuid of the list, or that of the merged one.
  have hstart : (Loaded.init firstBytes fullMem elemTypes >>= fun s => .done
      (memdbFind s.base.namelists (listUuid firstBytes (typeA 258 (by decide)).namelist),
        memdbFind s.base.namelists (listUuid firstBytes
          (.ofEntries (structTypeBaselist ++ (typeA 258 (by decide)).entries))),
        s.base.typeenumlist)) = .done (none, none, baseTypes.namelist) := by decide +kernel
  have hs' : Loaded.init firstBytes fullMem elemTypes = .done s := hs
  rw [hs', Outcome.done_bind] at hstart
  obtain ⟨hfind, hmerged, htypes⟩ : _ ∧ _ ∧ _ := by
    simpa only [Outcome.done.injEq, Prod.mk.injEq] using hstart
  have hlist : s.base.merged (typeA 258 (by decide)).namelist =
      .ofEntries (structTypeBaselist ++ (typeA 258 (by decide)).entries) := by
    rw [MemdbBase.merged, htypes, ← merged_typeA]
    rfl
  refine ⟨fullLoad_enough, ⟨by decide, by decide, fun x hx => ?_⟩,
    ⟨⟨_, rfl⟩, ?_, ?_, fun x hx => ?_⟩, ?_⟩
  · rw [hfind] at hx
    cases hx
  · rw [htypes]
    decide
  · rw [hlist]
    decide
  · rw [hlist, hmerged] at hx
    cases hx
  · rw [hlist]
    decide

theorem index_nul_free : (0 : UInt8) ∉ "INDEX".toList.map fun c => UInt8.ofNat c.toNat := by
  decide

theorem index_length_le :
    ("INDEX".toList.map fun c => UInt8.ofNat c.toNat).length ≤ DIGEST_SIZE := by
  decide

/-- A list of one type, with the name of a base type and a number of its own. -/
def indexAgain : TypeList where
  entries := [entry "INDEX" 258 index_nul_free index_length_le]
  increasing := List.pairwise_singleton _ _
  nodup := List.nodup_singleton _
  value_ne_zero e he := by
    obtain rfl := List.mem_singleton.1 he
    decide

/-- A type loaded with a second number does not resolve to it. -/
theorem type_not_renumbered : ¬ ∀ lists : List TypeList,
    Steps (Loaded.next firstBytes) (fun x e => ∃ s s', x = .done s ∧
      s.step firstBytes e = .done s' ∧ Resolves s e s')
      (Loaded.init firstBytes fullMem elemTypes) (lists.map loadTypes) := by
  intro h
  obtain ⟨⟨s, s', hs, hstep, hresolves⟩, -⟩ := steps_cons.1 (h [indexAgain])
  have htypes : (Loaded.init firstBytes fullMem elemTypes >>= fun s =>
      .done s.base.typeenumlist) = .done baseTypes.namelist := by decide +kernel
  have hafter : (Loaded.init firstBytes fullMem elemTypes >>= fun s =>
      s.step firstBytes (loadTypes indexAgain) >>= fun s' =>
        memdbGetTypeno s'.base (entry "INDEX" 258 (by decide) (by decide)).name) =
        .done 1 := by decide +kernel
  rw [hs, Outcome.done_bind] at htypes hafter
  rw [hstep, Outcome.done_bind] at hafter
  obtain ⟨hnew, -⟩ := hresolves.new indexAgain.namelist rfl _ (List.mem_singleton_self _) (by
    rw [Outcome.done.inj htypes]
    decide)
  exact absurd (Outcome.done.inj (hafter.symm.trans hnew)) (by decide)

end Cube.Memdb
