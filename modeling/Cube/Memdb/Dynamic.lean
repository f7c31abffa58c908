import Cube.Memdb.Index

/-!
# Databases of dynamic types

There is a database for each record type (`struct memdb_static_struct`): those of the
base types are in an array, and those of the types registered while the program runs in
a hash list, into which `memdb_store` puts the database of a type when the first record
of it is stored (`memdb_init.c`).

* `memdbStore_registered`: with the database registered beforehand, the record is stored
  and found;
* `memdbStore_unregistered`: a record of a type that is not registered is not stored;
* `firstStore_iff`: what the first store into a type does is right exactly for the types
  that are not registered.
-/

namespace Cube.Memdb

open Lib Message

/-- The type of the last base database, `DB_BASEEND`. -/
def DB_BASEEND : Int := 16

/-- The type of the hash list of the dynamic databases, `DB_DTYPE_START`. -/
def DB_DTYPE_START : Int := 256

/-- A record of the database of record types: the type, the uuid of its description, and
    the template made of that, its tail. -/
structure Recordtype (D : Type) where
  type : Int
  subtype : Int
  uuid : Uuid
  template : DbOps D

/-- A database, `struct memdb_desc`, with its records in a hash list. -/
structure MemdbDesc (D : Type) where
  uuid : Uuid
  type : Int
  subtype : Int
  structTemplate : DbOps D
  tailFunc : Bool
  recordDb : Database D

/-- All databases: the array and the hash list of their addresses, what is at the addresses
    handed out so far, and the record types in the order they are gone through. -/
structure MemdbStatic (D : Type) where
  staticDbList : Vector (Option Nat) 17
  dynamicDbList : UInt8 → List Nat
  descs : List (MemdbDesc D)
  recordtypes : List (Recordtype D)
  static_lt : ∀ p, some p ∈ staticDbList → p < descs.length
  dynamic_lt : ∀ list, ∀ p ∈ dynamicDbList list, p < descs.length

namespace MemdbStatic

variable {D : Type} (base : MemdbStatic D)

/-- What a pointer to a database points at. -/
def deref : Option Nat → Outcome (MemdbDesc D)
  | none => .fault
  | some p =>
    match base.descs[p]? with
    | none => .fault
    | some desc => .done desc

/-- The base with a database written to. -/
def set (p : Nat) (desc : MemdbDesc D) : MemdbStatic D :=
  { base with
    descs := base.descs.set p desc
    static_lt q hq := by
      rw [List.length_set]
      exact base.static_lt q hq
    dynamic_lt list q hq := by
      rw [List.length_set]
      exact base.dynamic_lt list q hq }

/-- The base with a database at a new address, in the list of its uuid. -/
def link (desc : MemdbDesc D) : MemdbStatic D :=
  let list := hashIndex desc.uuid
  { base with
    descs := base.descs ++ [desc]
    dynamicDbList := Function.update base.dynamicDbList list
      (base.dynamicDbList list ++ [base.descs.length])
    static_lt q hq := by
      rw [List.length_append]
      exact Nat.lt_add_right _ (base.static_lt q hq)
    dynamic_lt l q hq := by
      rw [List.length_append, List.length_singleton]
      by_cases hl : l = list
      · rw [hl, Function.update_self, List.mem_append, List.mem_singleton] at hq
        rcases hq with hq | rfl
        · exact Nat.lt_succ_of_lt (base.dynamic_lt list q hq)
        · exact Nat.lt_succ_self _
      · rw [Function.update_of_ne hl] at hq
        exact Nat.lt_succ_of_lt (base.dynamic_lt l q hq) }

/-- The dynamic databases in the order of `hashlist_get_first_parall` and
    `hashlist_get_next_parall`: list by list. -/
def dynamicScan : List Nat :=
  (List.range 256).flatMap fun list => base.dynamicDbList (UInt8.ofNat list)

/-- The loop of `_get_dynamic_db_bytype` over the databases. -/
def findBytype (type subtype : Int) : List Nat → Outcome (Option Nat)
  | [] => .done none
  | p :: dbs => do
    let desc ← base.deref (some p)
    if desc.type = type ∧ desc.subtype = subtype then .done (some p)
    else findBytype type subtype dbs

/-- `_get_dynamic_db_bytype`. -/
def getDynamicDbBytype (type subtype : Int) : Outcome (Option Nat) :=
  base.findBytype type subtype base.dynamicScan

/-- `memdb_get_dblist`. The array has only the entries up to `DB_BASEEND`, and at
    `DB_DTYPE_START` the hash list is taken for a database, at an address where none is. -/
def memdbGetDblist (type subtype : Int) : Outcome (Option Nat) :=
  if type < 0 then .done none
  else if type < DB_DTYPE_START then
    match base.staticDbList[type.toNat]? with
    | none => .fault
    | some db => .done db
  else if type = DB_DTYPE_START then .done (some base.descs.length)
  else base.getDynamicDbBytype type subtype

/-- `memdb_get_recordtype`. -/
def memdbGetRecordtype (type subtype : Int) : Option (Recordtype D) :=
  base.recordtypes.find? fun recordtype => recordtype.type = type ∧ recordtype.subtype = subtype

/-- `memdb_get_template`. -/
def memdbGetTemplate (type subtype : Int) : Outcome (Option (DbOps D)) :=
  if type ≤ 0 then .done none
  else if type < DB_BASEEND then do
    let db ← base.memdbGetDblist type subtype
    let desc ← base.deref db
    .done (some desc.structTemplate)
  else .done ((base.memdbGetRecordtype type subtype).map Recordtype.template)

/-- The memory found for a database that is registered: for its hash list, for itself and
    for its link. -/
structure RegisterMem where
  hashList : Bool
  desc : Bool
  link : Bool

/-- `memdb_register_dynamicdb`. -/
def memdbRegisterDynamicdb (mem : RegisterMem) (type subtype : Int) :
    Outcome (Int × MemdbStatic D) := do
  if type ≤ DB_DTYPE_START then .done (-EINVAL, base)
  else
    match ← base.memdbGetDblist type subtype with
    | some _ => .done (-EINVAL, base)
    | none =>
      match base.memdbGetRecordtype type subtype with
      | none => .done (-EINVAL, base)
      | some recordtype =>
        if ¬ mem.hashList ∨ ¬ mem.desc ∨ ¬ mem.link then .done (-EINVAL, base)
        else
          let desc : MemdbDesc D :=
            { uuid := recordtype.uuid
              type := type
              subtype := subtype
              structTemplate := recordtype.template
              tailFunc := false
              recordDb := emptyDb }
          .done (0, base.link desc)

/-- The database of a type is registered where none has been found. -/
def registerMissing (register : RegisterMem) (type subtype : Int) (dbList : Option Nat) :
    Outcome (Int × MemdbStatic D) :=
  if dbList = none then base.memdbRegisterDynamicdb register type subtype else .done (0, base)

/-- `memdb_store`: the record of the content, if it is stored, and the databases. The
    database is looked up once, before it may be registered. -/
def memdbStore (register : RegisterMem) (mem : StoreMem) (data : D) (type subtype : Int)
    (name : Option Name) : Outcome (Option Nat × MemdbStatic D) := do
  let dbList ← base.memdbGetDblist type subtype
  let (ret, base) ← base.registerMissing register type subtype dbList
  if ret < 0 then .done (none, base)
  else if ¬ mem.record then .done (none, base)
  else
    match ← base.memdbGetTemplate type subtype with
    | none => .done (none, base)
    | some template =>
      match memdbCompUuid template data (.replicate _ 0) with
      | .error _ => .done (none, base)
      | .ok _ => do
        let desc ← base.deref dbList
        let mem := { mem with tail := if desc.tailFunc then mem.tail else 0 }
        let (r, db) ← Memdb.memdbStore template mem desc.recordDb data name
        .done (r, base.set (dbList.getD 0) { desc with recordDb := db })

/-- `memdb_find`. -/
def memdbFind (uuid : Uuid) (type subtype : Int) : Outcome (Option Nat) := do
  match ← base.memdbGetDblist type subtype with
  | none => .done none
  | some p => do
    let desc ← base.deref (some p)
    .done (Memdb.memdbFind desc.recordDb uuid)

/-! ## A type without a database -/

variable {base} {register : RegisterMem} {mem : StoreMem} {data : D} {type subtype : Int}
  {name : Option Name}

/-- There is no database of a type: none is found, or the hash list is taken for one. -/
def NoDatabase (base : MemdbStatic D) (type subtype : Int) : Prop :=
  ∀ p, base.memdbGetDblist type subtype = .done (some p) → type = DB_DTYPE_START

/-- What the first store into a type is to do: a record that can be encoded is stored and
    found under its uuid, as it is with the database registered beforehand; a record of a
    type that is not registered is not stored, and nothing changes. -/
structure FirstStore (base : MemdbStatic D) (register : RegisterMem) (mem : StoreMem) (data : D)
    (type subtype : Int) (name : Option Name) : Prop where
  registered : ∀ recordtype uuid, base.memdbGetRecordtype type subtype = some recordtype →
    memdbCompUuid recordtype.template data (.replicate _ 0) = .ok uuid →
    ∃ r base' base₁, base.memdbStore register mem data type subtype name = .done (some r, base') ∧
      base'.memdbFind uuid type subtype = .done (some r) ∧
      base.memdbRegisterDynamicdb register type subtype = .done (0, base₁) ∧
      base₁.memdbStore register mem data type subtype name = .done (some r, base')
  unregistered : base.memdbGetRecordtype type subtype = none →
    base.memdbStore register mem data type subtype name = .done (none, base)

theorem deref_of_lt {p : Nat} (h : p < base.descs.length) :
    ∃ desc, base.descs[p]? = some desc ∧ base.deref (some p) = .done desc := by
  obtain ⟨desc, hdesc⟩ : ∃ desc, base.descs[p]? = some desc := ⟨_, List.getElem?_eq_getElem h⟩
  exact ⟨desc, hdesc, by rw [deref, hdesc]⟩

theorem mem_dynamicScan {p : Nat} : p ∈ base.dynamicScan ↔ ∃ list, p ∈ base.dynamicDbList list := by
  constructor
  · intro h
    obtain ⟨i, _, hi⟩ := List.mem_flatMap.1 h
    exact ⟨_, hi⟩
  · rintro ⟨list, h⟩
    refine List.mem_flatMap.2 ⟨list.toNat, List.mem_range.2 list.toNat_lt, ?_⟩
    rwa [UInt8.ofNat_toNat]

/-- The database found by its type is the first one that has it. -/
theorem findBytype_eq {dbs : List Nat} (h : ∀ p ∈ dbs, p < base.descs.length) :
    base.findBytype type subtype dbs = .done (dbs.find? fun p =>
      (base.descs[p]?).any fun desc => desc.type = type ∧ desc.subtype = subtype) := by
  induction dbs with
  | nil => rfl
  | cons p dbs ih =>
    obtain ⟨desc, hdesc, hderef⟩ := deref_of_lt (h p List.mem_cons_self)
    rw [findBytype, hderef, Outcome.done_bind, List.find?_cons, hdesc, Option.any_some]
    by_cases hmatch : desc.type = type ∧ desc.subtype = subtype
    · rw [if_pos hmatch]
      simp [hmatch]
    · rw [if_neg hmatch, ih fun q hq => h q (List.mem_cons_of_mem _ hq)]
      simp [hmatch]

theorem getDynamicDbBytype_eq (base : MemdbStatic D) (type subtype : Int) :
    base.getDynamicDbBytype type subtype = .done (base.dynamicScan.find? fun p =>
      (base.descs[p]?).any fun desc => desc.type = type ∧ desc.subtype = subtype) := by
  refine findBytype_eq fun p hp => ?_
  obtain ⟨list, hp⟩ := mem_dynamicScan.1 hp
  exact base.dynamic_lt list p hp

/-- Without a database, what is looked up is none, past the array, or the hash list. -/
theorem NoDatabase.dblist (h : NoDatabase base type subtype) :
    (type ≠ DB_DTYPE_START ∧ ¬ (DB_BASEEND < type ∧ type < DB_DTYPE_START) ∧
        base.memdbGetDblist type subtype = .done none) ∨
      (DB_BASEEND < type ∧ type < DB_DTYPE_START ∧
        base.memdbGetDblist type subtype = .fault) ∨
      (type = DB_DTYPE_START ∧
        base.memdbGetDblist type subtype = .done (some base.descs.length)) := by
  have hend : DB_BASEEND = 16 := rfl
  have hstart : DB_DTYPE_START = 256 := rfl
  simp only [NoDatabase, memdbGetDblist] at h ⊢
  by_cases hneg : type < 0
  · rw [if_pos hneg]
    exact .inl ⟨by omega, by omega, rfl⟩
  rw [if_neg hneg] at h ⊢
  by_cases hlt : type < DB_DTYPE_START
  · rw [if_pos hlt] at h ⊢
    by_cases hbase : type.toNat < 17
    · rw [Vector.getElem?_eq_getElem hbase] at h ⊢
      rcases hdb : base.staticDbList[type.toNat] with _ | p
      · exact .inl ⟨by omega, by omega, rfl⟩
      · rw [hdb] at h
        exact absurd (h p rfl) (by omega)
    · rw [Vector.getElem?_eq_none (Nat.not_lt.1 hbase)]
      exact .inr (.inl ⟨by omega, hlt, rfl⟩)
  rw [if_neg hlt] at h ⊢
  by_cases heq : type = DB_DTYPE_START
  · rw [if_pos heq]
    exact .inr (.inr ⟨heq, rfl⟩)
  · rw [if_neg heq, getDynamicDbBytype_eq] at h ⊢
    refine .inl ⟨heq, by omega, ?_⟩
    rcases hfind : base.dynamicScan.find? _ with _ | p
    · rfl
    · exact absurd (h p (by rw [hfind])) heq

/-- A type without a database never gets one: nothing is stored. -/
theorem NoDatabase.memdbStore_ne (h : NoDatabase base type subtype) (r : Nat)
    (base' : MemdbStatic D) :
    base.memdbStore register mem data type subtype name ≠ .done (some r, base') := by
  intro hstore
  -- What is looked up points at no database, before and after one is registered.
  have hderef (db : Option Nat) (hdb : base.memdbGetDblist type subtype = .done db) :
      db = none ∨ base.deref db = .fault := by
    rcases h.dblist with ⟨_, _, hnone⟩ | ⟨_, _, hfault⟩ | ⟨_, hlist⟩
    · exact .inl (Outcome.done.inj (hdb.symm.trans hnone))
    · rw [hfault] at hdb
      cases hdb
    · obtain rfl := Outcome.done.inj (hdb.symm.trans hlist)
      exact .inr (by simp [deref])
  unfold memdbStore at hstore
  obtain ⟨db, hdb, hstore⟩ := Outcome.bind_eq_done.1 hstore
  obtain ⟨⟨ret, base₁⟩, hregister, hstore⟩ := Outcome.bind_eq_done.1 hstore
  simp only at hstore
  by_cases hret : ret < 0
  · simp [hret] at hstore
  by_cases hrecord : mem.record = true
  swap
  · simp [hret, hrecord] at hstore
  rw [if_neg hret, if_neg (not_not.2 hrecord)] at hstore
  obtain ⟨template, -, hstore⟩ := Outcome.bind_eq_done.1 hstore
  rcases template with _ | template
  · cases hstore
  rcases hcomp : memdbCompUuid template data (.replicate _ 0) with e | uuid
  · simp only [hcomp] at hstore
    cases hstore
  simp only [hcomp] at hstore
  obtain ⟨desc, hdesc, -⟩ := Outcome.bind_eq_done.1 hstore
  rcases hderef db hdb with rfl | hfault
  · cases hdesc
  · by_cases hnone : db = none
    · rw [hnone] at hdesc
      cases hdesc
    · rw [registerMissing, if_neg hnone] at hregister
      obtain ⟨-, rfl⟩ := Outcome.pair_inj hregister
      rw [hfault] at hdesc
      cases hdesc

/-- A record of a type that is not registered is not stored, where the array has an entry
    for the type or the hash list is gone through. -/
theorem memdbStore_unregistered (h : NoDatabase base type subtype)
    (htype : ¬ (DB_BASEEND < type ∧ type < DB_DTYPE_START))
    (hnone : base.memdbGetRecordtype type subtype = none) :
    base.memdbStore register mem data type subtype name = .done (none, base) := by
  have hregister : base.memdbGetDblist type subtype = .done none →
      base.memdbRegisterDynamicdb register type subtype = .done (-EINVAL, base) := by
    intro hdb
    rw [memdbRegisterDynamicdb]
    by_cases hle : type ≤ DB_DTYPE_START
    · rw [if_pos hle]
    · simp only [if_neg hle, hdb, Outcome.done_bind, hnone]
  rcases h.dblist with ⟨_, _, hdb⟩ | ⟨hgt, hlt, _⟩ | ⟨heq, hdb⟩
  · rw [memdbStore, hdb, Outcome.done_bind, registerMissing, if_pos rfl, hregister hdb]
    rfl
  · exact absurd ⟨hgt, hlt⟩ htype
  · have htemplate : base.memdbGetTemplate type subtype = .done none := by
      rw [memdbGetTemplate, heq, if_neg (by decide), if_neg (by decide), ← heq, hnone]
      rfl
    rw [memdbStore, hdb, Outcome.done_bind, registerMissing, if_neg (by simp), Outcome.done_bind]
    simp only [htemplate, Outcome.done_bind]
    split_ifs <;> rfl

/-- What registering the database of a type does, and where. -/
theorem register_eq {base₁ : MemdbStatic D} {recordtype : Recordtype D}
    (h : base.memdbRegisterDynamicdb register type subtype = .done (0, base₁))
    (hrecordtype : base.memdbGetRecordtype type subtype = some recordtype) :
    DB_DTYPE_START < type ∧ base.memdbGetDblist type subtype = .done none ∧
      base₁ = base.link
        { uuid := recordtype.uuid, type := type, subtype := subtype
          structTemplate := recordtype.template, tailFunc := false, recordDb := emptyDb } := by
  have hret {base' : MemdbStatic D} :
      (Outcome.done (-EINVAL, base') : Outcome (Int × MemdbStatic D)) ≠ .done (0, base₁) := by
    intro heq
    exact absurd (Outcome.pair_inj heq).1 (by decide)
  rw [memdbRegisterDynamicdb] at h
  by_cases hle : type ≤ DB_DTYPE_START
  · rw [if_pos hle] at h
    exact absurd h hret
  rw [if_neg hle] at h
  obtain ⟨db, hdb, h⟩ := Outcome.bind_eq_done.1 h
  rcases db with _ | p
  · simp only [hrecordtype] at h
    split_ifs at h
    · exact absurd h hret
    · exact ⟨Int.not_le.1 hle, hdb, (Outcome.pair_inj h).2.symm⟩
  · exact absurd h hret

theorem link_dynamicDbList (base : MemdbStatic D) (desc : MemdbDesc D) :
    (base.link desc).dynamicDbList = Function.update base.dynamicDbList (hashIndex desc.uuid)
      (base.dynamicDbList (hashIndex desc.uuid) ++ [base.descs.length]) := rfl

theorem link_descs (base : MemdbStatic D) (desc : MemdbDesc D) :
    (base.link desc).descs = base.descs ++ [desc] := rfl

/-- The database linked last is found by its type, where there was none. -/
theorem memdbGetDblist_link (htype : DB_DTYPE_START < type)
    (hnone : base.memdbGetDblist type subtype = .done none) {desc : MemdbDesc D}
    (hdesc : desc.type = type ∧ desc.subtype = subtype) :
    (base.link desc).memdbGetDblist type subtype = .done (some base.descs.length) := by
  have hdb (base : MemdbStatic D) : base.memdbGetDblist type subtype =
      base.getDynamicDbBytype type subtype := by
    have hstart : DB_DTYPE_START = 256 := rfl
    rw [memdbGetDblist, if_neg (by omega), if_neg (by omega), if_neg (by omega)]
  rw [hdb, getDynamicDbBytype_eq] at hnone ⊢
  have hold := List.find?_eq_none.1 (Outcome.done.inj hnone)
  have hscan (q : Nat) : q ∈ (base.link desc).dynamicScan ↔
      q ∈ base.dynamicScan ∨ q = base.descs.length := by
    simp only [mem_dynamicScan]
    constructor
    · rintro ⟨list, hq⟩
      by_cases hlist : list = hashIndex desc.uuid
      · rw [hlist, link_dynamicDbList, Function.update_self, List.mem_append, List.mem_singleton] at hq
        exact hq.imp_left fun hq => ⟨_, hq⟩
      · rw [link_dynamicDbList, Function.update_of_ne hlist] at hq
        exact .inl ⟨list, hq⟩
    · rintro (⟨list, hq⟩ | rfl)
      · refine ⟨list, ?_⟩
        by_cases hlist : list = hashIndex desc.uuid
        · rw [hlist, link_dynamicDbList, Function.update_self]
          exact List.mem_append_left _ (hlist ▸ hq)
        · rwa [link_dynamicDbList, Function.update_of_ne hlist]
      · refine ⟨hashIndex desc.uuid, ?_⟩
        rw [link_dynamicDbList, Function.update_self]
        exact List.mem_append_right _ (List.mem_singleton_self _)
  congr 1
  rcases hfind : (base.link desc).dynamicScan.find? _ with _ | q
  · -- The new one is gone through.
    refine absurd ?_ (List.find?_eq_none.1 hfind base.descs.length ((hscan _).2 (.inr rfl)))
    simp [link_descs, hdesc]
  · rcases (hscan q).1 (List.mem_of_find?_eq_some hfind) with hq | rfl
    · -- None of the others has the type.
      refine absurd ?_ (hold q hq)
      have hlt : q < base.descs.length := by
        obtain ⟨list, hq⟩ := mem_dynamicScan.1 hq
        exact base.dynamic_lt list q hq
      have hmatch := List.find?_some hfind
      simpa only [link_descs, List.getElem?_append_left hlt] using hmatch
    · rfl

/-- Writing to the database linked last. -/
theorem set_link (base : MemdbStatic D) (desc : MemdbDesc D) (db : Database D) :
    (base.link desc).set base.descs.length { desc with recordDb := db } =
      base.link { desc with recordDb := db } := by
  simp only [set, link, MemdbStatic.mk.injEq, true_and, and_true]
  rw [List.set_append_right _ _ (Nat.le_refl _), Nat.sub_self, List.set_cons_zero]

/-- The first record of an empty database is stored and found. -/
theorem memdbStore_empty (mem : StoreMem) (ops : DbOps D) (hmem : mem.record = true ∧ mem.link = true)
    (htail : mem.tail = 0) {uuid : Uuid} (hcomp : memdbCompUuid ops data (.replicate _ 0) = .ok uuid)
    (name : Option Name) :
    ∃ r db, Memdb.memdbStore ops mem emptyDb data name = .done (some r, db) ∧
      Memdb.memdbFind db uuid = some r := by
  have hfind : Memdb.memdbFind (emptyDb : Database D) uuid = none := rfl
  refine ⟨0, { (emptyDb.alloc (newRecord ops uuid data name)).link 0 with recordNo := 0 + 1 }, ?_, ?_⟩
  · simp only [Memdb.memdbStore, hmem.1, hmem.2, hcomp, hfind, htail, Int.lt_irrefl, not_true_eq_false,
      if_false]
    rfl
  · have hinv : Stored.Inv ⟨{ (emptyDb.alloc (newRecord ops uuid data name)).link 0 with
        recordNo := 0 + 1 }, [0]⟩ :=
      Stored.inv_empty.linkNew (fun _ hnames => by cases hnames) hfind
    have hfound := hinv.indexed.find_eq_some List.mem_cons_self
    have huuid : ({ (emptyDb.alloc (newRecord ops uuid data name)).link 0 with
        recordNo := 0 + 1 } : Database D).uuid 0 = uuid := by
      simp [Database.uuid, Database.link, Database.alloc, Database.set, emptyDb, newRecord]
    rwa [huuid] at hfound

/-- With the database registered beforehand, a record that can be encoded is stored and
    found. -/
theorem memdbStore_registered {base₁ : MemdbStatic D} {recordtype : Recordtype D} {uuid : Uuid}
    (hregister : base.memdbRegisterDynamicdb register type subtype = .done (0, base₁))
    (hrecordtype : base.memdbGetRecordtype type subtype = some recordtype)
    (hcomp : memdbCompUuid recordtype.template data (.replicate _ 0) = .ok uuid)
    (hmem : mem.record = true ∧ mem.link = true) :
    ∃ r base', base₁.memdbStore register mem data type subtype name = .done (some r, base') ∧
      base'.memdbFind uuid type subtype = .done (some r) := by
  obtain ⟨htype, hnone, rfl⟩ := register_eq hregister hrecordtype
  let desc : MemdbDesc D :=
    { uuid := recordtype.uuid, type := type, subtype := subtype
      structTemplate := recordtype.template, tailFunc := false, recordDb := emptyDb }
  have hderef (desc : MemdbDesc D) :
      (base.link desc).deref (some base.descs.length) = .done desc := by
    simp [deref, link]
  obtain ⟨r, db, hstore, hfind⟩ :=
    memdbStore_empty { mem with tail := 0 } recordtype.template hmem rfl hcomp name
  have htemplate (desc : MemdbDesc D) : (base.link desc).memdbGetTemplate type subtype =
      .done (some recordtype.template) := by
    have hend : DB_BASEEND = 16 := rfl
    have hstart : DB_DTYPE_START = 256 := rfl
    have hsame : (base.link desc).memdbGetRecordtype type subtype = some recordtype := hrecordtype
    rw [memdbGetTemplate, if_neg (by omega), if_neg (by omega), hsame]
    rfl
  refine ⟨r, base.link { desc with recordDb := db }, ?_, ?_⟩
  · rw [memdbStore, memdbGetDblist_link htype hnone ⟨rfl, rfl⟩, Outcome.done_bind, registerMissing,
      if_neg (Option.some_ne_none _), Outcome.done_bind]
    simp only [Int.lt_irrefl, if_false, hmem.1, not_true_eq_false]
    simp only [hmem.1] at hstore
    simp only [htemplate, Outcome.done_bind, hcomp, hderef, Bool.false_eq_true, if_false,
      Option.getD_some, hstore]
    exact congrArg (fun base => Outcome.done (some r, base)) (set_link base desc db)
  · rw [memdbFind, memdbGetDblist_link htype hnone ⟨rfl, rfl⟩, Outcome.done_bind]
    simp only [hderef, Outcome.done_bind, hfind]

/-- What the first store into a type does is right exactly for the types that are not
    registered, and that the array has an entry for or the hash list is gone through
    for. -/
theorem firstStore_iff (hnone : NoDatabase base type subtype)
    (hdata : ∀ recordtype, base.memdbGetRecordtype type subtype = some recordtype →
      ∃ uuid, memdbCompUuid recordtype.template data (.replicate _ 0) = .ok uuid) :
    FirstStore base register mem data type subtype name ↔
      base.memdbGetRecordtype type subtype = none ∧
        ¬ (DB_BASEEND < type ∧ type < DB_DTYPE_START) := by
  constructor
  · intro h
    have hunregistered : base.memdbGetRecordtype type subtype = none := by
      rcases hrecordtype : base.memdbGetRecordtype type subtype with _ | recordtype
      · rfl
      · obtain ⟨uuid, hcomp⟩ := hdata recordtype hrecordtype
        obtain ⟨r, base', _, hstore, -⟩ := h.registered recordtype uuid hrecordtype hcomp
        exact absurd hstore (hnone.memdbStore_ne r base')
    refine ⟨hunregistered, fun htype => ?_⟩
    have hstore := h.unregistered hunregistered
    rcases hnone.dblist with ⟨_, hout, _⟩ | ⟨_, _, hfault⟩ | ⟨heq, _⟩
    · exact hout htype
    · rw [memdbStore, hfault] at hstore
      cases hstore
    · exact absurd htype.2 (heq ▸ Int.lt_irrefl _)
  · rintro ⟨hunregistered, htype⟩
    refine ⟨fun recordtype _ hrecordtype => ?_, fun _ =>
      memdbStore_unregistered hnone htype hunregistered⟩
    rw [hunregistered] at hrecordtype
    cases hrecordtype

/-! ## One type registered -/

/-- The base with one record type, `(512, 1)`, and no database. -/
def oneType : MemdbStatic (List UInt8) where
  staticDbList := .replicate 17 none
  dynamicDbList _ := []
  descs := []
  recordtypes := [{ type := 512, subtype := 1, uuid := .replicate _ 0, template := bytesOps }]
  static_lt p hp := by simp at hp
  dynamic_lt _ _ hp := absurd hp List.not_mem_nil

theorem oneType_noDatabase (subtype : Int) : NoDatabase oneType 512 subtype := by
  intro p hp
  rw [memdbGetDblist, if_neg (by decide), if_neg (by decide), if_neg (by decide),
    getDynamicDbBytype_eq] at hp
  have hscan : oneType.dynamicScan = [] := by
    refine List.eq_nil_iff_forall_not_mem.2 fun q hq => ?_
    obtain ⟨list, hq⟩ := mem_dynamicScan.1 hq
    exact List.not_mem_nil hq
  rw [hscan] at hp
  cases hp

/-- A record of the type `(512, 2)` is not stored. -/
theorem firstStore_unregistered :
    FirstStore oneType ⟨true, true, true⟩ fullMem [7] 512 2 none :=
  (firstStore_iff (oneType_noDatabase 2) fun _ h => by cases h).2 ⟨rfl, by decide⟩

/-- A record of the type `(512, 1)` is lost with its database. -/
theorem not_firstStore_registered : NoDatabase oneType 512 1 ∧
    ¬ FirstStore oneType ⟨true, true, true⟩ fullMem [7] 512 1 none := by
  refine ⟨oneType_noDatabase 1, fun h => ?_⟩
  obtain ⟨r, base', _, hstore, -⟩ := h.registered _ _ rfl rfl
  exact (oneType_noDatabase 1).memdbStore_ne r base' hstore

end MemdbStatic

end Cube.Memdb
