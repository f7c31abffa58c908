import Cube.Memdb.Names
import Cube.Memdb.TypeList

/-!
# The registry of type names

The names of the record types are in one name list, stored under the name
`"typeenumlist"`. A type list read (`read_typelist_json_desc`) is merged into it: the
list is taken from the database by its name, and the merged one is stored in its place
(`memdb.c`). Names and numbers of types are looked up in the list merged last
(`memdb_get_typeno`, `memdb_get_typestr`).

* `Registered.store`, `Registered.replace`: the registry stays the only record with its
  name when a list is stored, and the merged list takes its place;
* `Registered.addName`: when it is stored once more, under another name, it stays so.
-/

namespace Cube.Memdb

open Lib Message

/-! ## The databases -/

/-- The name of the registry. -/
def typeenumlistName : Name :=
  ⟨"typeenumlist".toList.map fun c => UInt8.ofNat c.toNat, by decide⟩

/-- The name of the list of the types there are from the start. -/
def baseenumlistName : Name :=
  ⟨"baseenumlist".toList.map fun c => UInt8.ofNat c.toNat, by decide⟩

/-- The name of the list of element types. -/
def elemenumlistName : Name :=
  ⟨"elemenumlist".toList.map fun c => UInt8.ofNat c.toNat, by decide⟩

/-- An entry of a list given in the source. -/
def entry (name : String) (value : Int)
    (nul_free : (0 : UInt8) ∉ name.toList.map fun c => UInt8.ofNat c.toNat)
    (length_le : (name.toList.map fun c => UInt8.ofNat c.toNat).length ≤ DIGEST_SIZE) :
    Name2Value := ⟨⟨_, nul_free⟩, value, length_le⟩

/-- `struct_type_baselist`. -/
def structTypeBaselist : List Name2Value :=
  [entry "INDEX" 1 (by decide) (by decide), entry "NAMELIST" 2 (by decide) (by decide),
    entry "STRUCT" 3 (by decide) (by decide), entry "TYPELIST" 4 (by decide) (by decide),
    entry "SUBTYPELIST" 5 (by decide) (by decide), entry "CONVERTLIST" 6 (by decide) (by decide),
    entry "RECORDTYPE" 7 (by decide) (by decide), entry "DEFAULT" 256 (by decide) (by decide)]

/-- A type list as it is stored, `struct struct_typelist`: the uuid of its name list. -/
structure Typelist where
  elemNo : Int
  uuid : Uuid

/-- The four bytes of an `int`. -/
def intBytes (i : Int) : List UInt8 := leBytes 4 (i % 2 ^ 32).toNat

/-- The bytes of a name list: its count, then its entries with their names and values. -/
def Namelist.blob (list : Namelist) : List UInt8 :=
  intBytes list.elemNo ++
    (list.elemlist.take list.elemNo.toNat).flatMap fun e => e.name.chars ++ 0 :: intBytes e.value

/-- The size of the buffer of `memdb_comp_uuid`. -/
def COMP_UUID_SIZE : Nat := 4000

/-- A name list has its entries, and its bytes fit the buffer for them. -/
def Namelist.Fits (list : Namelist) : Prop :=
  list.elemNo = list.elemlist.length ∧ list.blob.length ≤ COMP_UUID_SIZE

instance (list : Namelist) : Decidable list.Fits := inferInstanceAs (Decidable (_ ∧ _))

/-- The bytes of a name list are written to the buffer of `memdb_comp_uuid`. -/
def compUuidBuf (list : Namelist) : Outcome Unit :=
  if (list.elemlist.length : Int) < list.elemNo then .fault
  else if COMP_UUID_SIZE < list.blob.length then .fault
  else .done ()

section Load

variable (sm3 : List UInt8 → Uuid)

/-- The database of name lists, with the digest of bytes: all elements are in the index. -/
def namelistOps : DbOps Namelist where
  structPartBlob list := if list.elemNo < 0 then .error list.elemNo else .ok list.blob
  error_neg list e h := by
    split at h
    · exact Except.error.inj h ▸ ‹_›
    · cases h
  sm3 := sm3
  cloneStruct := some

/-- The database of type lists. -/
def typelistOps : DbOps Typelist where
  structPartBlob typelist := .ok (intBytes typelist.elemNo ++ typelist.uuid.toList)
  error_neg _ _ h := by cases h
  sm3 := sm3
  cloneStruct := some

/-- What there is of `memdb_base` for the types: the databases, and the list in which types
    are looked up. -/
structure MemdbBase where
  namelists : Database Namelist
  typelists : Database Typelist
  typeenumlist : Namelist

/-- `memdb_get_typeno`. -/
def memdbGetTypeno (base : MemdbBase) (typestr : Name) : Outcome Int :=
  getValueNamelist typestr base.typeenumlist

/-- `memdb_get_typestr`. -/
def memdbGetTypestr (base : MemdbBase) (typeno : Int) : Outcome (Option Name) :=
  getStrNamelist typeno base.typeenumlist

/-- The memory found in a load: for the list read and its record, for the type list, for
    the merged list, and in the stores and the removal. -/
structure LoadMem where
  typelist : Bool
  record : Bool
  namelist : Bool
  storeNamelist : StoreMem
  storeTypelist : StoreMem
  merge : Bool
  remove : Bool
  storeMerged : StoreMem

/-- `read_namelist_json_desc` of the list described: the value returned, the record and
    the database. -/
def readNamelistJsonDesc (mem : LoadMem) (db : Database Namelist) (name : Name)
    (list : Namelist) : Outcome (Int × Nat × Database Namelist) := do
  let r := db.allocated
  let record : DbRecord Namelist :=
    { uuid := .replicate _ 0, name := name.strncpy, nameNo := 0, names := none, record := none }
  if ¬ mem.namelist then .done (-ENOMEM, r, db.alloc record)
  else do
    let record := { record with record := some list }
    compUuidBuf list
    match memdbCompUuid (namelistOps sm3) list record.uuid with
    | .error e => .done (e, r, db.alloc record)
    | .ok uuid =>
      let (ret, db) ← memdbStoreRecord (namelistOps sm3) mem.storeNamelist
        (db.alloc { record with uuid := uuid }) r
      .done (ret, r, db)

/-- `_typelist_tail_func`: the value returned, and the tail of the record, the list that a
    type list is about. -/
def typelistTailFunc (db : Database Namelist) (typelist : Typelist) : Int × Option Namelist :=
  match memdbFind db typelist.uuid with
  | none => (0, none)
  | some r => (if (db.record r).record = none then -EINVAL else 0, (db.record r).record)

/-- `read_typelist_json_desc` from where it has the type list: it is stored, and its list
    merged into the registry. -/
def mergeTypelist (mem : LoadMem) (base : MemdbBase) (name : Name) (typelist : Typelist) :
    Outcome (Int × MemdbBase) := do
  let record : DbRecord Typelist :=
    { uuid := .replicate _ 0, name := name.strncpy, nameNo := 0, names := none
      record := some typelist }
  let tail := typelistTailFunc base.namelists typelist
  let (_, typelists) ← memdbStoreRecord (typelistOps sm3) { mem.storeTypelist with tail := tail.1 }
    (base.typelists.alloc record) base.typelists.allocated
  let base := { base with typelists := typelists }
  match ← memdbFindByname base.namelists typeenumlistName with
  | none => .done (-EINVAL, base)
  | some r =>
    match (base.namelists.record r).record, tail.2 with
    | some registry, some list =>
      match ← mergeNamelist mem.merge registry list with
      | none => .done (-EINVAL, base)
      | some baselist => do
        let (ret, namelists) ← memdbRemoveByname mem.remove base.namelists typeenumlistName
        if ret < 0 then .done (-EINVAL, { base with namelists := namelists })
        else do
          compUuidBuf baselist
          -- The record stored is not asked for.
          let (_, namelists) ← memdbStore (namelistOps sm3) mem.storeMerged namelists baselist
            (some typeenumlistName)
          .done (ret, { base with namelists := namelists, typeenumlist := baselist })
    | _, _ => .fault

/-- What a type list is described by: a list of its own, or the uuid of one that is
    stored, with a count. -/
inductive TypelistDesc
  | elemlist (list : Namelist)
  | uuid (uuid : Uuid) (elemNo : Int)

/-- `read_typelist_json_desc`: the value returned, and the databases. -/
def readTypelistJsonDesc (mem : LoadMem) (base : MemdbBase) (name : Name) :
    TypelistDesc → Outcome (Int × MemdbBase)
  | .elemlist list =>
    if ¬ mem.typelist ∨ ¬ mem.record then .done (-ENOMEM, base)
    else do
      let (ret, r, namelists) ← readNamelistJsonDesc sm3 mem base.namelists .empty list
      let base := { base with namelists := namelists }
      if ret < 0 then .done (ret, base)
      else mergeTypelist sm3 mem base name { elemNo := list.elemNo, uuid := namelists.uuid r }
  | .uuid uuid elemNo =>
    if ¬ mem.typelist then .done (-ENOMEM, base)
    else match memdbFind base.namelists uuid with
      | none => .done (-EINVAL, base)
      | some r => do
        let elemNo ← if elemNo = 0 then
            match (base.namelists.record r).record with
            | none => .fault
            | some list => .done list.elemNo
          else .done elemNo
        mergeTypelist sm3 mem base name { elemNo := elemNo, uuid := uuid }

/-- The lists that `memdb_init` stores, where there is memory for them: those of the
    element types and of the types, the latter with two names. -/
def memdbInit (mem : StoreMem) (elemenumlist : Namelist) : Outcome MemdbBase := do
  let typeenumlist := Namelist.ofEntries structTypeBaselist
  compUuidBuf elemenumlist
  let (r, db) ← memdbStore (namelistOps sm3) mem emptyDb elemenumlist (some elemenumlistName)
  if r = none then .error (-EINVAL)
  else do
    compUuidBuf typeenumlist
    let (r, db) ← memdbStore (namelistOps sm3) mem db typeenumlist (some typeenumlistName)
    if r = none then .error (-EINVAL)
    else do
      let (r, db) ← memdbStore (namelistOps sm3) mem db typeenumlist (some baseenumlistName)
      if r = none then .error (-EINVAL)
      else .done { namelists := db, typelists := emptyDb, typeenumlist := typeenumlist }

end Load

/-! ## The only record with a name -/

section Unnamed

variable {D : Type} {name : Name}

/-- A short name compares equal to nothing but itself. -/
theorem Name.strncmp_eq_zero_of_lt {a b : Name} (hb : b.chars.length < DIGEST_SIZE) :
    a.strncmp b = 0 ↔ a = b := by
  rw [Name.strncmp, Memdb.strncmp_eq_zero a.nul_free b.nul_free, List.take_of_length_le hb.le]
  constructor
  · intro h
    have hlength := congrArg List.length h
    rw [List.length_take] at hlength
    rw [List.take_of_length_le (by omega)] at h
    exact Name.ext h
  · rintro rfl
    exact List.take_of_length_le hb.le

/-- A record does not have a name. -/
structure Unnamed (name : Name) (record : DbRecord D) : Prop where
  head : record.name ≠ name
  names : name ∉ record.names.getD []

theorem findInNames_eq_zero (hname : name.chars.length < DIGEST_SIZE) {names : List Name}
    (h : name ∉ names) {n : Nat} (hn : n ≤ names.length) (site : Nat) :
    findInNames name names n site = .done 0 := by
  induction names generalizing n site with
  | nil =>
    obtain rfl : n = 0 := by simpa using hn
    rfl
  | cons x names ih =>
    rcases n with _ | n
    · rfl
    · have hx : x ≠ name := fun he => h (he ▸ List.mem_cons_self)
      rw [findInNames, if_neg (mt (Name.strncmp_eq_zero_of_lt hname).1 hx)]
      exact ih (fun he => h (List.mem_cons_of_mem _ he)) (Nat.le_of_succ_le_succ hn) _

/-- A name is not found in a record that does not have it. -/
theorem Unnamed.find {record : DbRecord D} (h : Unnamed name record)
    (hname : name.chars.length < DIGEST_SIZE) (hfit : record.NamesFit) :
    recordFindName record name = .done 0 := by
  rw [recordFindName, if_neg (mt (Name.strncmp_eq_zero_of_lt hname).1 h.head)]
  rcases hnames : record.names with _ | names
  · rfl
  · have hnot : name ∉ names := by simpa [hnames] using h.names
    simp only [hfit names hnames]
    split_ifs
    · rfl
    · exact findInNames_eq_zero hname hnot (by simp) 2

/-- A name that is in the head of one record linked, and that no other has, finds it. -/
theorem memdbFindByname_eq_some {db : Database D} (hname : name.chars.length < DIGEST_SIZE)
    (hfit : ∀ r, (db.record r).NamesFit) {r : Nat} (hr : r ∈ db.scan)
    (hhead : (db.record r).name = name)
    (hother : ∀ x ∈ db.scan, x ≠ r → Unnamed name (db.record x)) :
    memdbFindByname db name = .done (some r) := by
  have hsite : recordFindName (db.record r) name = .done 1 := by
    rw [recordFindName, if_pos ((Name.strncmp_eq_zero_of_lt hname).2 hhead)]
  rw [memdbFindByname]
  generalize db.scan = records at hr hother
  induction records with
  | nil => exact absurd hr List.not_mem_nil
  | cons x records ih =>
    rw [findByname]
    by_cases hx : x = r
    · rw [hx, hsite, Outcome.done_bind, if_pos Nat.one_pos]
    · have hunnamed := hother x List.mem_cons_self hx
      rw [hunnamed.find hname (hfit x), Outcome.done_bind, if_neg (Nat.lt_irrefl 0)]
      exact ih ((List.mem_cons.1 hr).resolve_left (Ne.symm hx))
        fun y hy => hother y (List.mem_cons_of_mem _ hy)

/-- Another name added changes nothing but the names, and leaves a record without the
    name. -/
theorem recordAddName_unnamed {mem : NameMem} (hmem : mem.name = true ∧ mem.array = true)
    {record : DbRecord D} (hfit : record.NamesFit) {added : Name} (hne : added.strncpy ≠ name) :
    ∃ ret record', recordAddName mem record (some added) = .done (ret, record') ∧ 0 ≤ ret ∧
      record'.NamesFit ∧ record'.uuid = record.uuid ∧ record'.record = record.record ∧
      record'.name = record.name ∧ (Unnamed name record → Unnamed name record') := by
  obtain ⟨ret, record', hadd, hfit', huuid, -⟩ := recordAddName_done hmem.2 hfit (some added)
  refine ⟨ret, record', hadd, ?_⟩
  obtain ⟨site, hsite⟩ := recordFindName_done hfit added
  simp only [recordAddName, hsite, Outcome.done_bind, hmem, not_true_eq_false, if_false] at hadd
  by_cases hfound : site > 0
  · rw [if_pos hfound] at hadd
    obtain ⟨rfl, rfl⟩ := Outcome.pair_inj hadd
    exact ⟨Int.le_refl 0, hfit', huuid, rfl, rfl, id⟩
  rw [if_neg hfound] at hadd
  rcases hnames : record.names with _ | names
  · simp only [hnames] at hadd
    obtain ⟨rfl, rfl⟩ := Outcome.pair_inj hadd
    exact ⟨by decide, hfit', huuid, rfl, rfl, fun h => ⟨h.head, by simpa using Ne.symm hne⟩⟩
  · have hcount : record.namelistNo (record.nameNo + 1) = names.length + 1 := by
      rw [← hfit names hnames]
      unfold DbRecord.namelistNo
      split_ifs <;> omega
    simp only [hnames, hcount] at hadd
    rw [if_neg (by omega)] at hadd
    obtain ⟨rfl, rfl⟩ := Outcome.pair_inj hadd
    refine ⟨by omega, hfit', huuid, rfl, rfl, fun h => ⟨h.head, ?_⟩⟩
    have hold : name ∉ names := by simpa [hnames] using h.names
    simpa using ⟨hold, Ne.symm hne⟩

/-- Removing a name leaves the contents of records as they are. -/
theorem recordRemoveName_content {mem : Bool} {db db' : Database D} {r : Nat} {name : Name}
    {ret : Int} (h : recordRemoveName mem db r name = .done (ret, db')) (x : Nat) :
    (db'.record x).record = (db.record x).record := by
  have hset (record : DbRecord D) (hrecord : record.record = (db.record r).record) :
      ((db.set r record).record x).record = (db.record x).record := by
    by_cases hx : x = r
    · simp [Database.set, hx, hrecord]
    · simp [Database.set, hx]
  unfold recordRemoveName at h
  obtain ⟨site, -, h⟩ := Outcome.bind_eq_done.1 h
  simp only at h
  -- The calls that come to an end write to the names alone, or unlink the record.
  split_ifs at h with hnone hlast
  · obtain ⟨-, rfl⟩ := Outcome.pair_inj h
    rfl
  · obtain ⟨-, rfl⟩ := Outcome.pair_inj h
    unfold memdbRemoveRecord memdbRemove
    split <;> rfl
  all_goals
    repeat' split at h
    all_goals
      simp only [Outcome.done_bind, Outcome.fault_bind, reduceCtorEq] at h
      try
        obtain ⟨-, rfl⟩ := Outcome.pair_inj h
        exact hset _ rfl

end Unnamed

/-! ## The registry and the records stored -/

/-- The uuid of a name list. -/
def listUuid (sm3 : List UInt8 → Uuid) (list : Namelist) : Uuid := sm3 list.blob

/-- There is all the memory that storing a record asks for. -/
structure StoreMem.Enough (mem : StoreMem) : Prop where
  record : mem.record = true
  link : mem.link = true
  name : mem.name.name = true ∧ mem.name.array = true
  tail : 0 ≤ mem.tail

/-- The registry is the live record `r`: it has the list, and it alone has the name, in
    its head. Every live record has a content. -/
structure Registered (db : Database Namelist) (live : List Nat) (r : Nat) (list : Namelist) :
    Prop where
  stored : Stored.Inv ⟨db, live⟩
  mem_live : r ∈ live
  head : (db.record r).name = typeenumlistName
  named : (db.record r).Named
  other : ∀ x ∈ live, x ≠ r → Unnamed typeenumlistName (db.record x)
  content : (db.record r).record = some list
  filled : ∀ x ∈ live, (db.record x).record ≠ none

section Registered

variable {sm3 : List UInt8 → Uuid} {db : Database Namelist} {live : List Nat} {r : Nat}
  {registry list : Namelist}

theorem typeenumlistName_lt : typeenumlistName.chars.length < DIGEST_SIZE := by decide

theorem typeenumlistName_valid : typeenumlistName.Valid where
  ne_nil := by decide
  length_le := by decide

theorem Name.strncpy_strncpy (name : Name) : name.strncpy.strncpy = name.strncpy := by
  ext1
  exact List.take_take.trans (by rw [Nat.min_self]; rfl)

/-- The uuid of a list that fits is computed. -/
theorem Namelist.Fits.compUuid (h : list.Fits) (uuid : Uuid) :
    memdbCompUuid (namelistOps sm3) list uuid = .ok (listUuid sm3 list) := by
  have hcount : ¬ list.elemNo < 0 := by
    have := h.1
    omega
  have hblob : (namelistOps sm3).structPartBlob list = .ok list.blob := if_neg hcount
  rw [memdbCompUuid, hblob]
  rfl

theorem Namelist.Fits.compUuidBuf (h : list.Fits) : compUuidBuf list = .done () := by
  rw [Memdb.compUuidBuf, if_neg (not_lt.2 h.1.le), if_neg (not_lt.2 h.2)]

/-- What is found under a uuid is the live record that has it. -/
theorem memdbFind_eq_some_iff {D : Type} {db : Database D} (h : Stored.Inv ⟨db, live⟩)
    {uuid : Uuid} {x : Nat} : memdbFind db uuid = some x ↔ x ∈ live ∧ db.uuid x = uuid := by
  constructor
  · exact h.indexed.of_find
  · rintro ⟨hx, rfl⟩
    exact h.indexed.find_eq_some hx

/-- The registry is found by its name. -/
theorem Registered.find (h : Registered db live r registry) :
    memdbFindByname db typeenumlistName = .done (some r) := by
  have hscan (x : Nat) (hx : x ∈ db.scan) : x ∈ live := by
    obtain ⟨list, hx⟩ := Attached.mem_scan.1 hx
    exact (h.stored.indexed.linked list x hx).1
  exact memdbFindByname_eq_some typeenumlistName_lt h.stored.names
    (Attached.mem_scan.2 ⟨_, h.stored.indexed.mem_table h.mem_live⟩) h.head
    fun x hx => h.other x (hscan x hx)

/-- A record of the caller's own that has its uuid is linked, or its content stored
    again. -/
theorem memdbStoreRecord_alloc {D : Type} (ops : DbOps D) {mem : StoreMem} (hmem : mem.Enough)
    (db : Database D) {record : DbRecord D} {data : D} (hdata : record.record = some data)
    (hcomp : memdbCompUuid ops data record.uuid = .ok record.uuid) :
    memdbStoreRecord ops mem (db.alloc record) db.allocated =
      match memdbFind (db.alloc record) record.uuid with
      | none => .done (1, { (db.alloc record).link db.allocated with
          recordNo := db.recordNo + 1 })
      | some old =>
        storeAgain ops mem.name (db.alloc record) old data (some record.name) >>= fun (ret, db) =>
          .done (if ret < 0 then -EINVAL else ret, db) := by
  have hrecord : (db.alloc record).record db.allocated = record := by
    simp [Database.alloc, Database.set]
  have hset : (db.alloc record).set db.allocated
      { record with record := some data } = db.alloc record := by
    rw [← hdata]
    simp [Database.alloc, Database.set]
  have hcomp' : memdbCompUuid ops data ((db.alloc record).uuid db.allocated) = .ok record.uuid := by
    rw [Database.uuid, hrecord, hcomp]
  simp only [memdbStoreRecord, hrecord, hdata, if_neg (not_lt.2 hmem.tail), hcomp', hmem.link,
    not_true_eq_false, if_false, hset]
  rfl

/-- All the memory that a load asks for is there. -/
structure LoadMem.Enough (mem : LoadMem) : Prop where
  typelist : mem.typelist = true
  record : mem.record = true
  namelist : mem.namelist = true
  storeNamelist : mem.storeNamelist.Enough
  storeTypelist : mem.storeTypelist.Enough
  merge : mem.merge = true
  remove : mem.remove = true
  storeMerged : mem.storeMerged.Enough

/-- A list may be stored next to the registry: it fits, it has a name of its own, and a
    record that has its uuid has the list already and is not the registry. -/
structure Storable (sm3 : List UInt8 → Uuid) (db : Database Namelist) (name : Name)
    (list : Namelist) : Prop where
  name_ne : name.strncpy ≠ typeenumlistName
  fits : list.Fits
  same : ∀ x, memdbFind db (listUuid sm3 list) = some x →
    (db.record x).record = some list ∧ memdbFindByname db typeenumlistName ≠ .done (some x)

/-- A list stored next to the registry is found under its uuid, and nothing else changes
    for the registry and the other uuids. -/
theorem Registered.store (h : Registered db live r registry) {mem : LoadMem} (hmem : mem.Enough)
    {name : Name} (hlist : Storable sm3 db name list) :
    ∃ ret x db' live', readNamelistJsonDesc sm3 mem db name list = .done (ret, x, db') ∧
      0 ≤ ret ∧ Registered db' live' r registry ∧ (db'.record r).nameNo = (db.record r).nameNo ∧
      db'.uuid x = listUuid sm3 list ∧
      (∃ y, memdbFind db' (listUuid sm3 list) = some y ∧ (db'.record y).record = some list) ∧
      ∀ uuid, uuid ≠ listUuid sm3 list → memdbFind db' uuid = memdbFind db uuid := by
  -- The record of the caller, which has its uuid when it is stored.
  let record : DbRecord Namelist :=
    { uuid := listUuid sm3 list, name := name.strncpy, nameNo := 0, names := none
      record := some list }
  have hread : readNamelistJsonDesc sm3 mem db name list =
      memdbStoreRecord (namelistOps sm3) mem.storeNamelist (db.alloc record) db.allocated >>=
        fun (ret, db') => .done (ret, db.allocated, db') := by
    simp only [readNamelistJsonDesc, hmem.namelist, not_true_eq_false, if_false,
      hlist.fits.compUuidBuf, Outcome.done_bind, hlist.fits.compUuid]
    rfl
  rw [hread, memdbStoreRecord_alloc _ hmem.storeNamelist db rfl (hlist.fits.compUuid _)]
  have hold (x : Nat) (hx : x ∈ live) : (db.alloc record).record x = db.record x := by
    simp [Database.alloc, Database.set, (h.stored.allocated x hx).ne]
  have hnew : (db.alloc record).record db.allocated = record := by
    simp [Database.alloc, Database.set]
  have hdead : db.allocated ∉ live := fun hlive =>
    absurd (h.stored.allocated _ hlive) (Nat.lt_irrefl _)
  have hstored : Stored.Inv ⟨db.alloc record, live⟩ := h.stored.alloc fun _ hnames => by cases hnames
  rcases hfind : memdbFind (db.alloc record) (listUuid sm3 list) with _ | old
  · -- The list is new.
    have hlinked : Stored.Inv ⟨{ (db.alloc record).link db.allocated with
        recordNo := db.recordNo + 1 }, db.allocated :: live⟩ := by
      refine hstored.link hdead (Nat.lt_succ_self _) ?_
      rw [Database.uuid, hnew]
      exact hfind
    have huuid (x : Nat) : ({ (db.alloc record).link db.allocated with
        recordNo := db.recordNo + 1 } : Database Namelist).uuid x = (db.alloc record).uuid x := rfl
    refine ⟨1, db.allocated, _, db.allocated :: live, rfl, by decide, ⟨hlinked,
      List.mem_cons_of_mem _ h.mem_live, ?_, ?_, fun x hx hxr => ?_, ?_, fun x hx => ?_⟩, ?_, ?_,
      ⟨db.allocated, ?_, ?_⟩, fun uuid hne => ?_⟩
    · exact (congrArg DbRecord.name (hold r h.mem_live)).trans h.head
    · exact (hold r h.mem_live).symm ▸ h.named
    · rcases List.mem_cons.1 hx with rfl | hx
      · exact hnew.symm ▸ ⟨hlist.name_ne, List.not_mem_nil⟩
      · exact (hold x hx).symm ▸ h.other x hx hxr
    · exact (congrArg DbRecord.record (hold r h.mem_live)).trans h.content
    · rcases List.mem_cons.1 hx with rfl | hx
      · exact hnew.symm ▸ Option.some_ne_none list
      · exact (hold x hx).symm ▸ h.filled x hx
    · exact congrArg DbRecord.nameNo (hold r h.mem_live)
    · exact congrArg DbRecord.uuid hnew
    · refine (memdbFind_eq_some_iff hlinked).2 ⟨List.mem_cons_self, ?_⟩
      exact congrArg DbRecord.uuid hnew
    · exact congrArg DbRecord.record hnew
    · ext x
      rw [memdbFind_eq_some_iff hlinked, memdbFind_eq_some_iff h.stored, List.mem_cons, huuid]
      constructor
      · rintro ⟨rfl | hx, hxu⟩
        · rw [Database.uuid, hnew] at hxu
          exact absurd hxu.symm hne
        · rw [Database.uuid, hold x hx] at hxu
          exact ⟨hx, hxu⟩
      · rintro ⟨hx, hxu⟩
        refine ⟨.inr hx, ?_⟩
        rwa [Database.uuid, hold x hx]
  · -- A record that is not the registry has the list, and gets it again with the name.
    obtain ⟨hlive, huuid⟩ := (memdbFind_eq_some_iff hstored).1 hfind
    rw [Database.uuid, hold old hlive] at huuid
    obtain ⟨hcontent, hnotreg⟩ := hlist.same old ((memdbFind_eq_some_iff h.stored).2 ⟨hlive, huuid⟩)
    have hne : old ≠ r := by
      rintro rfl
      exact hnotreg h.find
    have hsame : ({ (db.alloc record).record old with
        record := (namelistOps sm3).cloneStruct list } : DbRecord Namelist) = db.record old := by
      rw [hold old hlive]
      change { db.record old with record := some list } = db.record old
      rw [← hcontent]
    have hfit : (db.record old).NamesFit := h.stored.names old
    obtain ⟨ret, record', hadd, hret, hfit', huuid', hcontent', -, hunnamed⟩ :=
      recordAddName_unnamed hmem.storeNamelist.name hfit (name.strncpy_strncpy ▸ hlist.name_ne)
    have hagain : storeAgain (namelistOps sm3) mem.storeNamelist.name (db.alloc record) old list
        (some name.strncpy) = .done (ret, (db.alloc record).set old record') := by
      rw [storeAgain, hsame, hadd]
      rfl
    have hset : Stored.Inv ⟨(db.alloc record).set old record', live⟩ := by
      refine hstored.set ?_ hfit'
      rw [Database.uuid, hold old hlive]
      exact huuid'
    have hother (x : Nat) (hx : x ≠ old) :
        ((db.alloc record).set old record').record x = (db.alloc record).record x := by
      simp [Database.set, hx]
    have hwritten : ((db.alloc record).set old record').record old = record' := by
      simp [Database.set]
    have hr := (hother r hne.symm).trans (hold r h.mem_live)
    have hsameUuid (x : Nat) (hx : x ∈ live) :
        ((db.alloc record).set old record').uuid x = db.uuid x := by
      by_cases hxold : x = old
      · rw [hxold, Database.uuid, hwritten]
        exact huuid'
      · rw [Database.uuid, hother x hxold, hold x hx]
        rfl
    refine ⟨ret, db.allocated, (db.alloc record).set old record', live, ?_, hret,
      ⟨hset, h.mem_live, hr.symm ▸ h.head, hr.symm ▸ h.named, fun x hx hxr => ?_,
        hr.symm ▸ h.content, fun x hx => ?_⟩, congrArg DbRecord.nameNo hr, ?_, ⟨old, ?_, ?_⟩,
      fun uuid _ => ?_⟩
    · change (storeAgain _ _ _ _ _ (some name.strncpy) >>= _) >>= _ = _
      rw [hagain]
      simp only [Outcome.done_bind, if_neg (not_lt.2 hret)]
    · by_cases hxold : x = old
      · rw [hxold, hwritten]
        exact hunnamed (h.other old hlive hne)
      · rw [hother x hxold, hold x hx]
        exact h.other x hx hxr
    · by_cases hxold : x = old
      · rw [hxold, hwritten, hcontent']
        exact h.filled old hlive
      · rw [hother x hxold, hold x hx]
        exact h.filled x hx
    · have hx : db.allocated ≠ old := fun he => hdead (he ▸ hlive)
      rw [Database.uuid, hother _ hx, hnew]
    · exact (memdbFind_eq_some_iff hset).2 ⟨hlive, (hsameUuid old hlive).trans huuid⟩
    · rw [hwritten, hcontent', hcontent]
    · ext x
      rw [memdbFind_eq_some_iff hset, memdbFind_eq_some_iff h.stored]
      exact and_congr_right fun hx => by rw [hsameUuid x hx]

/-- A list with a new uuid is linked as a new record. -/
theorem memdbStore_new {mem : StoreMem} (hmem : mem.Enough) (hfits : list.Fits)
    (hfind : memdbFind db (listUuid sm3 list) = none) (name : Option Name) :
    memdbStore (namelistOps sm3) mem db list name = .done (some db.allocated,
      { (db.alloc (newRecord (namelistOps sm3) (listUuid sm3 list) list name)).link db.allocated with
        recordNo := db.recordNo + 1 }) := by
  simp only [memdbStore, hmem.record, hfits.compUuid, hfind, if_neg (not_lt.2 hmem.tail),
    hmem.link, not_true_eq_false, if_false]
  rfl

/-- A list with a new uuid becomes the registry, where nothing has its name. -/
theorem Registered.of_new (hstored : Stored.Inv ⟨db, live⟩)
    (hunnamed : ∀ x ∈ live, Unnamed typeenumlistName (db.record x))
    (hfilled : ∀ x ∈ live, (db.record x).record ≠ none) {mem : StoreMem}
    (hmem : mem.Enough) (hfits : list.Fits) (hfind : memdbFind db (listUuid sm3 list) = none) :
    ∃ db', memdbStore (namelistOps sm3) mem db list (some typeenumlistName) =
        .done (some db.allocated, db') ∧
      Registered db' (db.allocated :: live) db.allocated list ∧
      db'.uuid db.allocated = listUuid sm3 list := by
  have hvalid : ∀ n, some typeenumlistName = some n → n.Valid := by
    rintro n ⟨⟩
    exact typeenumlistName_valid
  let record := newRecord (namelistOps sm3) (listUuid sm3 list) list (some typeenumlistName)
  have hlinked : Stored.Inv ⟨{ (db.alloc record).link db.allocated with
      recordNo := db.recordNo + 1 }, db.allocated :: live⟩ :=
    hstored.linkNew (fun _ hnames => by cases hnames) hfind
  have hnew : (db.alloc record).record db.allocated = record := by
    simp [Database.alloc, Database.set]
  have hold (x : Nat) (hx : x ∈ live) : (db.alloc record).record x = db.record x := by
    simp [Database.alloc, Database.set, (hstored.allocated x hx).ne]
  refine ⟨_, memdbStore_new hmem hfits hfind _, ⟨hlinked, List.mem_cons_self, ?_, ?_,
    fun x hx hxr => ?_, ?_, fun x hx => ?_⟩, congrArg DbRecord.uuid hnew⟩
  · exact (congrArg DbRecord.name hnew).trans typeenumlistName_valid.strncpy_eq
  · exact hnew.symm ▸ newRecord_named _ _ _ hvalid
  · have hlive := (List.mem_cons.1 hx).resolve_left hxr
    exact (hold x hlive).symm ▸ hunnamed x hlive
  · exact congrArg DbRecord.record hnew
  · rcases List.mem_cons.1 hx with rfl | hx
    · exact hnew.symm ▸ Option.some_ne_none list
    · exact (hold x hx).symm ▸ hfilled x hx

/-- The registry is removed by its name, and a list with a uuid of its own takes its
    place; the uuid may be that of the registry where this goes with its only name. -/
theorem Registered.replace (h : Registered db live r registry) {mem : StoreMem}
    (hmem : mem.Enough) (hfits : list.Fits)
    (hfresh : ∀ x, memdbFind db (listUuid sm3 list) = some x →
      x = r ∧ (db.record r).nameNo = 1) :
    ∃ db₁ x db₂ live' r', memdbRemoveByname true db typeenumlistName = .done (1, db₁) ∧
      memdbStore (namelistOps sm3) mem db₁ list (some typeenumlistName) = .done (some x, db₂) ∧
      Registered db₂ live' r' list := by
  have hremove : memdbRemoveByname true db typeenumlistName =
      recordRemoveName true db r typeenumlistName := by
    rw [memdbRemoveByname, h.find, Outcome.done_bind]
  rcases recordRemoveName_head h.named typeenumlistName_valid h.head with
    ⟨hall, hgone⟩ | ⟨record', hkept, hnamed, huuid, hall, hne⟩
  · -- The record goes with its only name.
    have hfind : memdbFind db (db.uuid r) = some r := h.stored.indexed.find_eq_some h.mem_live
    have hinv : Stored.Inv ⟨(memdbRemoveRecord db r).2, live.erase r⟩ := by
      have hinv := h.stored.remove (db.uuid r)
      simp only [memdbRemove, hfind, Stored.del] at hinv
      simpa only [memdbRemoveRecord, memdbRemove, hfind] using hinv
    have hrecord : (memdbRemoveRecord db r).2.record = db.record := by
      simp only [memdbRemoveRecord, memdbRemove, hfind]
    have hleft (x : Nat) (hx : x ∈ live.erase r) : x ≠ r ∧ x ∈ live :=
      (List.Nodup.mem_erase_iff h.stored.nodup).1 hx
    obtain ⟨db', hstore, hreg, -⟩ := Registered.of_new hinv
      (fun x hx => hrecord.symm ▸ h.other x (hleft x hx).2 (hleft x hx).1)
      (fun x hx => hrecord.symm ▸ h.filled x (hleft x hx).2) hmem hfits (by
        refine hinv.find_eq_none fun x hx hxu => ?_
        obtain ⟨hxr, hlive⟩ := hleft x hx
        have hxu' : db.uuid x = listUuid sm3 list := by
          rw [Database.uuid, ← hrecord]
          exact hxu
        exact hxr (hfresh x ((memdbFind_eq_some_iff h.stored).2 ⟨hlive, hxu'⟩)).1)
    exact ⟨_, _, db', _, _, hremove.trans hgone, hstore, hreg⟩
  · -- It stays, under its next name.
    have hinv : Stored.Inv ⟨db.set r record', live⟩ := h.stored.set huuid hnamed.namesFit
    have hrecord (x : Nat) : (db.set r record').record x = if x = r then record' else db.record x := by
      by_cases hx : x = r <;> simp [Database.set, hx]
    have hsame (x : Nat) : (db.set r record').uuid x = db.uuid x := by
      rw [Database.uuid, hrecord]
      split_ifs with hx
      · rw [huuid, hx, Database.uuid]
      · rfl
    have hcount : (db.record r).nameNo ≠ 1 := by
      rw [h.named.count, hall, List.length_cons]
      have := List.length_pos_of_ne_nil hne
      omega
    have hunnamed : Unnamed typeenumlistName record' := by
      have hnodup := h.named.nodup
      rw [hall] at hnodup
      have hnot := (List.nodup_cons.1 hnodup).1
      constructor
      · intro hhead
        refine hnot ?_
        simp [DbRecord.allNames, hhead, typeenumlistName_valid.ne_nil]
      · exact fun hmem => hnot (List.mem_append_right _ hmem)
    obtain ⟨db', hstore, hreg, -⟩ := Registered.of_new hinv (fun x hx => by
        rw [hrecord]
        split_ifs with hxr
        · exact hunnamed
        · exact h.other x hx hxr)
      (fun x hx => recordRemoveName_content hkept x ▸ h.filled x hx) hmem hfits (by
        refine hinv.find_eq_none fun x hx hxu => ?_
        exact hcount (hfresh x ((memdbFind_eq_some_iff h.stored).2 ⟨hx, (hsame x).symm.trans hxu⟩)).2)
    exact ⟨_, _, db', _, _, hremove.trans hkept, hstore, hreg⟩

/-- The registry stored again gets another name. -/
theorem Registered.addName (h : Registered db live r list) {mem : StoreMem} (hmem : mem.Enough)
    (hfits : list.Fits) (huuid : db.uuid r = listUuid sm3 list) {name : Name}
    (hname : name.Valid) (hne : name ≠ typeenumlistName) :
    ∃ db', memdbStore (namelistOps sm3) mem db list (some name) = .done (some r, db') ∧
      Registered db' live r list := by
  have hfind : memdbFind db (listUuid sm3 list) = some r :=
    (memdbFind_eq_some_iff h.stored).2 ⟨h.mem_live, huuid⟩
  have hsame : ({ db.record r with
      record := (namelistOps sm3).cloneStruct list } : DbRecord Namelist) = db.record r := by
    change { db.record r with record := some list } = db.record r
    rw [← h.content]
  have hne' : name.strncpy ≠ typeenumlistName := by
    rw [hname.strncpy_eq]
    exact hne
  obtain ⟨ret, record', hadd, hret, hfit, huuid', hcontent, hhead, -⟩ :=
    recordAddName_unnamed hmem.name (h.stored.names r) hne'
  have hnamed : record'.Named := by
    obtain ⟨ret', record₂, hadd', -, hnamed, -⟩ := recordAddName_spec hmem.name h.named hname
    obtain ⟨-, rfl⟩ := Outcome.pair_inj (hadd.symm.trans hadd')
    exact hnamed
  have hrecord (x : Nat) : (db.set r record').record x = if x = r then record' else db.record x := by
    by_cases hx : x = r <;> simp [Database.set, hx]
  have hself : (db.set r record').record r = record' := (hrecord r).trans (if_pos rfl)
  have hother (x : Nat) (hx : x ≠ r) : (db.set r record').record x = db.record x :=
    (hrecord x).trans (if_neg hx)
  refine ⟨db.set r record', ?_, ⟨h.stored.set huuid' hfit, h.mem_live, ?_, hself.symm ▸ hnamed,
    fun x hx hxr => (hother x hxr).symm ▸ h.other x hx hxr, ?_, fun x hx => ?_⟩⟩
  · have hadd' : recordAddName mem.name (db.record r) (some name) = .done (ret, record') := hadd
    simp only [memdbStore, hmem.record, not_true_eq_false, if_false, hfits.compUuid, hfind,
      storeAgain, hsame, hadd', Outcome.done_bind, if_neg (not_lt.2 hret)]
  · rw [hself, hhead]
    exact h.head
  · rw [hself, hcontent]
    exact h.content
  · by_cases hxr : x = r
    · rw [hxr, hself, hcontent]
      exact h.filled r h.mem_live
    · rw [hother x hxr]
      exact h.filled x hx

end Registered

end Cube.Memdb
