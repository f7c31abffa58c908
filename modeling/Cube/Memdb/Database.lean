import Cube.Dispatch.MatchRule

/-!
# The memory database

A database keeps records under the digest of their content (`memdb_init.c`). A hash
table links the records, each in the list for the low byte of its uuid
(`basefunc.c`). A record has names: the first one in its head, the others in an
array of its own.

* `strncmp_eq_zero`: names are compared by their first 32 characters.
-/

namespace Cube.Memdb

open Lib Message

/-- A name, up to its end. -/
@[ext]
structure Name where
  chars : List UInt8
  nul_free : (0 : UInt8) ∉ chars
  deriving DecidableEq

namespace Name

/-- The empty name. -/
def empty : Name := ⟨[], List.not_mem_nil⟩

/-- What `Strncpy` copies of a name into the `DIGEST_SIZE` characters for it. -/
def strncpy (name : Name) : Name where
  chars := name.chars.take DIGEST_SIZE
  nul_free h := name.nul_free (List.mem_of_mem_take h)

/-- `Strncmp` of two names, up to `DIGEST_SIZE` characters. -/
def strncmp (a b : Name) : Int :=
  Dispatch.strncmp (a.chars ++ [0]) (b.chars ++ [0]) DIGEST_SIZE

/-- A name that there is the room for, with at least one character. -/
structure Valid (name : Name) : Prop where
  ne_nil : name.chars ≠ []
  length_le : name.chars.length ≤ DIGEST_SIZE

theorem Valid.strncpy_eq {name : Name} (h : name.Valid) : name.strncpy = name := by
  simp only [strncpy, List.take_of_length_le h.length_le]

end Name

/-- Strings without a zero compare equal over `n` characters when they agree there. -/
theorem strncmp_eq_zero {a b : List UInt8} (ha : (0 : UInt8) ∉ a) (hb : (0 : UInt8) ∉ b) (n : Nat) :
    Dispatch.strncmp (a ++ [0]) (b ++ [0]) n = 0 ↔ a.take n = b.take n := by
  induction n generalizing a b with
  | zero => simp [Dispatch.strncmp]
  | succ n ih =>
    -- The strings end together, one of them ends, or both go on.
    rcases a with _ | ⟨x, a⟩ <;> rcases b with _ | ⟨y, b⟩
    · cases n <;> simp [Dispatch.strncmp]
    · have hy : (0 : UInt8) ≠ y := by
        rintro rfl
        exact hb List.mem_cons_self
      have hne : (0 : Int) - y.toNat ≠ 0 := fun h => hy ((Dispatch.toNat_sub_eq_zero 0 y).1 (by simpa using h))
      cases n <;> simpa [Dispatch.strncmp] using hne
    · have hx : x ≠ 0 := by
        rintro rfl
        exact ha List.mem_cons_self
      have hne : (x.toNat : Int) ≠ 0 := fun h => hx ((Dispatch.toNat_sub_eq_zero x 0).1 (by simpa using h))
      cases n <;> simpa [Dispatch.strncmp, hx] using hne
    · have hx : x ≠ 0 := by
        rintro rfl
        exact ha List.mem_cons_self
      have ha' : (0 : UInt8) ∉ a := fun h => ha (List.mem_cons_of_mem _ h)
      have hb' : (0 : UInt8) ∉ b := fun h => hb (List.mem_cons_of_mem _ h)
      cases n with
      | zero => simp [Dispatch.strncmp, Dispatch.toNat_sub_eq_zero]
      | succ n =>
        by_cases hxy : x = y
        · subst hxy
          simpa [Dispatch.strncmp, hx] using ih ha' hb'
        · simp [Dispatch.strncmp, hxy, Dispatch.toNat_sub_eq_zero]

/-- Valid names compare equal when they are. -/
theorem Name.Valid.strncmp_eq_zero {a b : Name} (ha : a.Valid) (hb : b.Valid) :
    a.strncmp b = 0 ↔ a = b := by
  rw [Name.strncmp, Memdb.strncmp_eq_zero a.nul_free b.nul_free,
    List.take_of_length_le ha.length_le, List.take_of_length_le hb.length_le]
  exact ⟨Name.ext, congrArg Name.chars⟩

/-- A record of a database, `DB_RECORD`: its uuid and the name in its head, how many
    names it has, the other names, and its content. -/
structure DbRecord (D : Type) where
  uuid : Uuid
  name : Name
  nameNo : Int
  names : Option (List Name)
  record : Option D

/-! ## The names of a record -/

section Names

variable {D : Type}

/-- The search through the other names: the number of names to look at, and the site
    of the first of them. -/
def findInNames (name : Name) : List Name → Nat → Nat → Outcome Nat
  | _, 0, _ => .done 0
  | [], _ + 1, _ => .fault
  | x :: names, n + 1, site =>
    if x.strncmp name = 0 then .done site else findInNames name names n (site + 1)

/-- How many of the names of a record are in the array. -/
def DbRecord.namelistNo (record : DbRecord D) (nameNo : Int) : Int :=
  if record.name.chars ≠ [] then nameNo - 1 else nameNo

/-- `_memdb_record_find_name`: the site of a name, `1` for the one in the head. -/
def recordFindName (record : DbRecord D) (name : Name) : Outcome Nat :=
  if record.name.strncmp name = 0 then .done 1
  else match record.names with
    | none => .done 0
    | some names =>
      let namelistNo := record.namelistNo record.nameNo
      if namelistNo < 1 then .done 0 else findInNames name names namelistNo.toNat 2

/-- The memory found for a name added to a record: for the name, and for the array. -/
structure NameMem where
  name : Bool
  array : Bool
  deriving DecidableEq, Repr

/-- `_memdb_record_add_name`: the value returned, and the record. -/
def recordAddName (mem : NameMem) (record : DbRecord D) (name : Option Name) :
    Outcome (Int × DbRecord D) :=
  match name with
  | none => .done (0, record)
  | some name => do
    let site ← recordFindName record name
    if site > 0 then .done (0, record)
    else if ¬ mem.name then .done (-ENOMEM, record)
    else match record.names with
      | none =>
        let nameNo : Int := if record.name.chars = [] then 0 else 1
        if ¬ mem.array then .done (-ENOMEM, { record with nameNo := nameNo })
        else .done (2, { record with nameNo := nameNo + 1, names := some [name.strncpy] })
      | some names =>
        let nameNo := record.nameNo + 1
        let namelistNo := record.namelistNo nameNo
        if ¬ mem.array then .done (-ENOMEM, { record with nameNo := nameNo })
        -- `Memcpy` copies one less than the names there are to be.
        else if (names.length : Int) < namelistNo - 1 then .fault
        else .done (namelistNo + 2, { record with
          nameNo := nameNo
          names := some (names.take (namelistNo - 1).toNat ++ [name.strncpy]) })

/-! ### Names that fit -/

/-- The names of a record are as many as it counts. -/
def DbRecord.NamesFit (record : DbRecord D) : Prop :=
  ∀ names, record.names = some names → record.namelistNo record.nameNo = names.length

theorem findInNames_done (name : Name) {names : List Name} {n : Nat} (hn : n ≤ names.length)
    (site : Nat) : ∃ found, findInNames name names n site = .done found := by
  induction names generalizing n site with
  | nil =>
    obtain rfl : n = 0 := by simpa using hn
    exact ⟨0, rfl⟩
  | cons x names ih =>
    cases n with
    | zero => exact ⟨0, rfl⟩
    | succ n =>
      rw [findInNames]
      split_ifs
      · exact ⟨site, rfl⟩
      · exact ih (Nat.le_of_succ_le_succ hn) (site + 1)

/-- The search for a name comes to an end within the array. -/
theorem recordFindName_done {record : DbRecord D} (h : record.NamesFit) (name : Name) :
    ∃ site, recordFindName record name = .done site := by
  unfold recordFindName
  split_ifs
  · exact ⟨1, rfl⟩
  · cases hnames : record.names with
    | none => exact ⟨0, rfl⟩
    | some names =>
      simp only [h names hnames]
      split_ifs
      · exact ⟨0, rfl⟩
      · exact findInNames_done name (by simp) 2

/-- A name added changes only the names, which still fit. -/
theorem recordAddName_done {mem : NameMem} (hmem : mem.array = true) {record : DbRecord D}
    (h : record.NamesFit) (name : Option Name) :
    ∃ ret record', recordAddName mem record name = .done (ret, record') ∧ record'.NamesFit ∧
      record'.uuid = record.uuid ∧ ret ≠ 1 := by
  unfold recordAddName
  cases name with
  | none => exact ⟨0, record, rfl, h, rfl, by decide⟩
  | some name =>
    obtain ⟨site, hsite⟩ := recordFindName_done h name
    simp only [hsite, Outcome.done_bind, hmem, not_true_eq_false, if_false]
    by_cases hfound : site > 0
    · rw [if_pos hfound]
      exact ⟨0, record, rfl, h, rfl, by decide⟩
    rw [if_neg hfound]
    by_cases hname : mem.name = true
    · rw [if_neg (not_not.2 hname)]
      cases hnames : record.names with
      | none =>
        refine ⟨2, _, rfl, ?_, rfl, by decide⟩
        rintro names ⟨⟩
        unfold DbRecord.namelistNo
        split_ifs <;> simp_all
      | some names =>
        have hfit := h names hnames
        have hnext : record.namelistNo (record.nameNo + 1) = names.length + 1 := by
          rw [← hfit]
          unfold DbRecord.namelistNo
          split_ifs <;> omega
        have htake : ((names.length : Int) + 1 - 1).toNat = names.length := by omega
        simp only [hnext, htake]
        rw [if_neg (by omega)]
        refine ⟨_, _, rfl, ?_, rfl, by omega⟩
        rintro _ ⟨⟩
        rw [List.take_length, List.length_append, List.length_singleton]
        exact hnext
    · rw [if_pos hname]
      exact ⟨-ENOMEM, record, rfl, h, rfl, by decide⟩

end Names

/-! ## The database -/

/-- What a database asks of the type of its contents: `struct_2_part_blob` of the
    elements flagged as its index (an error is negative), the digest of bytes
    (`calculate_context_sm3`) and `clone_struct`. -/
structure DbOps (D : Type) where
  structPartBlob : D → Except Int (List UInt8)
  error_neg : ∀ data e, structPartBlob data = .error e → e < 0
  sm3 : List UInt8 → Uuid
  cloneStruct : D → Option D

/-- A database, `struct memdb_desc`: the lists of its hash table, the records at the
    addresses handed out so far, and the count of records. -/
structure Database (D : Type) where
  table : UInt8 → List Nat
  record : Nat → DbRecord D
  allocated : Nat
  recordNo : Int

section Ops

variable {D : Type} (ops : DbOps D)

/-- A database with nothing in it. -/
def emptyDb : Database D where
  table _ := []
  record _ := { uuid := .replicate _ 0, name := .empty, nameNo := 0, names := none, record := none }
  allocated := 0
  recordNo := 0

namespace Database

variable (db : Database D)

/-- The uuid of the record at an address. -/
def uuid (r : Nat) : Uuid := (db.record r).uuid

/-- The database with a record written to. -/
def set (r : Nat) (record : DbRecord D) : Database D :=
  { db with record := Function.update db.record r record }

/-- The database with a record at a new address. -/
def alloc (record : DbRecord D) : Database D :=
  { db.set db.allocated record with allocated := db.allocated + 1 }

/-- The database with a record put into the list of its uuid (`hashlist_add_elem`). -/
def link (r : Nat) : Database D :=
  let list := hashIndex (db.uuid r)
  { db with table := Function.update db.table list (db.table list ++ [r]) }

end Database

/-- `memdb_find` (`hashlist_find_elem`): the first record of the list that has the uuid. -/
def memdbFind (db : Database D) (uuid : Uuid) : Option Nat :=
  (db.table (hashIndex uuid)).find? fun r => db.uuid r = uuid

/-- `memdb_comp_uuid`: the uuid of a content, or the one there was where the content
    has no bytes. The buffer for the bytes, of 4000, is taken to be there and to hold them. -/
def memdbCompUuid (data : D) (uuid : Uuid) : Except Int Uuid :=
  match ops.structPartBlob data with
  | .error e => .error e
  | .ok [] => .ok uuid
  | .ok blob => .ok (ops.sm3 blob)

theorem memdbCompUuid_error_neg {data : D} {uuid : Uuid} {e : Int}
    (h : memdbCompUuid ops data uuid = .error e) : e < 0 := by
  unfold memdbCompUuid at h
  split at h
  · obtain rfl := Except.error.inj h
    exact ops.error_neg data _ ‹_›
  · simp at h
  · simp at h

/-- What there is for a record stored: the memory for the record, for its link and
    for a name of it, and what the tail function of the database returns. -/
structure StoreMem where
  record : Bool
  link : Bool
  name : NameMem
  tail : Int
  deriving DecidableEq, Repr

/-- The record `memdb_store` makes of a content, with its name in the head. -/
def newRecord (uuid : Uuid) (data : D) (name : Option Name) : DbRecord D where
  uuid := uuid
  name := (name.map Name.strncpy).getD .empty
  nameNo := if name.isSome then 1 else 0
  names := none
  record := ops.cloneStruct data

/-- A content stored again: the record that has it gets the content and the name. -/
def storeAgain (mem : NameMem) (db : Database D) (old : Nat) (data : D) (name : Option Name) :
    Outcome (Int × Database D) := do
  let (ret, record) ←
    recordAddName mem { db.record old with record := ops.cloneStruct data } name
  .done (ret, db.set old record)

/-- `memdb_store`: the record of the content, if it is stored. (Without memory for a
    record the function returns `-ENOMEM` as an address.) -/
def memdbStore (mem : StoreMem) (db : Database D) (data : D) (name : Option Name) :
    Outcome (Option Nat × Database D) :=
  if ¬ mem.record then .done (none, db)
  else match memdbCompUuid ops data (.replicate _ 0) with
    | .error _ => .done (none, db)
    | .ok uuid =>
      match memdbFind db uuid with
      | none =>
        if mem.tail < 0 then .done (none, db)
        else
          let r := db.allocated
          let db := db.alloc (newRecord ops uuid data name)
          if ¬ mem.link then .done (none, db)
          else .done (some r, { db.link r with recordNo := db.recordNo + 1 })
      | some old => do
        let (ret, db) ← storeAgain ops mem.name db old data name
        .done (if ret < 0 then none else some old, db)

/-- `memdb_store_record`: a record of the caller is stored, or its content again. -/
def memdbStoreRecord (mem : StoreMem) (db : Database D) (r : Nat) :
    Outcome (Int × Database D) :=
  match (db.record r).record with
  | none => .done (-EINVAL, db)
  | some data =>
    if mem.tail < 0 then .done (mem.tail, db)
    else match memdbCompUuid ops data (db.uuid r) with
      | .error e => .done (e, db)
      | .ok uuid =>
        let db := db.set r { db.record r with uuid := uuid }
        match memdbFind db uuid with
        | none =>
          if ¬ mem.link then .done (-EINVAL, db)
          else .done (1, { db.link r with recordNo := db.recordNo + 1 })
        | some old => do
          let (ret, db) ← storeAgain ops mem.name db old data (some (db.record r).name)
          .done (if ret < 0 then -EINVAL else ret, db)

/-- `memdb_remove` (`hashlist_remove_elem`): the record found is unlinked. -/
def memdbRemove (db : Database D) (uuid : Uuid) : Option Nat × Database D :=
  match memdbFind db uuid with
  | none => (none, db)
  | some r =>
    let list := hashIndex uuid
    (some r, { db with
      table := Function.update db.table list ((db.table list).erase r)
      recordNo := db.recordNo - 1 })

/-- `memdb_remove_record`: the record found under the uuid of the record. -/
def memdbRemoveRecord (db : Database D) (r : Nat) : Option Nat × Database D :=
  memdbRemove db (db.uuid r)

/-- The records linked, in the order `memdb_get_first` and `memdb_get_next` go through
    them: list by list. -/
def Database.scan (db : Database D) : List Nat :=
  (List.range 256).flatMap fun list => db.table (UInt8.ofNat list)

/-- The loop of `memdb_find_byname` over the records. -/
def findByname (db : Database D) (name : Name) : List Nat → Outcome (Option Nat)
  | [] => .done none
  | r :: records => do
    let site ← recordFindName (db.record r) name
    if site > 0 then .done (some r) else findByname db name records

/-- `memdb_find_byname`: the first record that has the name. -/
def memdbFindByname (db : Database D) (name : Name) : Outcome (Option Nat) :=
  findByname db name db.scan

/-- `_memdb_record_remove_name`, with the memory for the new array: the value returned
    and the database. The last name of a record takes the record with it, which
    is then freed. The name at a site is looked for in the array one further on
    than `_memdb_record_find_name` found it. -/
def recordRemoveName (mem : Bool) (db : Database D) (r : Nat) (name : Name) :
    Outcome (Int × Database D) := do
  let site ← recordFindName (db.record r) name
  let record := db.record r
  let namelistNo := record.namelistNo record.nameNo
  if site = 0 then .done (0, db)
  else if site = 1 ∧ record.nameNo = 1 then .done (1, (memdbRemoveRecord db r).2)
  else match record.names with
    | none => .fault
    | some names =>
      -- The first name of the array goes to the head.
      let head ← if site = 1 then
          match names with
          | [] => .fault
          | first :: _ => .done first.strncpy
        else .done record.name
      let record := { record with name := head }
      if ¬ mem then .done (-ENOMEM, db.set r record)
      else if namelistNo < site then .done (-EINVAL, db.set r record)
      else if names.length < site ∨ (names.length : Int) < namelistNo then .fault
      else .done (site, db.set r { record with
        names := some (names.take (site - 1) ++ (names.take namelistNo.toNat).drop site)
        nameNo := record.nameNo - 1 })

/-- `memdb_remove_byname`. -/
def memdbRemoveByname (mem : Bool) (db : Database D) (name : Name) :
    Outcome (Int × Database D) := do
  match ← memdbFindByname db name with
  | none => .done (0, db)
  | some r => recordRemoveName mem db r name

end Ops

end Cube.Memdb
