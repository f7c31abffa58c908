import Cube.Text.Enum

/-!
# The names of element types

The types of elements have names in a list that is merged from others when the database
starts. A type is written as its name and set from it (`enumtype_get_text_value` and
`enumtype_set_text_value` in `type_subtype_ops.c`), by loops that end at a null name.

* `Produced.counted`: a list that is merged or cloned has as many entries as it counts;
* `findNamed_eq`: where the loops end, and where they read behind the entries;
* `elemTypeNames_iff`: the texts, values and entries that are treated as they should be.
-/

namespace Cube.Text

open Lib Memdb

/-- An entry of a list, `NAME2VALUE`, whose name may be a null pointer. -/
structure Entry where
  name : Option Name
  value : Int32
  deriving DecidableEq

/-- A list of entries, `struct struct_namelist`. What is in memory behind the entries is not
    of the list. -/
structure EntryList where
  elemNo : Nat
  elemlist : List Entry
  deriving DecidableEq

/-! ## Making lists -/

/-- `_clone_namelist`. -/
def cloneNamelist (list1 : EntryList) : Outcome EntryList :=
  if list1.elemNo ≤ list1.elemlist.length then
    .done ⟨list1.elemNo, list1.elemlist.take list1.elemNo⟩
  else .fault

/-- The loop of `_merge_namelist`, where it may go round `n` times more: the bound on the
    entries, the sites `j` and `k` in the two lists, and the entries written. -/
def mergeEntries (list1 list2 : EntryList) :
    Nat → Nat → Nat → Nat → List Entry → Outcome EntryList
  | 0, elemNo, _, _, buf => .done ⟨elemNo, buf⟩
  | n + 1, elemNo, j, k, buf =>
    if elemNo ≤ buf.length then .done ⟨elemNo, buf⟩
    else if j = list1.elemNo then
      match list2.elemlist[k]? with
      | none => .fault
      | some e => mergeEntries list1 list2 n elemNo j (k + 1) (buf ++ [e])
    else if k = list2.elemNo then
      match list1.elemlist[j]? with
      | none => .fault
      | some e => mergeEntries list1 list2 n elemNo (j + 1) k (buf ++ [e])
    else
      match list1.elemlist[j]?, list2.elemlist[k]? with
      | some e1, some e2 =>
        if e1.value < e2.value then mergeEntries list1 list2 n elemNo (j + 1) k (buf ++ [e1])
        else if e1.value > e2.value then mergeEntries list1 list2 n elemNo j (k + 1) (buf ++ [e2])
        -- A value of both lists: there is one entry less.
        else mergeEntries list1 list2 n (elemNo - 1) (j + 1) (k + 1) (buf ++ [e1])
      | _, _ => .fault

/-- `_merge_namelist`, of lists that there is memory for. -/
def mergeNamelist (list1 list2 : EntryList) : Outcome EntryList :=
  mergeEntries list1 list2 (list1.elemNo + list2.elemNo) (list1.elemNo + list2.elemNo) 0 0 []

/-- A list has as many entries as it counts. -/
def Counted (list : EntryList) : Prop := list.elemlist.length = list.elemNo

/-- The lists that are made of counted ones by cloning and merging. -/
inductive Produced (base : EntryList → Prop) : EntryList → Prop
  | base {list : EntryList} (h : base list) (hcount : Counted list) : Produced base list
  | clone {list1 list : EntryList} (h1 : Produced base list1)
      (h : cloneNamelist list1 = .done list) : Produced base list
  | merge {list1 list2 list : EntryList} (h1 : Produced base list1) (h2 : Produced base list2)
      (h : mergeNamelist list1 list2 = .done list) : Produced base list

/-! ## The operations -/

/-- The loops over the entries, up to the first null name. The entry behind the list is not
    one of it. -/
def findNamed (p : Name → Int32 → Bool) : List Entry → Outcome (Option (Name × Int32))
  | [] => .fault
  | e :: list => match e.name with
    | none => .done none
    | some name => if p name e.value then .done (some (name, e.value)) else findNamed p list

/-- `enumtype_get_text_value`, with the list of the database, if there is one: what it
    returns and the text it writes. -/
def enumtypeGetTextValue (elemenumlist : Option EntryList) (elem : List UInt8) :
    Outcome (Int × List UInt8) :=
  match elemenumlist with
  | none => .error (-EINVAL)
  | some list =>
    let enumValue := bytesInt32 elem
    if enumValue < 0 then .error (-EINVAL)
    else do
      match ← findNamed (fun _ value => value = enumValue) list.elemlist with
      | some (name, _) => .done (textWithEnd name)
      | none => if enumValue = 0 then .done (textWithEnd nulstring) else .error (-EINVAL)

/-- `enumtype_set_text_value`: what it returns and the bytes it writes. -/
def enumtypeSetTextValue (elemenumlist : Option EntryList) (text : Name) :
    Outcome (Int × List UInt8) :=
  match elemenumlist with
  | none => .error (-EINVAL)
  | some list =>
    if nulstring.strcmp text = 0 then .done (0, int32Bytes 0)
    else do
      match ← findNamed (fun name _ => name.strcmp text = 0) list.elemlist with
      | some (_, value) => .done (value.toInt, int32Bytes value)
      | none => .error (-EINVAL)

/-! ## What they should do -/

variable (list : EntryList)

/-- Only entries of the list are read, and a text that is not in it is an error, but for the
    null name. -/
structure TypeSets (text : Name) : Prop where
  within : enumtypeSetTextValue (some list) text ≠ .fault
  rejected : text ≠ nulstring → (∀ e ∈ list.elemlist, e.name ≠ some text) →
    ∃ ret < 0, enumtypeSetTextValue (some list) text = .error ret

/-- Only entries of the list are read, and a value that is not in it is an error, but for
    zero. -/
structure TypeGets (value : Int32) : Prop where
  within : enumtypeGetTextValue (some list) (int32Bytes value) ≠ .fault
  rejected : value ≠ 0 → (∀ e ∈ list.elemlist, e.name ≠ none → e.value ≠ value) →
    ∃ ret < 0, enumtypeGetTextValue (some list) (int32Bytes value) = .error ret

/-- A name and a value are written and set as each other. -/
structure TypeInverse (name : Name) (value : Int32) : Prop where
  get : enumtypeGetTextValue (some list) (int32Bytes value) = .done (textWithEnd name)
  set : enumtypeSetTextValue (some list) name = .done (value.toInt, int32Bytes value)

/-- The names and values up to the first null name. -/
def named : List Entry → List (Name × Int32)
  | [] => []
  | e :: list => match e.name with
    | none => []
    | some name => (name, e.value) :: named list

/-- There is a null name in the list. -/
def HasEnd : Prop := ∃ e ∈ list.elemlist, e.name = none

instance : Decidable (HasEnd list) :=
  inferInstanceAs (Decidable (∃ e ∈ list.elemlist, e.name = none))

/-- A name and a value are the first of each other, up to the null name, and the value is
    not negative. The null name is that of zero, also where neither is listed. -/
def InverseWhen (name : Name) (value : Int32) : Prop :=
  0 ≤ value ∧
    if name = nulstring then value = 0 ∧
      ((named list.elemlist).find? (fun x => x.2 = value) = some (name, value) ∨
        (named list.elemlist).find? (fun x => x.2 = value) = none ∧ HasEnd list)
    else (named list.elemlist).find? (fun x => x.2 = value) = some (name, value) ∧
      (named list.elemlist).find? (fun x => x.1 = name) = some (name, value)

/-! ## Lists that are made -/

/-- From any sites on, with the bound at what is written and what there is left of both
    lists, the loop writes as many entries as it counts, all of them of the two lists. -/
theorem mergeEntries_spec {list1 list2 list : EntryList} {n elemNo j k : Nat} {buf : List Entry}
    (h1 : j ≤ list1.elemNo) (h2 : k ≤ list2.elemNo)
    (hcount : elemNo = buf.length + (list1.elemNo - j) + (list2.elemNo - k))
    (hn : elemNo ≤ buf.length + n) (h : mergeEntries list1 list2 n elemNo j k buf = .done list) :
    Counted list ∧ ∀ e ∈ list.elemlist, e ∈ buf ∨ e ∈ list1.elemlist ∨ e ∈ list2.elemlist := by
  induction n generalizing elemNo j k buf with
  | zero =>
    obtain rfl := Outcome.done.inj h
    refine ⟨?_, fun e he => .inl he⟩
    change buf.length = elemNo
    rw [Nat.add_zero] at hn
    omega
  | succ n ih =>
    rw [mergeEntries] at h
    -- An entry that is written is of one of the lists.
    have hgo {elemNo' j' k' : Nat} {e : Entry} (he : e ∈ list1.elemlist ∨ e ∈ list2.elemlist)
        (h1' : j' ≤ list1.elemNo) (h2' : k' ≤ list2.elemNo)
        (hcount' : elemNo' = buf.length + 1 + (list1.elemNo - j') + (list2.elemNo - k'))
        (hn' : elemNo' ≤ buf.length + 1 + n)
        (h' : mergeEntries list1 list2 n elemNo' j' k' (buf ++ [e]) = .done list) :
        Counted list ∧ ∀ e ∈ list.elemlist, e ∈ buf ∨ e ∈ list1.elemlist ∨ e ∈ list2.elemlist := by
      obtain ⟨hlist, hmem⟩ := ih h1' h2' (by rwa [List.length_append, List.length_singleton])
        (by rwa [List.length_append, List.length_singleton]) h'
      refine ⟨hlist, fun x hx => ?_⟩
      rcases hmem x hx with hx | hx
      · rcases List.mem_append.1 hx with hx | hx
        · exact .inl hx
        · exact .inr (List.mem_singleton.1 hx ▸ he)
      · exact .inr hx
    split_ifs at h with hend hj hk
    · obtain rfl := Outcome.done.inj h
      refine ⟨?_, fun e he => .inl he⟩
      change buf.length = elemNo
      omega
    · split at h
      next => cases h
      next e he =>
        exact hgo (.inr (List.mem_of_getElem? he)) h1 (by omega) (by omega) (by omega) h
    · split at h
      next => cases h
      next e he =>
        exact hgo (.inl (List.mem_of_getElem? he)) (by omega) h2 (by omega) (by omega) h
    · split at h
      next e1 e2 he1 he2 =>
        split_ifs at h
        · exact hgo (.inl (List.mem_of_getElem? he1)) (by omega) h2 (by omega) (by omega) h
        · exact hgo (.inr (List.mem_of_getElem? he2)) h1 (by omega) (by omega) (by omega) h
        · exact hgo (.inl (List.mem_of_getElem? he1)) (by omega) (by omega) (by omega) (by omega) h
      next => cases h

theorem mergeNamelist_spec {list1 list2 list : EntryList}
    (h : mergeNamelist list1 list2 = .done list) :
    Counted list ∧ ∀ e ∈ list.elemlist, e ∈ list1.elemlist ∨ e ∈ list2.elemlist := by
  obtain ⟨hcount, hmem⟩ := mergeEntries_spec (Nat.zero_le _) (Nat.zero_le _)
    (by rw [List.length_nil]; omega) (by rw [List.length_nil]; omega) h
  exact ⟨hcount, fun e he => (hmem e he).resolve_left List.not_mem_nil⟩

theorem cloneNamelist_spec {list1 list : EntryList} (h : cloneNamelist list1 = .done list) :
    Counted list ∧ ∀ e ∈ list.elemlist, e ∈ list1.elemlist := by
  rw [cloneNamelist] at h
  split_ifs at h with hlen
  obtain rfl := Outcome.done.inj h
  exact ⟨by rw [Counted, List.length_take, Nat.min_eq_left hlen],
    fun e he => List.mem_of_mem_take he⟩

variable {list} {base : EntryList → Prop}

/-- A list that is made has as many entries as it counts. -/
theorem Produced.counted (h : Produced base list) : Counted list := by
  cases h with
  | base _ hcount => exact hcount
  | clone _ h => exact (cloneNamelist_spec h).1
  | merge _ _ h => exact (mergeNamelist_spec h).1

/-- A list that is made of lists without a null name has none. -/
theorem Produced.named (h : Produced base list) (hbase : ∀ l, base l → ¬ HasEnd l) :
    ¬ HasEnd list := by
  induction h with
  | base h _ => exact hbase _ h
  | clone _ h ih => exact fun ⟨e, he, hnull⟩ => ih ⟨e, (cloneNamelist_spec h).2 e he, hnull⟩
  | merge _ _ h ih1 ih2 =>
    rintro ⟨e, he, hnull⟩
    rcases (mergeNamelist_spec h).2 e he with he | he
    · exact ih1 ⟨e, he, hnull⟩
    · exact ih2 ⟨e, he, hnull⟩

/-! ## Where the loops end -/

/-- An entry with a name is found, or else the null name; without either, the loop reads
    behind the list. -/
theorem findNamed_eq (p : Name → Int32 → Bool) (l : List Entry) :
    findNamed p l = match (named l).find? (fun x => p x.1 x.2) with
      | some x => .done (some x)
      | none => if ∃ e ∈ l, e.name = none then .done none else .fault := by
  induction l with
  | nil => simp [findNamed, named]
  | cons e l ih =>
    rw [findNamed, named]
    rcases hname : e.name with _ | name
    · simp [hname]
    · simp only [List.find?_cons]
      cases hp : p name e.value with
      | true => rfl
      | false =>
        simp only [ih, Bool.false_eq_true, if_false, List.exists_mem_cons_iff, hname, reduceCtorEq,
          false_or]

/-- Without a null name all entries are found. -/
theorem mem_named {l : List Entry} (hend : ¬ ∃ e ∈ l, e.name = none) {x : Name × Int32} :
    x ∈ named l ↔ ∃ e ∈ l, e.name = some x.1 ∧ e.value = x.2 := by
  induction l with
  | nil => simp [named]
  | cons e l ih =>
    rw [List.exists_mem_cons_iff, not_or] at hend
    obtain ⟨name, hname⟩ := Option.ne_none_iff_exists'.1 hend.1
    rw [named, List.exists_mem_cons_iff]
    simp only [hname, Option.some.injEq]
    rw [List.mem_cons, ih hend.2]
    exact or_congr_left ⟨fun h => h ▸ ⟨rfl, rfl⟩, fun h => Prod.ext h.1.symm h.2.symm⟩

/-- What is found before the null name is in the list. -/
theorem mem_of_mem_named {l : List Entry} {x : Name × Int32} (hx : x ∈ named l) :
    ∃ e ∈ l, e.name = some x.1 ∧ e.value = x.2 := by
  induction l with
  | nil => cases hx
  | cons e l ih =>
    rw [named] at hx
    rcases hname : e.name with _ | name
    · rw [hname] at hx
      cases hx
    · rw [hname] at hx
      rcases List.mem_cons.1 hx with rfl | hx
      · exact ⟨e, List.mem_cons_self, hname, rfl⟩
      · obtain ⟨e', he', h⟩ := ih hx
        exact ⟨e', List.mem_cons_of_mem _ he', h⟩

/-- The loops read behind the list exactly where nothing is found in a list without a null
    name. -/
theorem findNamed_ne_fault {p : Name → Int32 → Bool} :
    findNamed p list.elemlist ≠ .fault ↔
      HasEnd list ∨ ∃ e ∈ list.elemlist, ∃ name, e.name = some name ∧ p name e.value := by
  rw [findNamed_eq]
  by_cases hend : HasEnd list
  · refine iff_of_true ?_ (.inl hend)
    cases (named list.elemlist).find? fun x => p x.1 x.2 with
    | none =>
      simp only [if_pos (show ∃ e ∈ list.elemlist, e.name = none from hend)]
      nofun
    | some x => nofun
  · have hmem : ((named list.elemlist).find? fun x => p x.1 x.2).isSome ↔
        ∃ e ∈ list.elemlist, ∃ name, e.name = some name ∧ p name e.value := by
      rw [List.find?_isSome]
      constructor
      · rintro ⟨x, hx, hp⟩
        obtain ⟨e, he, hname, hvalue⟩ := (mem_named hend).1 hx
        exact ⟨e, he, x.1, hname, hvalue ▸ hp⟩
      · rintro ⟨e, he, name, hname, hp⟩
        exact ⟨(name, e.value), (mem_named hend).2 ⟨e, he, hname, rfl⟩, hp⟩
    rw [or_iff_right hend, ← hmem]
    cases (named list.elemlist).find? fun x => p x.1 x.2 with
    | none =>
      simp only [if_neg (show ¬ ∃ e ∈ list.elemlist, e.name = none from hend), Option.isSome_none]
      simp
    | some x => simp

theorem findNamed_unlisted {p : Name → Int32 → Bool}
    (h : ∀ e ∈ list.elemlist, ∀ name, e.name = some name → p name e.value = false) :
    findNamed p list.elemlist = if HasEnd list then .done none else .fault := by
  have hfind : (named list.elemlist).find? (fun x => p x.1 x.2) = none := by
    refine List.find?_eq_none.2 fun x hx hp => ?_
    obtain ⟨e, he, hname, hvalue⟩ := mem_of_mem_named hx
    have hfalse := h e he x.1 hname
    rw [hvalue] at hfalse
    exact absurd hp (by rw [hfalse]; decide)
  rw [findNamed_eq, hfind]
  rfl

theorem findNamed_done {p : Name → Int32 → Bool} (h : findNamed p list.elemlist ≠ .fault) :
    ∃ found, findNamed p list.elemlist = .done found := by
  rw [findNamed_eq] at h ⊢
  cases hfind : (named list.elemlist).find? fun x => p x.1 x.2 with
  | some x => exact ⟨some x, rfl⟩
  | none =>
    rw [hfind] at h
    by_cases hend : ∃ e ∈ list.elemlist, e.name = none
    · exact ⟨none, if_pos hend⟩
    · exact absurd (if_neg hend) h

/-! ## Texts, values and entries -/

/-- A text other than the null name is looked for in the list. -/
theorem enumtypeSetTextValue_eq (list : EntryList) {text : Name} (hnull : text ≠ nulstring) :
    enumtypeSetTextValue (some list) text =
      match findNamed (fun name _ => name = text) list.elemlist with
      | .done (some (_, value)) => .done (value.toInt, int32Bytes value)
      | .done none => .error (-EINVAL)
      | .error e => .error e
      | .fault => .fault := by
  simp only [enumtypeSetTextValue, Name.strcmp_eq_zero, if_neg (Ne.symm hnull)]
  rcases findNamed (fun name _ => decide (name = text)) list.elemlist with
    (_ | ⟨_, _⟩) | _ | _ <;> rfl

/-- A value that is not negative is looked for in the list. -/
theorem enumtypeGetTextValue_eq (list : EntryList) {value : Int32} (hneg : ¬ value < 0) :
    enumtypeGetTextValue (some list) (int32Bytes value) =
      match findNamed (fun _ v => v = value) list.elemlist with
      | .done (some (name, _)) => .done (textWithEnd name)
      | .done none => if value = 0 then .done (textWithEnd nulstring) else .error (-EINVAL)
      | .error e => .error e
      | .fault => .fault := by
  have hread : bytesInt32 (int32Bytes value) = value := by
    have h := bytesInt32_int32Bytes value []
    rwa [List.append_nil] at h
  simp only [enumtypeGetTextValue, hread, if_neg hneg]
  rcases findNamed (fun _ v => decide (v = value)) list.elemlist with (_ | ⟨_, _⟩) | _ | _ <;> rfl

/-- A text is set from entries of the list, or rejected, exactly where it is the null name,
    or one of the list, or the list has a null name to end with. -/
theorem typeSets_iff (list : EntryList) (text : Name) : TypeSets list text ↔
    text = nulstring ∨ HasEnd list ∨ ∃ e ∈ list.elemlist, e.name = some text := by
  by_cases hnull : text = nulstring
  · refine iff_of_true ⟨?_, fun h => absurd hnull h⟩ (.inl hnull)
    simp only [enumtypeSetTextValue, Name.strcmp_eq_zero, hnull, if_true]
    nofun
  have hset := enumtypeSetTextValue_eq list hnull
  have hlisted : (∃ e ∈ list.elemlist, ∃ name, e.name = some name ∧ decide (name = text) = true) ↔
      ∃ e ∈ list.elemlist, e.name = some text := by simp
  rw [or_iff_right hnull, ← hlisted, ← findNamed_ne_fault (p := fun name _ => decide (name = text))]
  constructor
  · intro h hfault
    rw [hfault] at hset
    exact h.within hset
  · intro h
    obtain ⟨found, hfound⟩ := findNamed_done h
    rw [hfound] at hset
    refine ⟨?_, fun _ hnone => ?_⟩
    · rw [hset]
      rcases found with _ | ⟨_, _⟩ <;> nofun
    · have hunlisted : findNamed (fun name _ => decide (name = text)) list.elemlist = _ :=
        findNamed_unlisted fun e he name hname =>
          decide_eq_false fun heq => hnone e he (heq ▸ hname)
      rw [hfound] at hunlisted
      split_ifs at hunlisted
      obtain rfl := Outcome.done.inj hunlisted
      exact ⟨-EINVAL, by decide, hset⟩

/-- A value is written from entries of the list, or rejected, exactly where it is negative,
    or one of the list, or the list has a null name to end with. -/
theorem typeGets_iff (list : EntryList) (value : Int32) : TypeGets list value ↔
    value < 0 ∨ HasEnd list ∨ ∃ e ∈ list.elemlist, e.name ≠ none ∧ e.value = value := by
  by_cases hneg : value < 0
  · have hget : enumtypeGetTextValue (some list) (int32Bytes value) = .error (-EINVAL) := by
      have h := bytesInt32_int32Bytes value []
      rw [List.append_nil] at h
      simp only [enumtypeGetTextValue, h, if_pos hneg]
    exact iff_of_true ⟨by rw [hget]; nofun, fun _ _ => ⟨-EINVAL, by decide, hget⟩⟩ (.inl hneg)
  have hget := enumtypeGetTextValue_eq list hneg
  have hlisted :
      (∃ e ∈ list.elemlist, ∃ name, e.name = some name ∧ decide (e.value = value) = true) ↔
      ∃ e ∈ list.elemlist, e.name ≠ none ∧ e.value = value := by
    simp [Option.ne_none_iff_exists']
  rw [or_iff_right hneg, ← hlisted, ← findNamed_ne_fault (p := fun _ v => decide (v = value))]
  constructor
  · intro h hfault
    rw [hfault] at hget
    exact h.within hget
  · intro h
    obtain ⟨found, hfound⟩ := findNamed_done h
    rw [hfound] at hget
    refine ⟨?_, fun hzero hnone => ?_⟩
    · rw [hget]
      rcases found with _ | ⟨_, _⟩
      · simp only
        split_ifs <;> nofun
      · nofun
    · have hunlisted : findNamed (fun _ v => decide (v = value)) list.elemlist = _ :=
        findNamed_unlisted fun e he name hname => decide_eq_false fun heq =>
          hnone e he (by rw [hname]; nofun) heq
      rw [hfound] at hunlisted
      split_ifs at hunlisted
      obtain rfl := Outcome.done.inj hunlisted
      refine ⟨-EINVAL, by decide, ?_⟩
      simpa only [if_neg hzero] using hget

theorem int32Bytes_inj {a b : Int32} (h : int32Bytes a = int32Bytes b) : a = b := by
  have ha := bytesInt32_int32Bytes a []
  rwa [h, bytesInt32_int32Bytes, eq_comm] at ha

/-- What is written of a value that is not negative. -/
theorem enumtypeGetTextValue_eq_done {value : Int32} (hneg : ¬ value < 0) (name : Name) :
    enumtypeGetTextValue (some list) (int32Bytes value) = .done (textWithEnd name) ↔
      (named list.elemlist).find? (fun x => x.2 = value) = some (name, value) ∨
        (name = nulstring ∧ value = 0 ∧
          (named list.elemlist).find? (fun x => x.2 = value) = none ∧ HasEnd list) := by
  rw [enumtypeGetTextValue_eq list hneg, findNamed_eq]
  cases hfind : (named list.elemlist).find? fun x => decide (x.2 = value) with
  | some x =>
    have hvalue : x.2 = value := by simpa using List.find?_some hfind
    simp only [Outcome.done.injEq, Option.some.injEq, reduceCtorEq, false_and, and_false, or_false]
    exact ⟨fun h => Prod.ext (textWithEnd_inj h) hvalue, fun h => by rw [h]⟩
  | none =>
    simp only [reduceCtorEq, false_or, true_and]
    by_cases hend : HasEnd list
    · simp only [if_pos (show ∃ e ∈ list.elemlist, e.name = none from hend), hend, and_true]
      by_cases hzero : value = 0
      · simp only [hzero, if_true, Outcome.done.injEq, and_true]
        exact ⟨fun h => (textWithEnd_inj h).symm, fun h => by rw [h]⟩
      · simp [hzero]
    · simp only [if_neg (show ¬ ∃ e ∈ list.elemlist, e.name = none from hend), hend]
      simp

/-- What a name other than the null name sets. -/
theorem enumtypeSetTextValue_eq_done {name : Name} (hnull : name ≠ nulstring) (value : Int32) :
    enumtypeSetTextValue (some list) name = .done (value.toInt, int32Bytes value) ↔
      (named list.elemlist).find? (fun x => x.1 = name) = some (name, value) := by
  rw [enumtypeSetTextValue_eq list hnull, findNamed_eq]
  cases hfind : (named list.elemlist).find? fun x => decide (x.1 = name) with
  | some x =>
    have hname : x.1 = name := by simpa using List.find?_some hfind
    simp only [Outcome.done.injEq, Prod.mk.injEq, Option.some.injEq]
    exact ⟨fun h => Prod.ext hname (int32Bytes_inj h.2), fun h => by rw [h]; exact ⟨rfl, rfl⟩⟩
  | none =>
    simp only [reduceCtorEq, iff_false]
    split_ifs <;> nofun

/-- A name and a value are written and set as each other exactly where each is the first of
    the other. -/
theorem typeInverse_iff (list : EntryList) (name : Name) (value : Int32) :
    TypeInverse list name value ↔ InverseWhen list name value := by
  have hzero : enumtypeSetTextValue (some list) nulstring = .done (0, int32Bytes 0) := by
    simp only [enumtypeSetTextValue, Name.strcmp_eq_zero, if_true]
  rw [InverseWhen]
  by_cases hneg : value < 0
  · refine iff_of_false (fun h => ?_) fun h => Int32.not_lt.2 h.1 hneg
    have hread := bytesInt32_int32Bytes value []
    rw [List.append_nil] at hread
    have hget := h.get
    simp only [enumtypeGetTextValue, hread, if_pos hneg] at hget
    cases hget
  rw [and_iff_right (Int32.not_lt.1 hneg)]
  by_cases hnull : name = nulstring
  · subst hnull
    rw [if_pos rfl]
    constructor
    · intro h
      have hset := h.set
      rw [hzero, Outcome.done.injEq, Prod.mk.injEq] at hset
      refine ⟨(int32Bytes_inj hset.2).symm, ?_⟩
      exact ((enumtypeGetTextValue_eq_done hneg _).1 h.get).imp_right fun h => h.2.2
    · rintro ⟨rfl, h⟩
      exact ⟨(enumtypeGetTextValue_eq_done hneg _).2 (h.imp_right fun h => ⟨rfl, rfl, h⟩), hzero⟩
  · rw [if_neg hnull]
    refine ⟨fun h => ⟨?_, (enumtypeSetTextValue_eq_done hnull value).1 h.set⟩, fun h =>
      ⟨(enumtypeGetTextValue_eq_done hneg name).2 (.inl h.1),
        (enumtypeSetTextValue_eq_done hnull value).2 h.2⟩⟩
    exact ((enumtypeGetTextValue_eq_done hneg name).1 h.get).resolve_right fun h => hnull h.1

/-- In a list that is made of others, only as many entries are read as it counts, and what
    is not in it is rejected, exactly for the texts and values told here; a name and a value
    are inverse exactly where each is the first of the other. A list made of lists without a
    null name has no end in itself. -/
theorem elemTypeNames_iff {base : EntryList → Prop} {list : EntryList} (h : Produced base list) :
    Counted list ∧
    (∀ text, TypeSets list text ↔
      text = nulstring ∨ HasEnd list ∨ ∃ e ∈ list.elemlist, e.name = some text) ∧
    (∀ value, TypeGets list value ↔
      value < 0 ∨ HasEnd list ∨ ∃ e ∈ list.elemlist, e.name ≠ none ∧ e.value = value) ∧
    (∀ name value, TypeInverse list name value ↔ InverseWhen list name value) ∧
    ((∀ l, base l → ¬ HasEnd l) → ¬ HasEnd list) :=
  ⟨h.counted, typeSets_iff list, typeGets_iff list, typeInverse_iff list, h.named⟩

/-- The list of the types `A` and `B`. -/
def typesAB : EntryList := ⟨2, [⟨some ⟨[65], by decide⟩, 1⟩, ⟨some ⟨[66], by decide⟩, 2⟩]⟩

/-- It is merged of one of each. -/
theorem merge_typesAB : mergeNamelist ⟨1, [⟨some ⟨[65], by decide⟩, 1⟩]⟩
    ⟨1, [⟨some ⟨[66], by decide⟩, 2⟩]⟩ = .done typesAB := by decide

theorem elemTypeNames_merged :
    Produced (fun l => ¬ HasEnd l) typesAB ∧
    Counted typesAB ∧
    (∀ text, TypeSets typesAB text ↔
      text = nulstring ∨ HasEnd typesAB ∨
        ∃ e ∈ typesAB.elemlist, e.name = some text) ∧
    (∀ value, TypeGets typesAB value ↔
      value < 0 ∨ HasEnd typesAB ∨
        ∃ e ∈ typesAB.elemlist, e.name ≠ none ∧ e.value = value) ∧
    (∀ name value, TypeInverse typesAB name value ↔
      InverseWhen typesAB name value) ∧
    ((∀ l, ¬ HasEnd l → ¬ HasEnd l) → ¬ HasEnd typesAB) := by
  have hproduced : Produced (fun l => ¬ HasEnd l) typesAB :=
    .merge (.base (by decide) (by rfl)) (.base (by decide) (by rfl)) merge_typesAB
  exact ⟨hproduced, elemTypeNames_iff hproduced⟩

/-- A text that is not in a merged list is not rejected: the loop reads behind the list. -/
theorem not_typeSets_merged :
    Produced (fun l => ¬ HasEnd l) typesAB ∧ ¬ TypeSets typesAB ⟨[67], by decide⟩ :=
  ⟨.merge (.base (by decide) (by rfl)) (.base (by decide) (by rfl)) merge_typesAB,
    fun h => h.within (by decide)⟩

end Cube.Text
