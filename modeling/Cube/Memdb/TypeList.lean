import Cube.Lib.Merge
import Cube.Lib.Wire
import Cube.Memdb.Database

/-!
# Lists of names

A name list gives values to names (`struct struct_namelist`). Two of them are merged by a
loop that goes through both at once (`memdb_init.c`).

* `mergeNamelist_eq`: the loop merges counted lists by their values, and counts what it
  has merged;
* `TypeList`: lists of types, whose values go up and whose names are all different;
* `TypeList.getValue_eq`, `TypeList.getStr_eq`: what their names and values are looked up
  to be.
-/

namespace Cube.Memdb

open Lib Message

/-! ## Lists and the loops over them -/

/-- `Strcmp` of two strings that end with a zero. -/
def strcmp : List UInt8 → List UInt8 → Int
  | a :: as, b :: bs =>
    if a ≠ b then (a.toNat : Int) - b.toNat else if a = 0 then 0 else strcmp as bs
  | _, _ => 0

/-- `Strcmp` of two names. -/
def Name.strcmp (a b : Name) : Int := Memdb.strcmp (a.chars ++ [0]) (b.chars ++ [0])

/-- Strings without a zero compare equal when they are. -/
theorem strcmp_eq_zero {a b : List UInt8} (ha : (0 : UInt8) ∉ a) (hb : (0 : UInt8) ∉ b) :
    strcmp (a ++ [0]) (b ++ [0]) = 0 ↔ a = b := by
  have hdiff {x y : UInt8} (hne : x ≠ y) : (x.toNat : Int) - y.toNat ≠ 0 := by
    rw [Ne, ← UInt8.toNat_inj] at hne
    omega
  induction a generalizing b with
  | nil =>
    rcases b with _ | ⟨y, b⟩
    · simp [strcmp]
    · have hy : (0 : UInt8) ≠ y := fun h => hb (h ▸ List.mem_cons_self)
      simpa [strcmp, hy] using hdiff hy
  | cons x a ih =>
    have hx : x ≠ 0 := fun h => ha (h ▸ List.mem_cons_self)
    rcases b with _ | ⟨y, b⟩
    · simpa [strcmp, hx] using hdiff hx
    · rw [List.cons_append, List.cons_append, strcmp]
      by_cases hxy : x = y
      · subst hxy
        have hih := ih (fun h => ha (List.mem_cons_of_mem _ h)) fun h => hb (List.mem_cons_of_mem _ h)
        rw [if_neg (not_not.2 rfl), if_neg hx]
        exact hih.trans ⟨congrArg (x :: ·), fun h => (List.cons.inj h).2⟩
      · rw [if_pos hxy]
        exact iff_of_false (hdiff hxy) fun h => hxy (List.cons.inj h).1

theorem Name.strcmp_eq_zero {a b : Name} : a.strcmp b = 0 ↔ a = b :=
  (Memdb.strcmp_eq_zero a.nul_free b.nul_free).trans ⟨Name.ext, congrArg Name.chars⟩

/-- An entry of a name list, `NAME2VALUE`. There are at most `DIGEST_SIZE` characters in
    the names that are converted (`namelist_get_bin_value`). -/
structure Name2Value where
  name : Name
  value : Int
  length_le : name.chars.length ≤ DIGEST_SIZE
  deriving DecidableEq

/-- A list of names, `struct struct_namelist`. -/
structure Namelist where
  elemNo : Int
  elemlist : List Name2Value
  deriving DecidableEq

/-- The loop over the entries of a list, as many as it is to look at: the first one that
    is looked for. -/
def findEntry (p : Name2Value → Bool) : List Name2Value → Nat → Outcome (Option Name2Value)
  | _, 0 => .done none
  | [], _ + 1 => .fault
  | e :: l, n + 1 => if p e then .done (some e) else findEntry p l n

/-- `_get_value_namelist`: the value of a name, `0` where it is not in the list. -/
def getValueNamelist (name : Name) (list : Namelist) : Outcome Int := do
  let found ← findEntry (fun e => e.name.strcmp name = 0) list.elemlist list.elemNo.toNat
  .done ((found.map Name2Value.value).getD 0)

/-- `_get_str_namelist`: the name of a value. -/
def getStrNamelist (value : Int) (list : Namelist) : Outcome (Option Name) := do
  let found ← findEntry (fun e => e.value = value) list.elemlist list.elemNo.toNat
  .done (found.map Name2Value.name)

/-- The loop of `_merge_namelist`, where it may go round `n` times more: the bound on the
    entries, the sites `j` and `k` in the two lists, and the entries written. -/
def mergeLoop (list1 list2 : Namelist) :
    Nat → Int → Nat → Nat → List Name2Value → Outcome Namelist
  | 0, elemNo, _, _, buf => .done ⟨elemNo, buf⟩
  | n + 1, elemNo, j, k, buf =>
    if elemNo ≤ buf.length then .done ⟨elemNo, buf⟩
    else if (j : Int) = list1.elemNo then
      match list2.elemlist[k]? with
      | none => .fault
      | some e => mergeLoop list1 list2 n elemNo j (k + 1) (buf ++ [e])
    else if (k : Int) = list2.elemNo then
      match list1.elemlist[j]? with
      | none => .fault
      | some e => mergeLoop list1 list2 n elemNo (j + 1) k (buf ++ [e])
    else
      match list1.elemlist[j]?, list2.elemlist[k]? with
      | some e1, some e2 =>
        if e1.value < e2.value then mergeLoop list1 list2 n elemNo (j + 1) k (buf ++ [e1])
        else if e1.value > e2.value then mergeLoop list1 list2 n elemNo j (k + 1) (buf ++ [e2])
        -- A value of both lists: there is one entry less.
        else mergeLoop list1 list2 n (elemNo - 1) (j + 1) (k + 1) (buf ++ [e1])
      | _, _ => .fault

/-- `_merge_namelist`, where there is memory for the list or not. -/
def mergeNamelist (mem : Bool) (list1 list2 : Namelist) : Outcome (Option Namelist) :=
  if ¬ mem then .done none
  else do
    let elemNo := list1.elemNo + list2.elemNo
    let list ← mergeLoop list1 list2 elemNo.toNat elemNo 0 0 []
    .done (some list)

/-- A list with its count. -/
def Namelist.ofEntries (entries : List Name2Value) : Namelist := ⟨entries.length, entries⟩

/-- From any sites in counted lists on, with the bound at what there is left of both, the
    loop merges what is left. -/
theorem mergeLoop_eq (done1 done2 xs ys buf : List Name2Value) {n : Nat}
    (hn : xs.length + ys.length ≤ n) :
    mergeLoop (.ofEntries (done1 ++ xs)) (.ofEntries (done2 ++ ys)) n
        (buf.length + (xs.length + ys.length)) done1.length done2.length buf =
      .done (.ofEntries (buf ++ mergeKeyed Name2Value.value xs ys)) := by
  have hat (l r : List Name2Value) : (l ++ r)[l.length]? = r.head? := by
    rw [List.getElem?_append_right (Nat.le_refl _), Nat.sub_self, List.head?_eq_getElem?]
  induction n generalizing done1 done2 xs ys buf with
  | zero =>
    obtain ⟨rfl, rfl⟩ : xs = [] ∧ ys = [] := by
      simpa [← List.length_eq_zero_iff] using hn
    simp [mergeLoop, Namelist.ofEntries]
  | succ n ih =>
    -- What one turn writes is behind what has been written, and the bound is kept.
    have hgo (done1 done2 xs ys : List Name2Value) (e : Name2Value)
        (h : xs.length + ys.length ≤ n) (bound : Int)
        (hbound : bound = buf.length + (xs.length + ys.length) + 1) :
        mergeLoop (.ofEntries (done1 ++ xs)) (.ofEntries (done2 ++ ys)) n bound
            done1.length done2.length (buf ++ [e]) =
          .done (.ofEntries (buf ++ e :: mergeKeyed Name2Value.value xs ys)) := by
      have hih := ih done1 done2 xs ys (buf ++ [e]) h
      rw [List.append_assoc, List.singleton_append] at hih
      rw [← hih, hbound, List.length_append, List.length_singleton]
      congr 1
      push_cast
      omega
    have hleft (x : Name2Value) (xs ys : List Name2Value) (h : xs.length + ys.length ≤ n) :=
      hgo (done1 ++ [x]) done2 xs ys x h (buf.length + ((x :: xs).length + ys.length))
        (by rw [List.length_cons]; push_cast; omega)
    have hright (y : Name2Value) (xs ys : List Name2Value) (h : xs.length + ys.length ≤ n) :=
      hgo done1 (done2 ++ [y]) xs ys y h (buf.length + (xs.length + (y :: ys).length))
        (by rw [List.length_cons]; push_cast; omega)
    have hboth (x y : Name2Value) (xs ys : List Name2Value) (h : xs.length + ys.length ≤ n) :=
      hgo (done1 ++ [x]) (done2 ++ [y]) xs ys x h
        (buf.length + ((x :: xs).length + (y :: ys).length) - 1)
        (by rw [List.length_cons, List.length_cons]; push_cast; omega)
    simp only [List.append_assoc, List.singleton_append, List.length_append,
      List.length_singleton] at hleft hright hboth
    have hmore {k l : Nat} (h : 0 < k + l) :
        ¬ (buf.length : Int) + ((k : Int) + (l : Int)) ≤ buf.length := by omega
    have hsite (e : Name2Value) (l r : List Name2Value) :
        ¬ ((l.length : Nat) : Int) = (Namelist.ofEntries (l ++ e :: r)).elemNo := by
      simp only [Namelist.ofEntries, List.length_append, List.length_cons]
      omega
    rw [mergeLoop]
    rcases xs with _ | ⟨x, xs⟩ <;> rcases ys with _ | ⟨y, ys⟩
    · rw [if_pos (by simp)]
      simp [Namelist.ofEntries]
    · -- The first list is done.
      rw [if_neg (hmore (by rw [List.length_cons]; omega)), if_pos (by simp [Namelist.ofEntries])]
      simp only [Namelist.ofEntries, hat, List.head?_cons]
      rw [mergeKeyed_nil_left]
      have hstep := hright y [] ys (by simpa using hn)
      rw [mergeKeyed_nil_left] at hstep
      exact hstep
    · -- The second list is done.
      rw [if_neg (hmore (by rw [List.length_cons]; omega)), if_neg (hsite _ _ _),
        if_pos (by simp [Namelist.ofEntries])]
      simp only [Namelist.ofEntries, hat, List.head?_cons]
      have hstep := hleft x xs [] (by simpa using hn)
      rw [mergeKeyed_nil_right] at hstep ⊢
      exact hstep
    · rw [List.length_cons, List.length_cons] at hn
      rw [if_neg (hmore (by rw [List.length_cons]; omega)), if_neg (hsite _ _ _),
        if_neg (hsite _ _ _)]
      simp only [Namelist.ofEntries, hat, List.head?_cons]
      by_cases hlt : x.value < y.value
      · rw [if_pos hlt, mergeKeyed_lt hlt]
        exact hleft x xs (y :: ys) (by rw [List.length_cons]; omega)
      · rw [if_neg hlt]
        by_cases hgt : y.value < x.value
        · rw [if_pos hgt, mergeKeyed_gt hgt]
          exact hright y (x :: xs) ys (by rw [List.length_cons]; omega)
        · rw [if_neg hgt, mergeKeyed_eq (le_antisymm (not_lt.1 hgt) (not_lt.1 hlt))]
          exact hboth x y xs ys (by omega)

/-- Two counted lists are merged by their values. -/
theorem mergeNamelist_eq (xs ys : List Name2Value) :
    mergeNamelist true (.ofEntries xs) (.ofEntries ys) =
      .done (some (.ofEntries (mergeKeyed Name2Value.value xs ys))) := by
  have hcount : ((xs.length : Int) + ys.length).toNat = xs.length + ys.length := by omega
  have hloop : mergeLoop (.ofEntries xs) (.ofEntries ys) (xs.length + ys.length)
      (xs.length + ys.length) 0 0 [] = .done (.ofEntries (mergeKeyed Name2Value.value xs ys)) := by
    simpa using mergeLoop_eq [] [] xs ys [] (Nat.le_refl _)
  simp only [Namelist.ofEntries] at hloop
  simp only [mergeNamelist, not_true_eq_false, if_false, Namelist.ofEntries, hcount, hloop,
    Outcome.done_bind]

/-! ## Lists of types -/

/-- A list of types: its values go up, its names are all different, and no value is `0`
    (`namelist_set_text_value` gives them from `1` on). -/
structure TypeList where
  entries : List Name2Value
  increasing : Increasing Name2Value.value entries
  nodup : (entries.map Name2Value.name).Nodup
  value_ne_zero : ∀ e ∈ entries, e.value ≠ 0

namespace TypeList

/-- The name list of the types. -/
def namelist (list : TypeList) : Namelist := .ofEntries list.entries

variable {list : TypeList}

theorem findEntry_eq (p : Name2Value → Bool) (l : List Name2Value) :
    findEntry p l l.length = .done (l.find? p) := by
  induction l with
  | nil => rfl
  | cons e l ih =>
    rw [List.length_cons, findEntry, List.find?_cons, ih]
    cases p e <;> rfl

/-- An entry that is the only one of its kind is the one found. -/
theorem find_eq_some {p : Name2Value → Bool} {e : Name2Value} (he : e ∈ list.entries)
    (hp : p e = true) (hone : ∀ x ∈ list.entries, p x = true → x = e) :
    list.entries.find? p = some e := by
  cases hfind : list.entries.find? p with
  | none => exact absurd hp (List.find?_eq_none.1 hfind e he)
  | some x => rw [hone x (List.mem_of_find?_eq_some hfind) (List.find?_some hfind)]

theorem name_inj {x y : Name2Value} (hx : x ∈ list.entries) (hy : y ∈ list.entries)
    (h : x.name = y.name) : x = y := List.inj_on_of_nodup_map list.nodup hx hy h

/-- A name of the list has the value it is listed with. -/
theorem getValue_eq {e : Name2Value} (he : e ∈ list.entries) :
    getValueNamelist e.name list.namelist = .done e.value := by
  have hfind := list.find_eq_some (p := fun x => x.name.strcmp e.name = 0) he
    (by simpa using Name.strcmp_eq_zero.2 rfl)
    fun x hx h => name_inj hx he (Name.strcmp_eq_zero.1 (by simpa using h))
  simp only [getValueNamelist, namelist, Namelist.ofEntries, Int.toNat_natCast, findEntry_eq,
    hfind, Outcome.done_bind]
  rfl

/-- A name that is not in the list has the value `0`. -/
theorem getValue_eq_zero {name : Name} (h : ∀ e ∈ list.entries, e.name ≠ name) :
    getValueNamelist name list.namelist = .done 0 := by
  have hfind : list.entries.find? (fun x => decide (x.name.strcmp name = 0)) = none := by
    refine List.find?_eq_none.2 fun e he hp => h e he (Name.strcmp_eq_zero.1 ?_)
    simpa using hp
  simp only [getValueNamelist, namelist, Namelist.ofEntries, Int.toNat_natCast, findEntry_eq,
    hfind, Outcome.done_bind]
  rfl

/-- A name resolves to a value other than `0` exactly when it is listed with it. -/
theorem getValue_eq_iff {name : Name} {value : Int} (hvalue : value ≠ 0) :
    getValueNamelist name list.namelist = .done value ↔
      ∃ e ∈ list.entries, e.name = name ∧ e.value = value := by
  constructor
  · intro h
    by_cases hname : ∃ e ∈ list.entries, e.name = name
    · obtain ⟨e, he, rfl⟩ := hname
      rw [getValue_eq he] at h
      exact ⟨e, he, rfl, Outcome.done.inj h⟩
    · rw [getValue_eq_zero fun e he hn => hname ⟨e, he, hn⟩] at h
      exact absurd (Outcome.done.inj h).symm hvalue
  · rintro ⟨e, he, rfl, rfl⟩
    exact getValue_eq he

/-- A value of the list has the name it is listed with. -/
theorem getStr_eq {e : Name2Value} (he : e ∈ list.entries) :
    getStrNamelist e.value list.namelist = .done (some e.name) := by
  have hfind := list.find_eq_some (p := fun x => x.value = e.value) he (by simp)
    fun x hx h => list.increasing.key_inj hx he (by simpa using h)
  simp only [getStrNamelist, namelist, Namelist.ofEntries, Int.toNat_natCast, findEntry_eq,
    hfind, Outcome.done_bind]
  rfl

/-- The names that a second list gives to values that are not in use in the first are
    not in the first. -/
def Apart (list1 list2 : TypeList) : Prop :=
  ∀ e ∈ list2.entries, (∀ x ∈ list1.entries, x.value ≠ e.value) →
    ∀ x ∈ list1.entries, x.name ≠ e.name

/-- Two lists apart are merged into one. -/
def merge (list1 list2 : TypeList) (h : Apart list1 list2) : TypeList where
  entries := mergeKeyed Name2Value.value list1.entries list2.entries
  increasing := list1.increasing.merge list2.increasing
  nodup := by
    have hsorted := list1.increasing.merge list2.increasing
    refine List.Nodup.map_on (fun x hx y hy hxy => ?_) (hsorted.imp fun hlt heq => ?_)
    · rw [mem_mergeKeyed list1.increasing list2.increasing] at hx hy
      rcases hx with hx | ⟨hx, hxnew⟩ <;> rcases hy with hy | ⟨hy, hynew⟩
      · exact name_inj hx hy hxy
      · exact absurd hxy (h y hy hynew x hx)
      · exact absurd hxy.symm (h x hx hxnew y hy)
      · exact name_inj hx hy hxy
    · exact hlt.ne (congrArg Name2Value.value heq)
  value_ne_zero e he := (mem_or_mem_of_mem_mergeKeyed he).elim
    (list1.value_ne_zero e) (list2.value_ne_zero e)

variable {list1 list2 : TypeList} {h : Apart list1 list2}

theorem mem_merge {e : Name2Value} : e ∈ (merge list1 list2 h).entries ↔
    e ∈ list1.entries ∨ e ∈ list2.entries ∧ ∀ x ∈ list1.entries, x.value ≠ e.value :=
  mem_mergeKeyed list1.increasing list2.increasing

/-- The loop merges lists of types into the list of both. -/
theorem mergeNamelist_merge (h : Apart list1 list2) :
    mergeNamelist true list1.namelist list2.namelist = .done (some (merge list1 list2 h).namelist) :=
  mergeNamelist_eq _ _

end TypeList

end Cube.Memdb
