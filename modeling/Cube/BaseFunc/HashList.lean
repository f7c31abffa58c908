import Cube.Dispatch.RouteTree
import Cube.ExModule.MsgQueue
import Cube.Lib.Replies
import Cube.Lib.Wire

/-!
# The hash list

Elements with a uuid in a table of linked lists, chosen by the uuid (`basefunc.c`).
`init_hash_list` makes tables of `2 ^ order` lists, for the orders up to 10, but only those
of 256 and of 1024 lists are used by the other functions: in all others nothing is ever
added, and nothing found.

* `tabled_add`, `searched_site`, `tabled_remove`: what is in the lists of a table.
* `visits_table`: the iterations over a table visit its elements, list by list.
* `isHashList_iff`: the orders for which a hash list is one.
-/

namespace Cube.BaseFunc

open Lib Route
open ExModule (Malloc)

variable {A E : Type} [DecidableEq A]

/-- A record of a hash list: an entry of its table, or one that was allocated. -/
inductive Site (A : Type)
  | bucket (i : Nat)
  | slot (a : A)
  deriving DecidableEq, Repr

/-- A table: the number of its entries, the entries and the records linked to them, and
    the addresses of the memory in use. -/
structure Table (A E : Type) where
  hashNum : Nat
  mem : Records (Site A) E
  used : List A

/-- The place of an iteration: `curr_index` and `curr_head`. -/
structure Cursor (A : Type) where
  index : Nat
  head : Option (Site A)
  deriving DecidableEq, Repr

/-- A hash list (`UUID_LIST`). -/
structure HashList (A E : Type) where
  table : Table A E
  cursor : Cursor A

/-- `init_hash_list`, with the memory for its table. -/
def initHashList (mem : Records (Site A) E) (used : List A) (order : Int) :
    Option (HashList A E) :=
  if order < 0 then none
  else if order > 10 then none
  else
    let hashNum := 1 <<< order.toNat
    some {
      table := {
        hashNum := hashNum
        mem := (List.range hashNum).foldl (fun mem i => nodeListInit mem (.bucket i)) mem
        used := used }
      cursor := { index := 0, head := none } }

/-- `get_hash_index`. -/
def getHashIndex (uuid : Uuid) : Nat := leNat (uuid.toList.take 4) &&& (0xffff >>> (16 - 10))

/-- `get_hash_subindex`. -/
def getHashSubindex (uuid : Uuid) : Nat :=
  (getElem uuid 0 digestSize_pos).toNat &&& (0xff >>> (8 - 8))

/-- The entry of a table for a uuid. -/
def hindex (hashNum : Nat) (uuid : Uuid) : Option Nat :=
  if hashNum = 256 then some (getHashSubindex uuid)
  else if hashNum = 1024 then some (getHashIndex uuid)
  else none

/-- `comp_uuid`, by words of 32 bits. -/
def compWords : List UInt8 → List UInt8 → Nat → Int
  | _, _, 0 => 0
  | src, desc, n + 1 =>
    if leNat (src.take 4) > leNat (desc.take 4) then 1
    else if leNat (src.take 4) < leNat (desc.take 4) then -1
    else compWords (src.drop 4) (desc.drop 4) n

/-- `comp_uuid`. -/
def compUuid (src desc : Uuid) : Int := compWords src.toList desc.toList 8

namespace Table

variable (uuid : E → Uuid) (t : Table A E)

/-- To read or write a record. -/
def touch (site : Site A) : Outcome Unit :=
  match site with
  | .bucket i => if i < t.hashNum then .done () else .fault
  | .slot a => if a ∈ t.used then .done () else .fault

/-- `hashlist_add_elem`. -/
def addElem (m : Malloc A) (elem : E) : Outcome (Option (Site A) × Table A E) :=
  match m.malloc t.used with
  | none => .done (none, t)
  | some a =>
    match hindex t.hashNum (uuid elem) with
    | none => .done (none, { t with
        mem := {
          links := t.mem.links.init (.slot a)
          record := Function.update t.mem.record (.slot a) (some elem) }
        used := a :: t.used })
    | some i => do
      t.touch (.bucket i)
      t.touch (t.mem.links.prev (.bucket i))
      pure (some (.slot a), { t with
        mem := (nodeListAdd (some (.slot a)) t.mem (.bucket i) elem).2
        used := a :: t.used })

/-- The loop of `list_find_uuidelem`, in as many rounds as the first argument says. -/
def listFindUuidelem (head : Site A) (u : Uuid) : Nat → Site A → Outcome (Option (Site A))
  | 0, _ => .fault
  | rounds + 1, curr =>
    if curr = head then .done none
    else do
      t.touch curr
      match t.mem.record curr with
      | none => .fault
      | some elem =>
        if compUuid (uuid elem) u = 0 then pure (some curr)
        else listFindUuidelem head u rounds (t.mem.links.next curr)

/-- `_hashlist_find_elem`. -/
def findSite (u : Uuid) : Outcome (Option (Site A)) :=
  match hindex t.hashNum u with
  | none => .done none
  | some i => do
    t.touch (.bucket i)
    t.listFindUuidelem uuid (.bucket i) u (t.used.length + 1) (t.mem.links.next (.bucket i))

/-- `hashlist_find_elem`. -/
def findElem (u : Uuid) : Outcome (Option E) := do
  match ← t.findSite uuid u with
  | none => pure none
  | some site => pure (t.mem.record site)

/-- `hashlist_remove_elem`. -/
def removeElem (u : Uuid) : Outcome (Option E × Table A E) := do
  match ← t.findSite uuid u with
  | none => pure (none, t)
  | some (.bucket _) => .fault
  | some (.slot a) => do
    t.touch (t.mem.links.next (.slot a))
    t.touch (t.mem.links.prev (.slot a))
    pure (t.mem.record (.slot a), { t with
      mem := { t.mem with links := t.mem.links.del (.slot a) }
      used := t.used.erase a })

/-- The loop of `hashlist_get_first` and `hashlist_get_first_parall` over the entries
    from `i` on, of which there are as many as the first argument says. -/
def first : Nat → Nat → Outcome (Option E × Cursor A)
  | 0, _ => .done (none, ⟨0, none⟩)
  | n + 1, i => do
    t.touch (.bucket i)
    let temp := t.mem.links.next (.bucket i)
    if temp = .bucket i then first n (i + 1)
    else do
      t.touch temp
      pure (t.mem.record temp, ⟨i, some temp⟩)

/-- The loop of `hashlist_get_next` and `hashlist_get_next_parall`. From the last record
    of a list it goes on with the next entry. -/
def next : Nat → Nat → Site A → Outcome (Option E × Cursor A)
  | 0, _, _ => .done (none, ⟨0, none⟩)
  | n + 1, i, temp => do
    t.touch temp
    let temp := t.mem.links.next temp
    if temp = .bucket i then next n (i + 1) (.bucket (i + 1))
    else do
      t.touch temp
      pure (t.mem.record temp, ⟨i, some temp⟩)

end Table

/-- `hashlist_get_first_parall`. -/
def hashlistGetFirstParall (h : HashList A E) : Outcome (Option E × Cursor A) :=
  h.table.first h.table.hashNum 0

/-- `hashlist_get_next_parall`. -/
def hashlistGetNextParall (h : HashList A E) (c : Cursor A) : Outcome (Option E × Cursor A) :=
  match c.head with
  | none => .done (none, c)
  | some temp => h.table.next (h.table.hashNum - c.index) c.index temp

/-- `hashlist_get_first`. -/
def hashlistGetFirst (h : HashList A E) : Outcome (Option E × HashList A E) := do
  let (record, cursor) ← h.table.first h.table.hashNum 0
  pure (record, { h with cursor := cursor })

/-- `hashlist_get_next`. -/
def hashlistGetNext (h : HashList A E) : Outcome (Option E × HashList A E) :=
  match h.cursor.head with
  | none => .done (none, h)
  | some temp => do
    let (record, cursor) ←
      h.table.next (h.table.hashNum - h.cursor.index) h.cursor.index temp
    pure (record, { h with cursor := cursor })

/-! ## What a hash list is for -/

/-- A call on a hash list. -/
inductive HashCall (E : Type)
  | add (elem : E)
  | remove (u : Uuid)
  | find (u : Uuid)
  deriving DecidableEq, Repr

/-- What a call returns: whether there was memory to add the element, or an element. -/
inductive HashReply (E : Type)
  | added (memory : Bool)
  | elem (found : Option E)
  deriving DecidableEq, Repr

/-- A call on a hash list, and the list after it. -/
def HashList.step (uuid : E → Uuid) (m : Malloc A) (h : HashList A E) :
    HashCall E → Outcome (HashReply E) × HashList A E
  | .add elem =>
    match h.table.addElem uuid m elem with
    | .done (_, t) => (.done (.added (m.malloc h.table.used).isSome), { h with table := t })
    | .error e => (.error e, h)
    | .fault => (.fault, h)
  | .remove u =>
    match h.table.removeElem uuid u with
    | .done (found, t) => (.done (.elem found), { h with table := t })
    | .error e => (.error e, h)
    | .fault => (.fault, h)
  | .find u => ((fun found => .elem found) <$> h.table.findElem uuid u, h)

/-- The answers to the calls on a list in which the elements `l` are present. -/
def Holding (uuid : E → Uuid) (l : List E) (c : HashCall E) (reply : Outcome (HashReply E))
    (l' : List E) : Prop :=
  match c with
  | .add elem => reply = .done (.added true) ∧ l' = elem :: l ∨ reply = .done (.added false) ∧ l' = l
  | .remove u =>
    reply = .done (.elem none) ∧ (∀ e ∈ l, uuid e ≠ u) ∧ l' = l ∨
      ∃ e, reply = .done (.elem (some e)) ∧ uuid e = u ∧ l.Perm (e :: l')
  | .find u =>
    l' = l ∧ (reply = .done (.elem none) ∧ (∀ e ∈ l, uuid e ≠ u) ∨
      ∃ e ∈ l, reply = .done (.elem (some e)) ∧ uuid e = u)

/-- What is returned at first, and then by going on from where it is, are the elements
    `l` and, behind the last one, NULL. -/
def Visits {σ : Type} (next : σ → Outcome (Option E × σ)) : Outcome (Option E × σ) → List E → Prop
  | found, [] => ∃ s, found = .done (none, s)
  | found, e :: l => ∃ s, found = .done (some e, s) ∧ Visits next (next s) l

/-- Both iterations visit the elements `l`, each of them once and in the same order. -/
def Iterates (h : HashList A E) (l : List E) : Prop :=
  ∃ visited, visited.Perm l ∧ Visits hashlistGetNext (hashlistGetFirst h) visited ∧
    Visits (hashlistGetNextParall h) (hashlistGetFirstParall h) visited

/-- The hash lists of an order hold the elements that were added and not removed, in
    every run, whatever memory there is. -/
def IsHashList (A E : Type) [DecidableEq A] (order : Int) : Prop :=
  ∀ (uuid : E → Uuid) (m : Malloc A) (mem : Records (Site A) E) (used : List A) (h : HashList A E),
    initHashList mem used order = some h →
      ∀ calls, Meets (HashList.step uuid m) Iterates (Holding uuid) h [] calls

/-! ## Uuids -/

variable {n : Nat} {u : Uuid} {a : A} {l : List E} {e : E}

theorem hindex_lt {i : Nat} (h : hindex n u = some i) : i < n := by
  rw [hindex] at h
  split at h
  next hn =>
    obtain rfl := Option.some.inj h
    exact hn ▸ Nat.lt_of_le_of_lt Nat.and_le_right (by decide)
  next =>
    split at h
    next hn =>
      obtain rfl := Option.some.inj h
      exact hn ▸ Nat.lt_of_le_of_lt Nat.and_le_right (by decide)
    next => cases h

theorem compWords_eq_zero {src desc : List UInt8} (hs : src.length = 4 * n)
    (hd : desc.length = 4 * n) : compWords src desc n = 0 ↔ src = desc := by
  induction n generalizing src desc with
  | zero =>
    obtain rfl := List.eq_nil_of_length_eq_zero hs
    obtain rfl := List.eq_nil_of_length_eq_zero hd
    exact iff_of_true rfl rfl
  | succ n ih =>
    have hrest : compWords (src.drop 4) (desc.drop 4) n = 0 ↔ src.drop 4 = desc.drop 4 :=
      ih (by rw [List.length_drop]; omega) (by rw [List.length_drop]; omega)
    have hword : leNat (src.take 4) = leNat (desc.take 4) ↔ src.take 4 = desc.take 4 := by
      refine ⟨fun h => ?_, fun h => by rw [h]⟩
      rw [← leBytes_leNat (src.take 4), ← leBytes_leNat (desc.take 4), h, List.length_take,
        List.length_take, hs, hd]
    have hsplit : src = desc ↔ src.take 4 = desc.take 4 ∧ src.drop 4 = desc.drop 4 := by
      refine ⟨fun h => by rw [h]; exact ⟨rfl, rfl⟩, fun h => ?_⟩
      rw [← List.take_append_drop 4 src, h.1, h.2, List.take_append_drop]
    rw [compWords, hsplit, ← hword, ← hrest]
    split
    next hgt => exact iff_of_false (by decide) fun h => absurd h.1 (by omega)
    next hgt =>
      split
      next hlt => exact iff_of_false (by decide) fun h => absurd h.1 (by omega)
      next hlt => exact (and_iff_right (by omega)).symm

/-- Uuids compare equal if they are the same in all 32 bytes. -/
theorem compUuid_eq_zero {src desc : Uuid} : compUuid src desc = 0 ↔ src = desc := by
  have hlen : ∀ u : Uuid, u.toList.length = 4 * 8 := fun u => Vector.length_toList
  rw [compUuid, compWords_eq_zero (hlen src) (hlen desc)]
  exact Vector.toList_inj

/-! ## The lists of a table -/

section Frame

variable {mem : Records (Site A) E} {head head' x : Site A} {sites : List (Site A)} {l : List E}

omit [DecidableEq A] in
/-- A list stays as it is when the links and elements of its records do. -/
theorem holds_frame {mem' : Records (Site A) E} (h : Holds mem head sites l)
    (hnext : ∀ u ∈ head :: sites, mem'.links.next u = mem.links.next u)
    (hprev : ∀ u ∈ head :: sites, mem'.links.prev u = mem.links.prev u)
    (hrecord : ∀ u ∈ head :: sites, mem'.record u = mem.record u) : Holds mem' head sites l where
  ring := h.ring.congr hnext hprev
  head_record := (hrecord head List.mem_cons_self).trans h.head_record
  record := by
    rw [← h.record]
    exact List.map_congr_left fun u hu => hrecord u (List.mem_cons_of_mem _ hu)

/-- An element added to one list leaves another one as it is. -/
theorem holds_add_frame (h : Holds mem head sites l) (elem : E) (hx : x ∉ head :: sites)
    (hxh : x ≠ head') (hhead : head' ∉ head :: sites) (hprev : mem.links.prev head' ∉ head :: sites) :
    Holds (nodeListAdd (some x) mem head' elem).2 head sites l := by
  refine holds_frame h (fun u hu => ?_) (fun u hu => ?_) fun u hu => ?_
  all_goals
    have hux : u ≠ x := fun hux => hx (hux ▸ hu)
    have huh : u ≠ head' := fun huh => hhead (huh ▸ hu)
    have hup : u ≠ mem.links.prev head' := fun hup => hprev (hup ▸ hu)
    simp [nodeListAdd, Links.addTail, Links.insert, hxh.symm, hux, huh, hup, Links.init]

/-- A record taken out of one list leaves another one as it is. -/
theorem holds_del_frame (h : Holds mem head sites l) (hx : x ∉ head :: sites)
    (hnext : mem.links.next x ∉ head :: sites) (hprev : mem.links.prev x ∉ head :: sites) :
    Holds { mem with links := mem.links.del x } head sites l := by
  by_cases hself : mem.links.next x = x
  · have hdel : mem.links.del x = mem.links := if_pos hself
    rw [hdel]
    exact h
  · refine holds_frame h (fun u hu => ?_) (fun u hu => ?_) fun u _ => rfl
    · have hup : u ≠ mem.links.prev x := fun hup => hprev (hup ▸ hu)
      rw [Links.del_next hself fun hux => hx (hux ▸ hu), if_neg hup]
    · have hun : u ≠ mem.links.next x := fun hun => hnext (hun ▸ hu)
      rw [Links.del_prev hself fun hux => hx (hux ▸ hu), if_neg hun]

end Frame

/-- The lists of a table: the records of each, and the elements they are records of. -/
structure Tabled (uuid : E → Uuid) (t : Table A E) (sites : Nat → List A) (elems : Nat → List E) :
    Prop where
  holds : ∀ i < t.hashNum, Holds t.mem (.bucket i) ((sites i).map .slot) (elems i)
  used : ∀ i < t.hashNum, ∀ a ∈ sites i, a ∈ t.used
  disjoint : ∀ i < t.hashNum, ∀ j < t.hashNum, i ≠ j → ∀ a ∈ sites i, a ∉ sites j
  hashed : ∀ i < t.hashNum, ∀ e ∈ elems i, hindex t.hashNum (uuid e) = some i

variable {uuid : E → Uuid} {t : Table A E} {sites : Nat → List A} {elems : Nat → List E} {i : Nat}

omit [DecidableEq A] in
theorem slot_mem {l : List A} : Site.slot a ∈ l.map .slot ↔ a ∈ l := by
  simp

theorem Tabled.touch_bucket (hi : i < t.hashNum) : t.touch (.bucket i) = .done () := if_pos hi

theorem Tabled.touch_slot (h : Tabled uuid t sites elems) (hi : i < t.hashNum)
    (ha : a ∈ sites i) : t.touch (.slot a) = .done () := if_pos (h.used i hi a ha)

/-- A record of a list, or its entry in the table, can be read and written. -/
theorem Tabled.touch_mem (h : Tabled uuid t sites elems) (hi : i < t.hashNum) {site : Site A}
    (hsite : site ∈ Site.bucket i :: (sites i).map .slot) : t.touch site = .done () := by
  rcases List.mem_cons.1 hsite with rfl | hsite
  · exact touch_bucket hi
  · obtain ⟨a, ha, rfl⟩ := List.mem_map.1 hsite
    exact h.touch_slot hi ha

omit [DecidableEq A] in
/-- What is in one list is not in another one. -/
theorem Tabled.notMem (h : Tabled uuid t sites elems) (hi : i < t.hashNum) {j : Nat}
    (hj : j < t.hashNum) (hij : i ≠ j) {site : Site A}
    (hsite : site ∈ Site.bucket i :: (sites i).map .slot) :
    site ∉ Site.bucket j :: (sites j).map .slot := by
  intro hmem
  rcases List.mem_cons.1 hsite with rfl | hsite
  · simp [hij] at hmem
  · obtain ⟨a, ha, rfl⟩ := List.mem_map.1 hsite
    simp only [List.mem_cons, reduceCtorEq, slot_mem, false_or] at hmem
    exact h.disjoint i hi j hj hij a ha hmem

/-! ## The calls -/

section Update

variable {n : Nat}

/-- The elements of a table are those in front of a list, of it and behind it. -/
theorem exists_flatMap_update (hi : i < n) (elems : Nat → List E) :
    ∃ front back, ∀ l, (List.range n).flatMap (Function.update elems i l) = front ++ l ++ back := by
  obtain ⟨below, above, hrange⟩ := List.append_of_mem (List.mem_range.2 hi)
  have hnd : (below ++ i :: above).Nodup := hrange ▸ List.nodup_range
  have hbelow : ∀ j ∈ below, j ≠ i := by grind
  have habove : ∀ j ∈ above, j ≠ i := by grind
  have hsame : ∀ (l : List E) (js : List Nat), (∀ j ∈ js, j ≠ i) →
      js.flatMap (Function.update elems i l) = js.flatMap elems := fun l js hjs =>
    List.flatMap_congr fun j hj => Function.update_of_ne (hjs j hj) ..
  refine ⟨below.flatMap elems, above.flatMap elems, fun l => ?_⟩
  rw [hrange, List.flatMap_append, List.flatMap_cons, Function.update_self, hsame l _ hbelow,
    hsame l _ habove, List.append_assoc]

theorem flatMap_add (hi : i < n) (elems : Nat → List E) (e : E) :
    ((List.range n).flatMap (Function.update elems i (elems i ++ [e]))).Perm
      (e :: (List.range n).flatMap elems) := by
  obtain ⟨front, back, h⟩ := exists_flatMap_update hi elems
  have hold := h (elems i)
  rw [Function.update_eq_self] at hold
  rw [h, hold, List.append_assoc, List.append_assoc, List.singleton_append, ← List.append_assoc]
  exact List.perm_middle

theorem flatMap_remove {l₁ l₂ : List E} (hi : i < n) (helems : elems i = l₁ ++ e :: l₂) :
    ((List.range n).flatMap elems).Perm
      (e :: (List.range n).flatMap (Function.update elems i (l₁ ++ l₂))) := by
  obtain ⟨front, back, h⟩ := exists_flatMap_update hi elems
  have hold := h (elems i)
  rw [Function.update_eq_self, helems] at hold
  rw [h, hold]
  have hmiddle : (front ++ l₁ ++ e :: (l₂ ++ back)).Perm (e :: (front ++ l₁ ++ (l₂ ++ back))) :=
    List.perm_middle
  simpa only [List.append_assoc, List.cons_append] using hmiddle

/-- What is in the lists after one of them got another element at its end. -/
theorem mem_update_append {f : Nat → List E} {x : E} {j : Nat} :
    x ∈ Function.update f i (f i ++ [e]) j ↔ x ∈ f j ∨ j = i ∧ x = e := by
  by_cases hij : j = i
  · subst hij
    simp
  · simp [hij]

/-- What is in the lists after one of them lost an element was in them. -/
theorem mem_of_update_remove {f : Nat → List E} {l₁ l₂ : List E} {x : E} {j : Nat}
    (h : f i = l₁ ++ e :: l₂) (hx : x ∈ Function.update f i (l₁ ++ l₂) j) : x ∈ f j := by
  by_cases hij : j = i
  · subst hij
    rw [Function.update_self, List.mem_append] at hx
    rw [h, List.mem_append, List.mem_cons]
    exact hx.imp_right .inr
  · rwa [Function.update_of_ne hij] at hx

end Update

/-- An element is added to the list of its uuid. -/
theorem tabled_add {m : Malloc A} {elem : E} (h : Tabled uuid t sites elems)
    (hm : m.malloc t.used = some a) (hi : hindex t.hashNum (uuid elem) = some i) :
    ∃ t', t.addElem uuid m elem = .done (some (.slot a), t') ∧ t'.hashNum = t.hashNum ∧
      Tabled uuid t' (Function.update sites i (sites i ++ [a]))
        (Function.update elems i (elems i ++ [elem])) := by
  have hlt := hindex_lt hi
  have hused : a ∉ t.used := m.fresh _ _ hm
  have hnew : ∀ j < t.hashNum, Site.slot a ∉ Site.bucket j :: (sites j).map .slot := by
    intro j hj hmem
    simp only [List.mem_cons, reduceCtorEq, slot_mem, false_or] at hmem
    exact hused (h.used j hj a hmem)
  have hprev := (h.holds i hlt).ring.seg.prev_mem
  refine ⟨{ t with
    mem := (nodeListAdd (some (.slot a)) t.mem (.bucket i) elem).2
    used := a :: t.used }, ?_, rfl, ?_, ?_, ?_, ?_⟩
  · simp only [Table.addElem, hm, hi, h.touch_mem hlt List.mem_cons_self, h.touch_mem hlt hprev,
      Outcome.done_bind, Outcome.pure_eq]
  · intro j hj
    by_cases hij : j = i
    · subst hij
      rw [Function.update_self, Function.update_self, List.map_append]
      exact holds_nodeListAdd (h.holds j hj) (hnew j hj) elem
    · rw [Function.update_of_ne hij, Function.update_of_ne hij]
      refine holds_add_frame (h.holds j hj) elem (hnew j hj) (by simp) ?_ ?_
      · exact h.notMem hlt hj (Ne.symm hij) List.mem_cons_self
      · exact h.notMem hlt hj (Ne.symm hij) hprev
  · intro j hj b hb
    rcases mem_update_append.1 hb with hb | ⟨-, rfl⟩
    · exact List.mem_cons_of_mem _ (h.used j hj b hb)
    · exact List.mem_cons_self
  · intro j hj k hk hjk b hb hbk
    -- the new record is in no list but the one it was added to
    rcases mem_update_append.1 hb with hj' | ⟨rfl, rfl⟩ <;>
      rcases mem_update_append.1 hbk with hk' | ⟨rfl, hba⟩
    · exact h.disjoint j hj k hk hjk b hj' hk'
    · exact hused (h.used j hj a (hba ▸ hj'))
    · exact hused (h.used k hk b hk')
    · exact hjk rfl
  · intro j hj e he
    rcases mem_update_append.1 he with he | ⟨rfl, rfl⟩
    · exact h.hashed j hj e he
    · exact hi

/-- What the search for a uuid comes to in a list: its end, or the first record of an
    element that has the uuid. -/
inductive Searched (uuid : E → Uuid) (t : Table A E) (u : Uuid) (sites : List A) (l : List E) :
    Outcome (Option (Site A)) → Prop
  | missing (hne : ∀ e ∈ l, uuid e ≠ u) : Searched uuid t u sites l (.done none)
  | found (s₁ s₂ : List A) (a : A) (l₁ l₂ : List E) (e : E) (hsites : sites = s₁ ++ a :: s₂)
      (hl : l = l₁ ++ e :: l₂) (hlen : s₁.length = l₁.length) (hu : uuid e = u)
      (hrecord : t.mem.record (.slot a) = some e) :
      Searched uuid t u sites l (.done (some (.slot a)))

omit [DecidableEq A] in
theorem Searched.cons {s : List A} {b : A}
    {found : Outcome (Option (Site A))} (h : Searched uuid t u s l found) (hne : uuid e ≠ u) :
    Searched uuid t u (b :: s) (e :: l) found := by
  cases h with
  | missing hnone => exact .missing (List.forall_mem_cons.2 ⟨hne, hnone⟩)
  | found s₁ s₂ a l₁ l₂ e' hsites hl hlen hu hrecord =>
    subst hsites hl
    exact .found (b :: s₁) s₂ a (e :: l₁) l₂ e' rfl rfl (congrArg (· + 1) hlen) hu hrecord

theorem searched_loop {head prev : Site A} {s : List A} {rounds : Nat}
    (hseg : t.mem.links.Seg prev (s.map .slot) head) (hhead : ∀ a ∈ s, Site.slot a ≠ head)
    (hused : ∀ a ∈ s, a ∈ t.used) (hl : (s.map .slot).map t.mem.record = l.map some)
    (hrounds : s.length < rounds) :
    Searched uuid t u s l (t.listFindUuidelem uuid head u rounds (t.mem.links.next prev)) := by
  induction s generalizing prev l rounds with
  | nil =>
    obtain rfl : l = [] := by simpa using hl.symm
    obtain ⟨n, rfl⟩ := Nat.exists_eq_succ_of_ne_zero (Nat.ne_zero_of_lt hrounds)
    rw [hseg.1, Table.listFindUuidelem, if_pos rfl]
    exact .missing fun _ he => nomatch he
  | cons a s ih =>
    cases l with
    | nil => simp at hl
    | cons e l =>
      obtain ⟨hrecord, hrest⟩ := List.cons.inj hl
      obtain ⟨n, rfl⟩ := Nat.exists_eq_succ_of_ne_zero (Nat.ne_zero_of_lt hrounds)
      have htouch : t.touch (.slot a) = .done () := if_pos (hused a List.mem_cons_self)
      rw [hseg.1.1, Table.listFindUuidelem, if_neg (hhead a List.mem_cons_self), htouch,
        Outcome.done_bind, hrecord]
      simp only
      by_cases hu : uuid e = u
      · rw [if_pos (compUuid_eq_zero.2 hu)]
        exact .found [] s a [] l e rfl rfl rfl hu hrecord
      · rw [if_neg fun h => hu (compUuid_eq_zero.1 h)]
        refine Searched.cons (ih hseg.2 ?_ ?_ hrest (Nat.lt_of_succ_lt_succ hrounds)) hu
        · exact fun b hb => hhead b (List.mem_cons_of_mem _ hb)
        · exact fun b hb => hused b (List.mem_cons_of_mem _ hb)

/-- The list of a uuid is searched to its end. -/
theorem searched_site (h : Tabled uuid t sites elems) (hi : hindex t.hashNum u = some i) :
    Searched uuid t u (sites i) (elems i) (t.findSite uuid u) := by
  have hlt := hindex_lt hi
  have hholds := h.holds i hlt
  have hnd : (sites i).Nodup := (List.nodup_cons.1 hholds.ring.nodup).2.of_map
  have hlen : (sites i).length ≤ t.used.length := (hnd.subperm (h.used i hlt)).length_le
  simp only [Table.findSite, hi, h.touch_mem hlt List.mem_cons_self, Outcome.done_bind]
  exact searched_loop hholds.ring.seg (fun _ _ => nofun) (h.used i hlt) hholds.record
    (Nat.lt_succ_of_le hlen)

omit [DecidableEq A] in
/-- An element with the uuid is in the list of this uuid. -/
theorem Tabled.mem_elems (h : Tabled uuid t sites elems) (hi : hindex t.hashNum u = some i)
    (he : e ∈ (List.range t.hashNum).flatMap elems) (hu : uuid e = u) : e ∈ elems i := by
  obtain ⟨j, hj, hej⟩ := List.mem_flatMap.1 he
  have hj' := h.hashed j (List.mem_range.1 hj) e hej
  rw [hu, hi] at hj'
  exact Option.some.inj hj' ▸ hej

/-- The record found is taken out of its list. -/
theorem tabled_remove (h : Tabled uuid t sites elems) (hi : hindex t.hashNum u = some i)
    {s₁ s₂ : List A} {l₁ l₂ : List E} (hfind : t.findSite uuid u = .done (some (.slot a)))
    (hsites : sites i = s₁ ++ a :: s₂) (hl : elems i = l₁ ++ e :: l₂)
    (hlen : s₁.length = l₁.length) :
    ∃ t', t.removeElem uuid u = .done (some e, t') ∧ t'.hashNum = t.hashNum ∧
      Tabled uuid t' (Function.update sites i (s₁ ++ s₂)) (Function.update elems i (l₁ ++ l₂)) := by
  have hlt := hindex_lt hi
  have hholds := h.holds i hlt
  have hmap : (sites i).map Site.slot = s₁.map .slot ++ .slot a :: s₂.map .slot := by
    rw [hsites, List.map_append, List.map_cons]
  have hring := hholds.ring
  have hrecords := hholds.record
  rw [hmap] at hring hrecords
  rw [hl, List.map_append, List.map_append, List.map_cons, List.map_cons] at hrecords
  obtain ⟨hfront, hback⟩ := List.append_inj hrecords (by simp [hlen])
  obtain ⟨hrecord, hback⟩ := List.cons.inj hback
  -- The neighbours of the record are in its list.
  obtain ⟨hseg₁, hseg₂⟩ := Links.seg_append.1 hring.seg
  have hprev : t.mem.links.prev (.slot a) ∈ Site.bucket i :: (sites i).map .slot := by
    have := hseg₁.prev_mem
    rw [hmap]
    grind
  have hnext : t.mem.links.next (.slot a) ∈ Site.bucket i :: (sites i).map .slot := by
    have := hseg₂.next_mem
    rw [hmap]
    grind
  have hmem : Site.slot a ∈ Site.bucket i :: (sites i).map .slot := by
    rw [hmap]
    simp
  have ha : a ∈ sites i := by
    rw [hsites]
    simp
  refine ⟨{ t with
    mem := { t.mem with links := t.mem.links.del (.slot a) }
    used := t.used.erase a }, ?_, rfl, ?_, ?_, ?_, ?_⟩
  · simp only [Table.removeElem, hfind, Outcome.done_bind, h.touch_mem hlt hnext,
      h.touch_mem hlt hprev, hrecord, Outcome.pure_eq]
  · intro j hj
    by_cases hij : j = i
    · subst hij
      rw [Function.update_self, Function.update_self, List.map_append]
      refine ⟨Links.isRing_del hring, hholds.head_record, ?_⟩
      rw [List.map_append, List.map_append, hfront, hback]
    · rw [Function.update_of_ne hij, Function.update_of_ne hij]
      exact holds_del_frame (h.holds j hj) (h.notMem hlt hj (Ne.symm hij) hmem)
        (h.notMem hlt hj (Ne.symm hij) hnext) (h.notMem hlt hj (Ne.symm hij) hprev)
  · intro j hj b hb
    have hold := mem_of_update_remove hsites hb
    have hother : b ≠ a := by
      rintro rfl
      by_cases hij : j = i
      · -- a record is in its list once
        subst hij
        rw [Function.update_self] at hb
        have hnd : (sites j).Nodup := (List.nodup_cons.1 hholds.ring.nodup).2.of_map
        rw [hsites] at hnd
        grind
      · exact h.disjoint i hlt j hj (Ne.symm hij) b ha hold
    exact (List.mem_erase_of_ne hother).2 (h.used j hj b hold)
  · exact fun j hj k hk hjk b hb hbk => h.disjoint j hj k hk hjk b
      (mem_of_update_remove hsites hb) (mem_of_update_remove hsites hbk)
  · exact fun j hj x hx => h.hashed j hj x (mem_of_update_remove hl hx)

/-! ## Iterations -/

/-- The elements of the lists from `i` on, as many as the first argument says. -/
def elemsFrom (elems : Nat → List E) (n i : Nat) : List E := (List.range' i n).flatMap elems

/-- To go on from a place of a table. -/
def Table.goOn (t : Table A E) (c : Cursor A) : Outcome (Option E × Cursor A) :=
  match c.head with
  | none => .done (none, c)
  | some temp => t.next (t.hashNum - c.index) c.index temp

/-- From the entry of a list, `hashlist_get_next` goes on as `hashlist_get_first` does. -/
theorem next_bucket (t : Table A E) (n i : Nat) : t.next n i (.bucket i) = t.first n i := by
  induction n generalizing i with
  | zero => rfl
  | succ n ih => rw [Table.next, Table.first, ih]

/-- A list is visited from one of its records on, and then the lists behind it. -/
theorem visits_list (h : Tabled uuid t sites elems) (hn : i + (n + 1) = t.hashNum)
    (hbehind : Visits t.goOn (t.first n (i + 1)) (elemsFrom elems n (i + 1))) {s : List A}
    (hseg : t.mem.links.Seg (.slot a) (s.map .slot) (.bucket i)) (ha : a ∈ sites i)
    (hs : ∀ b ∈ s, b ∈ sites i) (hl : (s.map .slot).map t.mem.record = l.map some) :
    Visits t.goOn (t.goOn ⟨i, some (.slot a)⟩) (l ++ elemsFrom elems n (i + 1)) := by
  have hlt : i < t.hashNum := by omega
  have hrounds : t.hashNum - i = n + 1 := by omega
  induction s generalizing l a with
  | nil =>
    obtain rfl : l = [] := by simpa using hl.symm
    simp only [Table.goOn, hrounds]
    rw [Table.next, h.touch_slot hlt ha, Outcome.done_bind, hseg.1, if_pos rfl, next_bucket,
      List.nil_append]
    exact hbehind
  | cons b s ih =>
    cases l with
    | nil => simp at hl
    | cons e l =>
      obtain ⟨hrecord, hrest⟩ := List.cons.inj hl
      have hb := hs b List.mem_cons_self
      refine ⟨⟨i, some (.slot b)⟩, ?_, ih hseg.2 hb (fun c hc => hs c (List.mem_cons_of_mem _ hc)) hrest⟩
      simp only [Table.goOn, hrounds]
      rw [Table.next, h.touch_slot hlt ha, Outcome.done_bind, hseg.1.1, if_neg nofun,
        h.touch_slot hlt hb, Outcome.done_bind, hrecord]
      rfl

/-- The lists of a table are visited one after the other. -/
theorem visits_table (h : Tabled uuid t sites elems) (hn : i + n = t.hashNum) :
    Visits t.goOn (t.first n i) (elemsFrom elems n i) := by
  induction n generalizing i with
  | zero => exact ⟨⟨0, none⟩, rfl⟩
  | succ n ih =>
    have hlt : i < t.hashNum := by omega
    have hbehind := ih (i := i + 1) (by omega)
    have hholds := h.holds i hlt
    have hseg := hholds.ring.seg
    have hrecords := hholds.record
    have helems : elemsFrom elems (n + 1) i = elems i ++ elemsFrom elems n (i + 1) := by
      rw [elemsFrom, List.range'_succ, List.flatMap_cons, elemsFrom]
    have hs : ∀ b ∈ sites i, b ∈ sites i := fun _ hb => hb
    rw [helems, Table.first, Tabled.touch_bucket hlt, Outcome.done_bind]
    generalize hsites : (sites i).map Site.slot = s at hseg hrecords
    cases s with
    | nil =>
      have hnil : elems i = [] := by simpa using hrecords.symm
      rw [hseg.1, if_pos rfl, hnil, List.nil_append]
      exact hbehind
    | cons x s =>
      obtain ⟨a, rest, hsites', rfl, rfl⟩ := List.map_eq_cons_iff.1 hsites
      rw [hsites'] at hs
      cases hl : elems i with
      | nil =>
        rw [hl] at hrecords
        cases hrecords
      | cons e l =>
        rw [hl] at hrecords
        obtain ⟨hrecord, hrest⟩ := List.cons.inj hrecords
        have ha : a ∈ sites i := by
          rw [hsites']
          exact List.mem_cons_self
        refine ⟨⟨i, some (.slot a)⟩, ?_, visits_list h hn hbehind hseg.2 ha (fun b hb => ?_) hrest⟩
        · rw [hseg.1.1, if_neg nofun, h.touch_slot hlt ha, Outcome.done_bind, hrecord]
          rfl
        · rw [hsites']
          exact List.mem_cons_of_mem _ hb

/-- Iterations over the same places visit the same. -/
theorem visits_map {σ τ : Type} {next : σ → Outcome (Option E × σ)} {next' : τ → Outcome (Option E × τ)}
    (f : σ → τ) (hnext : ∀ s, next' (f s) = (fun r => (r.1, f r.2)) <$> next s)
    {found : Outcome (Option E × σ)} (h : Visits next found l) :
    Visits next' ((fun r => (r.1, f r.2)) <$> found) l := by
  induction l generalizing found with
  | nil =>
    obtain ⟨s, rfl⟩ := h
    exact ⟨f s, rfl⟩
  | cons e l ih =>
    obtain ⟨s, rfl, h⟩ := h
    exact ⟨f s, rfl, hnext s ▸ ih h⟩

/-- Both iterations over a hash list visit the elements of its table. -/
theorem iterates_table {h : HashList A E} (ht : Tabled uuid h.table sites elems)
    (hl : l.Perm ((List.range h.table.hashNum).flatMap elems)) : Iterates h l := by
  have hvisits := visits_table (i := 0) ht (Nat.zero_add _)
  rw [elemsFrom, ← List.range_eq_range'] at hvisits
  have hnext : ∀ c, hashlistGetNext { h with cursor := c } =
      (fun r => (r.1, { h with cursor := r.2 })) <$> h.table.goOn c := by
    rintro ⟨index, head⟩
    cases head <;> rfl
  refine ⟨_, hl.symm, ?_, hvisits⟩
  exact visits_map (fun c => { h with cursor := c }) hnext hvisits

/-! ## Runs -/

/-- The lists of a new table are empty. -/
theorem holds_init (mem : Records (Site A) E) (n : Nat) :
    ∀ i < n, Holds ((List.range n).foldl (fun mem i => nodeListInit mem (.bucket i)) mem)
      (.bucket i) [] [] := by
  induction n with
  | zero => exact fun i hi => absurd hi (Nat.not_lt_zero i)
  | succ n ih =>
    intro i hi
    rw [List.range_succ, List.foldl_append, List.foldl_cons, List.foldl_nil]
    rcases Nat.lt_or_eq_of_le (Nat.le_of_lt_succ hi) with hlt | rfl
    · refine holds_frame (ih i hlt) ?_ ?_ ?_
      all_goals
        intro u hu
        obtain rfl := List.mem_singleton.1 hu
        have hne : Site.bucket i ≠ (.bucket n : Site A) := fun h => hlt.ne (Site.bucket.inj h)
        simp [nodeListInit, Links.init, hne]
    · exact holds_nodeListInit

/-- The elements present are in the lists of the table, and the table is of a size that
    is used. -/
def Keeps (uuid : E → Uuid) (h : HashList A E) (l : List E) : Prop :=
  (h.table.hashNum = 256 ∨ h.table.hashNum = 1024) ∧
    ∃ sites elems, Tabled uuid h.table sites elems ∧
      l.Perm ((List.range h.table.hashNum).flatMap elems)

variable {h : HashList A E} {l : List E} {m : Malloc A}

omit [DecidableEq A] in
theorem exists_hindex (hnum : h.table.hashNum = 256 ∨ h.table.hashNum = 1024) (u : Uuid) :
    ∃ i, hindex h.table.hashNum u = some i := by
  rcases hnum with hnum | hnum <;> rw [hnum]
  · exact ⟨_, rfl⟩
  · exact ⟨_, rfl⟩

theorem keeps_add (hk : Keeps uuid h l) (elem : E) :
    ∃ l', Holding uuid l (.add elem) (h.step uuid m (.add elem)).1 l' ∧
      Keeps uuid (h.step uuid m (.add elem)).2 l' := by
  obtain ⟨hnum, sites, elems, ht, hl⟩ := hk
  obtain ⟨i, hi⟩ := exists_hindex hnum (uuid elem)
  cases hm : m.malloc h.table.used with
  | none =>
    have hadd : h.table.addElem uuid m elem = .done (none, h.table) := by
      simp only [Table.addElem, hm]
    simp only [HashList.step, hadd, hm]
    exact ⟨l, .inr ⟨rfl, rfl⟩, hnum, sites, elems, ht, hl⟩
  | some a =>
    obtain ⟨t', hadd, hsize, ht'⟩ := tabled_add ht hm hi
    simp only [HashList.step, hadd, hm]
    refine ⟨elem :: l, .inl ⟨rfl, rfl⟩, hsize ▸ hnum, _, _, ht', ?_⟩
    simp only [hsize]
    exact (hl.cons elem).trans (flatMap_add (hindex_lt hi) elems elem).symm

theorem keeps_remove (hk : Keeps uuid h l) (u : Uuid) :
    ∃ l', Holding uuid l (.remove u) (h.step uuid m (.remove u)).1 l' ∧
      Keeps uuid (h.step uuid m (.remove u)).2 l' := by
  obtain ⟨hnum, sites, elems, ht, hl⟩ := hk
  obtain ⟨i, hi⟩ := exists_hindex hnum u
  have hsearch := searched_site ht hi
  cases hfind : h.table.findSite uuid u with
  | done found =>
    rw [hfind] at hsearch
    cases hsearch with
    | missing hne =>
      have hremove : h.table.removeElem uuid u = .done (none, h.table) := by
        simp only [Table.removeElem, hfind, Outcome.done_bind, Outcome.pure_eq]
      simp only [HashList.step, hremove]
      refine ⟨l, .inl ⟨rfl, fun e he hu => ?_, rfl⟩, hnum, sites, elems, ht, hl⟩
      exact hne e (ht.mem_elems hi (hl.mem_iff.1 he) hu) hu
    | found s₁ s₂ a l₁ l₂ e hsites helems hlen hu hrecord =>
      obtain ⟨t', hremove, hsize, ht'⟩ := tabled_remove ht hi hfind hsites helems hlen
      simp only [HashList.step, hremove]
      refine ⟨(List.range h.table.hashNum).flatMap (Function.update elems i (l₁ ++ l₂)),
        .inr ⟨e, rfl, hu, ?_⟩, hsize ▸ hnum, _, _, ht', ?_⟩
      · exact hl.trans (flatMap_remove (hindex_lt hi) helems)
      · simp only [hsize]
        exact .refl _
  | error e => rw [hfind] at hsearch; cases hsearch
  | fault => rw [hfind] at hsearch; cases hsearch

theorem keeps_find (hk : Keeps uuid h l) (u : Uuid) :
    ∃ l', Holding uuid l (.find u) (h.step uuid m (.find u)).1 l' ∧
      Keeps uuid (h.step uuid m (.find u)).2 l' := by
  obtain ⟨hnum, sites, elems, ht, hl⟩ := id hk
  obtain ⟨i, hi⟩ := exists_hindex hnum u
  have hsearch := searched_site ht hi
  refine ⟨l, ⟨rfl, ?_⟩, hk⟩
  rw [HashList.step, Table.findElem]
  cases hfind : h.table.findSite uuid u with
  | done found =>
    rw [hfind] at hsearch
    cases hsearch with
    | missing hne =>
      exact .inl ⟨rfl, fun e he hu => hne e (ht.mem_elems hi (hl.mem_iff.1 he) hu) hu⟩
    | found s₁ s₂ a l₁ l₂ e hsites helems hlen hu hrecord =>
      have he : e ∈ (List.range h.table.hashNum).flatMap elems :=
        List.mem_flatMap.2 ⟨i, List.mem_range.2 (hindex_lt hi), helems ▸ by simp⟩
      refine .inr ⟨e, hl.mem_iff.2 he, ?_, hu⟩
      simp only [Outcome.done_bind, Outcome.pure_eq, Outcome.map_done, hrecord]
  | error e => rw [hfind] at hsearch; cases hsearch
  | fault => rw [hfind] at hsearch; cases hsearch

/-- A call on a list that holds the elements is answered right. -/
theorem keeps_step (hk : Keeps uuid h l) (c : HashCall E) :
    ∃ l', Holding uuid l c (h.step uuid m c).1 l' ∧ Keeps uuid (h.step uuid m c).2 l' := by
  cases c with
  | add elem => exact keeps_add hk elem
  | remove u => exact keeps_remove hk u
  | find u => exact keeps_find hk u

theorem keeps_init {mem : Records (Site A) E} {used : List A} {order : Int}
    (hinit : initHashList mem used order = some h) (horder : order = 8 ∨ order = 10) :
    Keeps uuid h [] := by
  rw [initHashList, if_neg (by omega), if_neg (by omega)] at hinit
  obtain rfl := Option.some.inj hinit
  refine ⟨?_, fun _ => [], fun _ => [], ⟨fun i hi => holds_init mem _ i hi, ?_, ?_, ?_⟩, ?_⟩
  · rcases horder with rfl | rfl
    · exact .inl rfl
    · exact .inr rfl
  · exact fun _ _ _ ha => nomatch ha
  · exact fun _ _ _ _ _ _ ha => nomatch ha
  · exact fun _ _ _ he => nomatch he
  · rw [List.flatMap_eq_nil_iff.2 fun _ _ => rfl]

/-! ## Tables that are not used -/

theorem hindex_none {order : Int} (h₀ : 0 ≤ order) (h₁ : order ≤ 10) (h8 : order ≠ 8)
    (h10 : order ≠ 10) (u : Uuid) : hindex (1 <<< order.toNat) u = none := by
  have horder : order.toNat ∈ [0, 1, 2, 3, 4, 5, 6, 7, 9] := by
    simp only [List.mem_cons, List.not_mem_nil, or_false]
    omega
  have hnum : ∀ n ∈ [0, 1, 2, 3, 4, 5, 6, 7, 9], 1 <<< n ≠ 256 ∧ 1 <<< n ≠ 1024 := by decide
  obtain ⟨h256, h1024⟩ := hnum _ horder
  rw [hindex, if_neg h256, if_neg h1024]

theorem findElem_none (hnone : hindex t.hashNum u = none) :
    t.findElem uuid u = .done none := by
  simp only [Table.findElem, Table.findSite, hnone, Outcome.done_bind, Outcome.pure_eq]

/-- An element for which there is memory is not found after it was added. -/
theorem not_meets_order (uuid : E → Uuid) (hm : m.malloc h.table.used = some a)
    (hnone : ∀ u, hindex h.table.hashNum u = none) (elem : E) :
    ¬ Meets (HashList.step uuid m) Iterates (Holding uuid) h [] [.add elem, .find (uuid elem)] := by
  rintro ⟨-, l₁, hadd, -, l₂, ⟨-, hfind⟩, -⟩
  simp only [HashList.step, Table.addElem, hm, hnone, Option.isSome_some] at hadd hfind
  have hmiss : ∀ t : Table A E, t.hashNum = h.table.hashNum →
      t.findElem uuid (uuid elem) = .done none := fun t ht => findElem_none (ht ▸ hnone _)
  rw [hmiss, Outcome.map_done] at hfind
  swap
  · rfl
  rcases hadd with ⟨-, rfl⟩ | ⟨hno, -⟩
  · rcases hfind with ⟨-, hne⟩ | ⟨e, -, hreply, -⟩
    · exact hne elem List.mem_cons_self rfl
    · cases hreply
  · cases hno

/-- A memory of one block. -/
def oneBlock [Inhabited A] : Malloc A where
  malloc used := if used = [] then some default else none
  fresh used a h := by
    split at h
    next hnil => rw [hnil]; exact List.not_mem_nil
    next => cases h

/-- A hash list of an order that `init_hash_list` takes is one exactly if the order is 8
    or 10. -/
theorem isHashList_iff (A E : Type) [DecidableEq A] [Inhabited A] [Inhabited E] (order : Int) :
    IsHashList A E order ↔ ¬ (0 ≤ order ∧ order ≤ 10) ∨ order = 8 ∨ order = 10 := by
  constructor
  · intro hall
    by_contra hno
    obtain ⟨hrange, horder⟩ := not_or.1 hno
    obtain ⟨h₀, h₁⟩ := not_not.1 hrange
    obtain ⟨h8, h10⟩ := not_or.1 horder
    have hinit : ∃ h : HashList A E, initHashList ⟨⟨id, id⟩, fun _ => none⟩ [] order = some h ∧
        h.table.used = [] ∧ h.table.hashNum = 1 <<< order.toNat := by
      rw [initHashList, if_neg (by omega), if_neg (by omega)]
      exact ⟨_, rfl, rfl, rfl⟩
    obtain ⟨h, hinit, hused, hnum⟩ := hinit
    refine not_meets_order (m := oneBlock) (fun _ => Vector.replicate _ 0) (a := default) ?_ ?_
      default (hall _ _ _ _ h hinit _)
    · simp [hused, oneBlock]
    · rw [hnum]
      exact hindex_none h₀ h₁ h8 h10
  · rintro (hrange | horder) uuid m mem used h hinit calls
    · rw [initHashList] at hinit
      split at hinit
      · cases hinit
      · split at hinit
        · cases hinit
        · exact absurd ⟨by omega, by omega⟩ hrange
    · refine meets_of_steps (R := Keeps uuid) (fun h l hk => ?_)
        (fun h l c hk _ => keeps_step hk c) (keeps_init hinit horder) (steps_of_forall fun _ _ => trivial)
      obtain ⟨-, sites, elems, ht, hl⟩ := hk
      exact iterates_table ht hl

/-- In a table of 64 lists, an element that was added is not found. -/
theorem not_isHashList_six : ¬ IsHashList Nat Nat 6 := by
  intro hall
  exact not_meets_order (m := .counting) (fun _ => Vector.replicate _ 0) (a := 0) rfl
    (fun _ => by rw [hindex, if_neg (by decide), if_neg (by decide)]) 7
    (hall _ _ ⟨⟨id, id⟩, fun _ => none⟩ [] _ rfl _)

end Cube.BaseFunc
