import Cube.Lib.Loop
import Cube.Lib.Pieces
import Cube.Struct.PartBlob
import Cube.Text.NameList

/-!
# Splitting a list of names

`struct_set_flag` and `struct_clear_flag` go through a list of names by an offset.
`Getfiledfromstr` copies the name that is there and returns the number of characters it has
taken, with the blanks before the name; the loop adds this to the offset, and steps over the
comma by itself. A return of zero is the end of the list, and a name that is too long leaves
an empty one, which no element has. Counters and offset are of type `int`.

* `getfiledfromstr_eq`: what is read is what `Struct.getfiledfromstr` reads, if it can be
  counted;
* `overList_enough`: the loop ends on every text;
* `overList_eq_overNames`: on a text that can be counted, it is the loop over the names in it;
* `flagLists_split_iff`: the lists whose names are all visited, up to one that is refused.
-/

namespace Cube.Struct.FlagList

open Lib Message

/-! ## The loop -/

/-- A sum of type `int`, of numbers that are not negative. -/
def addInt (i k : Nat) : Outcome Nat := if i + k < 2 ^ 31 then .done (i + k) else .fault

/-- The loop of `Getfiledfromstr` over blanks: the counter behind them, and the characters
    from there on. -/
def skipBlanks : Nat → List Char → Outcome (Nat × List Char)
  | i, [] => .done (i, [])
  | i, c :: str =>
    if c = ' ' then do
      let i ← addInt i 1
      skipBlanks i str
    else .done (i, c :: str)

/-- The loop of `Getfiledfromstr` over a name, with room for so many characters behind those
    that are copied already. -/
def copyField (ifs : Char) : Nat → Nat → List Char → List Char → Outcome (List Char × Nat)
  -- `name[0]=0` behind the loop: what was copied is lost, and what was counted is returned.
  | 0, i, _, _ => .done ([], i)
  | _ + 1, i, name, [] => .done (name, i)
  | n + 1, i, name, c :: str =>
    if c = ifs then .done (name, i)
    else do
      let i ← addInt i 1
      copyField ifs n i (name ++ [c]) str

/-- `Getfiledfromstr` with its counters: the name that it copies, and what it returns. Nothing
    is copied at the end of the string. -/
def getfiledfromstr (str : List Char) (ifs : Char) (maxsize : Nat) : Outcome (List Char × Nat) := do
  let limit := if maxsize = 0 then Text.maxnamelen else maxsize
  let (i, rest) ← skipBlanks 0 str
  -- The blanks at the end of the string are not counted.
  if rest = [] then pure ([], 0) else copyField ifs limit i [] rest

/-- The variables of the loop over the names in a list, with the names whose elements it has
    dealt with. -/
structure NameLoop where
  offset : Nat
  count : Nat
  template : Template
  visited : List (List Char)

/-- The loop before its first turn. -/
def start (t : Template) : NameLoop := { offset := 0, count := 0, template := t, visited := [] }

/-- What is done with a name that was read. The pointer that stands for an error is used as
    one to an element. -/
def deal (act : Loc → Template → Option Template) (namelist : List Char) (s : NameLoop)
    (name : List Char) : Outcome (NameLoop ⊕ Int × NameLoop) :=
  match s.template.elemByName [] name with
  | .null => .done (.inr (-EINVAL, s))
  | .invalid => .fault
  | .elem loc =>
    match act loc s.template with
    | none => .fault
    | some template => do
      let count ← addInt s.count 1
      let offset ←
        if (namelist.drop s.offset).head? = some ',' then addInt s.offset 1 else pure s.offset
      pure (.inl { offset := offset, count := count, template := template,
                   visited := s.visited ++ [name] })

/-- A turn of the loop, with what is done to the element of a name. -/
def turn (act : Loc → Template → Option Template) (namelist : List Char) (s : NameLoop) :
    Outcome (NameLoop ⊕ Int × NameLoop) := do
  let (name, i) ← getfiledfromstr (namelist.drop s.offset) ',' (DIGEST_SIZE + 1)
  if i = 0 then pure (.inr (s.count, s))
  else do
    let offset ← addInt s.offset i
    deal act namelist { s with offset := offset } name

/-- The loop over a list of names. A turn that is not the last takes a character at least. -/
def overList (act : Loc → Template → Option Template) (namelist : List Char) (t : Template) :
    Option (Outcome (Int × NameLoop)) :=
  Loop.run (turn act namelist) (namelist.length + 1) (start t)

/-- `struct_set_flag`. -/
def structSetFlag (flag : Int32) (namelist : List Char) (t : Template) :
    Option (Outcome (Int × NameLoop)) :=
  overList (Template.setElemFlag flag) namelist t

/-- `struct_clear_flag`. -/
def structClearFlag (flag : Int32) (namelist : List Char) (t : Template) :
    Option (Outcome (Int × NameLoop)) :=
  overList (Template.clearElemFlag flag) namelist t

/-! ## What is asked of it -/

/-- A name in a list, with the number of blanks before it. -/
structure Entry where
  blanks : Nat
  name : List Char
  listed : Listed name

namespace Entry

/-- The characters of an entry. -/
def text (e : Entry) : List Char := .replicate e.blanks ' ' ++ e.name

/-- The name fits the room that the loop has for it. -/
def Short (e : Entry) : Prop := e.name.length < DIGEST_SIZE + 1

instance (e : Entry) : Decidable e.Short := inferInstanceAs (Decidable (_ < _))

/-- The characters that are taken with a name: of one that is too long, as many as there is
    room for. -/
def taken (e : Entry) : Nat := e.blanks + min e.name.length (DIGEST_SIZE + 1)

end Entry

/-- The text of a list, with commas between its entries. -/
def listText (entries : List Entry) : List Char := commaList (entries.map Entry.text)

/-- The names of a list. -/
def names (entries : List Entry) : List (List Char) := entries.map Entry.name

/-- How the loop over a list should end: at the end of the text, with all names visited and
    counted; or with an error, at the first name that is too long or stands for no element. -/
inductive EndsWell (t : Template) (entries : List Entry) (ret : Int) (s : NameLoop) : Prop
  | atEnd (hshort : ∀ e ∈ entries, e.Short) (hvisited : s.visited = names entries)
      (hoffset : s.offset = (listText entries).length) (hret : ret = entries.length)
  | atName (front : List Entry) (e : Entry) (back : List Entry)
      (hentries : entries = front ++ e :: back) (hshort : ∀ e' ∈ front, e'.Short)
      (hvisited : s.visited = names front) (hrefused : ¬ e.Short ∨ t.elemByName [] e.name = .null)
      (hret : ret = -EINVAL)

/-- A call with a list ends as it should, and what it has done to the template is what is to
    be done to the elements of the names visited, to each once and in their order. -/
def Splits (call : List Char → Template → Option (Outcome (Int × NameLoop)))
    (act : Loc → Template → Option Template) (t : Template) (entries : List Entry) : Prop :=
  ∃ ret s, call (listText entries) t = some (.done (ret, s)) ∧
    EndsWell t entries ret s ∧
    overNames act s.visited 0 t = .done (s.visited.length, s.template)

/-- The loop goes on behind the name. -/
def Passes (t : Template) (e : Entry) : Prop :=
  e.Short ∧ ∃ loc, t.elemByName [] e.name = .elem loc

/-- The characters of entries and of the commas behind them. -/
def heads (entries : List Entry) : Nat := (entries.map fun e => e.text.length + 1).sum

/-- From an offset on, the names that the loop comes to can be counted by an `int`, and the
    search for one ends with an element or with none. -/
def Fits (t : Template) (offset : Nat) (entries : List Entry) : Prop :=
  ∀ front e back, entries = front ++ e :: back → (∀ e' ∈ front, Passes t e') →
    offset + heads front + e.taken < 2 ^ 31 ∧ (e.Short → t.elemByName [] e.name ≠ .invalid)

/-! ## What is read -/

variable {i n k : Nat} {ifs : Char} {str rest : List Char}

theorem addInt_eq (h : i + k < 2 ^ 31) : addInt i k = .done (i + k) := if_pos h

theorem addInt_fault (h : ¬ i + k < 2 ^ 31) : addInt i k = .fault := if_neg h

theorem skipBlanks_eq (hi : i < 2 ^ 31) (str : List Char) :
    skipBlanks i str =
      if i + (str.takeWhile (· = ' ')).length < 2 ^ 31 then
        .done (i + (str.takeWhile (· = ' ')).length, str.dropWhile (· = ' '))
      else .fault := by
  induction str generalizing i with
  | nil => exact (if_pos hi).symm
  | cons c str ih =>
    rw [skipBlanks]
    by_cases hc : c = ' '
    · have hlen : ((c :: str).takeWhile (· = ' ')).length = (str.takeWhile (· = ' ')).length + 1 := by
        rw [List.takeWhile_cons_of_pos (by simpa using hc), List.length_cons]
      rw [if_pos hc, hlen, List.dropWhile_cons_of_pos (by simpa using hc)]
      -- If this blank cannot be counted, neither can all of them.
      by_cases hstep : i + 1 < 2 ^ 31
      · rw [addInt_eq hstep, Outcome.done_bind, ih hstep, Nat.add_assoc, Nat.add_comm 1]
      · rw [addInt_fault hstep, Outcome.fault_bind, if_neg (by omega)]
    · rw [if_neg hc, List.takeWhile_cons_of_neg (by simpa using hc),
        List.dropWhile_cons_of_neg (by simpa using hc)]
      exact (if_pos hi).symm

/-- What is read, if the number of its characters, from `i` on, is an `int`. -/
def counted (i : Nat) (field : List Char × Nat) : Outcome (List Char × Nat) :=
  if i + field.2 < 2 ^ 31 then .done (field.1, i + field.2) else .fault

theorem counted_eq {field : List Char × Nat} (h : i + field.2 < 2 ^ 31) :
    counted i field = .done (field.1, i + field.2) := if_pos h

theorem counted_fault {field : List Char × Nat} (h : ¬ i + field.2 < 2 ^ 31) :
    counted i field = .fault := if_neg h

theorem counted_zero (hi : i < 2 ^ 31) (field : List Char) :
    counted i (field, 0) = .done (field, i) := if_pos hi

theorem counted_add (i k m : Nat) (field : List Char) :
    counted (i + k) (field, m) = counted i (field, k + m) := by
  simp only [counted, Nat.add_assoc]

theorem counted_step (i m : Nat) (field : List Char) :
    counted (i + 1) (field, m) = counted i (field, m + 1) := by
  rw [counted_add, Nat.add_comm]

/-- The characters of a name are copied, and counted, up to the separator or to the limit. -/
theorem copyField_eq (hi : i < 2 ^ 31) (name str : List Char) :
    copyField ifs n i name str =
      counted i ((fieldLoop ifs n str).elim ([], n) fun rest => (name ++ rest, rest.length)) := by
  have hempty {i : Nat} (hi : i < 2 ^ 31) (name : List Char) :
      counted i (name ++ [], 0) = .done (name, i) := by
    rw [List.append_nil]
    exact counted_zero hi name
  induction str generalizing n i name with
  | nil =>
    cases n with
    | zero => exact (counted_zero hi []).symm
    | succ n => exact (hempty hi name).symm
  | cons c str ih =>
    cases n with
    | zero => exact (counted_zero hi []).symm
    | succ n =>
      rw [copyField, fieldLoop]
      by_cases hc : c = ifs
      · rw [if_pos hc, if_pos hc]
        exact (hempty hi name).symm
      rw [if_neg hc, if_neg hc]
      by_cases hstep : i + 1 < 2 ^ 31
      · rw [addInt_eq hstep, Outcome.done_bind, ih hstep]
        rcases fieldLoop ifs n str with _ | field
        · exact counted_step i n []
        · simp only [Option.map_some, Option.elim_some, List.append_assoc, List.singleton_append]
          exact counted_step i field.length _
      · rw [addInt_fault hstep, Outcome.fault_bind, counted_fault]
        rcases fieldLoop ifs n str with _ | field
        · exact fun h => hstep (by simp only [Option.map_none, Option.elim_none] at h; omega)
        · exact fun h => hstep (by
            simp only [Option.map_some, Option.elim_some, List.length_cons] at h; omega)

theorem length_takeWhile_blank (str : List Char) :
    str.length - (str.dropWhile (· = ' ')).length = (str.takeWhile (· = ' ')).length := by
  have h := congrArg List.length (List.takeWhile_append_dropWhile (p := (· = ' ')) (l := str))
  rw [List.length_append] at h
  omega

/-- Of a text with a name in it, `Getfiledfromstr` reads what it should, if this can be
    counted. -/
theorem getfiledfromstr_eq (hn : n ≠ 0) (hstr : str.dropWhile (· = ' ') ≠ []) :
    getfiledfromstr str ifs n = counted 0 (Struct.getfiledfromstr str ifs n) := by
  rw [getfiledfromstr, Struct.getfiledfromstr, skipBlanks_eq (by decide), length_takeWhile_blank,
    if_neg hn, if_neg hstr]
  set blanks := (str.takeWhile (· = ' ')).length with hblanks
  by_cases hcount : 0 + blanks < 2 ^ 31
  · rw [if_pos hcount, Outcome.done_bind]
    simp only
    rw [if_neg hstr, copyField_eq hcount]
    rcases fieldLoop ifs n (str.dropWhile (· = ' ')) with _ | field
    · exact counted_add 0 blanks n []
    · exact counted_add 0 blanks field.length field
  · rw [if_neg hcount, Outcome.fault_bind, counted_fault]
    rcases fieldLoop ifs n (str.dropWhile (· = ' ')) with _ | field
    · simp only
      omega
    · simp only
      omega

/-- Of a text without a name, nothing is read. -/
theorem getfiledfromstr_blank (hlen : str.length < 2 ^ 31) (hstr : str.dropWhile (· = ' ') = []) :
    getfiledfromstr str ifs n = .done ([], 0) := by
  have hle : (str.takeWhile (· = ' ')).length ≤ str.length := (List.takeWhile_prefix _).length_le
  rw [getfiledfromstr, skipBlanks_eq (by decide), if_pos (by omega), Outcome.done_bind]
  simp only [hstr, if_true, Outcome.pure_eq]

/-! ## A turn -/

/-- Blanks before a name are counted with it. -/
theorem getfiledfromstr_replicate (k : Nat) (hstr : str.dropWhile (· = ' ') ≠ []) :
    Struct.getfiledfromstr (.replicate k ' ' ++ str) ifs n =
      ((Struct.getfiledfromstr str ifs n).1, k + (Struct.getfiledfromstr str ifs n).2) := by
  have hdrop : (List.replicate k ' ' ++ str).dropWhile (fun c => decide (c = ' ')) =
      str.dropWhile (fun c => decide (c = ' ')) :=
    List.dropWhile_append_of_pos (by simp)
  have hle : (str.dropWhile (fun c => decide (c = ' '))).length ≤ str.length :=
    (List.dropWhile_suffix _).length_le
  have hblanks : (List.replicate k ' ' ++ str).length -
      (str.dropWhile (fun c => decide (c = ' '))).length =
      k + (str.length - (str.dropWhile (fun c => decide (c = ' '))).length) := by
    rw [List.length_append, List.length_replicate]
    omega
  rw [Struct.getfiledfromstr, Struct.getfiledfromstr, hdrop, hblanks]
  simp only [if_neg hstr]
  rcases fieldLoop ifs n (str.dropWhile (fun c => decide (c = ' '))) with _ | field
  · simp only [Nat.add_assoc]
  · simp only [Nat.add_assoc]

/-- The text stops in front of a comma, or at its end. -/
def Stops (rest : List Char) : Prop := rest = [] ∨ ∃ more, rest = ',' :: more

namespace Entry

variable {e : Entry}

theorem dropWhile_name (e : Entry) (rest : List Char) :
    (e.name ++ rest).dropWhile (· = ' ') = e.name ++ rest := by
  obtain ⟨c, name, hname⟩ := List.exists_cons_of_ne_nil e.listed.ne_nil
  have hblank : c ≠ ' ' := fun h => e.listed.blank (by rw [hname, h]; rfl)
  rw [hname, List.cons_append, List.dropWhile_cons_of_neg (by simpa using hblank)]

theorem dropWhile_ne_nil (e : Entry) (rest : List Char) :
    (e.name ++ rest).dropWhile (· = ' ') ≠ [] := by
  rw [dropWhile_name]
  exact fun h => e.listed.ne_nil (List.append_eq_nil_iff.1 h).1

theorem taken_pos (e : Entry) : 0 < e.taken := by
  have := List.length_pos_iff.2 e.listed.ne_nil
  rw [taken]
  omega

theorem taken_of_short (h : e.Short) : e.taken = e.text.length := by
  rw [Short] at h
  rw [taken, text, List.length_append, List.length_replicate]
  omega

/-- The name of an entry is read, or an empty one if there is no room for it. -/
theorem read (e : Entry) (hrest : Stops rest) :
    getfiledfromstr (e.text ++ rest) ',' (DIGEST_SIZE + 1) =
      counted 0 (if e.Short then e.name else [], e.taken) := by
  have hdrop : (e.text ++ rest).dropWhile (· = ' ') ≠ [] := by
    rw [text, List.append_assoc, List.dropWhile_append_of_pos (by simp)]
    exact e.dropWhile_ne_nil rest
  rw [getfiledfromstr_eq (by decide) hdrop, text, List.append_assoc,
    getfiledfromstr_replicate _ (e.dropWhile_ne_nil rest),
    show DIGEST_SIZE + 1 = maxNameLen + 1 from rfl, getfiledfromstr_name e.listed hrest]
  by_cases hshort : e.Short
  · have hlen : e.name.length ≤ maxNameLen := Nat.le_of_lt_succ hshort
    rw [if_pos hlen, if_pos hshort, taken_of_short hshort, text, List.length_append,
      List.length_replicate]
  · have hlen : ¬ e.name.length ≤ maxNameLen := fun h => hshort (Nat.lt_succ_of_le h)
    rw [if_neg hlen, if_neg hshort, taken, Nat.min_eq_right (Nat.le_of_not_lt hshort)]
    rfl

end Entry

variable {act : Loc → Template → Option Template} {namelist : List Char} {s : NameLoop}
  {e : Entry} {t t' : Template} {loc : Loc}

variable {name : List Char} {o : Nat}

/-- A turn in which nothing is read is the last. -/
theorem turn_zero
    (h : getfiledfromstr (namelist.drop s.offset) ',' (DIGEST_SIZE + 1) = .done (name, 0)) :
    turn act namelist s = .done (.inr (s.count, s)) := by
  rw [turn, h]
  rfl

theorem turn_read
    (h : getfiledfromstr (namelist.drop s.offset) ',' (DIGEST_SIZE + 1) = .done (name, i + 1))
    (hfit : s.offset + (i + 1) < 2 ^ 31) :
    turn act namelist s = deal act namelist { s with offset := s.offset + (i + 1) } name := by
  rw [turn, h, Outcome.done_bind]
  simp only [if_neg (Nat.succ_ne_zero i), addInt_eq hfit, Outcome.done_bind]

/-- A turn in front of an entry. -/
theorem turn_entry (hdrop : namelist.drop s.offset = e.text ++ rest) (hrest : Stops rest) :
    turn act namelist s =
      if s.offset + e.taken < 2 ^ 31 then
        deal act namelist { s with offset := s.offset + e.taken } (if e.Short then e.name else [])
      else .fault := by
  rw [turn, hdrop, e.read hrest]
  by_cases hfit : s.offset + e.taken < 2 ^ 31
  · have hcount : 0 + e.taken < 2 ^ 31 := by omega
    rw [counted_eq hcount, Outcome.done_bind]
    simp only [Nat.zero_add]
    rw [if_neg (Nat.ne_of_gt e.taken_pos), addInt_eq hfit, Outcome.done_bind, if_pos hfit]
  · rw [if_neg hfit]
    -- It is the sum of the caller or the counter of the callee that overflows.
    by_cases hcount : 0 + e.taken < 2 ^ 31
    · rw [counted_eq hcount, Outcome.done_bind]
      simp only [Nat.zero_add]
      rw [if_neg (Nat.ne_of_gt e.taken_pos), addInt_fault hfit, Outcome.fault_bind]
    · rw [counted_fault hcount, Outcome.fault_bind]

/-- The last turn, at the end of the text. -/
theorem turn_end (hdrop : namelist.drop s.offset = []) :
    turn act namelist s = .done (.inr (s.count, s)) := by
  have hread : getfiledfromstr (namelist.drop s.offset) ',' (DIGEST_SIZE + 1) = .done ([], 0) := by
    rw [hdrop]
    exact getfiledfromstr_blank (by decide) rfl
  exact turn_zero hread

/-- No element has an empty name. -/
theorem elemByName_empty (t : Template) : t.elemByName [] [] = .null := rfl

theorem deal_refused (h : s.template.elemByName [] name = .null) :
    deal act namelist s name = .done (.inr (-EINVAL, s)) := by
  rw [deal, h]

theorem deal_invalid (h : s.template.elemByName [] name = .invalid) :
    deal act namelist s name = .fault := by
  rw [deal, h]

theorem deal_stuck (h : s.template.elemByName [] name = .elem loc)
    (hact : act loc s.template = none) : deal act namelist s name = .fault := by
  rw [deal, h]
  simp only [hact]

/-- The loop goes on behind an element, and behind the comma if there is one. -/
theorem deal_elem (h : s.template.elemByName [] name = .elem loc)
    (hact : act loc s.template = some t') (hcount : s.count + 1 < 2 ^ 31)
    (hcomma : (namelist.drop s.offset).head? = some ',' → s.offset + 1 < 2 ^ 31) :
    deal act namelist s name = .done (.inl {
      offset := if (namelist.drop s.offset).head? = some ',' then s.offset + 1 else s.offset
      count := s.count + 1, template := t', visited := s.visited ++ [name] }) := by
  rw [deal, h]
  simp only [hact, addInt_eq hcount, Outcome.done_bind]
  split_ifs with hhead
  · rw [addInt_eq (hcomma hhead)]
    rfl
  · rfl

/-- There is a comma, and no number for the offset behind it. -/
theorem deal_comma_fault (h : s.template.elemByName [] name = .elem loc)
    (hact : act loc s.template = some t') (hcount : s.count + 1 < 2 ^ 31)
    (hcomma : (namelist.drop s.offset).head? = some ',') (hfit : ¬ s.offset + 1 < 2 ^ 31) :
    deal act namelist s name = .fault := by
  rw [deal, h]
  simp only [hact, addInt_eq hcount, if_pos hcomma, addInt_fault hfit, Outcome.done_bind,
    Outcome.fault_bind]

/-! ## The text of a list -/

variable {entries front back : List Entry}

theorem listText_single (e : Entry) : listText [e] = e.text := rfl

theorem listText_cons (e : Entry) (hback : back ≠ []) :
    listText (e :: back) = e.text ++ ',' :: listText back := by
  obtain ⟨e', back, rfl⟩ := List.exists_cons_of_ne_nil hback
  rfl

theorem exists_listText_cons (e : Entry) (back : List Entry) :
    ∃ rest, listText (e :: back) = e.text ++ rest ∧ Stops rest ∧
      (rest.head? = some ',' ↔ back ≠ []) := by
  rcases back with _ | ⟨e', back⟩
  · exact ⟨[], (List.append_nil _).symm, .inl rfl, by simp⟩
  · exact ⟨',' :: listText (e' :: back), rfl, .inr ⟨_, rfl⟩, by simp⟩

theorem fits_cons : Fits t o (e :: back) ↔
    (o + e.taken < 2 ^ 31 ∧ (e.Short → t.elemByName [] e.name ≠ .invalid)) ∧
      (Passes t e → Fits t (o + e.text.length + 1) back) := by
  have hheads (front : List Entry) : heads (e :: front) = e.text.length + 1 + heads front := rfl
  rw [Fits, Pieces.forall_piece_cons]
  refine and_congr (by simp [heads]) ⟨fun h hpass front e' back hback hfront => ?_,
    fun h front e' back hback hfront => ?_⟩
  · have hthere := h front e' back hback (List.forall_mem_cons.2 ⟨hpass, hfront⟩)
    rwa [hheads, ← Nat.add_assoc, ← Nat.add_assoc] at hthere
  · obtain ⟨hpass, hfront⟩ := List.forall_mem_cons.1 hfront
    have hthere := h hpass front e' back hback hfront
    rwa [hheads, ← Nat.add_assoc, ← Nat.add_assoc]

theorem fits_nil : Fits t o [] := fun front e back h => by simp at h

/-! ## Runs -/

/-- What is done to elements one after the other, in two parts. -/
theorem overNames_append {ns ms : List (List Char)} {count ret : Int}
    (h : overNames act ns count t = .done (ret, t')) (hret : 0 ≤ ret) :
    overNames act (ns ++ ms) count t = overNames act ms ret t' := by
  induction ns generalizing t count with
  | nil =>
    obtain ⟨rfl, rfl⟩ := Outcome.pair_inj h
    rfl
  | cons name ns ih =>
    rw [List.cons_append, overNames]
    rw [overNames] at h
    rcases hname : t.elemByName [] name with _ | loc | _ <;> rw [hname] at h
    · obtain ⟨rfl, -⟩ := Outcome.pair_inj h
      exact absurd hret (by decide)
    · rcases hact : act loc t with _ | t₁
      · simp [hact] at h
      · simp only [hact] at h ⊢
        exact ih h
    · cases h

/-- The loop has visited the entries in front, and is in front of the others. -/
structure Reached (act : Loc → Template → Option Template) (t : Template)
    (front back : List Entry) (s : NameLoop) : Prop where
  text : ∃ read, listText (front ++ back) = read ++ listText back ∧ read.length = s.offset
  visited : s.visited = names front
  count : s.count = front.length
  count_le : s.count ≤ s.offset
  short : ∀ e ∈ front, e.Short
  alike : Alike t s.template
  dealt : overNames act s.visited 0 t = .done (s.visited.length, s.template)

theorem reached_start (act : Loc → Template → Option Template) (t : Template)
    (entries : List Entry) : Reached act t [] entries (start t) where
  text := ⟨[], rfl, rfl⟩
  visited := rfl
  count := rfl
  count_le := Nat.le_refl 0
  short := fun _ h => nomatch h
  alike := .refl t
  dealt := rfl

theorem Reached.drop (h : Reached act t front back s) :
    (listText (front ++ back)).drop s.offset = listText back := by
  obtain ⟨read, htext, hlen⟩ := h.text
  rw [htext, ← hlen, List.drop_left]

/-- The next entry is visited. -/
theorem Reached.step (h : Reached act t front (e :: back) s) (hshort : e.Short)
    (hname : s.template.elemByName [] e.name = .elem loc) (hact : act loc s.template = some t')
    (halike : Alike s.template t') :
    Reached act t (front ++ [e]) back {
      offset := if back = [] then s.offset + e.taken else s.offset + e.taken + 1
      count := s.count + 1, template := t', visited := s.visited ++ [e.name] } where
  text := by
    obtain ⟨read, htext, hlen⟩ := h.text
    rw [List.append_assoc, List.singleton_append, htext]
    by_cases hback : back = []
    · subst hback
      refine ⟨read ++ e.text, ?_, ?_⟩
      · rw [listText_single]
        exact (List.append_nil _).symm
      · rw [if_pos rfl, List.length_append, hlen, Entry.taken_of_short hshort]
    · refine ⟨read ++ (e.text ++ [',']), ?_, ?_⟩
      · rw [listText_cons e hback]
        simp
      · rw [if_neg hback, List.length_append, hlen, Entry.taken_of_short hshort,
          List.length_append, List.length_singleton, Nat.add_assoc]
  visited := by rw [h.visited, names, names, List.map_append]; rfl
  count := by rw [h.count, List.length_append, List.length_singleton]
  count_le := by
    have hle := h.count_le
    have hpos := e.taken_pos
    simp only
    split_ifs <;> omega
  short := fun e' he' => by
    rcases List.mem_append.1 he' with he' | he'
    · exact h.short e' he'
    · rwa [List.mem_singleton.1 he']
  alike := h.alike.trans halike
  dealt := by
    rw [overNames_append h.dealt (Int.natCast_nonneg _), overNames, hname]
    simp only [hact, overNames, List.length_append, List.length_singleton, Int.natCast_add]
    rfl

section Turns

variable (hact : Acts act) (hfull : t.Full) (h : Reached act t front (e :: back) s)
include h

/-- A turn in front of the next entry, whose name fits. -/
theorem Reached.turn_short (hfit : s.offset + e.taken < 2 ^ 31) (hshort : e.Short) :
    turn act (listText (front ++ e :: back)) s =
      deal act (listText (front ++ e :: back)) { s with offset := s.offset + e.taken } e.name := by
  obtain ⟨rest, hlist, hrest, -⟩ := exists_listText_cons e back
  rw [turn_entry (h.drop.trans hlist) hrest, if_pos hfit, if_pos hshort]

theorem Reached.turn_fault (hfit : ¬ s.offset + e.taken < 2 ^ 31) :
    turn act (listText (front ++ e :: back)) s = .fault := by
  obtain ⟨rest, hlist, hrest, -⟩ := exists_listText_cons e back
  rw [turn_entry (h.drop.trans hlist) hrest, if_neg hfit]

/-- Behind the next entry there is a comma, if there is another one. -/
theorem Reached.comma_iff (hshort : e.Short) :
    ((listText (front ++ e :: back)).drop (s.offset + e.taken)).head? = some ',' ↔ back ≠ [] := by
  obtain ⟨rest, hlist, -, hcomma⟩ := exists_listText_cons e back
  rw [← List.drop_drop, h.drop, hlist, Entry.taken_of_short hshort, List.drop_left, hcomma]

/-- A name that is too long is not found, just as one without an element. -/
theorem Reached.turn_refused (hfit : s.offset + e.taken < 2 ^ 31)
    (hrefused : ¬ e.Short ∨ t.elemByName [] e.name = .null) :
    turn act (listText (front ++ e :: back)) s =
      .done (.inr (-EINVAL, { s with offset := s.offset + e.taken })) := by
  by_cases hshort : e.Short
  · rw [h.turn_short hfit hshort]
    refine deal_refused ?_
    exact (h.alike.elemByName [] e.name).trans (hrefused.resolve_left (not_not.2 hshort))
  · obtain ⟨rest, hlist, hrest, -⟩ := exists_listText_cons e back
    rw [turn_entry (h.drop.trans hlist) hrest, if_pos hfit, if_neg hshort]
    exact deal_refused (elemByName_empty s.template)

/-- Each name counted has taken a character, so that the offset overflows before the counter. -/
theorem Reached.count_lt (hfit : s.offset + e.taken < 2 ^ 31) : s.count + 1 < 2 ^ 31 := by
  have := h.count_le
  have := e.taken_pos
  omega

include hact hfull in
/-- What is done to an element that the search finds. -/
theorem Reached.exists_acted (hname : t.elemByName [] e.name = .elem loc) :
    s.template.elemByName [] e.name = .elem loc ∧
      ∃ t', act loc s.template = some t' ∧ Alike s.template t' := by
  have hname' := (h.alike.elemByName [] e.name).trans hname
  obtain ⟨d, hd⟩ := exists_desc_of_name hname'
  exact ⟨hname', hact (h.alike.full hfull) hd⟩

include hact hfull in
/-- The turn behind which the next entry is visited, if the comma behind it can be counted. -/
theorem Reached.turn_passes (hfit : s.offset + e.taken < 2 ^ 31) (hshort : e.Short)
    (hname : t.elemByName [] e.name = .elem loc)
    (hcomma : back ≠ [] → s.offset + e.taken + 1 < 2 ^ 31) :
    ∃ s', turn act (listText (front ++ e :: back)) s = .done (.inl s') ∧
      Reached act t (front ++ [e]) back s' ∧
      (back ≠ [] → s'.offset = s.offset + e.text.length + 1) := by
  obtain ⟨hname', t', hdo, halike⟩ := h.exists_acted hact hfull hname
  have hreached := h.step hshort hname' hdo halike
  have hhead : ((listText (front ++ e :: back)).drop (s.offset + e.taken)).head? = some ',' →
      s.offset + e.taken + 1 < 2 ^ 31 := fun hhead => hcomma ((h.comma_iff hshort).1 hhead)
  refine ⟨_, (h.turn_short hfit hshort).trans (deal_elem hname' hdo (h.count_lt hfit) hhead), ?_,
    fun hback => ?_⟩
  · simpa only [h.comma_iff hshort, ite_not] using hreached
  · simp only [h.comma_iff hshort, if_pos hback]
    rw [Entry.taken_of_short hshort]

include hact hfull in
/-- The comma behind the next entry cannot be counted. -/
theorem Reached.turn_comma_fault (hfit : s.offset + e.taken < 2 ^ 31) (hshort : e.Short)
    (hname : t.elemByName [] e.name = .elem loc) (hback : back ≠ [])
    (hcomma : ¬ s.offset + e.taken + 1 < 2 ^ 31) :
    turn act (listText (front ++ e :: back)) s = .fault := by
  obtain ⟨hname', t', hdo, -⟩ := h.exists_acted hact hfull hname
  rw [h.turn_short hfit hshort]
  exact deal_comma_fault hname' hdo (h.count_lt hfit) ((h.comma_iff hshort).2 hback) hcomma

end Turns

theorem fits_of_refused (hfit : o + e.taken < 2 ^ 31)
    (hrefused : ¬ e.Short ∨ t.elemByName [] e.name = .null) : Fits t o (e :: back) := by
  refine fits_cons.2 ⟨⟨hfit, fun hshort hname => ?_⟩, fun ⟨hshort, loc, hname⟩ => ?_⟩
  · rw [hrefused.resolve_left (not_not.2 hshort)] at hname
    cases hname
  · rw [hrefused.resolve_left (not_not.2 hshort)] at hname
    cases hname

theorem fits_cons_passes (hfit : o + e.taken < 2 ^ 31) (hpass : Passes t e) :
    Fits t o (e :: back) ↔ Fits t (o + e.text.length + 1) back := by
  rw [fits_cons]
  refine ⟨fun h => h.2 hpass, fun h => ⟨⟨hfit, fun _ hname => ?_⟩, fun _ => h⟩⟩
  obtain ⟨-, loc, hfound⟩ := hpass
  rw [hfound] at hname
  cases hname

/-- Behind a name that passes, there are no other names or the comma is counted. -/
theorem lt_of_fits (h : Fits t o (e :: back)) (hpass : Passes t e) (hback : back ≠ []) :
    o + e.taken + 1 < 2 ^ 31 := by
  obtain ⟨e', back, rfl⟩ := List.exists_cons_of_ne_nil hback
  have hnext := (fits_cons.1 ((fits_cons.1 h).2 hpass)).1.1
  rw [Entry.taken_of_short hpass.1]
  omega

/-- How the loop ends from an entry on: as it should, exactly if the others fit. -/
theorem ends_of_reached (hact : Acts act) (hfull : t.Full) (h : Reached act t front back s) :
    (Fits t s.offset back → ∃ ret s',
        Loop.Ends (turn act (listText (front ++ back))) s (.done (ret, s')) ∧
        EndsWell t (front ++ back) ret s' ∧
        overNames act s'.visited 0 t = .done (s'.visited.length, s'.template)) ∧
      (¬ Fits t s.offset back → Loop.Ends (turn act (listText (front ++ back))) s .fault) := by
  induction back generalizing front s with
  | nil =>
    refine ⟨fun _ => ⟨_, s, Loop.ends_return (turn_end h.drop), ?_, h.dealt⟩,
      fun hfits => absurd fits_nil hfits⟩
    obtain ⟨read, htext, hlen⟩ := h.text
    refine .atEnd ?_ ?_ ?_ ?_
    · simpa using h.short
    · simpa using h.visited
    · rw [htext, List.length_append, hlen]
      rfl
    · simp [h.count]
  | cons e back ih =>
    by_cases hfit : s.offset + e.taken < 2 ^ 31
    · by_cases hrefused : ¬ e.Short ∨ t.elemByName [] e.name = .null
      · refine ⟨fun _ => ⟨_, _, Loop.ends_return (h.turn_refused hfit hrefused),
          .atName front e back rfl h.short h.visited hrefused rfl, h.dealt⟩, fun hfits => ?_⟩
        exact absurd (fits_of_refused hfit hrefused) hfits
      obtain ⟨hshort, hsome⟩ := not_or.1 hrefused
      rw [not_not] at hshort
      rcases hname : t.elemByName [] e.name with _ | loc | _
      · exact absurd hname hsome
      · by_cases hcomma : back ≠ [] → s.offset + e.taken + 1 < 2 ^ 31
        · -- The next entry is visited.
          obtain ⟨s', hturn, hreached, hoffset⟩ :=
            h.turn_passes hact hfull hfit hshort hname hcomma
          have hends := ih hreached
          have hfits : Fits t s.offset (e :: back) ↔ Fits t s'.offset back := by
            rw [fits_cons_passes hfit ⟨hshort, loc, hname⟩]
            rcases eq_or_ne back [] with rfl | hback
            · exact iff_of_true fits_nil fits_nil
            · rw [hoffset hback]
          rw [hfits]
          simp only [Loop.ends_next_iff hturn]
          rwa [List.append_assoc] at hends
        · obtain ⟨hback, hover⟩ := Classical.not_imp.1 hcomma
          exact ⟨fun hfits => absurd (lt_of_fits hfits ⟨hshort, loc, hname⟩ hback) hover,
            fun _ => Loop.ends_fault (h.turn_comma_fault hact hfull hfit hshort hname hback hover)⟩
      · -- The pointer of an error is used.
        refine ⟨fun hfits => absurd hname ((fits_cons.1 hfits).1.2 hshort), fun _ => ?_⟩
        refine Loop.ends_fault ?_
        rw [h.turn_short hfit hshort]
        exact deal_invalid ((h.alike.elemByName [] e.name).trans hname)
    · -- The name ends where no `int` counts, so that the list does not fit either.
      exact ⟨fun hfits => absurd (fits_cons.1 hfits).1.1 hfit,
        fun _ => Loop.ends_fault (h.turn_fault hfit)⟩

/-! ## The loop ends -/

theorem eq_of_addInt {m : Nat} (h : addInt i k = .done m) : m = i + k := by
  rw [addInt] at h
  split_ifs at h
  exact (Outcome.done.inj h).symm

/-- What is done with a name does not take the offset back. -/
theorem offset_le_of_deal {s' : NameLoop}
    (h : deal act namelist s name = .done (.inl s')) : s.offset ≤ s'.offset := by
  rw [deal] at h
  rcases hname : s.template.elemByName [] name with _ | loc | _ <;> rw [hname] at h
  · cases h
  · rcases hdo : act loc s.template with _ | t' <;> simp only [hdo] at h
    · cases h
    · obtain ⟨count, -, h⟩ := Outcome.bind_eq_done.1 h
      split_ifs at h
      · obtain ⟨offset, hoffset, h⟩ := Outcome.bind_eq_done.1 h
        obtain rfl := Sum.inl.inj (Outcome.done.inj h)
        rw [eq_of_addInt hoffset]
        exact Nat.le_succ _
      · obtain rfl := Sum.inl.inj (Outcome.done.inj h)
        exact Nat.le_refl _
  · cases h

/-- A turn that is not the last takes a character of the text at least. -/
theorem offset_lt_of_turn {s' : NameLoop} (h : turn act namelist s = .done (.inl s')) :
    s.offset < namelist.length ∧ s.offset < s'.offset := by
  by_cases hend : namelist.drop s.offset = []
  · rw [turn_end hend] at h
    cases h
  refine ⟨Nat.lt_of_not_le fun hle => hend (List.drop_eq_nil_of_le hle), ?_⟩
  rw [turn] at h
  obtain ⟨⟨name, i⟩, -, h⟩ := Outcome.bind_eq_done.1 h
  simp only at h
  split_ifs at h with hi
  · cases h
  · obtain ⟨offset, hoffset, h⟩ := Outcome.bind_eq_done.1 h
    have hle := offset_le_of_deal h
    rw [eq_of_addInt hoffset] at hle
    have := Nat.pos_of_ne_zero hi
    simp only at hle
    omega

/-- The loop ends on every text. -/
theorem overList_enough (act : Loc → Template → Option Template) (namelist : List Char)
    (t : Template) : ∃ x, overList act namelist t = some x := by
  -- What a turn lowers is the number of characters from the offset on.
  have hlower (s s' : NameLoop) (h : turn act namelist s = .done (.inl s')) :
      namelist.length - s'.offset < namelist.length - s.offset := by
    have := offset_lt_of_turn h
    omega
  exact Loop.run_of_measure hlower (Nat.lt_succ_of_le (Nat.sub_le _ _))

theorem overList_eq {x : Outcome (Int × NameLoop)}
    (h : Loop.Ends (turn act namelist) (start t) x) : overList act namelist t = some x :=
  h.run_eq (overList_enough act namelist t)

/-! ## The loop over the names in a text -/

theorem fieldLoop_le (ifs : Char) (n : Nat) (str : List Char) :
    (fieldLoop ifs n str).elim n List.length ≤ str.length := by
  induction n generalizing str with
  | zero => exact Nat.zero_le _
  | succ n ih =>
    rcases str with _ | ⟨c, str⟩
    · exact Nat.le_refl 0
    · rw [fieldLoop]
      split_ifs
      · exact Nat.zero_le _
      · have hle := ih str
        rcases hfield : fieldLoop ifs n str with _ | field <;> rw [hfield] at hle
        · exact Nat.succ_le_succ hle
        · exact Nat.succ_le_succ hle

/-- No more characters are taken than there are. -/
theorem getfiledfromstr_le (ifs : Char) (n : Nat) (str : List Char) :
    (Struct.getfiledfromstr str ifs n).2 ≤ str.length := by
  have hblanks : (str.dropWhile (fun c => decide (c = ' '))).length ≤ str.length :=
    (List.dropWhile_suffix _).length_le
  have hle := fieldLoop_le ifs n (str.dropWhile fun c => decide (c = ' '))
  rw [Struct.getfiledfromstr]
  split_ifs
  · exact Nat.zero_le _
  · rcases hfield : fieldLoop ifs n (str.dropWhile fun c => decide (c = ' ')) with _ | field <;>
      rw [hfield] at hle
    · simp only [Option.elim_none] at hle ⊢
      omega
    · simp only [Option.elim_some] at hle ⊢
      omega

/-- What `Getfiledfromstr` reads of a text that can be counted. -/
theorem getfiledfromstr_done (hlen : str.length < 2 ^ 31) (hn : n ≠ 0) :
    getfiledfromstr str ifs n = .done (Struct.getfiledfromstr str ifs n) := by
  by_cases hstr : str.dropWhile (· = ' ') = []
  · rw [getfiledfromstr_blank hlen hstr, Struct.getfiledfromstr]
    simp only [hstr, if_true]
  · have hle := getfiledfromstr_le ifs n str
    rw [getfiledfromstr_eq hn hstr, counted_eq (by omega), Nat.zero_add]

theorem namesLoop_end (h : (Struct.getfiledfromstr str ',' (DIGEST_SIZE + 1)).2 = 0) (n : Nat) :
    namesLoop n str = [] := by
  rcases n with _ | n
  · rfl
  · rw [namesLoop]
    change (Struct.getfiledfromstr str ',' (maxNameLen + 1)).2 = 0 at h
    rcases hread : Struct.getfiledfromstr str ',' (maxNameLen + 1) with ⟨name, i⟩
    rw [hread] at h
    obtain rfl : i = 0 := h
    rfl

theorem namesLoop_step
    (h : Struct.getfiledfromstr str ',' (DIGEST_SIZE + 1) = (name, i + 1)) (n : Nat) :
    namesLoop (n + 1) str = name :: namesLoop n
      (if (str.drop (i + 1)).head? = some ',' then (str.drop (i + 1)).tail
        else str.drop (i + 1)) := by
  rw [namesLoop, show maxNameLen + 1 = DIGEST_SIZE + 1 from rfl, h]
  rfl

/-- The offset behind a comma. -/
theorem drop_comma (o : Nat) (namelist : List Char) :
    namelist.drop (if (namelist.drop o).head? = some ',' then o + 1 else o) =
      if (namelist.drop o).head? = some ',' then (namelist.drop o).tail else namelist.drop o := by
  split_ifs
  · exact List.tail_drop.symm
  · rfl

/-- What a call returns, with the template after it. -/
def result (r : Int × NameLoop) : Int × Template := (r.1, r.2.template)

/-- From an offset on, the loop is that over the names in the rest of the text. -/
theorem ends_namesLoop (act : Loc → Template → Option Template) (hlen : namelist.length < 2 ^ 31)
    (hn : (namelist.drop s.offset).length ≤ n) (hoffset : s.offset ≤ namelist.length)
    (hcount : s.count ≤ s.offset) :
    ∃ x, Loop.Ends (turn act namelist) s x ∧
      result <$> x = overNames act (namesLoop n (namelist.drop s.offset)) s.count s.template := by
  induction n generalizing s with
  | zero =>
    have hend : namelist.drop s.offset = [] := List.eq_nil_of_length_eq_zero (Nat.le_zero.1 hn)
    exact ⟨_, Loop.ends_return (turn_end hend), rfl⟩
  | succ n ih =>
    have hrest : (namelist.drop s.offset).length = namelist.length - s.offset := List.length_drop ..
    have hle := getfiledfromstr_le ',' (DIGEST_SIZE + 1) (namelist.drop s.offset)
    have hread : getfiledfromstr (namelist.drop s.offset) ',' (DIGEST_SIZE + 1) =
        .done (Struct.getfiledfromstr (namelist.drop s.offset) ',' (DIGEST_SIZE + 1)) :=
      getfiledfromstr_done (by omega) (by decide)
    rcases hfield : Struct.getfiledfromstr (namelist.drop s.offset) ',' (DIGEST_SIZE + 1) with
      ⟨name, _ | i⟩
    · -- Nothing is read, and the loop returns.
      rw [namesLoop_end (by rw [hfield])]
      exact ⟨_, Loop.ends_return (turn_zero (hread.trans (by rw [hfield]))), rfl⟩
    rw [hfield] at hread hle
    simp only at hle
    have hfit : s.offset + (i + 1) < 2 ^ 31 := by omega
    have hturn : turn act namelist s = _ := turn_read hread hfit
    rw [namesLoop_step hfield, overNames, List.drop_drop]
    rcases hname : s.template.elemByName [] name with _ | loc | _
    · exact ⟨_, Loop.ends_return (hturn.trans (deal_refused hname)), rfl⟩
    · rcases hdo : act loc s.template with _ | t'
      · refine ⟨_, Loop.ends_fault (hturn.trans (deal_stuck hname hdo)), ?_⟩
        simp only [hdo]
        rfl
      · -- The name is visited, and the rest of the text is shorter.
        have hcomma : (namelist.drop (s.offset + (i + 1))).head? = some ',' →
            s.offset + (i + 1) + 1 ≤ namelist.length := fun hhead => by
          by_contra hle
          rw [List.drop_eq_nil_of_le (by omega)] at hhead
          cases hhead
        have hnext := hturn.trans (deal_elem hname hdo
          (show s.count + 1 < 2 ^ 31 by omega) fun hhead => (hcomma hhead).trans_lt hlen)
        simp only at hnext
        -- Both loops step over the comma: the one by the offset, the other in the text.
        rw [← drop_comma]
        simp only [Loop.ends_next_iff hnext, hdo]
        refine ih ?_ ?_ ?_
        · rw [List.length_drop] at hn ⊢
          simp only
          split_ifs <;> omega
        · simp only
          split_ifs with hhead
          · exact hcomma hhead
          · omega
        · simp only
          split_ifs <;> omega
    · exact ⟨_, Loop.ends_fault (hturn.trans (deal_invalid hname)), rfl⟩

/-- On a text that can be counted by an `int`, the loop is that over the names in the text. -/
theorem overList_eq_overNames (act : Loc → Template → Option Template)
    (hlen : namelist.length < 2 ^ 31) (t : Template) :
    ∃ x, overList act namelist t = some x ∧
      result <$> x = overNames act (namesIn namelist) 0 t := by
  obtain ⟨x, hends, hresult⟩ := ends_namesLoop (s := start t) act hlen (Nat.le_refl _)
    (Nat.zero_le _) (Nat.zero_le _)
  exact ⟨x, overList_eq hends, hresult⟩

/-- `struct_set_flag` and `struct_clear_flag` on a text that can be counted. -/
theorem structFlag_eq (hlen : namelist.length < 2 ^ 31) (flag : Int32) (t : Template) :
    (∃ x, structSetFlag flag namelist t = some x ∧
      result <$> x = Struct.structSetFlag flag namelist t) ∧
    ∃ x, structClearFlag flag namelist t = some x ∧
      result <$> x = Struct.structClearFlag flag namelist t :=
  ⟨overList_eq_overNames _ hlen t, overList_eq_overNames _ hlen t⟩

/-! ## The lists that are split -/

theorem splits_iff (hact : Acts act) (hfull : t.Full) (entries : List Entry) :
    Splits (overList act) act t entries ↔ Fits t 0 entries := by
  obtain ⟨hends, hfault⟩ := ends_of_reached hact hfull (reached_start act t entries)
  constructor
  · rintro ⟨ret, s, hloop, -⟩
    by_contra hfits
    have hover := overList_eq (hfault hfits)
    rw [List.nil_append, hloop] at hover
    cases hover
  · intro hfits
    obtain ⟨ret, s, hloop, hwell⟩ := hends hfits
    exact ⟨ret, s, overList_eq hloop, hwell⟩

/-- The lists over which the loops of `struct_set_flag` and `struct_clear_flag` end as they
    should: the names that they come to can be counted, and the search for none of them ends
    with the pointer of an error. -/
theorem flagLists_split_iff {desc : List ElemDesc} {created t : Template}
    (hcreated : Created desc created) (hflagged : Flagged created t) (flag : Int32)
    (entries : List Entry) :
    (Splits (structSetFlag flag) (Template.setElemFlag flag) t entries ↔ Fits t 0 entries) ∧
      (Splits (structClearFlag flag) (Template.clearElemFlag flag) t entries ↔
        Fits t 0 entries) := by
  have hfull := hflagged.full hcreated.full
  exact ⟨splits_iff (acts_setElemFlag flag) hfull entries,
    splits_iff (acts_clearElemFlag flag) hfull entries⟩

/-- A name of one letter, behind blanks. -/
def letterEntry (k : Nat) : Entry := ⟨k, ['a'], listed_letter (by decide) (by decide)⟩

/-- The list `a, a` of a template of one integer. -/
theorem flagLists_split_iff_int : ∃ t, Created [intElem 'a'] t ∧
    Splits (structSetFlag 1) (Template.setElemFlag 1) t [letterEntry 0, letterEntry 1] ∧
    Splits (structClearFlag 1) (Template.clearElemFlag 1) t [letterEntry 0, letterEntry 1] := by
  obtain ⟨t, hcreated, ha, -, -⟩ := intTemplate
  have hname (k : Nat) : t.elemByName [] (letterEntry k).name ≠ .invalid := by
    intro h
    cases ha.symm.trans h
  have hfits : Fits t 0 [letterEntry 0, letterEntry 1] :=
    fits_cons.2 ⟨⟨by decide, fun _ => hname 0⟩, fun _ =>
      fits_cons.2 ⟨⟨by decide, fun _ => hname 1⟩, fun _ => fits_nil⟩⟩
  obtain ⟨hset, hclear⟩ :=
    flagLists_split_iff hcreated hcreated.flagged 1 [letterEntry 0, letterEntry 1]
  exact ⟨t, hcreated, hset.2 hfits, hclear.2 hfits⟩

/-- A path of which the first name is missing. -/
def pathEntry : Entry := ⟨0, ['x', '.', 'y'], by constructor <;> decide⟩

/-- The path of an element in a structure that is missing ends the call in a fault, and so do
    more blanks than an `int` counts. -/
theorem flagLists_not_split : ∃ t, Created [intElem 'a'] t ∧
    (∀ entries ∈ [[pathEntry], [letterEntry (2 ^ 31)]],
      ¬ Splits (structSetFlag 1) (Template.setElemFlag 1) t entries ∧
      ¬ Splits (structClearFlag 1) (Template.clearElemFlag 1) t entries) := by
  obtain ⟨t, hcreated, hpath⟩ : ∃ t, Created [intElem 'a'] t ∧
      t.elemByName [] pathEntry.name = .invalid :=
    ⟨_, ⟨0, _, Int.le_refl 0, ⟨2, rfl⟩, rfl⟩, by decide⟩
  have hfits : ∀ entries ∈ [[pathEntry], [letterEntry (2 ^ 31)]], ¬ Fits t 0 entries := by
    refine List.forall_mem_cons.2 ⟨fun h => ?_, List.forall_mem_singleton.2 fun h => ?_⟩
    · exact (fits_cons.1 h).1.2 (by decide) hpath
    · have hlt := (fits_cons.1 h).1.1
      simp [letterEntry, Entry.taken] at hlt
  refine ⟨t, hcreated, fun entries hmem => ⟨fun hsplits => hfits entries hmem ?_,
    fun hsplits => hfits entries hmem ?_⟩⟩
  · exact (splits_iff (acts_setElemFlag 1) hcreated.full entries).1 hsplits
  · exact (splits_iff (acts_clearElemFlag 1) hcreated.full entries).1 hsplits

end Cube.Struct.FlagList
