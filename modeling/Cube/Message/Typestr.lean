import Cube.Lib.Scan
import Cube.Memdb.TypeList
import Cube.Text.CString

/-!
# Type expressions

The expand a route rule takes its target from is named by a text with a type in brackets,
`prefix(TYPE)` or `prefix(TYPE,SUBTYPE)`, where blanks may be before the subtype, which may be
empty, and anything may be behind the bracket that closes. `message_read_typestr` reads the
numbers of the type and the subtype by four loops that move one offset in the text. The first
one, which looks for the bracket that opens, moves it twice a turn.

* `readTypestr_cases`: the text is read from the first bracket at an even place on;
* `readsTypestr_iff`: the texts that are read as they should be.
-/

namespace Cube.Message.Typestr

open Lib Text
open Memdb (Name Name2Value Namelist)

/-! ## Names of types -/

/-- The names of types and subtypes in the database: the list of the types, and the lists of
    subtypes in the order in which `memdb_get_subtypelist` looks through them. -/
structure TypeNames where
  typeenumlist : Option (List Name2Value)
  subtypelists : List (Int × Option (List Name2Value))

/-- The string in a buffer. -/
def bufferName (buffer : List UInt8) : Name where
  chars := buffer.takeWhile (· ≠ 0)
  nul_free := zero_notMem_takeWhile buffer

/-- `memdb_get_typeno`. -/
def memdbGetTypeno (names : TypeNames) (typestr : Name) : Outcome Int :=
  match names.typeenumlist with
  | none => .done (-EINVAL)
  | some list => Memdb.getValueNamelist typestr (.ofEntries list)

/-- `memdb_get_subtypelist`: the list of the subtypes of a type, if there is one. -/
def memdbGetSubtypelist (names : TypeNames) (type : Int) : Option (List Name2Value) :=
  (names.subtypelists.find? fun record => record.1 = type).bind Prod.snd

/-- `memdb_get_subtypeno`. -/
def memdbGetSubtypeno (names : TypeNames) (typeno : Int) (typestr : Name) : Outcome Int :=
  match memdbGetSubtypelist names typeno with
  | none => .done (-EINVAL)
  | some list => Memdb.getValueNamelist typestr (.ofEntries list)

/-! ## The loops -/

/-- The loop to the bracket that opens, in the memory from an offset on: the memory behind the
    bracket. The offset is moved by the test of the loop and once more in it. -/
def skipToBracket (len : Nat) : List UInt8 → Nat → Outcome (List UInt8 × Nat)
  | [], _ => .fault
  | c :: str, offset =>
    if c = '('.toUInt8 then .done (str, offset + 1)
    else if len ≤ offset + 2 then .error (-EINVAL)
    else match str with
      | [] => .fault
      | _ :: str => skipToBracket len str (offset + 2)

/-- The loops that copy a name up to its end: the buffer, and the memory from the end on. -/
def readName (isEnd : UInt8 → Bool) (len : Nat) :
    List UInt8 → Nat → List UInt8 → Outcome (List UInt8 × List UInt8 × Nat)
  | [], _, _ => .fault
  | c :: str, offset, buffer =>
    if isEnd c then .done (buffer, c :: str, offset)
    else if len ≤ offset + 1 then .error (-EINVAL)
    else readName isEnd len str (offset + 1) (buffer ++ [c])

/-- The loop over blanks. -/
def skipBlanks (len : Nat) : List UInt8 → Nat → Outcome (List UInt8 × Nat)
  | [], _ => .fault
  | c :: str, offset =>
    if c = ' '.toUInt8 then
      if len ≤ offset then .error (-EINVAL) else skipBlanks len str (offset + 1)
    else .done (c :: str, offset)

/-- The characters that end a type. -/
def endsType (c : UInt8) : Bool := c = ','.toUInt8 || c = ')'.toUInt8

/-- The character that ends a subtype. -/
def endsSubtype (c : UInt8) : Bool := c = ')'.toUInt8

/-- `message_read_typestr` behind the comma: what is returned, and the numbers of the type and
    the subtype. -/
def readSubtype (names : TypeNames) (len : Nat) (type : Int) (str : List UInt8) (offset : Nat) :
    Outcome (Int × Int × Int) := do
  let (str, offset) ← skipBlanks len str offset
  let (buffer, _, offset) ← readName endsSubtype len str offset []
  if buffer = [] then .done (offset, type, 0)
  else do
    let subtype ← memdbGetSubtypeno names type (bufferName buffer)
    if subtype < 0 then .error subtype
    else .done (offset, type, subtype)

/-- `message_read_typestr` behind the bracket that opens. -/
def readExpr (names : TypeNames) (len : Nat) (str : List UInt8) (offset : Nat) :
    Outcome (Int × Int × Int) := do
  let (buffer, str, offset) ← readName endsType len str offset []
  let type ← memdbGetTypeno names (bufferName buffer)
  if type < 0 then .error type
  else match str with
    | [] => .fault
    | c :: str =>
      if c = ')'.toUInt8 then .done (offset, type, 0)
      else readSubtype names len type str (offset + 1)

/-- `message_read_typestr` with the length of the text. -/
def readTypestr (names : TypeNames) (len : Nat) (str : List UInt8) : Outcome (Int × Int × Int) := do
  let (str, offset) ← skipToBracket len str 0
  readExpr names len str offset

/-- `message_read_typestr` of a text that is not `NULL`. The buffer for names is larger than a
    text that is read. -/
def messageReadTypestr (names : TypeNames) (str : List UInt8) : Outcome (Int × Int × Int) := do
  let len ← strnlen str (DIGEST_SIZE * 2 + 1)
  if DIGEST_SIZE * 2 ≤ len then .error (-EINVAL)
  else readTypestr names len str

/-! ## What a text denotes -/

/-- The number of a name in a list. -/
def numberOf (text : List UInt8) (list : List Name2Value) : Option Int :=
  (list.find? fun e => e.name.chars = text).map Name2Value.value

/-- There is a type of the name, with the number. -/
def HasType (names : TypeNames) (text : List UInt8) (type : Int) : Prop :=
  ∃ list, names.typeenumlist = some list ∧ numberOf text list = some type

/-- There is a subtype of the name and of the type with the number. -/
def HasSubtype (names : TypeNames) (type : Int) (text : List UInt8) (subtype : Int) : Prop :=
  ∃ list, memdbGetSubtypelist names type = some list ∧ numberOf text list = some subtype

/-- The number that is looked up for a type: unknown names have the number zero. -/
def typeno (names : TypeNames) (text : List UInt8) : Int :=
  match names.typeenumlist with
  | none => -EINVAL
  | some list => (numberOf text list).getD 0

/-- The number that is looked up for a subtype. -/
def subtypeno (names : TypeNames) (type : Int) (text : List UInt8) : Int :=
  match memdbGetSubtypelist names type with
  | none => -EINVAL
  | some list => (numberOf text list).getD 0

/-- Behind the bracket that opens there is a type, or a type and a subtype, up to the bracket
    that closes, as many characters on. -/
inductive Expr : List UInt8 → List UInt8 → List UInt8 → Nat → Prop
  | type {type rest : List UInt8} (htype : ∀ c ∈ type, endsType c = false) :
    Expr (type ++ ')'.toUInt8 :: rest) type [] type.length
  | subtype {type subtype rest : List UInt8} {blanks : Nat}
    (htype : ∀ c ∈ type, endsType c = false) (hblank : subtype.head? ≠ some ' '.toUInt8)
    (hsubtype : ∀ c ∈ subtype, endsSubtype c = false) :
    Expr (type ++ ','.toUInt8 :: (.replicate blanks ' '.toUInt8 ++
      (subtype ++ ')'.toUInt8 :: rest))) type subtype
      (type.length + 1 + blanks + subtype.length)

/-- The numbers of a type and a subtype, where an empty subtype is zero. -/
def Denotes (names : TypeNames) (type subtype : List UInt8) (t u : Int) : Prop :=
  HasType names type t ∧ (subtype = [] ∧ u = 0 ∨ subtype ≠ [] ∧ HasSubtype names t subtype u)

/-- The numbers that a type and a subtype are let pass with, unknown names as zero. -/
def Passes (names : TypeNames) (type subtype : List UInt8) (t u : Int) : Prop :=
  t = typeno names type ∧ 0 ≤ t ∧
    (subtype = [] ∧ u = 0 ∨ subtype ≠ [] ∧ u = subtypeno names t subtype ∧ 0 ≤ u)

/-- The first bracket of a text, with what is before and behind it. -/
structure FirstBracket (str before after : List UInt8) : Prop where
  eq : str = before ++ '('.toUInt8 :: after
  first : '('.toUInt8 ∉ before

/-- There is no bracket at an even place. -/
def NoneAtEven (str : List UInt8) : Prop := ∀ i, str[2 * i]? ≠ some '('.toUInt8

/-- The first bracket at an even place. -/
structure EvenBracket (str before after : List UInt8) : Prop where
  eq : str = before ++ '('.toUInt8 :: after
  first : NoneAtEven before
  even : before.length % 2 = 0

/-- A text denotes numbers, with the place of the bracket that closes. -/
def Denoted (names : TypeNames) (str : List UInt8) (t u : Int) (close : Nat) : Prop :=
  ∃ before after type subtype n, FirstBracket str before after ∧ Expr after type subtype n ∧
    Denotes names type subtype t u ∧ close = before.length + 1 + n

/-- A text is read as it should: to the numbers that it denotes, if it is not too long, and to
    an error if there are none. No character at the end of the text or behind it is looked at
    when its length is known. -/
def ReadsTypestr (names : TypeNames) (str : List UInt8) : Prop :=
  (∀ rest, (∀ t u close, str.length < DIGEST_SIZE * 2 → Denoted names str t u close →
      messageReadTypestr names (str ++ 0 :: rest) = .done ((close : Int), t, u)) ∧
    ((¬ ∃ t u close, str.length < DIGEST_SIZE * 2 ∧ Denoted names str t u close) →
      ∃ e < 0, messageReadTypestr names (str ++ 0 :: rest) = .error e)) ∧
  (str.length < DIGEST_SIZE * 2 → readTypestr names str.length str ≠ .fault)

/-- The end of a text is looked at, when nothing is behind the bracket that opens, or nothing
    but blanks behind the comma and the number of the type is not negative. -/
def OpenEnded (names : TypeNames) (after : List UInt8) : Prop :=
  after = [] ∨ ∃ type n, (∀ b ∈ type, endsType b = false) ∧ 0 ≤ typeno names type ∧
    after = type ++ ','.toUInt8 :: .replicate n ' '.toUInt8

/-- The loops look at the end of a text. -/
def ReadsEnd (names : TypeNames) (str : List UInt8) : Prop :=
  str = [] ∨ ∃ before after, EvenBracket str before after ∧ OpenEnded names after

/-- The numbers that are let pass behind the first bracket at an even place. -/
def PassedAtEven (names : TypeNames) (str : List UInt8) (t u : Int) (close : Nat) : Prop :=
  ∃ before after type subtype n, EvenBracket str before after ∧ Expr after type subtype n ∧
    Passes names type subtype t u ∧ close = before.length + 1 + n

/-- The first bracket, if there is one, is at an even place, and the names in an expression
    behind it are known, with numbers that are not negative, or refused. -/
def EvenRight (names : TypeNames) (str : List UInt8) : Prop :=
  ∀ before after, FirstBracket str before after → before.length % 2 = 0 ∧
    ∀ type subtype n, Expr after type subtype n →
      (∃ t u, Denotes names type subtype t u ∧ 0 ≤ t ∧ 0 ≤ u) ∨
      (∀ t u, ¬ Denotes names type subtype t u ∧ ¬ Passes names type subtype t u)

/-- The first bracket is at an odd place, and what is denoted by it and what is let pass behind
    the first one at an even place are the same, or there are neither. -/
def OddRight (names : TypeNames) (str : List UInt8) : Prop :=
  (∃ before after, FirstBracket str before after ∧ before.length % 2 = 1) ∧
    ((∃ t u close, Denoted names str t u close ∧ PassedAtEven names str t u close) ∨
      ∀ t u close, ¬ Denoted names str t u close ∧ ¬ PassedAtEven names str t u close)

/-- A text is too long, or its end is not looked at and its brackets and names are right. -/
def ReadRight (names : TypeNames) (str : List UInt8) : Prop :=
  DIGEST_SIZE * 2 ≤ str.length ∨
    ¬ ReadsEnd names str ∧ (EvenRight names str ∨ OddRight names str)

/-! ## Lookups -/

variable {names : TypeNames} {text type subtype after str : List UInt8} {t u : Int} {len n : Nat}

theorem bufferName_chars (h : 0 ∉ text) : (bufferName text).chars = text := by
  rw [bufferName, List.takeWhile_eq_self_iff]
  intro c hc
  simp only [decide_eq_true_eq]
  rintro rfl
  exact h hc

theorem getValueNamelist_eq (h : 0 ∉ text) (list : List Name2Value) :
    Memdb.getValueNamelist (bufferName text) (.ofEntries list) =
      .done ((numberOf text list).getD 0) := by
  have hname (e : Name2Value) : (decide (e.name.strcmp (bufferName text) = 0)) =
      decide (e.name.chars = text) := by
    refine decide_eq_decide.2 (Memdb.Name.strcmp_eq_zero.trans ⟨?_, fun heq => ?_⟩)
    · rintro heq
      rw [heq, bufferName_chars h]
    · exact Memdb.Name.ext (heq.trans (bufferName_chars h).symm)
  simp only [Memdb.getValueNamelist, Namelist.ofEntries, Int.toNat_natCast, hname,
    Memdb.TypeList.findEntry_eq, Outcome.done_bind]
  rfl

theorem memdbGetTypeno_eq (h : 0 ∉ text) :
    memdbGetTypeno names (bufferName text) = .done (typeno names text) := by
  rw [memdbGetTypeno, typeno]
  cases names.typeenumlist with
  | none => rfl
  | some list => exact getValueNamelist_eq h list

theorem memdbGetSubtypeno_eq (h : 0 ∉ text) :
    memdbGetSubtypeno names t (bufferName text) = .done (subtypeno names t text) := by
  rw [memdbGetSubtypeno, subtypeno]
  cases memdbGetSubtypelist names t with
  | none => rfl
  | some list => exact getValueNamelist_eq h list

/-- A type has the number that is looked up. -/
theorem HasType.typeno_eq (h : HasType names text t) : typeno names text = t := by
  obtain ⟨list, hlist, hnumber⟩ := h
  simp only [typeno, hlist, hnumber, Option.getD_some]

theorem HasSubtype.subtypeno_eq (h : HasSubtype names t text u) : subtypeno names t text = u := by
  obtain ⟨list, hlist, hnumber⟩ := h
  simp only [subtypeno, hlist, hnumber, Option.getD_some]

/-- Numbers of known names are let pass if they are not negative. -/
theorem Denotes.passes (h : Denotes names type subtype t u) (ht : 0 ≤ t) (hu : 0 ≤ u) :
    Passes names type subtype t u := by
  refine ⟨h.1.typeno_eq.symm, ht, h.2.imp_right fun ⟨hne, hsub⟩ => ⟨hne, ?_, hu⟩⟩
  exact hsub.subtypeno_eq.symm

theorem Passes.nonneg (h : Passes names type subtype t u) : 0 ≤ t ∧ 0 ≤ u := by
  refine ⟨h.2.1, ?_⟩
  rcases h.2.2 with ⟨-, rfl⟩ | ⟨-, -, hu⟩
  · exact Int.le_refl 0
  · exact hu

variable {t' u' : Int} {before : List UInt8} {close : Nat}

/-- What is let pass is told by the names. -/
theorem Passes.unique (h : Passes names type subtype t u)
    (h' : Passes names type subtype t' u') : t = t' ∧ u = u' := by
  obtain rfl : t = t' := h.1.trans h'.1.symm
  refine ⟨rfl, ?_⟩
  rcases h.2.2 with ⟨hnil, rfl⟩ | ⟨hne, rfl, -⟩ <;> rcases h'.2.2 with ⟨hnil', rfl⟩ | ⟨hne', rfl, -⟩
  · rfl
  · exact (hne' hnil).elim
  · exact (hne hnil').elim
  · rfl

theorem Denotes.unique (h : Denotes names type subtype t u)
    (h' : Denotes names type subtype t' u') : t = t' ∧ u = u' := by
  obtain rfl : t = t' := h.1.typeno_eq.symm.trans h'.1.typeno_eq
  refine ⟨rfl, ?_⟩
  rcases h.2 with ⟨hnil, rfl⟩ | ⟨hne, hsub⟩ <;> rcases h'.2 with ⟨hnil', rfl⟩ | ⟨hne', hsub'⟩
  · rfl
  · exact (hne' hnil).elim
  · exact (hne hnil').elim
  · exact hsub.subtypeno_eq.symm.trans hsub'.subtypeno_eq

/-! ## The bracket that opens -/

theorem noneAtEven_nil : NoneAtEven [] := fun _ => by simp

theorem noneAtEven_cons {c c' : UInt8} :
    NoneAtEven (c :: c' :: str) ↔ c ≠ '('.toUInt8 ∧ NoneAtEven str := by
  constructor
  · intro h
    refine ⟨fun hc => h 0 (by simp [hc]), fun i hi => h (i + 1) ?_⟩
    simpa [Nat.mul_add] using hi
  · rintro ⟨hc, h⟩ i
    cases i with
    | zero => simpa using hc
    | succ i => simpa [Nat.mul_add] using h i

theorem noneAtEven_of_notMem (h : '('.toUInt8 ∉ str) : NoneAtEven str :=
  fun _ hi => h (List.mem_of_getElem? hi)

/-- A text has a first bracket at an even place, or none. -/
theorem exists_evenBracket : ∀ str : List UInt8,
    NoneAtEven str ∨ ∃ before after, EvenBracket str before after
  | [] => .inl noneAtEven_nil
  | [c] => by
    by_cases hc : c = '('.toUInt8
    · exact .inr ⟨[], [], by rw [hc]; rfl, noneAtEven_nil, rfl⟩
    · refine .inl fun i => ?_
      cases i with
      | zero => simpa using hc
      | succ i => simp [Nat.mul_add]
  | c :: c' :: str => by
    by_cases hc : c = '('.toUInt8
    · exact .inr ⟨[], c' :: str, by rw [hc]; rfl, noneAtEven_nil, rfl⟩
    · rcases exists_evenBracket str with h | ⟨before, after, h⟩
      · exact .inl (noneAtEven_cons.2 ⟨hc, h⟩)
      · refine .inr ⟨c :: c' :: before, after, by rw [h.eq]; rfl, noneAtEven_cons.2 ⟨hc, h.first⟩, ?_⟩
        rw [List.length_cons, List.length_cons, Nat.add_assoc, Nat.add_mod_right]
        exact h.even

theorem skipToBracket_cons (len : Nat) (c : UInt8) (str : List UInt8) (offset : Nat) :
    skipToBracket len (c :: str) offset =
      if c = '('.toUInt8 then .done (str, offset + 1)
      else if len ≤ offset + 2 then .error (-EINVAL)
      else match str with
        | [] => .fault
        | _ :: str => skipToBracket len str (offset + 2) := by
  rw [skipToBracket.eq_def]

/-- The loop comes to the first bracket at an even place. -/
theorem skipToBracket_found : ∀ {before : List UInt8} {offset : Nat}, NoneAtEven before →
    before.length % 2 = 0 → offset + before.length < len →
    skipToBracket len (before ++ '('.toUInt8 :: after) offset =
      .done (after, offset + before.length + 1)
  | [], offset, _, _, _ => by rw [List.nil_append, skipToBracket_cons, if_pos rfl]; rfl
  | [c], _, _, heven, _ => absurd heven (by simp)
  | c :: c' :: before, offset, hnone, heven, hlen => by
    rw [List.length_cons, List.length_cons] at heven hlen ⊢
    obtain ⟨hc, hnone⟩ := noneAtEven_cons.1 hnone
    rw [List.cons_append, List.cons_append, skipToBracket_cons, if_neg hc, if_neg (by omega)]
    simp only
    rw [skipToBracket_found hnone (by omega) (by omega)]
    congr 2
    omega

/-- It fails when there is none, and only for the empty text by a look at its end. -/
theorem skipToBracket_none : ∀ {str : List UInt8}, NoneAtEven str → str ≠ [] →
    ∀ (offset : Nat) (rest : List UInt8), skipToBracket (offset + str.length) (str ++ rest) offset = .error (-EINVAL)
  | [], _, hne, _, _ => absurd rfl hne
  | [c], hnone, _, offset, rest => by
    rw [List.cons_append, skipToBracket_cons, if_neg (by simpa using hnone 0), if_pos (by simp)]
  | [c, c'], hnone, _, offset, rest => by
    rw [List.cons_append, skipToBracket_cons, if_neg (noneAtEven_cons.1 hnone).1, if_pos (by simp)]
  | c :: c' :: d :: str, hnone, _, offset, rest => by
    obtain ⟨hc, hnone⟩ := noneAtEven_cons.1 hnone
    have hrest := skipToBracket_none hnone (List.cons_ne_nil d str) (offset + 2) rest
    rw [List.cons_append, List.cons_append, skipToBracket_cons, if_neg hc,
      if_neg (by simp only [List.length_cons]; omega)]
    simp only
    rw [← hrest]
    congr 1
    simp only [List.length_cons]
    omega

/-! ## Names and blanks -/

variable {isEnd : UInt8 → Bool} {offset : Nat} {c : UInt8}

/-- A name is read up to its end, which is in the text. -/
theorem readName_end (h : ∀ b ∈ text, isEnd b = false) (hc : isEnd c = true)
    (hlen : offset + text.length < len) (rest buffer : List UInt8) :
    readName isEnd len (text ++ c :: rest) offset buffer =
      .done (buffer ++ text, c :: rest, offset + text.length) := by
  induction text generalizing offset buffer with
  | nil => rw [List.nil_append, readName, if_pos hc, List.append_nil, List.length_nil, Nat.add_zero]
  | cons b text ih =>
    rw [List.forall_mem_cons] at h
    rw [List.length_cons] at hlen
    rw [List.cons_append, readName, if_neg (by simp [h.1]), if_neg (by omega), ih h.2 (by omega)]
    rw [List.append_assoc, List.singleton_append, List.length_cons, Nat.add_assoc, Nat.add_comm 1]

/-- A name without an end is an error, and the end of the text is looked at only if there is
    no character of the name. -/
theorem readName_none (h : ∀ b ∈ text, isEnd b = false) (hne : text ≠ []) (offset : Nat)
    (rest buffer : List UInt8) :
    readName isEnd (offset + text.length) (text ++ rest) offset buffer = .error (-EINVAL) := by
  induction text generalizing offset buffer with
  | nil => exact absurd rfl hne
  | cons b text ih =>
    rw [List.forall_mem_cons] at h
    rw [List.cons_append, readName, if_neg (by simp [h.1]), List.length_cons]
    rcases text with _ | ⟨b', text⟩
    · rw [if_pos (by simp)]
    · rw [if_neg (by simp), ← ih h.2 (List.cons_ne_nil b' text) (offset + 1)]
      congr 1
      simp only [List.length_cons]
      omega

/-- At the end of the text a name is an error. -/
theorem readName_nul (hnul : isEnd 0 = false) (rest buffer : List UInt8) :
    readName isEnd offset (0 :: rest) offset buffer = .error (-EINVAL) := by
  rw [readName, if_neg (by simp [hnul]), if_pos (Nat.le_succ _)]

/-- Blanks are passed over. -/
theorem skipBlanks_blanks (hc : c ≠ ' '.toUInt8) {n : Nat} (hlen : offset + n ≤ len)
    (rest : List UInt8) :
    skipBlanks len (.replicate n ' '.toUInt8 ++ c :: rest) offset = .done (c :: rest, offset + n) := by
  induction n generalizing offset with
  | zero => rw [List.replicate_zero, List.nil_append, skipBlanks, if_neg hc, Nat.add_zero]
  | succ n ih =>
    rw [List.replicate_succ, List.cons_append, skipBlanks, if_pos rfl, if_neg (by omega),
      ih (by omega), Nat.add_assoc, Nat.add_comm 1]

/-- Blanks up to the end of what may be read. -/
theorem skipBlanks_all {n : Nat} (hlen : offset + n ≤ len) :
    skipBlanks len (.replicate n ' '.toUInt8) offset = .fault := by
  induction n generalizing offset with
  | zero => rfl
  | succ n ih =>
    rw [List.replicate_succ, skipBlanks, if_pos rfl, if_neg (by omega), ih (by omega)]

/-- A text up to its first end, if there is one. -/
theorem split_end (isEnd : UInt8 → Bool) (text : List UInt8) : (∀ b ∈ text, isEnd b = false) ∨
    ∃ name c rest, text = name ++ c :: rest ∧ (∀ b ∈ name, isEnd b = false) ∧ isEnd c = true := by
  induction text with
  | nil => exact .inl nofun
  | cons b text ih =>
    cases hb : isEnd b with
    | true => exact .inr ⟨[], b, text, rfl, nofun, hb⟩
    | false =>
      rcases ih with h | ⟨name, c, rest, rfl, hname, hc⟩
      · exact .inl (List.forall_mem_cons.2 ⟨hb, h⟩)
      · exact .inr ⟨b :: name, c, rest, rfl, List.forall_mem_cons.2 ⟨hb, hname⟩, hc⟩

/-- There is one first end. -/
theorem end_unique {name name' rest rest' : List UInt8} {c' : UInt8}
    (h : ∀ b ∈ name, isEnd b = false) (h' : ∀ b ∈ name', isEnd b = false) (hc : isEnd c = true)
    (hc' : isEnd c' = true) (heq : name ++ c :: rest = name' ++ c' :: rest') :
    name = name' ∧ c = c' ∧ rest = rest' := by
  have hscan {name : List UInt8} (h : ∀ b ∈ name, isEnd b = false) : ∀ b ∈ name, (!isEnd b) = true :=
    fun b hb => by rw [h b hb]; rfl
  exact stop_unique (hscan h) (hscan h') (by rw [hc]; rfl) (by rw [hc']; rfl) heq

/-- Blanks, and what is behind them. -/
theorem split_blanks (text : List UInt8) : ∃ n rest, text = .replicate n ' '.toUInt8 ++ rest ∧
    rest.head? ≠ some ' '.toUInt8 := by
  induction text with
  | nil => exact ⟨0, [], rfl, nofun⟩
  | cons b text ih =>
    by_cases hb : b = ' '.toUInt8
    · obtain ⟨n, rest, rfl, hrest⟩ := ih
      exact ⟨n + 1, rest, by rw [hb]; rfl, hrest⟩
    · exact ⟨0, b :: text, rfl, by simpa using hb⟩

/-- There is one number of blanks. -/
theorem blanks_unique {n n' : Nat} {rest rest' : List UInt8} (h : rest.head? ≠ some ' '.toUInt8)
    (h' : rest'.head? ≠ some ' '.toUInt8)
    (heq : List.replicate n ' '.toUInt8 ++ rest = .replicate n' ' '.toUInt8 ++ rest') :
    n = n' ∧ rest = rest' := by
  have hdrop {n : Nat} {rest : List UInt8} (h : rest.head? ≠ some ' '.toUInt8) :
      (.replicate n ' '.toUInt8 ++ rest).dropWhile (· == ' '.toUInt8) = rest := by
    rw [List.dropWhile_append_of_pos fun b hb => beq_iff_eq.2 (List.eq_of_mem_replicate hb)]
    cases rest with
    | nil => rfl
    | cons b rest => rw [List.dropWhile_cons_of_neg (by simpa using h)]
  have hrest : rest = rest' := by
    rw [← hdrop (n := n) h, heq, hdrop h']
  have hlen := congrArg List.length heq
  simp only [hrest, List.length_append, List.length_replicate] at hlen
  exact ⟨by omega, hrest⟩

/-! ## Expressions -/

theorem endsType_close : endsType ')'.toUInt8 = true := by decide

theorem endsType_comma : endsType ','.toUInt8 = true := by decide

theorem endsSubtype_close : endsSubtype ')'.toUInt8 = true := by decide

theorem endsType_nul : endsType 0 = false := by decide

theorem endsSubtype_nul : endsSubtype 0 = false := by decide

theorem endsType_cases (h : endsType c = true) : c = ','.toUInt8 ∨ c = ')'.toUInt8 := by
  simpa [endsType] using h

/-- A subtype does not start with a blank, nor does the bracket behind it. -/
theorem head?_subtype (h : subtype.head? ≠ some ' '.toUInt8) (rest : List UInt8) :
    (subtype ++ ')'.toUInt8 :: rest).head? ≠ some ' '.toUInt8 := by
  cases subtype with
  | nil =>
    have hclose : ')'.toUInt8 ≠ ' '.toUInt8 := by decide
    simpa using hclose
  | cons b subtype => exact h

/-- What is behind the bracket that opens is one expression. -/
theorem Expr.unique {type' subtype' : List UInt8} {n' : Nat} (h : Expr after type subtype n)
    (h' : Expr after type' subtype' n') : type = type' ∧ subtype = subtype' ∧ n = n' := by
  cases h with
  | @type type rest htype =>
    generalize heq : type ++ ')'.toUInt8 :: rest = after at h'
    cases h' with
    | @type type' rest' htype' =>
      obtain ⟨rfl, -, -⟩ := end_unique htype htype' endsType_close endsType_close heq
      exact ⟨rfl, rfl, rfl⟩
    | subtype htype' =>
      exact absurd (end_unique htype htype' endsType_close endsType_comma heq).2.1 (by decide)
  | @subtype type subtype rest blanks htype hblank hsubtype =>
    generalize heq : type ++ ','.toUInt8 :: (.replicate blanks ' '.toUInt8 ++
      (subtype ++ ')'.toUInt8 :: rest)) = after at h'
    cases h' with
    | type htype' =>
      exact absurd (end_unique htype htype' endsType_comma endsType_close heq).2.1 (by decide)
    | @subtype type' subtype' rest' blanks' htype' hblank' hsubtype' =>
      obtain ⟨rfl, -, hrest⟩ := end_unique htype htype' endsType_comma endsType_comma heq
      obtain ⟨rfl, hsub⟩ := blanks_unique (head?_subtype hblank _) (head?_subtype hblank' _) hrest
      obtain ⟨rfl, -, -⟩ := end_unique hsubtype hsubtype' endsSubtype_close endsSubtype_close hsub
      exact ⟨rfl, rfl, rfl⟩

/-- The type of an expression is what is before its end. -/
theorem Expr.type_eq {type' behind : List UInt8} (h : Expr (type ++ c :: behind) type' subtype n)
    (htype : ∀ b ∈ type, endsType b = false) (hc : endsType c = true) : type = type' := by
  generalize heq : type ++ c :: behind = after at h
  cases h with
  | type htype' => exact (end_unique htype htype' hc endsType_close heq).1
  | subtype htype' => exact (end_unique htype htype' hc endsType_comma heq).1

/-- There is a bracket that closes an expression. -/
theorem Expr.close_mem (h : Expr after type subtype n) : ')'.toUInt8 ∈ after := by
  cases h with
  | type => simp
  | subtype => simp

variable (names) in
theorem readExpr_eq (h0 : 0 ∉ type) (htype : ∀ b ∈ type, endsType b = false)
    (hc : endsType c = true) (hlen : offset + type.length < len) (rest : List UInt8) :
    readExpr names len (type ++ c :: rest) offset =
      if typeno names type < 0 then .error (typeno names type)
      else if c = ')'.toUInt8 then .done (((offset + type.length : Nat) : Int), typeno names type, 0)
      else readSubtype names len (typeno names type) rest (offset + type.length + 1) := by
  rw [readExpr, readName_end htype hc hlen, Outcome.done_bind, List.nil_append]
  simp only [memdbGetTypeno_eq h0, Outcome.done_bind]

variable (names t) in
theorem readSubtype_eq (h0 : 0 ∉ subtype) (hblank : subtype.head? ≠ some ' '.toUInt8)
    (hsubtype : ∀ b ∈ subtype, endsSubtype b = false) {blanks : Nat}
    (hlen : offset + blanks + subtype.length < len) (rest : List UInt8) :
    readSubtype names len t (.replicate blanks ' '.toUInt8 ++ (subtype ++ ')'.toUInt8 :: rest)) offset =
      if subtype = [] then .done (((offset + blanks + subtype.length : Nat) : Int), t, 0)
      else if subtypeno names t subtype < 0 then .error (subtypeno names t subtype)
      else .done (((offset + blanks + subtype.length : Nat) : Int), t, subtypeno names t subtype) := by
  obtain ⟨b, behind, heq⟩ : ∃ b behind, subtype ++ ')'.toUInt8 :: rest = b :: behind := by
    cases subtype <;> exact ⟨_, _, rfl⟩
  have hb : b ≠ ' '.toUInt8 := by simpa [heq] using head?_subtype hblank rest
  rw [readSubtype, heq, skipBlanks_blanks hb (by omega), Outcome.done_bind]
  simp only [← heq, readName_end hsubtype endsSubtype_close hlen, Outcome.done_bind,
    List.nil_append, memdbGetSubtypeno_eq h0]

variable (names t) in
/-- Behind the comma nothing is read that is no subtype. The end of the text is looked at if
    there are only blanks. -/
theorem readSubtype_none (hnone : ∀ b ∈ text, endsSubtype b = false) (offset : Nat) :
    (∀ rest, readSubtype names (offset + text.length) t (text ++ 0 :: rest) offset =
      .error (-EINVAL)) ∧
    (readSubtype names (offset + text.length) t text offset = .fault ↔
      ∃ n, text = .replicate n ' '.toUInt8) := by
  obtain ⟨n, tail, rfl, htail⟩ := split_blanks text
  rcases tail with _ | ⟨b, tail⟩
  · rw [List.append_nil] at hnone ⊢
    rw [List.length_replicate]
    constructor
    · intro rest
      rw [readSubtype, skipBlanks_blanks (by decide) (Nat.le_refl _), Outcome.done_bind]
      simp only [readName_nul endsSubtype_nul, Outcome.error_bind]
    · refine iff_of_true ?_ ⟨n, rfl⟩
      rw [readSubtype, skipBlanks_all (Nat.le_refl _), Outcome.fault_bind]
  · have hb : b ≠ ' '.toUInt8 := by simpa using htail
    have hread (rest : List UInt8) : readSubtype names
        (offset + (List.replicate n ' '.toUInt8 ++ b :: tail).length) t
        (.replicate n ' '.toUInt8 ++ b :: (tail ++ rest)) offset = .error (-EINVAL) := by
      have htext : ∀ d ∈ b :: tail, endsSubtype d = false :=
        fun d hd => hnone d (List.mem_append_right _ hd)
      have hname := readName_none htext (List.cons_ne_nil b tail) (offset + n) rest []
      rw [readSubtype, skipBlanks_blanks hb (by simp), Outcome.done_bind]
      rw [List.length_append, List.length_replicate, ← Nat.add_assoc]
      simp only [← List.cons_append, hname, Outcome.error_bind]
    constructor
    · intro rest
      rw [List.append_assoc, List.cons_append, hread]
    · refine iff_of_false ?_ ?_
      · have h := hread []
        rw [List.append_nil] at h
        rw [h]
        exact nofun
      · rintro ⟨n', heq⟩
        have := List.eq_of_mem_replicate (heq ▸ List.mem_append_right _ List.mem_cons_self)
        exact hb this

/-- What is read behind the bracket that opens: the numbers that are let pass, or an error for
    which the end of the text is looked at only if it is open there. -/
theorem readExpr_cases (names : TypeNames) (hafter : 0 ∉ after) (offset : Nat) :
    (∃ type subtype n t u, Expr after type subtype n ∧ Passes names type subtype t u ∧
      ∀ rest, readExpr names (offset + after.length) (after ++ rest) offset =
        .done (((offset + n : Nat) : Int), t, u)) ∨
    ((∀ type subtype n, Expr after type subtype n → ∀ t u, ¬ Passes names type subtype t u) ∧
      (∀ rest, ∃ e < 0,
        readExpr names (offset + after.length) (after ++ 0 :: rest) offset = .error e) ∧
      (readExpr names (offset + after.length) after offset = .fault ↔ OpenEnded names after)) := by
  have hneg : (-EINVAL : Int) < 0 := by decide
  rcases split_end endsType after with hnone | ⟨type, c, behind, rfl, htype, hc⟩
  · -- The type has no end.
    refine .inr ⟨fun type subtype n h => absurd (hnone _ h.close_mem) (by decide), fun rest => ?_, ?_⟩
    · refine ⟨-EINVAL, hneg, ?_⟩
      rcases after with _ | ⟨b, after⟩
      · rw [readExpr, List.nil_append, List.length_nil, Nat.add_zero, readName_nul endsType_nul]
        rfl
      · rw [readExpr, readName_none hnone (List.cons_ne_nil b after)]
        rfl
    · rcases after with _ | ⟨b, after⟩
      · exact iff_of_true rfl (.inl rfl)
      · have hread := readName_none hnone (List.cons_ne_nil b after) offset [] []
        rw [List.append_nil] at hread
        refine iff_of_false (by rw [readExpr, hread]; exact nofun) ?_
        rintro (h | ⟨type, n, -, -, h⟩)
        · cases h
        · exact absurd (hnone ','.toUInt8 (h ▸ by simp)) (by decide)
  rw [List.mem_append, List.mem_cons, not_or, not_or] at hafter
  obtain ⟨h0, -, h0'⟩ := hafter
  have hlen : offset + type.length < offset + (type ++ c :: behind).length := by
    simp
  have hread (rest : List UInt8) := readExpr_eq names h0 htype hc hlen (behind ++ rest)
  have hread' := readExpr_eq names h0 htype hc hlen behind
  by_cases ht : typeno names type < 0
  · -- The type is refused.
    refine .inr ⟨fun type' subtype n h t u hpasses => ?_, fun rest => ?_, iff_of_false ?_ ?_⟩
    · have htype' := h.type_eq htype hc
      exact absurd hpasses.2.1 (by rw [hpasses.1, ← htype']; omega)
    · exact ⟨_, ht, by rw [List.append_assoc, List.cons_append, hread, if_pos ht]⟩
    · rw [hread', if_pos ht]
      exact nofun
    · rintro (h | ⟨type', n, htype', ht', h⟩)
      · exact absurd h (by simp)
      · rw [← (end_unique htype htype' hc endsType_comma h).1] at ht'
        omega
  simp only [if_neg ht] at hread hread'
  rcases endsType_cases hc with rfl | rfl
  · -- A subtype may follow.
    have hcomma : ','.toUInt8 ≠ ')'.toUInt8 := by decide
    have hoffset : offset + (type ++ ','.toUInt8 :: behind).length =
        offset + type.length + 1 + behind.length := by
      rw [List.length_append, List.length_cons]
      omega
    simp only [if_neg hcomma, hoffset] at hread hread'
    simp only [List.append_assoc, List.cons_append, hoffset, hread, hread']
    rcases split_end endsSubtype behind with hnone | ⟨text, d, rest', rfl, htext, hd⟩
    · obtain ⟨herror, hfault⟩ := readSubtype_none names (typeno names type) hnone
        (offset + type.length + 1)
      refine .inr ⟨fun type' subtype n h => ?_, fun rest => ⟨_, hneg, herror rest⟩, hfault.trans ?_⟩
      · -- There is no bracket that closes.
        rcases List.mem_append.1 h.close_mem with hmem | hmem
        · exact absurd (htype _ hmem) (by decide)
        · rcases List.mem_cons.1 hmem with hmem | hmem
          · exact absurd hmem (by decide)
          · exact absurd (hnone _ hmem) (by decide)
      · constructor
        · rintro ⟨n, rfl⟩
          exact .inr ⟨type, n, htype, Int.not_lt.1 ht, rfl⟩
        · rintro (h | ⟨type', n, htype', -, h⟩)
          · exact absurd h (by simp)
          · exact ⟨n, (end_unique htype htype' endsType_comma endsType_comma h).2.2⟩
    · obtain ⟨blanks, subtype, rfl, hblank⟩ := split_blanks text
      obtain rfl : d = ')'.toUInt8 := by simpa [endsSubtype] using hd
      have hsubtype : ∀ b ∈ subtype, endsSubtype b = false :=
        fun b hb => htext b (List.mem_append_right _ hb)
      have hexpr : Expr (type ++ ','.toUInt8 :: (.replicate blanks ' '.toUInt8 ++
          (subtype ++ ')'.toUInt8 :: rest'))) type subtype
          (type.length + 1 + blanks + subtype.length) := .subtype htype hblank hsubtype
      have h0sub : 0 ∉ subtype := fun hmem => h0' (by simp [hmem])
      have hlen' : offset + type.length + 1 + blanks + subtype.length < offset + type.length + 1 +
          (List.replicate blanks ' '.toUInt8 ++ subtype ++ ')'.toUInt8 :: rest').length := by
        simp
        omega
      have hsub (rest : List UInt8) :=
        readSubtype_eq names (typeno names type) h0sub hblank hsubtype hlen' (rest' ++ rest)
      have hplace : offset + type.length + 1 + blanks + subtype.length =
          offset + (type.length + 1 + blanks + subtype.length) := by
        omega
      simp only [List.append_assoc, List.cons_append] at hsub ⊢
      have hsub' := hsub []
      rw [List.append_nil] at hsub'
      rw [hsub']
      simp only [hsub, hplace]
      by_cases hnil : subtype = []
      · refine .inl ⟨type, subtype, _, typeno names type, 0, hexpr,
          ⟨rfl, Int.not_lt.1 ht, .inl ⟨hnil, rfl⟩⟩, fun rest => ?_⟩
        rw [if_pos hnil]
      by_cases hu : subtypeno names (typeno names type) subtype < 0
      · -- The subtype is refused.
        refine .inr ⟨fun type' subtype' n h t u hpasses => ?_, fun rest => ⟨_, hu, ?_⟩,
          iff_of_false ?_ ?_⟩
        · obtain ⟨rfl, rfl, -⟩ := hexpr.unique h
          rcases hpasses.2.2 with ⟨hnil', -⟩ | ⟨-, rfl, hu'⟩
          · exact hnil hnil'
          · rw [hpasses.1] at hu'
            omega
        · rw [if_neg hnil, if_pos hu]
        · rw [if_neg hnil, if_pos hu]
          exact nofun
        · rintro (h | ⟨type', n, htype', -, h⟩)
          · exact absurd h (by simp)
          · have hbehind := (end_unique htype htype' endsType_comma endsType_comma h).2.2
            have hmem : ')'.toUInt8 ∈ List.replicate n ' '.toUInt8 := hbehind ▸ by simp
            exact absurd (List.eq_of_mem_replicate hmem) (by decide)
      · refine .inl ⟨type, subtype, _, typeno names type, _, hexpr,
          ⟨rfl, Int.not_lt.1 ht, .inr ⟨hnil, rfl, Int.not_lt.1 hu⟩⟩, fun rest => ?_⟩
        rw [if_neg hnil, if_neg hu]
  · -- The type alone.
    refine .inl ⟨type, [], type.length, typeno names type, 0, .type htype,
      ⟨rfl, Int.not_lt.1 ht, .inl ⟨rfl, rfl⟩⟩, fun rest => ?_⟩
    rw [List.append_assoc, List.cons_append, hread, if_pos rfl]

/-! ## The brackets -/

theorem FirstBracket.unique {before' after' : List UInt8} (h : FirstBracket str before after)
    (h' : FirstBracket str before' after') : before = before' ∧ after = after' := by
  have hbefore {before after : List UInt8} (h : FirstBracket str before after) :
      ∀ b ∈ before, decide (b = '('.toUInt8) = false := by
    intro b hb
    rw [decide_eq_false_iff_not]
    rintro rfl
    exact h.first hb
  obtain ⟨heq, -, heq'⟩ := end_unique (hbefore h) (hbefore h') (by simp) (by simp)
    (h.eq.symm.trans h'.eq)
  exact ⟨heq, heq'⟩

theorem EvenBracket.unique {before' after' : List UInt8} (h : EvenBracket str before after)
    (h' : EvenBracket str before' after') : before = before' ∧ after = after' := by
  have hfound {before after : List UInt8} (h : EvenBracket str before after) :
      skipToBracket str.length str 0 = .done (after, 0 + before.length + 1) := by
    have hlen : 0 + before.length < str.length := by
      rw [h.eq]
      simp
    have hread : skipToBracket str.length (before ++ '('.toUInt8 :: after) 0 = _ :=
      skipToBracket_found h.first h.even hlen
    rwa [← h.eq] at hread
  have heq := (hfound h).symm.trans (hfound h')
  simp only [Outcome.done.injEq, Prod.mk.injEq] at heq
  refine ⟨List.append_inj_left (h.eq.symm.trans h'.eq) (by omega), heq.1⟩

theorem EvenBracket.not_noneAtEven (h : EvenBracket str before after) :
    ¬ NoneAtEven str := by
  intro hnone
  have heven := h.even
  refine hnone (before.length / 2) ?_
  rw [Nat.mul_div_cancel' (Nat.dvd_of_mod_eq_zero heven), h.eq, List.getElem?_append_right (Nat.le_refl _),
    Nat.sub_self]
  rfl

theorem FirstBracket.evenBracket (h : FirstBracket str before after)
    (heven : before.length % 2 = 0) : EvenBracket str before after :=
  ⟨h.eq, noneAtEven_of_notMem h.first, heven⟩

theorem exists_firstBracket (h : EvenBracket str before after) :
    ∃ before after, FirstBracket str before after := by
  have hmem : '('.toUInt8 ∈ str := h.eq ▸ by simp
  obtain ⟨before, after, heq, hfirst⟩ := List.eq_append_cons_of_mem hmem
  exact ⟨before, after, heq, hfirst⟩

/-! ## What is read -/

/-- The bracket that closes is in the text. -/
theorem Expr.lt_length (h : Expr after type subtype n) : n < after.length := by
  cases h with
  | type => simp
  | subtype =>
    simp only [List.length_append, List.length_cons, List.length_replicate]
    omega

theorem PassedAtEven.close_lt (h : PassedAtEven names str t u close) :
    close < str.length := by
  obtain ⟨before, after, type, subtype, n, hbracket, hexpr, -, rfl⟩ := h
  rw [hbracket.eq, List.length_append, List.length_cons]
  have := hexpr.lt_length
  omega

theorem Expr.not_openEnded (h : Expr after type subtype n) : ¬ OpenEnded names after := by
  rintro (rfl | ⟨type', k, htype', -, rfl⟩)
  · exact absurd h.close_mem (by simp)
  · rcases List.mem_append.1 h.close_mem with hmem | hmem
    · exact absurd (htype' _ hmem) (by decide)
    · rcases List.mem_cons.1 hmem with hmem | hmem
      · exact absurd hmem (by decide)
      · exact absurd (List.eq_of_mem_replicate hmem) (by decide)

theorem PassedAtEven.not_readsEnd (h : PassedAtEven names str t u close) :
    ¬ ReadsEnd names str := by
  obtain ⟨before, after, type, subtype, n, hbracket, hexpr, -, -⟩ := h
  rintro (rfl | ⟨before', after', hbracket', hopen⟩)
  · exact absurd hbracket.eq (by simp)
  · obtain ⟨-, rfl⟩ := hbracket.unique hbracket'
    exact hexpr.not_openEnded hopen

/-- What is read of a text: the numbers that are let pass behind the first bracket at an even
    place, or an error. -/
theorem readTypestr_cases (names : TypeNames) (hstr : 0 ∉ str) :
    (∃ t u close, PassedAtEven names str t u close ∧
      ∀ rest, readTypestr names str.length (str ++ rest) = .done ((close : Int), t, u)) ∨
    ((∀ t u close, ¬ PassedAtEven names str t u close) ∧
      (∀ rest, ∃ e < 0, readTypestr names str.length (str ++ 0 :: rest) = .error e) ∧
      (readTypestr names str.length str = .fault ↔ ReadsEnd names str)) := by
  rcases exists_evenBracket str with hnone | ⟨before, after, h⟩
  · -- The loop to the bracket fails.
    have hnot {before after : List UInt8} (h : EvenBracket str before after) : False :=
      h.not_noneAtEven hnone
    refine .inr ⟨fun t u close ⟨_, _, _, _, _, h, _⟩ => hnot h, fun rest => ?_, ?_⟩
    · refine ⟨-EINVAL, by decide, ?_⟩
      rcases str with _ | ⟨c, str⟩
      · rw [readTypestr, List.nil_append, skipToBracket_cons, if_neg (by decide), if_pos (by simp)]
        rfl
      · have hread := skipToBracket_none hnone (List.cons_ne_nil c str) 0 (0 :: rest)
        rw [Nat.zero_add] at hread
        rw [readTypestr, hread, Outcome.error_bind]
    · rcases str with _ | ⟨c, str⟩
      · exact iff_of_true rfl (.inl rfl)
      · have hread := skipToBracket_none hnone (List.cons_ne_nil c str) 0 []
        rw [Nat.zero_add, List.append_nil] at hread
        refine iff_of_false (by rw [readTypestr, hread]; exact nofun) ?_
        rintro (h | ⟨_, _, h, -⟩)
        · cases h
        · exact hnot h
  · have hafter : 0 ∉ after := fun hmem => hstr (h.eq ▸ by simp [hmem])
    have hlen : str.length = before.length + 1 + after.length := by
      rw [h.eq, List.length_append, List.length_cons]
      omega
    have hread (rest : List UInt8) : readTypestr names str.length (str ++ rest) =
        readExpr names (before.length + 1 + after.length) (after ++ rest) (before.length + 1) := by
      have hfound : skipToBracket str.length (before ++ '('.toUInt8 :: (after ++ rest)) 0 = _ :=
        skipToBracket_found h.first h.even (by omega)
      rw [readTypestr]
      conv_lhs => rw [h.eq, List.append_assoc, List.cons_append, ← h.eq]
      rw [hfound, Outcome.done_bind, Nat.zero_add, hlen]
    rcases readExpr_cases names hafter (before.length + 1) with
      ⟨type, subtype, n, t, u, hexpr, hpasses, hdone⟩ | ⟨hnone, herror, hfault⟩
    · refine .inl ⟨t, u, before.length + 1 + n, ⟨before, after, type, subtype, n, h, hexpr, hpasses, rfl⟩,
        fun rest => ?_⟩
      rw [hread, hdone]
    · refine .inr ⟨?_, fun rest => ?_, ?_⟩
      · rintro t u close ⟨before', after', type, subtype, n, h', hexpr, hpasses, -⟩
        obtain ⟨-, rfl⟩ := h.unique h'
        exact hnone type subtype n hexpr t u hpasses
      · rw [hread]
        exact herror rest
      · have hstrread := hread []
        rw [List.append_nil, List.append_nil] at hstrread
        rw [hstrread, hfault]
        constructor
        · exact fun hopen => .inr ⟨before, after, h, hopen⟩
        · rintro (rfl | ⟨before', after', h', hopen⟩)
          · exact absurd h.eq (by simp)
          · obtain ⟨-, rfl⟩ := h.unique h'
            exact hopen

theorem messageReadTypestr_eq (hstr : 0 ∉ str) (rest : List UInt8) :
    messageReadTypestr names (str ++ 0 :: rest) =
      if DIGEST_SIZE * 2 ≤ str.length then .error (-EINVAL)
      else readTypestr names str.length (str ++ 0 :: rest) := by
  rw [messageReadTypestr]
  rcases Nat.le_total str.length (DIGEST_SIZE * 2 + 1) with hlen | hlen
  · rw [strnlen_cstr hstr hlen, Outcome.done_bind]
  · rw [strnlen_long hstr hlen, Outcome.done_bind, if_pos (Nat.le_succ _),
      if_pos (Nat.le_of_succ_le hlen)]

/-- A text is read to numbers and a place in it, or to a negative error. -/
theorem messageReadTypestr_cases (names : TypeNames) (hstr : 0 ∉ str) (rest : List UInt8) :
    (∃ (close : Nat) (t u : Int), close < str.length ∧ str.length < DIGEST_SIZE * 2 ∧
      messageReadTypestr names (str ++ 0 :: rest) = .done ((close : Int), t, u)) ∨
    ∃ e < 0, messageReadTypestr names (str ++ 0 :: rest) = .error e := by
  rw [messageReadTypestr_eq hstr]
  split_ifs with hlen
  · exact .inr ⟨-EINVAL, by decide, rfl⟩
  · rcases readTypestr_cases names hstr with ⟨t, u, close, hpassed, hdone⟩ | ⟨-, herror, -⟩
    · exact .inl ⟨close, t, u, hpassed.close_lt, Nat.not_le.1 hlen, hdone _⟩
    · exact .inr (herror rest)

/-- The numbers of a text are told by it. -/
theorem Denoted.unique {close' : Nat} (h : Denoted names str t u close)
    (h' : Denoted names str t' u' close') : t = t' ∧ u = u' ∧ close = close' := by
  obtain ⟨before, after, type, subtype, n, hbracket, hexpr, hdenotes, rfl⟩ := h
  obtain ⟨before', after', type', subtype', n', hbracket', hexpr', hdenotes', rfl⟩ := h'
  obtain ⟨rfl, rfl⟩ := hbracket.unique hbracket'
  obtain ⟨rfl, rfl, rfl⟩ := hexpr.unique hexpr'
  obtain ⟨rfl, rfl⟩ := hdenotes.unique hdenotes'
  exact ⟨rfl, rfl, rfl⟩

theorem PassedAtEven.unique {close' : Nat}
    (h : PassedAtEven names str t u close) (h' : PassedAtEven names str t' u' close') :
    t = t' ∧ u = u' ∧ close = close' := by
  obtain ⟨before, after, type, subtype, n, hbracket, hexpr, hpasses, rfl⟩ := h
  obtain ⟨before', after', type', subtype', n', hbracket', hexpr', hpasses', rfl⟩ := h'
  obtain ⟨rfl, rfl⟩ := hbracket.unique hbracket'
  obtain ⟨rfl, rfl, rfl⟩ := hexpr.unique hexpr'
  obtain ⟨rfl, rfl⟩ := hpasses.unique hpasses'
  exact ⟨rfl, rfl, rfl⟩

/-- What is denoted and what is let pass are the same, or there are neither. -/
def Agree (names : TypeNames) (str : List UInt8) : Prop :=
  (∃ t u close, Denoted names str t u close ∧ PassedAtEven names str t u close) ∨
    ∀ t u close, ¬ Denoted names str t u close ∧ ¬ PassedAtEven names str t u close

theorem readsTypestr_iff_agree (hstr : 0 ∉ str) (hlen : str.length < DIGEST_SIZE * 2) :
    ReadsTypestr names str ↔ ¬ ReadsEnd names str ∧ Agree names str := by
  have hmessage (rest : List UInt8) : messageReadTypestr names (str ++ 0 :: rest) =
      readTypestr names str.length (str ++ 0 :: rest) := by
    rw [messageReadTypestr_eq hstr, if_neg (by omega)]
  simp only [ReadsTypestr, hmessage, hlen, true_implies, true_and]
  rcases readTypestr_cases names hstr with ⟨t, u, close, hpassed, hdone⟩ | ⟨hnone, herror, hfault⟩
  · -- Numbers are returned.
    have hreadsEnd := hpassed.not_readsEnd
    simp only [hdone, hreadsEnd, not_false_eq_true, true_and]
    constructor
    · rintro ⟨h, -⟩
      obtain ⟨hset, hfail⟩ := h []
      by_cases hdenoted : ∃ t u close, Denoted names str t u close
      · obtain ⟨t', u', close', hdenoted⟩ := hdenoted
        have heq := hset t' u' close' hdenoted
        simp only [Outcome.done.injEq, Prod.mk.injEq, Int.natCast_inj] at heq
        obtain ⟨rfl, rfl, rfl⟩ := heq
        exact .inl ⟨t, u, close, hdenoted, hpassed⟩
      · obtain ⟨e, -, he⟩ := hfail hdenoted
        cases he
    · rintro (⟨t', u', close', hdenoted, hpassed'⟩ | hneither)
      · obtain ⟨rfl, rfl, rfl⟩ := hpassed'.unique hpassed
        refine ⟨fun rest => ⟨fun t u close h => ?_, fun h => absurd ⟨_, _, _, hdenoted⟩ h⟩, ?_⟩
        · obtain ⟨rfl, rfl, rfl⟩ := hdenoted.unique h
          rfl
        · have hdone' := hdone []
          rw [List.append_nil] at hdone'
          rw [hdone']
          exact nofun
      · exact absurd hpassed (hneither t u close).2
  · -- An error is returned.
    rw [Ne, hfault, and_comm]
    refine and_congr_right fun _ => ?_
    constructor
    · intro h
      refine .inr fun t u close => ⟨fun hdenoted => ?_, hnone t u close⟩
      obtain ⟨e, -, he⟩ := herror []
      cases he.symm.trans ((h []).1 t u close hdenoted)
    · rintro (⟨t, u, close, -, hpassed⟩ | hneither) rest
      · exact absurd hpassed (hnone t u close)
      · exact ⟨fun t u close hdenoted => absurd hdenoted (hneither t u close).1, fun _ => herror rest⟩

/-- Where the first bracket is at an even place, known names are all it takes. -/
theorem agree_iff : Agree names str ↔ EvenRight names str ∨ OddRight names str := by
  by_cases hfirst : ∃ before after, FirstBracket str before after
  · obtain ⟨before, after, hfirst⟩ := hfirst
    rcases Nat.mod_two_eq_zero_or_one before.length with heven | hodd
    · have hbracket := hfirst.evenBracket heven
      have hnot : ¬ OddRight names str := by
        rintro ⟨⟨before', after', hfirst', hodd⟩, -⟩
        rw [(hfirst.unique hfirst').1] at heven
        omega
      rw [or_iff_left hnot]
      constructor
      · intro hagree before' after' hfirst'
        obtain ⟨rfl, rfl⟩ := hfirst.unique hfirst'
        refine ⟨heven, fun type subtype n hexpr => ?_⟩
        rcases hagree with ⟨t, u, close, hdenoted, hpassed⟩ | hneither
        · obtain ⟨_, _, _, _, _, hfirst', hexpr', hdenotes, -⟩ := hdenoted
          obtain ⟨_, _, _, _, _, hbracket', hexpr'', hpasses, -⟩ := hpassed
          obtain ⟨rfl, rfl⟩ := hfirst.unique hfirst'
          obtain ⟨rfl, rfl, rfl⟩ := hexpr.unique hexpr'
          obtain ⟨rfl, rfl⟩ := hbracket.unique hbracket'
          obtain ⟨rfl, rfl, rfl⟩ := hexpr.unique hexpr''
          exact .inl ⟨t, u, hdenotes, hpasses.nonneg⟩
        · refine .inr fun t u => ⟨fun h => (hneither t u (before.length + 1 + n)).1 ?_,
            fun h => (hneither t u (before.length + 1 + n)).2 ?_⟩
          · exact ⟨before, after, type, subtype, n, hfirst, hexpr, h, rfl⟩
          · exact ⟨before, after, type, subtype, n, hbracket, hexpr, h, rfl⟩
      · intro hright
        by_cases hexpr : ∃ type subtype n, Expr after type subtype n
        · obtain ⟨type, subtype, n, hexpr⟩ := hexpr
          rcases (hright before after hfirst).2 type subtype n hexpr with ⟨t, u, hdenotes, ht, hu⟩ | h
          · exact .inl ⟨t, u, _, ⟨before, after, type, subtype, n, hfirst, hexpr, hdenotes, rfl⟩,
              ⟨before, after, type, subtype, n, hbracket, hexpr, hdenotes.passes ht hu, rfl⟩⟩
          · refine .inr fun t u close => ⟨?_, ?_⟩
            · rintro ⟨_, _, _, _, _, hfirst', hexpr', hdenotes, -⟩
              obtain ⟨rfl, rfl⟩ := hfirst.unique hfirst'
              obtain ⟨rfl, rfl, rfl⟩ := hexpr.unique hexpr'
              exact (h t u).1 hdenotes
            · rintro ⟨_, _, _, _, _, hbracket', hexpr', hpasses, -⟩
              obtain ⟨rfl, rfl⟩ := hbracket.unique hbracket'
              obtain ⟨rfl, rfl, rfl⟩ := hexpr.unique hexpr'
              exact (h t u).2 hpasses
        · refine .inr fun t u close => ⟨?_, ?_⟩
          · rintro ⟨_, _, _, _, _, hfirst', hexpr', -⟩
            obtain ⟨rfl, rfl⟩ := hfirst.unique hfirst'
            exact hexpr ⟨_, _, _, hexpr'⟩
          · rintro ⟨_, _, _, _, _, hbracket', hexpr', -⟩
            obtain ⟨rfl, rfl⟩ := hbracket.unique hbracket'
            exact hexpr ⟨_, _, _, hexpr'⟩
    · have hnot : ¬ EvenRight names str := fun h => by
        have heven := (h before after hfirst).1
        omega
      rw [or_iff_right hnot]
      exact ⟨fun h => ⟨⟨before, after, hfirst, hodd⟩, h⟩, fun h => h.2⟩
  · -- There is no bracket.
    refine iff_of_true (.inr fun t u close => ⟨?_, ?_⟩) (.inl fun before after h => ?_)
    · rintro ⟨before, after, _, _, _, h, -⟩
      exact hfirst ⟨before, after, h⟩
    · rintro ⟨_, _, _, _, _, h, -⟩
      exact hfirst (exists_firstBracket h)
    · exact absurd ⟨before, after, h⟩ hfirst

/-- A text is read as it should if and only if it is too long, or its end is not looked at and
    the first bracket is at an even place, with known names behind it or with names that are
    refused, or at an odd place and without a difference to the first one at an even place. -/
theorem readsTypestr_iff (names : TypeNames) {str : List UInt8} (hstr : 0 ∉ str) :
    ReadsTypestr names str ↔ ReadRight names str := by
  rcases Nat.lt_or_ge str.length (DIGEST_SIZE * 2) with hlen | hlen
  · have hnot : ¬ DIGEST_SIZE * 2 ≤ str.length := Nat.not_le.2 hlen
    rw [readsTypestr_iff_agree hstr hlen, agree_iff, ReadRight, or_iff_right hnot]
  · refine iff_of_true ⟨fun rest => ⟨fun t u close h => ?_, fun _ => ?_⟩, fun h => ?_⟩ (.inl hlen)
    · omega
    · exact ⟨-EINVAL, by decide, by rw [messageReadTypestr_eq hstr, if_pos hlen]⟩
    · omega

theorem zero_notMem_A : (0 : UInt8) ∉ [65] := by decide

/-- One type `A` with the number `1`. -/
def oneType : TypeNames where
  typeenumlist := some [⟨⟨[65], zero_notMem_A⟩, 1, by decide⟩]
  subtypelists := []

theorem expr_one : Expr [65, 41] [65] [] 1 := by
  have htype : ∀ c ∈ [(65 : UInt8)], endsType c = false := by
    intro c hc
    rw [List.mem_singleton.1 hc]
    rfl
  exact .type htype

/-- The text `(A)` is read as it should. -/
theorem readsTypestr_even : ReadsTypestr oneType [40, 65, 41] := by
  have hfirst : FirstBracket [40, 65, 41] [] [65, 41] := ⟨rfl, by decide⟩
  refine (readsTypestr_iff oneType (by decide)).2 (.inr ⟨?_, .inl fun before after h => ?_⟩)
  · rintro (h | ⟨before, after, h, hopen⟩)
    · cases h
    · obtain ⟨-, rfl⟩ := h.unique (hfirst.evenBracket rfl)
      exact expr_one.not_openEnded hopen
  · obtain ⟨rfl, rfl⟩ := hfirst.unique h
    refine ⟨rfl, fun type subtype n hexpr' => .inl ⟨1, 0, ?_, by decide, by decide⟩⟩
    obtain ⟨rfl, rfl, -⟩ := expr_one.unique hexpr'
    exact ⟨⟨_, rfl, rfl⟩, .inl ⟨rfl, rfl⟩⟩

/-- The text `x(A)` is not read as it should: it denotes the type, and is an error. -/
theorem not_readsTypestr_odd : ¬ ReadsTypestr oneType [120, 40, 65, 41] := by
  intro h
  have hdenoted : Denoted oneType [120, 40, 65, 41] 1 0 3 :=
    ⟨[120], [65, 41], [65], [], 1, ⟨rfl, by decide⟩, expr_one,
      ⟨⟨_, rfl, rfl⟩, .inl ⟨rfl, rfl⟩⟩, rfl⟩
  have hread : messageReadTypestr oneType ([120, 40, 65, 41] ++ 0 :: []) = .error (-EINVAL) := by
    decide
  have heq := (h.1 []).1 1 0 3 (by decide) hdenoted
  rw [hread] at heq
  cases heq

end Cube.Message.Typestr
