import Cube.Json.RoundTrip

/-!
# Arrays as text

The value of a field that is an array is a text of items with commas between them.
`_getjsonstr` makes a JSON array of it, and `_stripjsonarraychar` takes the brackets and
quotes off again, in place.

* `stripLoop_spec`: the stripping stays in the text, and accepts it if its states do.
* `accepts_iff`: the texts that its states accept, as a grammar.
* `stripSound_iff`: it refuses a text that does not balance unless the text starts with an
  array of the grammar.
-/

namespace Cube.Struct

open Lib Json

/-! ## From a text to JSON -/

/-- The loop of `_getjsonstr` for an array: the characters written, and whether an item
    is open at the end. -/
def arrayLoop : List Char → Bool → Nat → List Char × Bool
  | [], isinelem, _ => ([], isinelem)
  | c :: text, isinelem, arrayNo =>
    if c = '\x00' ∨ c = ',' then
      let (json, last) := arrayLoop text false arrayNo
      (if isinelem then '"' :: json else json, last)
    else if isinelem then
      let (json, last) := arrayLoop text true arrayNo
      (c :: json, last)
    else
      let (json, last) := arrayLoop text true (arrayNo + 1)
      ((if arrayNo > 0 then [','] else []) ++ '"' :: c :: json, last)

/-- `_getjsonstr`: the characters written for a text, with the NUL after an array. The
    last character of the text is looked at even if there is none. -/
def getjsonstr (text : List Char) (jsonType : JsonElemType) : Outcome (List Char) :=
  match jsonType with
  | .num => .done (text.takeWhile (· ≠ '\x00'))
  | .string => .done ('"' :: (text.takeWhile (· ≠ '\x00') ++ ['"']))
  | .array =>
    match text.getLast? with
    | none => .fault
    | some c =>
      let (json, isinelem) := arrayLoop text false 0
      let quote := if c ≠ '\x00' ∧ c ≠ ',' ∧ isinelem then ['"'] else []
      .done ('[' :: (json ++ quote ++ [']', '\x00']))
  | _ => .error (-EINVAL)

/-! ## From JSON to a text -/

/-- The states of `_stripjsonarraychar`, `enum stat_list`. -/
inductive StripState
  | start
  | inBracket
  | inElem
  | finish
  deriving DecidableEq, Repr

/-- The variables of `_stripjsonarraychar`. -/
structure Strip where
  state : StripState
  offset : Nat
  bracketOrder : Int
  quotaOrder : Int
  deriving DecidableEq, Repr

/-- What a character does: the variables after it, and the character that is written in
    the place it moves to, if any; nothing if the text is refused. -/
def stripTurn (c : Char) (s : Strip) : Option (Strip × Option Char) :=
  match s.state with
  | .start =>
    if c = ' ' ∨ c = '\t' then some ({ s with offset := s.offset + 1 }, none)
    else if c = '[' then
      some ({ s with
        offset := s.offset + 1, bracketOrder := s.bracketOrder + 1, state := .inBracket }, none)
    else none
  | .inBracket =>
    if c ∈ [' ', '\t', '\n', '\r', ','] then some ({ s with offset := s.offset + 1 }, none)
    else if c = '"' then
      if s.quotaOrder = 0 then
        some ({ s with
          offset := s.offset + 1, quotaOrder := s.quotaOrder + 1, state := .inElem }, none)
      else none
    else if c = ']' then
      if s.bracketOrder - 1 = 0 then
        some ({ s with
          offset := s.offset + 1, bracketOrder := s.bracketOrder - 1, state := .finish }, none)
      else none
    else if c ∈ [':', '{', '}'] then none
    -- The character itself is not moved.
    else some ({ s with state := .inElem }, none)
  | .inElem =>
    if c = ',' then
      some (if s.quotaOrder = 0 ∧ s.bracketOrder = 1 then { s with state := .inBracket } else s,
        some c)
    else if c = '"' then
      if s.bracketOrder = 1 then
        if s.quotaOrder = 1 then
          some ({ s with quotaOrder := s.quotaOrder - 1, state := .inBracket }, some ',')
        else none
      else some (s, some c)
    else if c = '[' then
      some (if s.quotaOrder = 0 then { s with bracketOrder := s.bracketOrder + 1 } else s, some c)
    else if c = ']' then
      some (if s.quotaOrder = 0 then
        { s with bracketOrder := s.bracketOrder - 1, offset := s.offset + 1 } else s, none)
    else some (s, some c)
  | .finish => none

/-- The text with a character written at an index. -/
def putChar (text : List Char) (i : Int) (c : Char) : Outcome (List Char) :=
  if 0 ≤ i ∧ i < text.length then .done (text.set i.toNat c) else .fault

/-- The loop of `_stripjsonarraychar` at the index `i`, with `n` characters left: the value
    returned and the text. -/
def stripLoop : Nat → Nat → Strip → List Char → Outcome (Int × List Char)
  | 0, _, _, text => .done (-EINVAL, text)
  | n + 1, i, s, text =>
    match text[i]? with
    | none => .fault
    | some c =>
      match stripTurn c s with
      | none => .done (-EINVAL, text)
      | some (s, written) => do
        let text ← match written with
          | some c => putChar text (i - s.offset) c
          | none => .done text
        if s.state = .finish then do
          let text ← putChar text (i - s.offset + 1) '\x00'
          .done (i + 1 - s.offset, text)
        else stripLoop n (i + 1) s text

/-- `_stripjsonarraychar`. -/
def stripjsonarraychar (text : List Char) (len : Nat) : Outcome (Int × List Char) :=
  stripLoop len 0 ⟨.start, 0, 0, 0⟩ text

/-! ## The stripping in place -/

/-- Whether the variables come to the end of the array with the text. -/
def accepts : Strip → List Char → Bool
  | _, [] => false
  | s, c :: rest => match stripTurn c s with
    | none => false
    | some (s, _) => if s.state = .finish then true else accepts s rest

/-- A turn moves the rest of the text by one more place and writes nothing, or it leaves
    the offset, which it does only after the bracket at the start. -/
theorem stripTurn_offset {c : Char} {s s' : Strip} {written : Option Char}
    (h : stripTurn c s = some (s', written)) :
    s'.offset = s.offset + 1 ∧ written = none ∧ s'.state ≠ .start ∧
        (s'.state = .finish → s.state ≠ .start) ∨
      s'.offset = s.offset + 1 ∧ written = none ∧ s'.state = .start ∨
      s'.offset = s.offset ∧ s.state ≠ .start ∧ s'.state ≠ .finish ∧ s'.state ≠ .start := by
  obtain ⟨state, offset, bracketOrder, quotaOrder⟩ := s
  rcases state with _ | _ | _ | _
  case finish => simp [stripTurn] at h
  all_goals
    simp only [stripTurn] at h
    split_ifs at h <;>
      obtain ⟨rfl, rfl⟩ := Prod.mk.inj (Option.some.inj h) <;> simp

variable {c : Char} {s s' : Strip} {written : Option Char} {out gap rest : List Char}

/-- The character behind the gap. -/
theorem getElem?_gap (out gap rest : List Char) (c : Char) :
    (out ++ (gap ++ c :: rest))[out.length + gap.length]? = some c := by
  rw [← List.append_assoc, ← List.length_append, List.getElem?_append_right (Nat.le_refl _),
    Nat.sub_self, List.getElem?_cons_zero]

/-- A turn that refuses its character. -/
theorem stripLoop_refused (hturn : stripTurn c s = none) (n : Nat) :
    stripLoop (n + 1) (out.length + gap.length) s (out ++ (gap ++ c :: rest)) =
      .done (-EINVAL, out ++ (gap ++ c :: rest)) := by
  rw [stripLoop, getElem?_gap]
  simp only [hturn]

/-- A turn that moves the rest: the character joins the gap between the text that is
    written and that which is to be read. -/
theorem stripLoop_move (hturn : stripTurn c s = some (s', none))
    (hstate : s'.state ≠ .finish) (n : Nat) :
    stripLoop (n + 1) (out.length + gap.length) s (out ++ (gap ++ c :: rest)) =
      stripLoop n (out.length + (gap ++ [c]).length) s' (out ++ ((gap ++ [c]) ++ rest)) := by
  rw [stripLoop, getElem?_gap]
  simp only [hturn, Outcome.done_bind, if_neg hstate]
  rw [List.length_append, List.length_singleton, List.append_assoc, List.singleton_append,
    Nat.add_assoc]

/-- A character is put in the place of the first one of the gap. -/
theorem putChar_gap (g : Char) (out gap : List Char) (c : Char) {i : Int} (hi : i = out.length) :
    putChar (out ++ g :: gap) i c = .done (out ++ c :: gap) := by
  subst hi
  rw [putChar, if_pos (by simp only [List.length_append, List.length_cons]; omega),
    Int.toNat_natCast, List.set_append_right _ _ (Nat.le_refl _), Nat.sub_self, List.set_cons_zero]

/-- A turn that leaves the offset: what it writes, or the first character of the gap,
    joins the text that is written. -/
theorem stripLoop_write {g : Char} (hturn : stripTurn c s = some (s', written))
    (hoffset : s'.offset = (g :: gap).length) (hstate : s'.state ≠ .finish) (n : Nat) :
    stripLoop (n + 1) (out.length + (g :: gap).length) s (out ++ (g :: gap ++ c :: rest)) =
      stripLoop n ((out ++ [written.getD g]).length + (gap ++ [c]).length) s'
        ((out ++ [written.getD g]) ++ ((gap ++ [c]) ++ rest)) := by
  have hlen : out.length + (g :: gap).length + 1 =
      (out ++ [written.getD g]).length + (gap ++ [c]).length := by
    simp only [List.length_append, List.length_cons, List.length_nil]
    omega
  rw [stripLoop, getElem?_gap]
  simp only [hturn]
  rw [List.append_assoc, List.append_assoc, List.singleton_append, List.singleton_append]
  rcases written with _ | w
  · simp only [Outcome.done_bind, if_neg hstate, hlen]
    rfl
  · have hput := putChar_gap g out (gap ++ c :: rest) w
      (i := ((out.length + (g :: gap).length : Nat) : Int) - s'.offset) (by rw [hoffset]; omega)
    simp only [List.cons_append] at hput ⊢
    simp only [hput, Outcome.done_bind, if_neg hstate, hlen]
    rfl

/-- The turn at the end of the array: a NUL is put behind the text that is written. -/
theorem stripLoop_finish {g : Char} (hturn : stripTurn c s = some (s', none))
    (hoffset : s'.offset = (g :: gap).length + 1) (hstate : s'.state = .finish) (n : Nat) :
    stripLoop (n + 1) (out.length + (g :: gap).length) s (out ++ (g :: gap ++ c :: rest)) =
      .done ((out.length : Int), out ++ '\x00' :: (gap ++ c :: rest)) := by
  have hput := putChar_gap g out (gap ++ c :: rest) '\x00'
    (i := ((out.length + (g :: gap).length : Nat) : Int) - s'.offset + 1) (by rw [hoffset]; omega)
  rw [stripLoop, getElem?_gap]
  simp only [hturn, Outcome.done_bind, if_pos hstate, List.cons_append] at hput ⊢
  simp only [hput, Outcome.done_bind]
  congr 2
  rw [hoffset]
  push_cast
  omega

/-- The stripping stays in its text and makes it no longer; it accepts the text as its
    variables do. `more` is the memory behind the text. -/
theorem stripLoop_spec (rest : List Char) (s : Strip) (out gap more : List Char)
    (hoffset : s.offset = gap.length) (hstart : s.state ≠ .start → gap ≠ []) :
    ∃ ret text, stripLoop rest.length (out.length + gap.length) s (out ++ (gap ++ (rest ++ more))) =
        .done (ret, text ++ more) ∧
      text.length = out.length + gap.length + rest.length ∧
      ret ≤ out.length + gap.length + rest.length ∧ (0 ≤ ret ↔ accepts s rest = true) := by
  induction rest generalizing s out gap with
  | nil =>
    refine ⟨-EINVAL, out ++ gap, by rw [List.nil_append, List.append_assoc]; rfl, by simp, ?_, ?_⟩
    · rw [show (-EINVAL : Int) = -22 from rfl]
      omega
    · rw [accepts]
      exact ⟨fun h => absurd h (by decide), fun h => by cases h⟩
  | cons c rest ih =>
    rcases hturn : stripTurn c s with _ | ⟨s', written⟩
    · have hrefused : stripLoop (rest.length + 1) (out.length + gap.length) s
          (out ++ (gap ++ c :: (rest ++ more))) =
            .done (-EINVAL, out ++ (gap ++ c :: (rest ++ more))) :=
        stripLoop_refused hturn rest.length
      refine ⟨-EINVAL, out ++ (gap ++ c :: rest), ?_, ?_, ?_, ?_⟩
      · rw [List.length_cons, List.cons_append, hrefused]
        simp only [List.append_assoc, List.cons_append]
      · simp only [List.length_append, List.length_cons]
        omega
      · rw [show (-EINVAL : Int) = -22 from rfl]
        omega
      · rw [accepts, hturn]
        exact ⟨fun h => absurd h (by decide), fun h => by cases h⟩
    · have haccepts : accepts s (c :: rest) =
          if s'.state = .finish then true else accepts s' rest := by
        rw [accepts, hturn]
      -- The character joins the gap, and the stripping goes on.
      have hmoved : s'.offset = s.offset + 1 → written = none → s'.state ≠ .finish →
          ∃ ret text, stripLoop (rest.length + 1) (out.length + gap.length) s
              (out ++ (gap ++ c :: (rest ++ more))) = .done (ret, text ++ more) ∧
            text.length = out.length + gap.length + (rest.length + 1) ∧
            ret ≤ out.length + gap.length + (rest.length + 1) ∧
            (0 ≤ ret ↔ accepts s (c :: rest) = true) := by
        rintro ho rfl hstate
        obtain ⟨ret, text, hloop, hlen, hret, hiff⟩ :=
          ih s' out (gap ++ [c]) (by simp [ho, hoffset]) (by simp)
        rw [List.length_append, List.length_singleton] at hlen hret
        refine ⟨ret, text, ?_, by omega, by omega, ?_⟩
        · rw [stripLoop_move hturn hstate, hloop]
        · rw [haccepts, if_neg hstate, hiff]
      rw [List.length_cons, List.cons_append]
      push_cast
      rcases stripTurn_offset hturn with ⟨ho, rfl, -, hfinish⟩ | ⟨ho, rfl, hstate⟩ |
        ⟨ho, hs, hstate, -⟩
      · rcases eq_or_ne s'.state .finish with hstate | hstate
        · obtain ⟨g, gap, rfl⟩ := List.exists_cons_of_ne_nil (hstart (hfinish hstate))
          refine ⟨out.length, out ++ '\x00' :: (gap ++ c :: rest), ?_, ?_, by omega, ?_⟩
          · rw [stripLoop_finish hturn (by rw [ho, hoffset]) hstate]
            simp only [List.append_assoc, List.cons_append]
          · simp only [List.length_append, List.length_cons]
            omega
          · rw [haccepts, if_pos hstate]
            exact iff_of_true (Int.natCast_nonneg _) rfl
        · exact hmoved ho rfl hstate
      · exact hmoved ho rfl (by simp [hstate])
      · obtain ⟨g, gap, rfl⟩ := List.exists_cons_of_ne_nil (hstart hs)
        obtain ⟨ret, text, hloop, hlen, hret, hiff⟩ :=
          ih s' (out ++ [written.getD g]) (gap ++ [c]) (by simp [ho, hoffset]) (by simp)
        simp only [List.length_append, List.length_cons, List.length_nil] at hlen hret
        refine ⟨ret, text, ?_, ?_, ?_, ?_⟩
        · rw [stripLoop_write hturn (by rw [ho, hoffset]) hstate, hloop]
        · rw [List.length_cons]
          omega
        · rw [List.length_cons]
          omega
        · rw [haccepts, if_neg hstate, hiff]

/-! ## The texts that are accepted -/

/-- The characters of an item without quotes, up to the comma behind it: a comma or a quote
    stands only where its brackets do not balance. -/
def BareItem (w : List Char) : Prop :=
  w.count '[' = w.count ']' ∧
    ∀ p c t, w = p ++ c :: t → c = ',' ∨ c = '"' → p.count '[' ≠ p.count ']'

/-- The text behind the bracket at the start, with the bracket that ends the array in it. -/
inductive Opened : List Char → Prop
  | close (rest : List Char) : Opened (']' :: rest)
  | blank {c : Char} {text : List Char} : c ∈ [' ', '\t', '\n', '\r', ','] → Opened text →
      Opened (c :: text)
  | quoted {item text : List Char} : '"' ∉ item → Opened text →
      Opened ('"' :: (item ++ '"' :: text))
  | bare {c : Char} {w text : List Char} :
      c ∉ [' ', '\t', '\n', '\r', ',', '"', ']', ':', '{', '}'] → BareItem w → Opened text →
      Opened (c :: (w ++ ',' :: text))

/-- A text that starts with an array, whatever is behind it. -/
def StartsArray (text : List Char) : Prop :=
  ∃ blanks rest, text = blanks ++ '[' :: rest ∧ (∀ c ∈ blanks, c = ' ' ∨ c = '\t') ∧ Opened rest

/-- The offset does not matter to a turn, and none comes out of one that matters. -/
theorem stripTurn_setOffset (c : Char) (s : Strip) (offset : Nat) :
    (stripTurn c { s with offset := offset }).map (fun r => { r.1 with offset := 0 }) =
      (stripTurn c s).map fun r => { r.1 with offset := 0 } := by
  obtain ⟨state, _, bracketOrder, quotaOrder⟩ := s
  rcases state with _ | _ | _ | _ <;> simp only [stripTurn] <;> split_ifs <;> rfl

/-- The offset does not matter to the states. -/
theorem accepts_offset (s : Strip) (offset : Nat) (text : List Char) :
    accepts { s with offset := offset } text = accepts s text := by
  induction text generalizing s offset with
  | nil => rfl
  | cons c text ih =>
    have hturn := stripTurn_setOffset c s offset
    rw [accepts, accepts]
    rcases h : stripTurn c { s with offset := offset } with _ | ⟨s₁, _⟩ <;>
      rcases h' : stripTurn c s with _ | ⟨s₂, _⟩ <;> rw [h, h'] at hturn
    · cases hturn
    · cases hturn
    · have hzero : { s₁ with offset := 0 } = { s₂ with offset := 0 } := Option.some.inj hturn
      have hstate := congrArg Strip.state hzero
      simp only at hstate ⊢
      rw [hstate]
      rw [← ih s₁ 0, hzero, ih]

/-- The characters of an item in quotes. -/
theorem accepts_quoted (offset : Nat) (text : List Char) :
    accepts ⟨.inElem, offset, 1, 1⟩ text ↔ ∃ item rest, text = item ++ '"' :: rest ∧ '"' ∉ item ∧
      accepts ⟨.inBracket, offset, 1, 0⟩ rest := by
  induction text with
  | nil => simp [accepts]
  | cons c text ih =>
    have hstep : accepts ⟨.inElem, offset, 1, 1⟩ (c :: text) =
        if c = '"' then accepts ⟨.inBracket, offset, 1, 0⟩ text
        else accepts ⟨.inElem, offset, 1, 1⟩ text := by
      -- In quotes, all but the closing quote leaves the item open.
      rcases eq_or_ne c '"' with rfl | hquote
      · rfl
      rw [if_neg hquote]
      rcases eq_or_ne c ',' with rfl | hcomma
      · rfl
      rcases eq_or_ne c '[' with rfl | hopen
      · rfl
      rcases eq_or_ne c ']' with rfl | hclose
      · rfl
      simp only [accepts, stripTurn, if_neg hquote, if_neg hcomma, if_neg hopen, if_neg hclose]
      rfl
    rw [hstep]
    split_ifs with hc
    · subst hc
      constructor
      · exact fun h => ⟨[], text, rfl, by simp, h⟩
      · rintro ⟨item, rest, heq, hitem, h⟩
        rcases item with _ | ⟨c, item⟩
        · rwa [(List.cons.inj heq).2]
        · rw [(List.cons.inj heq).1] at hitem
          exact absurd List.mem_cons_self hitem
    · rw [ih]
      constructor
      · rintro ⟨item, rest, rfl, hitem, h⟩
        exact ⟨c :: item, rest, rfl, by simp [hitem, Ne.symm hc], h⟩
      · rintro ⟨item, rest, heq, hitem, h⟩
        rcases item with _ | ⟨c, item⟩
        · exact absurd (List.cons.inj heq).1 hc
        · exact ⟨item, rest, (List.cons.inj heq).2, fun h => hitem (List.mem_cons_of_mem _ h), h⟩

/-- The brackets that are open after a character. -/
def openAfter (b : Int) (c : Char) : Int :=
  if c = '[' then b + 1 else if c = ']' then b - 1 else b

/-- The characters of an item without quotes, where `b` brackets are open. -/
def Bare (b : Int) (w : List Char) : Prop :=
  b + w.count '[' - w.count ']' = 1 ∧
    ∀ p c t, w = p ++ c :: t → c = ',' ∨ c = '"' → b + p.count '[' - p.count ']' ≠ 1

theorem bare_nil {b : Int} : Bare b [] ↔ b = 1 := by
  simp [Bare]

theorem bare_cons {b : Int} {c : Char} {w : List Char} :
    Bare b (c :: w) ↔ (c = ',' ∨ c = '"' → b ≠ 1) ∧
      Bare (openAfter b c) w := by
  have hcount : ∀ w : List Char, b + ((c :: w).count '[' : Int) - (c :: w).count ']' =
      (openAfter b c) + w.count '[' - w.count ']' := by
    intro w
    simp only [List.count_cons, beq_iff_eq, openAfter]
    by_cases h : c = '['
    · subst h
      simp
      omega
    · by_cases h' : c = ']'
      · subst h'
        simp
        omega
      · simp [h, h']
  rw [Bare, Bare, hcount]
  constructor
  · rintro ⟨hend, hall⟩
    refine ⟨fun hc => by simpa using hall [] c w rfl hc, hend, fun p d t heq hd => ?_⟩
    rw [← hcount]
    exact hall (c :: p) d t (by rw [heq, List.cons_append]) hd
  · rintro ⟨hc, hend, hall⟩
    refine ⟨hend, fun p d t heq hd => ?_⟩
    rcases p with _ | ⟨e, p⟩
    · obtain ⟨rfl, -⟩ := List.cons.inj heq
      simpa using hc hd
    · rw [← (List.cons.inj heq).1, hcount]
      exact hall p d t (List.cons.inj heq).2 hd

theorem accepts_bare (offset : Nat) (b : Int) (text : List Char) :
    accepts ⟨.inElem, offset, b, 0⟩ text ↔ ∃ w rest, text = w ++ ',' :: rest ∧ Bare b w ∧
      accepts ⟨.inBracket, offset, 1, 0⟩ rest := by
  induction text generalizing b with
  | nil => simp [accepts]
  | cons c text ih =>
    have hstep : accepts ⟨.inElem, offset, b, 0⟩ (c :: text) =
        if (c = ',' ∨ c = '"') ∧ b = 1 then
          decide (c = ',') && accepts ⟨.inBracket, offset, 1, 0⟩ text
        else accepts ⟨.inElem, offset, openAfter b c, 0⟩
          text := by
      have hmoved := accepts_offset ⟨.inElem, offset, b - 1, 0⟩ (offset + 1) text
      rcases eq_or_ne c ',' with rfl | hcomma
      · rcases eq_or_ne b 1 with rfl | hb
        · rfl
        · simp only [accepts, stripTurn, if_true, hb, and_false, if_false, reduceCtorEq]
          rfl
      rcases eq_or_ne c '"' with rfl | hquote
      · rcases eq_or_ne b 1 with rfl | hb
        · rfl
        · simp only [accepts, stripTurn, if_neg hcomma, if_true, hb, and_false, if_false,
            reduceCtorEq]
          rfl
      rw [if_neg fun h => h.1.elim hcomma hquote, openAfter]
      -- The other characters leave the item open; a bracket counts, where it is not in quotes.
      rcases eq_or_ne c '[' with rfl | hopen
      · rfl
      rcases eq_or_ne c ']' with rfl | hclose
      · exact hmoved
      simp only [accepts, stripTurn, if_neg hquote, if_neg hcomma, if_neg hopen, if_neg hclose]
      rfl
    rw [hstep]
    split_ifs with hc
    · obtain ⟨hc, rfl⟩ := hc
      rw [Bool.and_eq_true, decide_eq_true_iff]
      constructor
      · rintro ⟨rfl, h⟩
        exact ⟨[], text, rfl, bare_nil.2 rfl, h⟩
      · rintro ⟨w, rest, heq, hw, h⟩
        rcases w with _ | ⟨d, w⟩
        · obtain ⟨rfl, rfl⟩ := List.cons.inj heq
          exact ⟨rfl, h⟩
        · obtain ⟨rfl, -⟩ := List.cons.inj heq
          exact absurd rfl ((bare_cons.1 hw).1 hc)
    · rw [ih]
      constructor
      · rintro ⟨w, rest, rfl, hw, h⟩
        exact ⟨c :: w, rest, rfl, bare_cons.2 ⟨fun hc' hb => hc ⟨hc', hb⟩, hw⟩, h⟩
      · rintro ⟨w, rest, heq, hw, h⟩
        rcases w with _ | ⟨d, w⟩
        · obtain ⟨rfl, rfl⟩ := List.cons.inj heq
          exact absurd ⟨.inl rfl, bare_nil.1 hw⟩ hc
        · obtain ⟨rfl, rfl⟩ := List.cons.inj heq
          exact ⟨w, rest, rfl, (bare_cons.1 hw).2, h⟩

theorem bareItem_iff {w : List Char} : BareItem w ↔ Bare 1 w := by
  have hone : ∀ p : List Char, (1 : Int) + p.count '[' - p.count ']' = 1 ↔
      p.count '[' = p.count ']' := fun p => by omega
  simp only [BareItem, Bare, Ne, hone]

/-- The states behind the bracket at the start accept what the grammar says. -/
theorem accepts_opened (offset : Nat) (text : List Char) :
    accepts ⟨.inBracket, offset, 1, 0⟩ text ↔ Opened text := by
  induction hn : text.length using Nat.strong_induction_on generalizing text offset with
  | _ n ih =>
    subst hn
    rcases text with _ | ⟨c, text⟩
    · exact ⟨fun h => by simp [accepts] at h, nofun⟩
    · rw [accepts, stripTurn]
      by_cases hblank : c ∈ [' ', '\t', '\n', '\r', ',']
      · have hrest := ih text.length (Nat.lt_succ_self _) (offset + 1) text rfl
        simp only [if_pos hblank, if_neg (show StripState.inBracket ≠ .finish by decide)]
        rw [hrest]
        refine ⟨.blank hblank, fun h => ?_⟩
        cases h with
        | close => simp at hblank
        | blank _ h => exact h
        | quoted => simp at hblank
        | bare hc => simp_all
      simp only [if_neg hblank]
      by_cases hquote : c = '"'
      · subst hquote
        simp only [if_true, Int.zero_add]
        rw [if_neg (by decide), accepts_quoted]
        constructor
        · rintro ⟨item, rest, rfl, hitem, h⟩
          refine .quoted hitem ((ih _ ?_ _ _ rfl).1 h)
          simp only [List.length_append, List.length_cons]
          omega
        · intro h
          cases h with
          | blank hc => exact absurd hc hblank
          | @quoted item rest hitem h =>
            refine ⟨item, rest, rfl, hitem, (ih _ ?_ _ _ rfl).2 h⟩
            simp only [List.length_append, List.length_cons]
            omega
          | bare hc => simp at hc
      simp only [if_neg hquote]
      by_cases hclose : c = ']'
      · subst hclose
        exact iff_of_true rfl (.close text)
      simp only [if_neg hclose]
      by_cases hmark : c ∈ [':', '{', '}']
      · simp only [if_pos hmark]
        refine iff_of_false (by decide) fun h => ?_
        cases h with
        | close => exact hclose rfl
        | blank hc => exact hblank hc
        | quoted => exact hquote rfl
        | bare hc => simp_all
      · simp only [if_neg hmark]
        rw [if_neg (by decide), accepts_bare]
        constructor
        · rintro ⟨w, rest, rfl, hw, h⟩
          refine .bare (by simp_all) (bareItem_iff.2 hw) ((ih _ ?_ _ _ rfl).1 h)
          simp only [List.length_append, List.length_cons]
          omega
        · intro h
          cases h with
          | close => exact absurd rfl hclose
          | blank hc => exact absurd hc hblank
          | quoted => exact absurd rfl hquote
          | @bare _ w rest _ hw h =>
            refine ⟨w, rest, rfl, bareItem_iff.1 hw, (ih _ ?_ _ _ rfl).2 h⟩
            simp only [List.length_append, List.length_cons]
            omega

/-- The stripping accepts a text if it starts with an array. -/
theorem accepts_iff (text : List Char) : accepts ⟨.start, 0, 0, 0⟩ text ↔ StartsArray text := by
  induction text with
  | nil => exact iff_of_false (by decide) fun ⟨blanks, rest, h, _⟩ => by simp at h
  | cons c text ih =>
    rw [accepts, stripTurn]
    by_cases hblank : c = ' ' ∨ c = '\t'
    · have hrest := accepts_offset ⟨.start, 0, 0, 0⟩ 1 text
      simp only [if_pos hblank, if_neg (show StripState.start ≠ .finish by decide), Nat.zero_add]
      rw [hrest, ih]
      constructor
      · rintro ⟨blanks, rest, rfl, hblanks, h⟩
        exact ⟨c :: blanks, rest, rfl, List.forall_mem_cons.2 ⟨hblank, hblanks⟩, h⟩
      · rintro ⟨blanks, rest, heq, hblanks, h⟩
        rcases blanks with _ | ⟨d, blanks⟩
        · obtain ⟨rfl, -⟩ := List.cons.inj heq
          simp at hblank
        · exact ⟨blanks, rest, (List.cons.inj heq).2, (List.forall_mem_cons.1 hblanks).2, h⟩
    · have hempty : StartsArray (c :: text) ↔ c = '[' ∧ Opened text := by
        constructor
        · rintro ⟨blanks, rest, heq, hblanks, h⟩
          rcases blanks with _ | ⟨d, blanks⟩
          · obtain ⟨rfl, rfl⟩ := List.cons.inj heq
            exact ⟨rfl, h⟩
          · obtain ⟨rfl, -⟩ := List.cons.inj heq
            exact absurd (hblanks _ List.mem_cons_self) hblank
        · rintro ⟨rfl, h⟩
          exact ⟨[], text, rfl, by simp, h⟩
      simp only [if_neg hblank]
      rw [hempty]
      by_cases hopen : c = '['
      · simp only [if_pos hopen, if_neg (show StripState.inBracket ≠ .finish by decide)]
        rw [← accepts_opened (0 + 1)]
        exact ⟨fun h => ⟨hopen, h⟩, And.right⟩
      · simp only [if_neg hopen]
        exact iff_of_false (by decide) fun h => hopen h.1

/-! ## Balance -/

/-- Whether the brackets and quotes of a text balance, where `depth` brackets are open; a
    bracket in quotes is no bracket. -/
def balancedFrom : Nat → Bool → List Char → Bool
  | depth, quoted, [] => depth = 0 ∧ quoted = false
  | depth, quoted, c :: text =>
    if c = '"' then balancedFrom depth (!quoted) text
    else if quoted then balancedFrom depth quoted text
    else if c = '[' then balancedFrom (depth + 1) quoted text
    else if c = ']' then depth ≠ 0 && balancedFrom (depth - 1) quoted text
    else balancedFrom depth quoted text

/-- The brackets and quotes of a text balance. -/
def Balanced (text : List Char) : Prop := balancedFrom 0 false text = true

instance (text : List Char) : Decidable (Balanced text) :=
  inferInstanceAs (Decidable (balancedFrom 0 false text = true))

/-- The stripping of a text returns no length larger than that of the text, writes nothing
    behind it, and refuses it if its brackets or quotes do not balance. -/
def StripSound (text : List Char) : Prop :=
  ∀ more, ∃ ret stripped,
    stripjsonarraychar (text ++ more) text.length = .done (ret, stripped ++ more) ∧
      stripped.length = text.length ∧ ret ≤ text.length ∧ (¬ Balanced text → ret < 0)

theorem stripSound_iff (text : List Char) :
    StripSound text ↔ (StartsArray text → Balanced text) := by
  have hspec := fun more => stripLoop_spec text ⟨.start, 0, 0, 0⟩ [] [] more rfl (by simp)
  simp only [List.nil_append, List.length_nil, Nat.add_zero, Nat.zero_add, accepts_iff] at hspec
  constructor
  · intro h hstarts
    by_contra hbalanced
    obtain ⟨ret, stripped, hloop, -, -, hneg⟩ := h []
    obtain ⟨ret', stripped', hloop', -, -, hiff⟩ := hspec []
    have hret : ret = ret' := by
      have heq := hloop.symm.trans hloop'
      rw [Outcome.done.injEq, Prod.mk.injEq] at heq
      exact heq.1
    have hpos := hiff.2 hstarts
    have hlt := hneg hbalanced
    omega
  · intro h more
    obtain ⟨ret, stripped, hloop, hlen, hret, hiff⟩ := hspec more
    refine ⟨ret, stripped, hloop, hlen, by simpa using hret, fun hbalanced => ?_⟩
    exact Int.lt_of_not_ge fun hpos => hbalanced (h (hiff.1 hpos))

end Cube.Struct
