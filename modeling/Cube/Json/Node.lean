import Cube.Lib.Digest

/-!
# Nodes and tokens of JSON texts

The nodes of the trees that stand for JSON texts (`JSON_NODE`), and the functions
that read the value of a token of a text (`json.c`): a string, a number or a word
for a boolean.

A text in memory is the list of its characters from a pointer on, up to and with
the NUL that ends it. Characters past it, and places of the buffer for a value
past its end, are not there: to read or write them is a fault, and so is to
compute a number that no `int` is.

* `jsonGetStrvalue_cases`: a string is read up to its closing quote, or refused;
  one that does not fit the buffer, or ends in a backslash, is a fault.
* `jsonGetNumvalue_cases`, `jsonGetBoolvalue_cases`: the same of the other tokens.
-/

namespace Cube.Json

open Lib

/-! ## Nodes -/

/-- The types of nodes, `enum json_elem_type`. -/
inductive JsonElemType
  | null
  | num
  | string
  | bool
  | map
  | array
  deriving DecidableEq, Repr

/-- A node, `JSON_NODE`. The flag `JSON_ELEM_VALUE` of the type is a field of its
    own, and a value holds the four bytes of the `int` copied to it. -/
structure JsonNode where
  elemType : JsonElemType := .null
  isValue : Bool := false
  name : List Char := []
  valueStr : Option (List Char) := none
  value : Int := 0
  elemNo : Int := 0
  childlist : List JsonNode := []
  deriving Repr

namespace JsonNode

/-- `json_set_type`, of a node that is there and a type that is one. -/
def jsonSetType (node : JsonNode) (datatype : JsonElemType) (isvalue : Bool) : JsonNode :=
  if datatype = .null then { node with isValue := node.isValue || isvalue }
  else { node with elemType := datatype, isValue := isvalue }

/-- The node with a child at the end of its list, as `_new_json_node` puts it. -/
def addChild (node child : JsonNode) : JsonNode :=
  { node with childlist := node.childlist ++ [child] }

/-- The node with one more element. -/
def countElem (node : JsonNode) : JsonNode := { node with elemNo := node.elemNo + 1 }

/-- The node with an `int` copied to the first bytes of its value, all zero before. -/
def setValue (node : JsonNode) (value : Int) : JsonNode :=
  { node with value := value % 2 ^ 32 }

mutual
/-- A node and all those below it. -/
def nodes : JsonNode → List JsonNode
  | node@⟨_, _, _, _, _, _, childlist⟩ => node :: nodesBelow childlist

/-- The nodes of a list, and all those below them. -/
def nodesBelow : List JsonNode → List JsonNode
  | [] => []
  | node :: childlist => nodes node ++ nodesBelow childlist
end

theorem nodes_eq (node : JsonNode) : node.nodes = node :: nodesBelow node.childlist := by
  cases node
  rw [nodes]

@[simp] theorem nodesBelow_nil : nodesBelow [] = [] := by
  rw [nodesBelow]

@[simp] theorem nodesBelow_cons (node : JsonNode) (childlist : List JsonNode) :
    nodesBelow (node :: childlist) = node.nodes ++ nodesBelow childlist := by
  rw [nodesBelow]

@[simp] theorem nodesBelow_append (l l' : List JsonNode) :
    nodesBelow (l ++ l') = nodesBelow l ++ nodesBelow l' := by
  induction l with
  | nil => simp
  | cons node l ih => simp [ih]

theorem mem_nodes_self (node : JsonNode) : node ∈ node.nodes := by
  rw [nodes_eq]
  exact List.mem_cons_self

theorem mem_nodesBelow {childlist : List JsonNode} {node : JsonNode} :
    node ∈ nodesBelow childlist ↔ ∃ child ∈ childlist, node ∈ child.nodes := by
  induction childlist with
  | nil => simp
  | cons child childlist ih => simp [ih]

end JsonNode

/-! ## Characters -/

/-- `IsValueEnd`. -/
def isValueEnd (c : Char) : Bool :=
  c == ' ' || c == ',' || c == '\x00' || c == '}' || c == ']' || c == '\t' || c == '\r' || c == '\n'

/-- `IsSplitChar`. -/
def isSplitChar (c : Char) : Bool :=
  c == ',' || c == ' ' || c == '\r' || c == '\n' || c == '\t'

/-- `IsIgnoreChar`. -/
def isIgnoreChar (c : Char) : Bool :=
  c == ' ' || c == '\r' || c == '\n' || c == '\t'

/-! ## Strings -/

/-- The end of a string at index `i`: the NUL is put after the value, in the 512
    characters of `value_buffer`. -/
def endStrvalue (value : List Char) (i : Nat) : Outcome (List Char × Nat) :=
  if value.length < 512 then .done (value, i + 1) else .fault

/-- The loop of `json_get_strvalue` from index `i`, with the value read so far. -/
def strvalueLoop (i : Nat) (value : List Char) : List Char → Outcome (List Char × Nat)
  | [] =>
    if i < 1024 then .fault else if i = 1024 then .error (-EINVAL) else endStrvalue value i
  | c :: rest =>
    if i < 1024 then
      if c = '"' then endStrvalue value i
      else if c = '\x00' then .error (-EINVAL)
      else if c = '\\' then
        match rest with
        | [] => .fault
        | e :: rest' =>
          if value.length < 512 then strvalueLoop (i + 2) (value ++ [e]) rest' else .fault
      else if value.length < 512 then strvalueLoop (i + 1) (value ++ [c]) rest
      else .fault
    else if i = 1024 then .error (-EINVAL)
    else endStrvalue value i

theorem strvalueLoop_nil (i : Nat) (value : List Char) :
    strvalueLoop i value [] =
      if i < 1024 then .fault else if i = 1024 then .error (-EINVAL) else endStrvalue value i := by
  rw [strvalueLoop.eq_def]

variable {i value : Nat} {c : Char} {after body ds : List Char}

/-- The loop at the closing quote. -/
theorem strvalueLoop_quote (hi : i < 1024) (value rest : List Char) :
    strvalueLoop i value ('"' :: rest) = endStrvalue value i := by
  rw [strvalueLoop.eq_def]
  simp [hi]

/-- The loop at the end of the text. -/
theorem strvalueLoop_nul (hi : i < 1024) (value rest : List Char) :
    strvalueLoop i value ('\x00' :: rest) = .error (-EINVAL) := by
  rw [strvalueLoop.eq_def]
  simp [hi]

/-- The loop at a backslash. -/
theorem strvalueLoop_escaped (hi : i < 1024) (value : List Char) (e : Char) (rest : List Char) :
    strvalueLoop i value ('\\' :: e :: rest) =
      if value.length < 512 then strvalueLoop (i + 2) (value ++ [e]) rest else .fault := by
  rw [strvalueLoop.eq_def]
  simp [hi]

/-- The loop at any other character. -/
theorem strvalueLoop_plain (hi : i < 1024) (value : List Char)
    (hq : c ≠ '"') (hb : c ≠ '\\') (hn : c ≠ '\x00') (rest : List Char) :
    strvalueLoop i value (c :: rest) =
      if value.length < 512 then strvalueLoop (i + 1) (value ++ [c]) rest else .fault := by
  rw [strvalueLoop.eq_def]
  simp [hi, hq, hb, hn]

/-- The end of the loop at its limit. -/
theorem strvalueLoop_limit (hi : ¬ i < 1024) (value str : List Char) :
    strvalueLoop i value str = if i = 1024 then .error (-EINVAL) else endStrvalue value i := by
  rw [strvalueLoop.eq_def]
  cases str <;> simp [hi]

/-- The loop with a full buffer, before the end of the text. -/
theorem strvalueLoop_full (hi : i ≠ 1024) {value : List Char} (hlen : value.length = 512)
    {e : Char} (hc : c ≠ '\x00') (rest : List Char) :
    strvalueLoop i value (c :: e :: rest) = .fault := by
  by_cases hlt : i < 1024
  · rcases eq_or_ne c '"' with rfl | hq
    · rw [strvalueLoop_quote hlt, endStrvalue, if_neg (by omega)]
    rcases eq_or_ne c '\\' with rfl | hb
    · rw [strvalueLoop_escaped hlt, if_neg (by omega)]
    · rw [strvalueLoop_plain hlt _ hq hb hc, if_neg (by omega)]
  · rw [strvalueLoop_limit hlt, if_neg hi, endStrvalue, if_neg (by omega)]

/-- `json_get_strvalue`: the string read to the buffer, and the number of the
    characters it takes in the text. -/
def jsonGetStrvalue : List Char → Outcome (List Char × Nat)
  | [] => .fault
  | c :: rest => if c ≠ '"' then .error (-EINVAL) else strvalueLoop 1 [] rest

/-- The characters of a string in a text, and those that they stand for: a
    backslash lets any character stand for itself. -/
inductive Chars : List Char → List Char → Prop
  | nil : Chars [] []
  | plain {c : Char} {raw content : List Char} : c ≠ '"' → c ≠ '\\' → c ≠ '\x00' →
      Chars raw content → Chars (c :: raw) (c :: content)
  | escaped {c : Char} {raw content : List Char} : c ≠ '\x00' →
      Chars raw content → Chars ('\\' :: c :: raw) (c :: content)

namespace Chars

variable {raw content : List Char}

theorem length_le (h : Chars raw content) : content.length ≤ raw.length := by
  induction h with
  | nil => exact Nat.le_refl _
  | plain _ _ _ _ ih => simpa using ih
  | escaped _ _ ih =>
    simp only [List.length_cons]
    omega

theorem length_le_two_mul (h : Chars raw content) : raw.length ≤ 2 * content.length := by
  induction h with
  | nil => exact Nat.le_refl _
  | plain _ _ _ _ ih =>
    simp only [List.length_cons]
    omega
  | escaped _ _ ih =>
    simp only [List.length_cons]
    omega

/-- The characters of a string are those up to its closing quote. -/
theorem unique (h : Chars raw content) {raw' content' after' : List Char}
    (h' : Chars raw' content') (heq : raw ++ '"' :: after = raw' ++ '"' :: after') : raw = raw' := by
  induction h generalizing raw' content' with
  | nil =>
    cases h' with
    | nil => rfl
    | plain hquote _ _ _ => exact absurd (List.cons.inj heq).1.symm hquote
    | escaped _ _ => exact absurd (List.cons.inj heq).1 (by decide)
  | plain hquote hback _ _ ih =>
    cases h' with
    | nil => exact absurd (List.cons.inj heq).1 hquote
    | plain _ _ _ h' =>
      obtain ⟨rfl, htail⟩ := List.cons.inj heq
      rw [ih h' htail]
    | escaped _ _ => exact absurd (List.cons.inj heq).1 hback
  | escaped _ _ ih =>
    cases h' with
    | nil => exact absurd (List.cons.inj heq).1 (by decide)
    | plain _ hback _ _ => exact absurd (List.cons.inj heq).1.symm hback
    | escaped _ h' =>
      obtain ⟨rfl, htail⟩ := List.cons.inj (List.cons.inj heq).2
      rw [ih h' htail]

/-- One more character. -/
theorem snoc_plain (h : Chars raw content) (hq : c ≠ '"') (hb : c ≠ '\\')
    (hn : c ≠ '\x00') : Chars (raw ++ [c]) (content ++ [c]) := by
  induction h with
  | nil => exact .plain hq hb hn .nil
  | plain hq' hb' hn' _ ih => exact .plain hq' hb' hn' ih
  | escaped hn' _ ih => exact .escaped hn' ih

/-- One more character, after a backslash. -/
theorem snoc_escaped (h : Chars raw content) (hn : c ≠ '\x00') :
    Chars (raw ++ ['\\', c]) (content ++ [c]) := by
  induction h with
  | nil => exact .escaped hn .nil
  | plain hq' hb' hn' _ ih => exact .plain hq' hb' hn' ih
  | escaped hn' _ ih => exact .escaped hn' ih

end Chars

/-- A text with no NUL in it starts with characters of a string, up to a number of
    them, the end of the text, a last backslash or a quote. -/
theorem exists_chars (hbody : '\x00' ∉ body) (n : Nat) :
    ∃ raw content rest, body = raw ++ rest ∧ Chars raw content ∧ content.length ≤ n ∧
      (content.length = n ∨ rest = [] ∨ rest = ['\\'] ∨ ∃ after, rest = '"' :: after) := by
  induction n with
  | zero => exact ⟨[], [], body, rfl, .nil, Nat.le_refl _, .inl rfl⟩
  | succ n ih =>
    obtain ⟨raw, content, rest, rfl, hchars, hle, hend⟩ := ih
    rcases hend with hlen | hend
    · -- The characters are as many as before; one more is read, where there is one.
      rcases rest with _ | ⟨c, rest⟩
      · exact ⟨raw, content, [], rfl, hchars, by omega, .inr (.inl rfl)⟩
      have hc : c ≠ '\x00' := fun h => hbody (by simp [h])
      rcases eq_or_ne c '"' with rfl | hquote
      · exact ⟨raw, content, _, rfl, hchars, by omega, .inr (.inr (.inr ⟨rest, rfl⟩))⟩
      rcases eq_or_ne c '\\' with rfl | hback
      · rcases rest with _ | ⟨e, rest⟩
        · exact ⟨raw, content, _, rfl, hchars, by omega, .inr (.inr (.inl rfl))⟩
        have he : e ≠ '\x00' := fun h => hbody (by simp [h])
        exact ⟨raw ++ ['\\', e], content ++ [e], rest, by simp, hchars.snoc_escaped he,
          by simp; omega, .inl (by simp; omega)⟩
      · exact ⟨raw ++ [c], content ++ [c], rest, by simp, hchars.snoc_plain hquote hback hc,
          by simp; omega, .inl (by simp; omega)⟩
    · exact ⟨raw, content, rest, rfl, hchars, by omega, .inr hend⟩

/-- The loop over characters of a string that fit the buffer. -/
theorem strvalueLoop_chars {raw content : List Char} (h : Chars raw content)
    {value : List Char} (hi : i ≤ 1 + 2 * value.length)
    (hfit : value.length + content.length ≤ 512) (rest : List Char) :
    strvalueLoop i value (raw ++ rest) =
      strvalueLoop (i + raw.length) (value ++ content) rest := by
  induction h generalizing i value with
  | nil => simp
  | @plain c raw content hq hb hn _ ih =>
    rw [List.length_cons] at hfit
    rw [List.cons_append, strvalueLoop_plain (by omega) _ hq hb hn, if_pos (by omega),
      ih (by simp; omega) (by simp; omega)]
    simp [Nat.add_assoc, Nat.add_comm 1]
  | @escaped c raw content hn _ ih =>
    rw [List.length_cons] at hfit
    rw [List.cons_append, List.cons_append, strvalueLoop_escaped (by omega), if_pos (by omega),
      ih (by simp; omega) (by simp; omega)]
    simp [Nat.add_assoc, Nat.add_comm 2]

/-- The text goes on as a string that does not fit the buffer, or ends in a
    backslash: `json_get_strvalue` writes or reads what is not there. The loop
    ends at the index 1024, where it does neither. -/
def Spills (body : List Char) : Prop :=
  ∃ raw content rest, body = raw ++ rest ∧ Chars raw content ∧
    (content.length = 512 ∧ (raw.length = 1024 ∨ raw.length ≠ 1023 ∧ rest ≠ []) ∨
      content.length < 512 ∧ raw.length ≠ 1021 ∧ rest = ['\\'])

/-- `json_get_strvalue` after characters that fit the buffer. -/
theorem jsonGetStrvalue_chars {raw content : List Char} (h : Chars raw content)
    (hfit : content.length ≤ 512) (rest : List Char) :
    jsonGetStrvalue ('"' :: (raw ++ rest)) = strvalueLoop (1 + raw.length) content rest := by
  rw [jsonGetStrvalue, if_neg (by simp), strvalueLoop_chars h (by simp) (by simpa using hfit),
    List.nil_append]

/-- A string that fits the buffer is read. -/
theorem jsonGetStrvalue_eq {raw content : List Char} (h : Chars raw content)
    (hfit : content.length < 512) (after : List Char) :
    jsonGetStrvalue ('"' :: (raw ++ '"' :: after)) = .done (content, raw.length + 2) := by
  have htwo := h.length_le_two_mul
  rw [jsonGetStrvalue_chars h (by omega), strvalueLoop_quote (by omega), endStrvalue, if_pos hfit,
    Nat.add_comm 1]

/-- The loop at the last backslash of a text. -/
theorem strvalueLoop_last (hi : i < 1024) {value : List Char} (hlen : value.length < 512)
    (htwo : i ≤ 1 + 2 * value.length) :
    strvalueLoop i value ['\\', '\x00'] = if i = 1022 then .error (-EINVAL) else .fault := by
  rw [strvalueLoop_escaped hi, if_pos hlen]
  by_cases hlim : i + 2 < 1024
  · rw [strvalueLoop_nil, if_pos hlim, if_neg (by omega)]
  · rw [strvalueLoop_limit hlim]
    by_cases hi' : i = 1022
    · rw [if_pos (by omega), if_pos hi']
    · -- The loop ends past its limit, with a buffer that is full.
      have hfull : ¬ (value ++ ['\x00']).length < 512 := by
        rw [List.length_append, List.length_singleton]
        omega
      rw [if_neg (by omega), if_neg hi', endStrvalue, if_neg hfull]

/-- A string that does not fit the buffer is a fault. -/
theorem jsonGetStrvalue_fault (hbody : '\x00' ∉ body) (h : Spills body) :
    jsonGetStrvalue ('"' :: (body ++ ['\x00'])) = .fault := by
  obtain ⟨raw, content, rest, rfl, hchars, hend⟩ := h
  have htwo := hchars.length_le_two_mul
  have hfit : content.length ≤ 512 := by rcases hend with h | h <;> omega
  rw [List.append_assoc, jsonGetStrvalue_chars hchars hfit]
  rcases hend with ⟨hlen, hraw | ⟨hraw, hrest⟩⟩ | ⟨hlen, hraw, rfl⟩
  · rw [strvalueLoop_limit (by omega), if_neg (by omega), endStrvalue, if_neg (by omega)]
  · rcases rest with _ | ⟨c, rest⟩
    · exact absurd rfl hrest
    have hc : c ≠ '\x00' := fun h => hbody (by simp [h])
    obtain ⟨e, rest', hrest'⟩ : ∃ e rest', rest ++ ['\x00'] = e :: rest' := by
      cases rest <;> simp
    rw [List.cons_append, hrest', strvalueLoop_full (by omega) hlen hc]
  · rw [List.cons_append, List.nil_append, strvalueLoop_last (by omega) hlen (by omega),
      if_neg (by omega)]

/-- What `json_get_strvalue` does at the start of a string. -/
theorem jsonGetStrvalue_cases (hbody : '\x00' ∉ body) :
    (∃ raw content after, body = raw ++ '"' :: after ∧ Chars raw content ∧ content.length < 512 ∧
        jsonGetStrvalue ('"' :: (body ++ ['\x00'])) = .done (content, raw.length + 2)) ∨
      jsonGetStrvalue ('"' :: (body ++ ['\x00'])) = .error (-EINVAL) ∨ Spills body := by
  obtain ⟨raw, content, rest, rfl, hchars, hle, hend⟩ := exists_chars hbody 512
  have htwo := hchars.length_le_two_mul
  have hrun := jsonGetStrvalue_chars hchars hle (rest ++ ['\x00'])
  rw [← List.append_assoc] at hrun
  rcases Nat.lt_or_eq_of_le hle with hlt | hlen
  · rcases hend with hend | rfl | rfl | ⟨after, rfl⟩
    · omega
    · exact .inr (.inl (by rw [hrun, List.nil_append, strvalueLoop_nul (by omega)]))
    · by_cases hraw : raw.length = 1021
      · -- The NUL is the character after the backslash, and the loop ends there.
        exact .inr (.inl (by rw [hrun, List.cons_append, List.nil_append,
          strvalueLoop_last (by omega) hlt (by omega), if_pos (by omega)]))
      · exact .inr (.inr ⟨raw, content, _, rfl, hchars, .inr ⟨hlt, hraw, rfl⟩⟩)
    · refine .inl ⟨raw, content, after, rfl, hchars, hlt, ?_⟩
      rw [List.append_assoc, List.cons_append, jsonGetStrvalue_eq hchars hlt]
  · by_cases hraw : raw.length = 1023
    · exact .inr (.inl (by rw [hrun, strvalueLoop_limit (by omega), if_pos (by omega)]))
    · rcases rest with _ | ⟨c, rest⟩
      · by_cases hlast : raw.length = 1024
        · exact .inr (.inr ⟨raw, content, [], rfl, hchars, .inl ⟨hlen, .inl hlast⟩⟩)
        · exact .inr (.inl (by rw [hrun, List.nil_append, strvalueLoop_nul (by omega)]))
      · exact .inr (.inr ⟨raw, content, _, rfl, hchars, .inl ⟨hlen, .inr ⟨hraw, by simp⟩⟩⟩)

/-! ## Numbers -/

/-- The values that are gone on with: those of an `int`, or all of them where the parser is `wide`.
    An `int` wraps round there, and of a value that is kept whole the same comes to the node in the
    end. -/
def Fits (wide : Bool) (value : Nat) : Prop := wide ∨ value < 2 ^ 31

instance (wide : Bool) (value : Nat) : Decidable (Fits wide value) :=
  inferInstanceAs (Decidable (_ ∨ _))

theorem Fits.mono {wide : Bool} {m n : Nat} (h : Fits wide n) (hle : m ≤ n) : Fits wide m :=
  h.imp_right (Nat.lt_of_le_of_lt hle)

theorem not_fits {wide : Bool} : ¬ Fits wide value ↔ wide = false ∧ 2 ^ 31 ≤ value := by
  rw [Fits, not_or, Bool.not_eq_true, Nat.not_lt]

/-- The loop of `json_get_numvalue` from index `i`, with the value read so far: a
    value that does not fit is a fault. -/
def numvalueLoop (wide : Bool) (i value : Nat) : List Char → Outcome (Nat × Nat)
  | [] => if i < DIGEST_SIZE then .fault else .error (-EINVAL)
  | c :: rest =>
    if i < DIGEST_SIZE then
      if c = '\x00' then .error (-EINVAL)
      else if isValueEnd c then .done (value, i)
      else if ¬ c.isDigit then .error (-EINVAL)
      else if Fits wide (value * 10 + (c.toNat - 48)) then
        numvalueLoop wide (i + 1) (value * 10 + (c.toNat - 48)) rest
      else .fault
    else .error (-EINVAL)

/-- The first digit of a number at index `i`, and the loop after it. -/
def numvalueFirst (wide : Bool) (i : Nat) : List Char → Outcome (Nat × Nat)
  | [] => .fault
  | c :: rest =>
    if ¬ c.isDigit then .error (-EINVAL) else numvalueLoop wide (i + 1) (c.toNat - 48) rest

/-- `json_get_numvalue`: the value of a number, and the number of the characters it
    takes in the text. -/
def jsonGetNumvalue (wide : Bool) : List Char → Outcome (Int × Nat)
  | [] => .fault
  | c :: rest =>
    if c = '.' then (fun (value, i) => ((value : Int), i)) <$> numvalueLoop wide 0 0 (c :: rest)
    else if c = '-' then (fun (value, i) => (-(value : Int), i)) <$> numvalueFirst wide 1 rest
    else (fun (value, i) => ((value : Int), i)) <$> numvalueFirst wide 0 (c :: rest)

/-- The value of digits read after a value. -/
def digitsFrom (value : Nat) (ds : List Char) : Nat :=
  ds.foldl (fun v c => v * 10 + (c.toNat - 48)) value

theorem le_digitsFrom (value : Nat) (ds : List Char) : value ≤ digitsFrom value ds := by
  induction ds generalizing value with
  | nil => exact Nat.le_refl _
  | cons c ds ih => exact Nat.le_trans (by omega) (ih (value * 10 + (c.toNat - 48)))

/-- The digits of a number, with their value. -/
def Digits (ds : List Char) (value : Nat) : Prop :=
  ds ≠ [] ∧ (∀ c ∈ ds, c.isDigit) ∧ value = digitsFrom 0 ds

/-- A number as a text has it, with its value: digits, and a sign before them. -/
inductive Number : List Char → Int → Prop
  | pos {ds : List Char} {value : Nat} : Digits ds value → Number ds value
  | neg {ds : List Char} {value : Nat} : Digits ds value → Number ('-' :: ds) (-value)

/-- What follows a number: a character that ends a value, and not the text. -/
def EndsValue (after : List Char) : Prop :=
  ∃ c rest, after = c :: rest ∧ isValueEnd c ∧ c ≠ '\x00'

/-- The text goes on as a number that no `int` is. -/
def Overflows (body : List Char) : Prop :=
  ∃ token rest v, body = token ++ rest ∧ Number token v ∧ 2 ^ 31 ≤ v.natAbs ∧
    token.length ≤ DIGEST_SIZE

theorem isDigit_ne {d : Char} (h : c.isDigit) (hd : d.isDigit = false) : c ≠ d := by
  rintro rfl
  simp [hd] at h

/-- A digit does not end a value. -/
theorem isValueEnd_of_isDigit (h : c.isDigit) : isValueEnd c = false := by
  have hne : ∀ d : Char, d.isDigit = false → c ≠ d := fun d hd => isDigit_ne h hd
  simp [isValueEnd, hne]

section Wide

variable {wide : Bool}

/-- The loop over digits of a number that fits. -/
theorem numvalueLoop_digits (hds : ∀ c ∈ ds, c.isDigit)
    (hi : i + ds.length ≤ DIGEST_SIZE) (hfits : Fits wide (digitsFrom value ds)) (rest : List Char) :
    numvalueLoop wide i value (ds ++ rest) =
      numvalueLoop wide (i + ds.length) (digitsFrom value ds) rest := by
  induction ds generalizing i value with
  | nil => rfl
  | cons c ds ih =>
    have hc : c.isDigit := hds c List.mem_cons_self
    have hle := le_digitsFrom (value * 10 + (c.toNat - 48)) ds
    rw [List.length_cons] at hi
    rw [List.cons_append, numvalueLoop, if_pos (by omega), if_neg (isDigit_ne hc rfl),
      if_neg (by simp [isValueEnd_of_isDigit hc]), if_neg (by simpa using hc),
      if_pos (hfits.mono hle),
      ih (fun d hd => hds d (List.mem_cons_of_mem c hd)) (by omega) hfits]
    rw [List.length_cons, Nat.add_assoc, Nat.add_comm 1]
    rfl

/-- The loop over digits of a number that does not fit. -/
theorem numvalueLoop_fault (hds : ∀ c ∈ ds, c.isDigit)
    (hi : i + ds.length ≤ DIGEST_SIZE) (hvalue : Fits wide value)
    (hmax : ¬ Fits wide (digitsFrom value ds)) (rest : List Char) :
    numvalueLoop wide i value (ds ++ rest) = .fault := by
  induction ds generalizing i value with
  | nil => exact absurd hvalue hmax
  | cons c ds ih =>
    have hc : c.isDigit := hds c List.mem_cons_self
    rw [List.length_cons] at hi
    rw [List.cons_append, numvalueLoop, if_pos (by omega), if_neg (isDigit_ne hc rfl),
      if_neg (by simp [isValueEnd_of_isDigit hc]), if_neg (by simpa using hc)]
    by_cases hlt : Fits wide (value * 10 + (c.toNat - 48))
    · rw [if_pos hlt, ih (fun d hd => hds d (List.mem_cons_of_mem c hd)) (by omega) hlt hmax]
    · rw [if_neg hlt]

/-- The loop at the end of a number. -/
theorem numvalueLoop_end (h : EndsValue after) (hi : i < DIGEST_SIZE)
    (value : Nat) : numvalueLoop wide i value after = .done (value, i) := by
  obtain ⟨c, rest, rfl, hc, hn⟩ := h
  rw [numvalueLoop, if_pos hi, if_neg hn, if_pos hc]

/-- What the loop does over a text: it comes to the end of a number, to an error, or
    to a number that does not fit. -/
theorem numvalueLoop_cases (hbody : '\x00' ∉ body) (hvalue : Fits wide value) :
    (∃ ds after, body = ds ++ after ∧ (∀ c ∈ ds, c.isDigit) ∧ EndsValue after ∧
        i + ds.length < DIGEST_SIZE ∧ Fits wide (digitsFrom value ds) ∧
        numvalueLoop wide i value (body ++ ['\x00']) =
          .done (digitsFrom value ds, i + ds.length)) ∨
      numvalueLoop wide i value (body ++ ['\x00']) = .error (-EINVAL) ∨
      ∃ ds rest, body = ds ++ rest ∧ (∀ c ∈ ds, c.isDigit) ∧ i + ds.length ≤ DIGEST_SIZE ∧
        ¬ Fits wide (digitsFrom value ds) := by
  induction body generalizing i value with
  | nil =>
    refine .inr (.inl ?_)
    rw [List.nil_append, numvalueLoop, if_pos rfl]
    split_ifs <;> rfl
  | cons c rest ih =>
    have hc : c ≠ '\x00' := fun h => hbody (by simp [h])
    by_cases hi : i < DIGEST_SIZE
    · rw [List.cons_append, numvalueLoop, if_pos hi, if_neg hc]
      by_cases hend : isValueEnd c
      · exact .inl ⟨[], c :: rest, rfl, by simp, ⟨c, rest, rfl, hend, hc⟩, hi, hvalue,
          by rw [if_pos hend]; rfl⟩
      rw [if_neg hend]
      by_cases hdigit : c.isDigit
      · rw [if_neg (by simpa using hdigit)]
        by_cases hlt : Fits wide (value * 10 + (c.toNat - 48))
        · rw [if_pos hlt]
          have hcons : ∀ ds : List Char, (∀ d ∈ ds, d.isDigit) → ∀ d ∈ c :: ds, d.isDigit :=
            fun ds hds d hd => by
              rcases List.mem_cons.1 hd with rfl | hd
              · exact hdigit
              · exact hds d hd
          rcases ih (i := i + 1) (fun h => hbody (List.mem_cons_of_mem c h)) hlt with
            ⟨ds, after, rfl, hds, hafter, hlen, hmax, hrun⟩ | herr |
              ⟨ds, after, rfl, hds, hlen, hmax⟩
          · refine .inl ⟨c :: ds, after, rfl, hcons ds hds, hafter, ?_, hmax, ?_⟩
            · rw [List.length_cons]
              omega
            · rw [hrun, List.length_cons, Nat.add_assoc, Nat.add_comm 1]
              rfl
          · exact .inr (.inl herr)
          · refine .inr (.inr ⟨c :: ds, after, rfl, hcons ds hds, ?_, hmax⟩)
            rw [List.length_cons]
            omega
        · exact .inr (.inr ⟨[c], rest, rfl, by simpa using hdigit, hi, hlt⟩)
      · exact .inr (.inl (by rw [if_pos hdigit]))
    · exact .inr (.inl (by rw [List.cons_append, numvalueLoop, if_neg hi]))

/-- The value of digits after the first. -/
theorem digitsFrom_cons_zero (c : Char) (ds : List Char) :
    digitsFrom 0 (c :: ds) = digitsFrom (c.toNat - 48) ds := by
  simp [digitsFrom]

theorem fits_digit (h : c.isDigit) : Fits wide (c.toNat - 48) := by
  have hle : c.toNat ≤ 57 := by
    have h' := h
    simp only [Char.isDigit, ge_iff_le, Bool.and_eq_true, decide_eq_true_eq] at h'
    exact UInt32.le_iff_toNat_le.1 h'.2
  exact .inr (by omega)

/-- A digit first: the loop is over the digits after it. -/
theorem numvalueFirst_digits (h : Digits ds value)
    (hi : i + ds.length < DIGEST_SIZE) (hfits : Fits wide value) (hafter : EndsValue after) :
    numvalueFirst wide i (ds ++ after) = .done (value, i + ds.length) := by
  obtain ⟨hne, hds, rfl⟩ := h
  rcases ds with _ | ⟨c, ds⟩
  · exact absurd rfl hne
  have hc : c.isDigit := hds c List.mem_cons_self
  rw [digitsFrom_cons_zero] at hfits
  rw [List.length_cons] at hi
  rw [List.cons_append, numvalueFirst, if_neg (by simpa using hc),
    numvalueLoop_digits (fun d hd => hds d (List.mem_cons_of_mem c hd)) (by omega) hfits,
    numvalueLoop_end hafter (by omega), digitsFrom_cons_zero, List.length_cons, Nat.add_assoc,
    Nat.add_comm 1]

/-- What comes of a number of which the sign is read. -/
theorem numvalueFirst_cases (hbody : '\x00' ∉ body) (i : Nat) :
    (∃ ds after value, body = ds ++ after ∧ Digits ds value ∧ EndsValue after ∧
        i + ds.length < DIGEST_SIZE ∧ Fits wide value ∧
        numvalueFirst wide i (body ++ ['\x00']) = .done (value, i + ds.length)) ∨
      numvalueFirst wide i (body ++ ['\x00']) = .error (-EINVAL) ∨
      ∃ ds rest value, body = ds ++ rest ∧ Digits ds value ∧ i + ds.length ≤ DIGEST_SIZE ∧
        ¬ Fits wide value := by
  rcases body with _ | ⟨c, body⟩
  · exact .inr (.inl (by rw [List.nil_append, numvalueFirst, if_pos (by decide)]))
  by_cases hc : c.isDigit
  · have hfirst : numvalueFirst wide i (c :: body ++ ['\x00']) =
        numvalueLoop wide (i + 1) (c.toNat - 48) (body ++ ['\x00']) := by
      rw [List.cons_append, numvalueFirst, if_neg (by simpa using hc)]
    have hdigits : ∀ ds : List Char, (∀ d ∈ ds, d.isDigit) →
        Digits (c :: ds) (digitsFrom (c.toNat - 48) ds) := fun ds hds => by
      refine ⟨by simp, fun d hd => ?_, (digitsFrom_cons_zero c ds).symm⟩
      rcases List.mem_cons.1 hd with rfl | hd
      · exact hc
      · exact hds d hd
    rcases numvalueLoop_cases (i := i + 1) (fun h => hbody (List.mem_cons_of_mem c h))
      (fits_digit hc) with ⟨ds, after, rfl, hds, hafter, hlen, hmax, hrun⟩ | herr |
        ⟨ds, rest, rfl, hds, hlen, hmax⟩
    · refine .inl ⟨c :: ds, after, _, rfl, hdigits ds hds, hafter, ?_, hmax, ?_⟩
      · rw [List.length_cons]
        omega
      · rw [hfirst, hrun, List.length_cons, Nat.add_assoc, Nat.add_comm 1]
    · exact .inr (.inl (hfirst.trans herr))
    · refine .inr (.inr ⟨c :: ds, rest, _, rfl, hdigits ds hds, ?_, hmax⟩)
      rw [List.length_cons]
      omega
  · exact .inr (.inl (by rw [List.cons_append, numvalueFirst, if_pos hc]))

/-- A number that does not fit, of which the sign is read. -/
theorem numvalueFirst_fault (h : Digits ds value)
    (hi : i + ds.length ≤ DIGEST_SIZE) (hmax : ¬ Fits wide value) (rest : List Char) :
    numvalueFirst wide i (ds ++ rest) = .fault := by
  obtain ⟨hne, hds, rfl⟩ := h
  rcases ds with _ | ⟨c, ds⟩
  · exact absurd rfl hne
  have hc : c.isDigit := hds c List.mem_cons_self
  rw [digitsFrom_cons_zero] at hmax
  rw [List.length_cons] at hi
  rw [List.cons_append, numvalueFirst, if_neg (by simpa using hc),
    numvalueLoop_fault (fun d hd => hds d (List.mem_cons_of_mem c hd)) (by omega)
      (fits_digit hc) hmax]

/-- A digit is no sign, and no point. -/
theorem jsonGetNumvalue_digit (h : c.isDigit) (rest : List Char) :
    jsonGetNumvalue wide (c :: rest) =
      (fun (value, i) => ((value : Int), i)) <$> numvalueFirst wide 0 (c :: rest) := by
  rw [jsonGetNumvalue, if_neg (isDigit_ne h rfl), if_neg (isDigit_ne h rfl)]

theorem jsonGetNumvalue_minus (rest : List Char) :
    jsonGetNumvalue wide ('-' :: rest) =
      (fun (value, i) => (-(value : Int), i)) <$> numvalueFirst wide 1 rest := by
  rw [jsonGetNumvalue, if_neg (by decide), if_pos rfl]

/-- The first of the digits of a number. -/
theorem Digits.exists_cons (h : Digits ds value) :
    ∃ c ds', ds = c :: ds' ∧ c.isDigit := by
  rcases ds with _ | ⟨c, ds⟩
  · exact absurd rfl h.1
  · exact ⟨c, ds, rfl, h.2.1 c List.mem_cons_self⟩

/-- A number that fits is read. -/
theorem jsonGetNumvalue_eq {token : List Char} {v : Int} (h : Number token v)
    (hfits : Fits wide v.natAbs) (hlen : token.length < DIGEST_SIZE) (hafter : EndsValue after) :
    jsonGetNumvalue wide (token ++ after) = .done (v, token.length) := by
  cases h with
  | @pos ds value hds =>
    have hrun := numvalueFirst_digits (i := 0) hds (by omega) (hfits.mono (by omega)) hafter
    obtain ⟨c, ds, rfl, hc⟩ := hds.exists_cons
    rw [List.cons_append] at hrun ⊢
    rw [jsonGetNumvalue_digit hc, hrun, Outcome.map_done, Nat.zero_add]
  | @neg ds value hds =>
    rw [List.length_cons] at hlen
    rw [List.cons_append, jsonGetNumvalue_minus,
      numvalueFirst_digits hds (by omega) (hfits.mono (by omega)) hafter, Outcome.map_done, List.length_cons,
      Nat.add_comm 1]

/-- A number that no `int` is is a fault. -/
theorem jsonGetNumvalue_fault (h : Overflows body) :
    jsonGetNumvalue false (body ++ ['\x00']) = .fault := by
  obtain ⟨token, rest, v, rfl, hnum, hmax, hlen⟩ := h
  cases hnum with
  | @pos ds value hds =>
    have hrun := numvalueFirst_fault (i := 0) hds (by omega) (not_fits.2 ⟨rfl, by omega⟩)
      (rest ++ ['\x00'])
    rw [List.append_assoc]
    obtain ⟨c, ds, rfl, hc⟩ := hds.exists_cons
    rw [List.cons_append] at hrun ⊢
    rw [jsonGetNumvalue_digit hc, hrun, Outcome.map_fault]
  | @neg ds value hds =>
    rw [List.length_cons] at hlen
    rw [List.append_assoc, List.cons_append, jsonGetNumvalue_minus,
      numvalueFirst_fault hds (by omega) (not_fits.2 ⟨rfl, by omega⟩), Outcome.map_fault]

/-- What `json_get_numvalue` does at the start of a number. -/
theorem jsonGetNumvalue_cases {c : Char} {body : List Char} (hbody : '\x00' ∉ c :: body)
    (hc : c = '-' ∨ c.isDigit) :
    (∃ token after v, c :: body = token ++ after ∧ Number token v ∧ Fits wide v.natAbs ∧
        token.length < DIGEST_SIZE ∧ EndsValue after ∧
        jsonGetNumvalue wide (c :: body ++ ['\x00']) = .done (v, token.length)) ∨
      jsonGetNumvalue wide (c :: body ++ ['\x00']) = .error (-EINVAL) ∨
      wide = false ∧ Overflows (c :: body) := by
  rcases hc with rfl | hc
  · rw [List.cons_append, jsonGetNumvalue_minus]
    rcases numvalueFirst_cases (fun h => hbody (List.mem_cons_of_mem _ h)) 1 with
      ⟨ds, after, value, rfl, hds, hafter, hlen, hmax, hrun⟩ | herr |
        ⟨ds, rest, value, rfl, hds, hlen, hmax⟩
    · refine .inl ⟨'-' :: ds, after, -value, rfl, .neg hds, hmax.mono (by omega), ?_, hafter, ?_⟩
      · rw [List.length_cons]
        omega
      · rw [hrun, Outcome.map_done, List.length_cons, Nat.add_comm 1]
    · exact .inr (.inl (by rw [herr, Outcome.map_error]))
    · obtain ⟨hwide, hmax⟩ := not_fits.1 hmax
      refine .inr (.inr ⟨hwide, '-' :: ds, rest, -value, rfl, .neg hds, by omega, ?_⟩)
      rw [List.length_cons]
      omega
  · rw [List.cons_append, jsonGetNumvalue_digit hc, ← List.cons_append]
    rcases numvalueFirst_cases hbody 0 with
      ⟨ds, after, value, heq, hds, hafter, hlen, hmax, hrun⟩ | herr |
        ⟨ds, rest, value, heq, hds, hlen, hmax⟩
    · refine .inl ⟨ds, after, value, heq, .pos hds, hmax.mono (by omega), by omega, hafter, ?_⟩
      rw [hrun, Outcome.map_done, Nat.zero_add]
    · exact .inr (.inl (by rw [herr, Outcome.map_error]))
    · obtain ⟨hwide, hmax⟩ := not_fits.1 hmax
      exact .inr (.inr ⟨hwide, ds, rest, value, heq, .pos hds, by omega, by omega⟩)

end Wide

/-! ## Booleans -/

/-- The words for the booleans. -/
def trueWords : List (List Char) := ["true".toList, "True".toList, "TRUE".toList]

/-- The words for the boolean false. -/
def falseWords : List (List Char) := ["false".toList, "False".toList, "FALSE".toList]

/-- `json_get_boolvalue`: the value of a word, and the number of its characters. The
    value of a word for false is that of one for true. -/
def jsonGetBoolvalue : List Char → Outcome (Int × Nat)
  | [] => .fault
  | c :: rest =>
    let jsonStr := c :: rest
    if c = 't' then
      if "true".toList.isPrefixOf jsonStr then .done (1, 4) else .error (-EINVAL)
    else if c = 'T' then
      if "True".toList.isPrefixOf jsonStr then .done (1, 4)
      else if "TRUE".toList.isPrefixOf jsonStr then .done (1, 4)
      else .error (-EINVAL)
    else if c = 'f' then
      if "false".toList.isPrefixOf jsonStr then .done (1, 5) else .error (-EINVAL)
    else if c = 'F' then
      if "False".toList.isPrefixOf jsonStr then .done (1, 5)
      else if "FALSE".toList.isPrefixOf jsonStr then .done (1, 5)
      else .error (-EINVAL)
    else .error (-EINVAL)

/-- A word is read. -/
theorem jsonGetBoolvalue_eq {word : List Char} (h : word ∈ trueWords ++ falseWords)
    (after : List Char) : jsonGetBoolvalue (word ++ after) = .done (1, word.length) := by
  simp only [trueWords, falseWords, List.cons_append, List.nil_append, List.mem_cons,
    List.not_mem_nil, or_false] at h
  rcases h with rfl | rfl | rfl | rfl | rfl | rfl <;> simp [jsonGetBoolvalue]

/-- A word at the start of a text in memory is at the start of the text. -/
theorem exists_after_of_prefix {word : List Char} (hword : '\x00' ∉ word)
    (h : word.isPrefixOf (body ++ ['\x00'])) : ∃ after, body = word ++ after := by
  obtain ⟨after, hafter⟩ := List.isPrefixOf_iff_prefix.1 h
  rcases List.append_eq_append_iff.1 hafter with ⟨as, rfl, -⟩ | ⟨cs, rfl, hcs⟩
  · exact ⟨as, rfl⟩
  · -- The word ends no later than the text: it has no NUL.
    rcases cs with _ | ⟨c, cs⟩
    · exact ⟨[], by simp⟩
    · rw [List.cons_append, List.cons.injEq] at hcs
      obtain ⟨rfl, -⟩ := hcs
      exact absurd (List.mem_append_right body List.mem_cons_self) hword

theorem nul_notMem_word : ∀ word ∈ trueWords ++ falseWords, '\x00' ∉ word := by
  decide

/-- What `json_get_boolvalue` does: it reads a word, or refuses. -/
theorem jsonGetBoolvalue_cases (body : List Char) :
    (∃ word ∈ trueWords ++ falseWords, ∃ after, body = word ++ after ∧
        jsonGetBoolvalue (body ++ ['\x00']) = .done (1, word.length)) ∨
      jsonGetBoolvalue (body ++ ['\x00']) = .error (-EINVAL) := by
  have hword : ∀ word ∈ trueWords ++ falseWords, word.isPrefixOf (body ++ ['\x00']) →
      ∃ after, body = word ++ after := fun word hmem hprefix =>
    exists_after_of_prefix (nul_notMem_word word hmem) hprefix
  have hread : ∀ word ∈ trueWords ++ falseWords, word.isPrefixOf (body ++ ['\x00']) →
      ∀ n, n = word.length → ∃ word ∈ trueWords ++ falseWords, ∃ after, body = word ++ after ∧
        (.done (1, n) : Outcome (Int × Nat)) = .done (1, word.length) :=
    fun word hmem hprefix n hn =>
      let ⟨after, hafter⟩ := hword word hmem hprefix
      ⟨word, hmem, after, hafter, by rw [hn]⟩
  rcases body with _ | ⟨c, body⟩
  · exact .inr (by decide)
  rw [List.cons_append] at hread ⊢
  unfold jsonGetBoolvalue
  simp only []
  split_ifs with h₁ h₂ h₃ h₄ h₅ h₆ h₇ h₈ h₉ h₁₀
  · exact .inl (hread _ (by decide) h₂ _ rfl)
  · exact .inr rfl
  · exact .inl (hread _ (by decide) h₄ _ rfl)
  · exact .inl (hread _ (by decide) h₅ _ rfl)
  · exact .inr rfl
  · exact .inl (hread _ (by decide) h₇ _ rfl)
  · exact .inr rfl
  · exact .inl (hread _ (by decide) h₉ _ rfl)
  · exact .inl (hread _ (by decide) h₁₀ _ rfl)
  · exact .inr rfl
  · exact .inr rfl

end Cube.Json
