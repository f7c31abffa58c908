import Cube.Json.Accept
import Cube.Json.Built
import Cube.Lib.Block

/-!
# The numbers of JSON texts

A number of a text becomes the value of a node, and is copied out of it again by
`json_node_getvalue`, into a target of four or of eight bytes.

* `jsonGetNumvalue_literal`: what the parser makes of a number.
* `Closes.at`: where the node of a value is in the tree of a text.
* `keepsNumber_iff`: which numbers come back as they are, and which are refused.
-/

namespace Cube.Json

open Lib

/-! ## Values copied out of nodes -/

/-- An integer copied to the start of a target of zeros: the first width of eight, four, two
    and one bytes that the target has room for. The number of its bytes is returned, which was
    never set where there is room for none. -/
def putNumber (widths : List Nat) (value : Int) (maxLen : Nat) : Outcome (Int × List UInt8) :=
  match widths.find? (· ≤ maxLen) with
  | none => .fault
  | some len =>
    .done (len, leBytes len (value % 2 ^ (8 * len)).toNat ++ List.replicate (maxLen - len) 0)

/-- `json_node_getvalue`: what it returns, and the bytes of the target. The type is compared
    together with the flag `JSON_ELEM_VALUE`: where that is set, it is none of those known. -/
def jsonNodeGetvalue (node : JsonNode) (maxLen : Nat) : Outcome (Int × List UInt8) :=
  if node.isValue then .error (-EINVAL)
  else match node.elemType with
  | .null => .done (0, List.replicate maxLen 0)
  | .num => putNumber [8, 4, 2, 1] node.value maxLen
  | .bool => putNumber [4, 2, 1] node.value maxLen
  | .string => match node.valueStr with
    | none => .done (0, List.replicate maxLen 0)
    | some str =>
      let chars := (str.takeWhile (· ≠ '\x00')).take maxLen
      .done (chars.length, chars.map (fun c => UInt8.ofNat c.toNat) ++
        List.replicate (maxLen - chars.length) 0)
  | .map | .array => .error (-EINVAL)

/-- The value of a node comes back in targets of four and of eight bytes. -/
def ReadsBack (node : JsonNode) (v : Int) : Prop :=
  ∀ width : Nat, width = 4 ∨ width = 8 → ∃ bytes,
    jsonNodeGetvalue node width = .done (width, bytes) ∧ leInt bytes = v

/-- The node of a number among the children of a container. -/
def Container.numNode (k : Container) (name : List Char) (v : Int) : JsonNode :=
  { elemType := .num, isValue := k.isValue, name := name, value := v % 2 ^ 32 }

variable {v : Int} {token after text : List Char}

/-- A number of a member that is not negative comes back, and no other one: in eight bytes, a
    negative one is that with `2 ^ 32` added, and the node of an element is not read. -/
theorem readsBack_iff (k : Container) (name : List Char) (hfits : v.natAbs < 2 ^ 31) :
    ReadsBack (k.numNode name v) v ↔ k = .map ∧ 0 ≤ v := by
  cases k with
  | array =>
    refine iff_of_false (fun h => ?_) (by simp)
    obtain ⟨bytes, hdone, -⟩ := h 4 (.inl rfl)
    cases hdone
  | map =>
    have hfour : jsonNodeGetvalue (Container.map.numNode name v) 4 =
        .done (4, leBytes 4 (v % 2 ^ 32 % 2 ^ 32).toNat ++ []) := rfl
    have height : jsonNodeGetvalue (Container.map.numNode name v) 8 =
        .done (8, leBytes 8 (v % 2 ^ 32 % 2 ^ 64).toNat ++ []) := rfl
    have hread : leInt (leBytes 8 (v % 2 ^ 32 % 2 ^ 64).toNat ++ []) = v % 2 ^ 32 := by
      rw [List.append_nil, leInt_leBytes (by omega)]
      omega
    constructor
    · intro h
      obtain ⟨bytes, hdone, hback⟩ := h 8 (.inr rfl)
      obtain rfl := (Outcome.pair_inj (height.symm.trans hdone)).2
      exact ⟨rfl, by omega⟩
    · rintro ⟨-, hnonneg⟩ width (rfl | rfl)
      · refine ⟨_, hfour, ?_⟩
        rw [List.append_nil, leInt_leBytes (by omega)]
        omega
      · exact ⟨_, height, by rw [hread]; omega⟩

/-! ## Numbers in a text -/

/-- The characters of a number after the first are digits. -/
theorem Number.digits_tail (h : Number token v) {first rest : List Char}
    (htoken : token = first ++ rest) (hfirst : first ≠ []) : ∀ c ∈ rest, c.isDigit := by
  intro c hc
  cases h with
  | pos hds => exact hds.2.1 c (by rw [htoken]; exact List.mem_append_right _ hc)
  | @neg ds value hds =>
    rcases first with _ | ⟨d, first⟩
    · exact absurd rfl hfirst
    · obtain ⟨-, rfl⟩ := List.cons.inj htoken
      exact hds.2.1 c (List.mem_append_right _ hc)

/-- What ends a value is no digit. -/
theorem EndsValue.not_digit (h : EndsValue after) {c : Char}
    (hc : after.head? = some c) : c.isDigit = false := by
  obtain ⟨d, rest, rfl, hd, -⟩ := h
  obtain rfl : d = c := by simpa using hc
  by_contra hdigit
  rw [Bool.not_eq_false] at hdigit
  rw [isValueEnd_of_isDigit hdigit] at hd
  cases hd

/-- A number at the start of another one with its end is a part of that. -/
theorem Number.start_of {token' post : List Char} {v' : Int} (h : Number token v)
    (h' : Number token' v') (hpost : EndsValue post) (heq : token' ++ after = token ++ post) :
    ∃ more, token = token' ++ more ∧ after = more ++ post := by
  rcases List.append_eq_append_iff.1 heq with ⟨more, rfl, rfl⟩ | ⟨cs, rfl, rfl⟩
  · exact ⟨more, rfl, rfl⟩
  · rcases cs with _ | ⟨c, cs⟩
    · exact ⟨[], by simp, rfl⟩
    · have hdigit := h'.digits_tail rfl h.ne_nil c List.mem_cons_self
      rw [hpost.not_digit rfl] at hdigit
      cases hdigit

/-- A number has one value. -/
theorem Number.unique {v' : Int} (h : Number token v) (h' : Number token v') :
    v = v' := by
  cases h with
  | pos hds =>
    cases h' with
    | pos hds' => rw [hds.2.2, hds'.2.2]
    | neg hds' => exact absurd (hds.2.1 '-' List.mem_cons_self) (by decide)
  | neg hds =>
    cases h' with
    | pos hds' => exact absurd (hds'.2.1 '-' List.mem_cons_self) (by decide)
    | neg hds' => rw [hds.2.2, hds'.2.2]

theorem Number.exists_cons (h : Number token v) :
    ∃ c rest, token = c :: rest ∧ (c = '-' ∨ c.isDigit) := by
  obtain ⟨c, rest, rfl, ⟨-, hc⟩ | hc⟩ := @Number.exists_head _ true _ h nofun
  · exact ⟨c, rest, rfl, .inl hc⟩
  · exact ⟨c, rest, rfl, .inr hc⟩

/-- What the parser makes of a number: it reads one that is an `int` and not too long, faults where
    the digits come to none, and refuses the rest. -/
theorem jsonGetNumvalue_literal {post : List Char} (h : Number token v)
    (hpost : EndsValue post) (hnul : '\x00' ∉ token ++ post) :
    (v.natAbs < 2 ^ 31 ∧ token.length < DIGEST_SIZE ∧
        jsonGetNumvalue false (token ++ post ++ ['\x00']) = .done (v, token.length)) ∨
      (Overflows token ∧ jsonGetNumvalue false (token ++ post ++ ['\x00']) = .fault) ∨
      (¬ (v.natAbs < 2 ^ 31 ∧ token.length < DIGEST_SIZE) ∧ ¬ Overflows token ∧
        jsonGetNumvalue false (token ++ post ++ ['\x00']) = .error (-EINVAL)) := by
  by_cases hover : Overflows token
  · refine .inr (.inl ⟨hover, jsonGetNumvalue_fault ?_⟩)
    obtain ⟨digits, rest, v', rfl, hrest⟩ := hover
    exact ⟨digits, rest ++ post, v', by rw [List.append_assoc], hrest⟩
  by_cases hread : v.natAbs < 2 ^ 31 ∧ token.length < DIGEST_SIZE
  · refine .inl ⟨hread.1, hread.2, ?_⟩
    rw [List.append_assoc]
    exact jsonGetNumvalue_eq h (.inr hread.1) hread.2 (hpost.append _)
  refine .inr (.inr ⟨hread, hover, ?_⟩)
  obtain ⟨c, rest, htoken, hc⟩ := h.exists_cons
  have htext : token ++ post = c :: (rest ++ post) := by rw [htoken, List.cons_append]
  rw [htext] at hnul ⊢
  rcases @jsonGetNumvalue_cases false _ _ hnul hc with
    ⟨token', after, v', heq, h', hmax, hlen, hafter, -⟩ | herror | ⟨-, digits, rest', v', heq, h', hmax⟩
  · -- The number that is read is the whole one.
    obtain ⟨more, rfl, rfl⟩ := h.start_of h' hpost (heq.symm.trans htext.symm)
    rcases more with _ | ⟨d, more⟩
    · rw [List.append_nil] at h hread
      exact absurd ⟨h.unique h' ▸ hmax.resolve_left Bool.false_ne_true, hlen⟩ hread
    · have hdigit := h.digits_tail rfl h'.ne_nil d List.mem_cons_self
      rw [hafter.not_digit rfl] at hdigit
      cases hdigit
  · exact herror
  · obtain ⟨more, rfl, -⟩ := h.start_of h' hpost (heq.symm.trans htext.symm)
    exact absurd ⟨digits, more, v', rfl, h', hmax⟩ hover

/-! ## Nodes of a tree -/

/-- The node of a tree at a path, of the indices of children. -/
def JsonNode.at : List Nat → JsonNode → Option JsonNode
  | [], node => some node
  | i :: path, node => node.childlist[i]? >>= JsonNode.at path

theorem JsonNode.at_append (path path' : List Nat) (node : JsonNode) :
    node.at (path ++ path') = node.at path >>= JsonNode.at path' := by
  induction path generalizing node with
  | nil => rfl
  | cons i path ih =>
    simp only [List.cons_append, JsonNode.at]
    rcases node.childlist[i]? with _ | child
    · rfl
    · exact ih child

/-- The path to the next child of the last of the nodes, the nearest first. -/
def pathTo (nodes : List JsonNode) : List Nat := (nodes.map (·.childlist.length)).reverse

/-- A node at a place is in the tree that the text stands for, with more children. -/
theorem Closes.at {falsehood : Option Int} {node root : JsonNode} {fathers : List JsonNode}
    (h : Closes falsehood (node, fathers, text) root after) :
    ∃ nodes, root.at (pathTo fathers) = some (node.extend nodes) := by
  induction fathers generalizing node text with
  | nil =>
    obtain ⟨k, nodes, rest, -, -, rfl, -⟩ := closes_iff.1 h
    exact ⟨nodes, rfl⟩
  | cons father fathers ih =>
    obtain ⟨k, nodes, rest, -, -, hrest⟩ := closes_iff.1 h
    obtain ⟨nodes', hat⟩ := ih hrest
    refine ⟨nodes, ?_⟩
    have hpath : pathTo (father :: fathers) = pathTo fathers ++ [father.childlist.length] := by
      rw [pathTo, List.map_cons, List.reverse_cons, pathTo]
    have hchild : ((father.addChild (node.extend nodes)).countElem.extend nodes').childlist[
        father.childlist.length]? = some (node.extend nodes) := by
      simp [JsonNode.addChild, JsonNode.countElem, JsonNode.extend]
    rw [hpath, JsonNode.at_append, hat]
    simp only [Option.bind_eq_bind, Option.bind_some, JsonNode.at, hchild]

/-- A child that was added at a place is where the place leads. -/
theorem Closes.child_at {falsehood : Option Int} {node child root : JsonNode}
    {fathers : List JsonNode}
    (h : Closes falsehood ((node.addChild child).countElem, fathers, text) root after) :
    root.at (pathTo (node :: fathers)) = some child := by
  obtain ⟨nodes, hat⟩ := h.at
  have hpath : pathTo (node :: fathers) = pathTo fathers ++ [node.childlist.length] := by
    rw [pathTo, List.map_cons, List.reverse_cons, pathTo]
  have hchild : ((node.addChild child).countElem.extend nodes).childlist[
      node.childlist.length]? = some child := by
    simp [JsonNode.addChild, JsonNode.countElem, JsonNode.extend]
  rw [hpath, JsonNode.at_append, hat]
  simp only [Option.bind_eq_bind, Option.bind_some, JsonNode.at, hchild]

/-! ## Numbers of a document -/

/-- The parser is at a node after a text, whatever follows. -/
def Reaches (pre : List Char) (node : JsonNode) (fathers : List JsonNode) : Prop :=
  ∃ blanks k text, pre = blanks ++ Container.opening k :: text ∧ (∀ c ∈ blanks, isSplitChar c) ∧
    ∀ rest, Relation.ReflTransGen (Moves (some 1)) (k.rootNode, [], text ++ rest)
      (node, fathers, rest)

/-- A number between the rest of a document: it is accepted exactly if it is a 32-bit integer, and
    its node then gives it back; else the text is refused with an error. -/
def KeepsNumber (pre lead token : List Char) (node : JsonNode) (fathers : List JsonNode) (v : Int) :
    Prop :=
  ∀ post, '\x00' ∉ pre ++ (lead ++ (token ++ post)) → EndsValue post →
    (∀ child, ∃ root, Closes (some 1) ((node.addChild child).countElem, fathers, post) root []) →
    if -2 ^ 31 ≤ v ∧ v < 2 ^ 31 then
      ∃ root found,
        jsonSolveStr (pre ++ (lead ++ (token ++ post)) ++ ['\x00']) =
          .done ((pre ++ (lead ++ (token ++ post))).length, some root) ∧
        root.at (pathTo (node :: fathers)) = some found ∧ ReadsBack found v
    else ∃ e, e < 0 ∧ jsonSolveStr (pre ++ (lead ++ (token ++ post)) ++ ['\x00']) = .error e

/-- What is right of numbers: a member that is not negative and not too long comes back; and a
    number that no `int` is is refused where it does not come to a digit that is too much within
    the characters that are looked at. -/
def NumberHolds (k : Container) (token : List Char) (v : Int) : Prop :=
  (k = .map ∧ 0 ≤ v ∧ v < 2 ^ 31 ∧ token.length < DIGEST_SIZE) ∨
    (¬ (-2 ^ 31 ≤ v ∧ v < 2 ^ 31) ∧ (¬ Overflows token ∨ k = .array ∧ token.head? = some '-'))

section Number

variable {k : Container} {pre lead name token post : List Char} {node : JsonNode}
  {fathers : List JsonNode} {v : Int}

/-- The outcome of a text is that of the loop behind a part of it. -/
theorem Reaches.jsonSolveStr_eq (h : Reaches pre node fathers)
    (hnul : '\x00' ∉ pre ++ text) {r : Outcome (Nat × Option JsonNode)}
    (hr : Solves (pre ++ text).length (node, fathers, text) r) :
    jsonSolveStr (pre ++ text ++ ['\x00']) = r := by
  obtain ⟨blanks, k, mid, rfl, hblanks, hmoves⟩ := h
  have heq : blanks ++ k.opening :: mid ++ text = blanks ++ k.opening :: (mid ++ text) := by
    rw [List.append_assoc, List.cons_append]
  rw [heq] at hnul hr ⊢
  exact jsonSolveStr_of_moves hblanks hnul (hmoves text) hr

/-- The containers at a place after a text. -/
theorem Reaches.frames (h : Reaches pre node fathers) : ∃ ks, Frames (node, fathers, []) ks := by
  obtain ⟨blanks, k, text, -, -, hmoves⟩ := h
  have hstart : Frames (k.rootNode, [], text ++ []) [k] := .cons rfl .nil
  exact hstart.of_reflTransGen (hmoves [])

/-- A text that goes on to its end behind a part of it is a document. -/
theorem Reaches.document (h : Reaches pre node fathers) {root : JsonNode}
    (hcloses : Closes (some 1) (node, fathers, text) root []) :
    Document (some 1) (pre ++ text) root := by
  obtain ⟨blanks, k, mid, rfl, hblanks, hmoves⟩ := h
  obtain ⟨k', nodes, rest, hk, hitems, rfl, rfl⟩ :=
    closes_iff.1 (Closes.of_reflTransGen (hmoves text) hcloses)
  obtain rfl := Container.elemType_inj.1 (show k.elemType = k'.elemType from hk)
  exact ⟨blanks, k, _, nodes, by rw [List.append_assoc, List.cons_append], hblanks, hitems, rfl⟩

/-- The outcome of a text is that of the turn at a number, where the turn ends the loop. -/
theorem Reaches.jsonSolveStr_value (hreach : Reaches pre node fathers)
    (hk : node.elemType = k.elemType) (hlead : Lead k lead name) (hnum : Number token v)
    (hnul : '\x00' ∉ pre ++ (lead ++ (token ++ post))) {r : Outcome (Nat × Option JsonNode)}
    (hvalue : ∀ offset loop, (solveValue false k.isValue k.limit k.negative
      ⟨node, fathers, token ++ post ++ ['\x00'], offset⟩ { name := name } >>= Turn.follow loop) = r) :
    jsonSolveStr (pre ++ (lead ++ (token ++ post)) ++ ['\x00']) = r := by
  obtain ⟨c, rest, rfl, hc⟩ := hnum.exists_cons
  have hhead : NumHead true c := hc.imp_left fun h => ⟨rfl, h⟩
  obtain ⟨hsplit, hclose⟩ := hhead.plain
  obtain ⟨d, rest', htext, hd⟩ := hlead.exists_head hsplit (rest ++ post)
  have hturn (offset : Nat) := @solveTurn_lead false _ _ _ _ _ hlead hk hsplit hclose fathers
    (rest ++ post ++ ['\x00']) offset
  refine hreach.jsonSolveStr_eq hnul ?_
  rw [List.cons_append, htext]
  have hn : d ≠ '\x00' := by
    rintro rfl
    rw [List.cons_append, htext] at hnul
    exact hnul (List.mem_append_right _ List.mem_cons_self)
  refine solves_of_last hn hd fun offset loop _ => ?_
  rw [← htext, List.append_assoc, List.cons_append, hturn]
  exact hvalue _ loop

/-- What becomes of a document with a number. -/
theorem Reaches.number_cases (hreach : Reaches pre node fathers) (hk : node.elemType = k.elemType)
    (hlead : Lead k lead name) (hnum : Number token v) (hpost : EndsValue post)
    (hnul : '\x00' ∉ pre ++ (lead ++ (token ++ post))) :
    (¬ (k = .array ∧ token.head? = some '-') ∧ v.natAbs < 2 ^ 31 ∧ token.length < DIGEST_SIZE ∧
      ∀ root, Closes (some 1) ((node.addChild (k.numNode name v)).countElem, fathers, post) root [] →
        jsonSolveStr (pre ++ (lead ++ (token ++ post)) ++ ['\x00']) =
          .done ((pre ++ (lead ++ (token ++ post))).length, some root)) ∨
    (¬ (k = .array ∧ token.head? = some '-') ∧ Overflows token ∧
      jsonSolveStr (pre ++ (lead ++ (token ++ post)) ++ ['\x00']) = .fault) ∨
    ((k = .array ∧ token.head? = some '-' ∨
        ¬ (v.natAbs < 2 ^ 31 ∧ token.length < DIGEST_SIZE) ∧ ¬ Overflows token) ∧
      jsonSolveStr (pre ++ (lead ++ (token ++ post)) ++ ['\x00']) = .error (-EINVAL)) := by
  have htoken : '\x00' ∉ token ++ post := fun h => hnul (List.mem_append_right _
    (List.mem_append_right _ h))
  by_cases hsign : k = .array ∧ token.head? = some '-'
  · -- In an array, a sign starts none of the values.
    refine .inr (.inr ⟨.inl hsign, ?_⟩)
    obtain ⟨rfl, hhead⟩ := hsign
    obtain ⟨rest, rfl⟩ := List.head?_eq_some_iff.1 hhead
    refine hreach.jsonSolveStr_value hk hlead hnum hnul fun offset loop => ?_
    rfl
  have hneg : k.negative = false → token.head? ≠ some '-' := fun hfalse hhead => by
    cases k
    · cases hfalse
    · exact hsign ⟨rfl, hhead⟩
  obtain ⟨c, rest, hcons, hhead⟩ := hnum.exists_head hneg
  have hvalue (offset : Nat) := @solveValue_num false c k.negative k.isValue k.limit hhead node
    { name := name } fathers (rest ++ post ++ ['\x00']) offset
  have htext : token ++ post ++ ['\x00'] = c :: (rest ++ post ++ ['\x00']) := by
    rw [hcons, List.cons_append, List.cons_append]
  rcases jsonGetNumvalue_literal hnum hpost htoken with
    ⟨hmax, hlen, -⟩ | ⟨hover, hfault⟩ | ⟨hbad, hover, herror⟩
  · refine .inl ⟨hsign, hmax, hlen, fun root hroot => ?_⟩
    have hmove : Moves (some 1) (node, fathers, lead ++ (token ++ post))
        ((node.addChild (k.numNode name v)).countElem, fathers, post) :=
      .leaf hk hlead (.num hnum hmax hlen hneg hpost)
    have hdoc := hreach.document (Closes.of_moves hmove hroot)
    have hnil : '\x00' ∉ pre ++ (lead ++ (token ++ post)) ++ [] := by rwa [List.append_nil]
    have hdone := jsonSolveStr_document hdoc hnil
    rwa [List.append_nil] at hdone
  · refine .inr (.inl ⟨hsign, hover, ?_⟩)
    refine hreach.jsonSolveStr_value hk hlead hnum hnul fun offset loop => ?_
    rw [htext] at hfault ⊢
    rw [hvalue, hfault]
    rfl
  · refine .inr (.inr ⟨.inr ⟨hbad, hover⟩, ?_⟩)
    refine hreach.jsonSolveStr_value hk hlead hnum hnul fun offset loop => ?_
    rw [htext] at herror ⊢
    rw [hvalue, herror]
    rfl

/-- A number that is an `int` does not come to more on the way. -/
theorem Overflows.not_small (h : Overflows token) (hnum : Number token v)
    (hlen : token.length < DIGEST_SIZE) : ¬ v.natAbs < 2 ^ 31 := by
  intro hmax
  have hafter : EndsValue [' ', '\x00'] := ⟨' ', ['\x00'], rfl, rfl, by decide⟩
  have hread := @jsonGetNumvalue_eq _ false _ _ hnum (.inr hmax) hlen hafter
  obtain ⟨digits, rest, v', rfl, hrest⟩ := h
  have hover : Overflows (digits ++ rest ++ [' ']) :=
    ⟨digits, rest ++ [' '], v', by rw [List.append_assoc], hrest⟩
  rw [← List.singleton_append, ← List.append_assoc, jsonGetNumvalue_fault hover] at hread
  cases hread

/-- The closing brackets of the containers at a place, as the rest of a document. -/
theorem Frames.closing_post {ks : List Container} (h : Frames (node, fathers, []) ks) :
    '\x00' ∉ ks.map Container.closing ∧ EndsValue (ks.map Container.closing) ∧
      ∀ child, ∃ root, Closes (some 1) ((node.addChild child).countElem, fathers,
        ks.map Container.closing) root [] := by
  refine ⟨fun hnul => ?_, ?_, fun child => ?_⟩
  · obtain ⟨k, hk⟩ := closers_map ks _ hnul
    exact k.closing_ne_nul hk.symm
  · obtain ⟨k, ks, rfl⟩ := List.exists_cons_of_ne_nil h.ne_nil
    exact ⟨k.closing, ks.map Container.closing, rfl, k.isValueEnd_closing, k.closing_ne_nul⟩
  · have hframes : Frames ((node.addChild child).countElem, fathers, []) ks := by
      cases h with
      | cons hnode hfathers => exact .cons hnode hfathers
    exact hframes.closes

/-- A number that is kept is one of `NumberHolds`. -/
theorem KeepsNumber.holds (hkeeps : KeepsNumber pre lead token node fathers v)
    (hreach : Reaches pre node fathers) (hk : node.elemType = k.elemType)
    (hlead : Lead k lead name) (hnum : Number token v) (hnul : '\x00' ∉ pre ++ lead) :
    NumberHolds k token v := by
  -- The number is the last item, and the brackets are closed behind it.
  obtain ⟨ks, hframes⟩ := hreach.frames
  obtain ⟨hclosers, hpost, hcloses⟩ := hframes.closing_post
  have hnul' : '\x00' ∉ pre ++ (lead ++ (token ++ ks.map Container.closing)) := by
    have htoken := hnum.not_nul
    simp only [List.mem_append, not_or] at hnul ⊢
    exact ⟨hnul.1, hnul.2, htoken, hclosers⟩
  have hout := hkeeps _ hnul' hpost hcloses
  rcases hreach.number_cases hk hlead hnum hpost hnul' with
    ⟨-, hmax, hlen, hdone⟩ | ⟨-, -, hfault⟩ | ⟨hwhy, herror⟩
  · rw [if_pos (by omega)] at hout
    obtain ⟨root, found, hsolve, hat, hread⟩ := hout
    obtain ⟨root', hroot'⟩ := hcloses (k.numNode name v)
    have hsame := (Outcome.pair_inj ((hdone root' hroot').symm.trans hsolve)).2
    obtain rfl := Option.some.inj hsame
    obtain rfl := Option.some.inj (hroot'.child_at.symm.trans hat)
    obtain ⟨hmap, hnonneg⟩ := (readsBack_iff k name hmax).1 hread
    exact .inl ⟨hmap, hnonneg, by omega, hlen⟩
  · split_ifs at hout
    · obtain ⟨root, found, hsolve, -⟩ := hout
      cases hfault.symm.trans hsolve
    · obtain ⟨e, -, hsolve⟩ := hout
      cases hfault.symm.trans hsolve
  · split_ifs at hout with hfits
    · obtain ⟨root, found, hsolve, -⟩ := hout
      cases herror.symm.trans hsolve
    · exact .inr ⟨hfits, hwhy.symm.imp_left And.right⟩

/-- A number of `NumberHolds` is kept. -/
theorem NumberHolds.keeps (hholds : NumberHolds k token v) (hreach : Reaches pre node fathers)
    (hk : node.elemType = k.elemType) (hlead : Lead k lead name) (hnum : Number token v) :
    KeepsNumber pre lead token node fathers v := by
  intro post hnul' hpost hcloses
  rcases hreach.number_cases hk hlead hnum hpost hnul' with
    ⟨-, hmax, hlen, hdone⟩ | ⟨hsign, hover, -⟩ | ⟨hwhy, herror⟩
  · rcases hholds with ⟨rfl, hnonneg, -, -⟩ | ⟨hfits, -⟩
    · rw [if_pos (by omega)]
      obtain ⟨root, hroot⟩ := hcloses (Container.map.numNode name v)
      exact ⟨root, _, hdone root hroot, hroot.child_at, (readsBack_iff _ name hmax).2
        ⟨rfl, hnonneg⟩⟩
    · exact absurd (by omega) hfits
  · rcases hholds with ⟨-, hnonneg, hlt, hlen⟩ | ⟨-, hnot | hsign'⟩
    · exact absurd (by omega) (hover.not_small hnum hlen)
    · exact absurd hover hnot
    · exact absurd hsign' hsign
  · rcases hholds with ⟨rfl, hnonneg, hlt, hlen⟩ | ⟨hfits, -⟩
    · rcases hwhy with ⟨harray, -⟩ | ⟨hbad, -⟩
      · cases harray
      · exact absurd ⟨by omega, hlen⟩ hbad
    · rw [if_neg hfits]
      exact ⟨-EINVAL, by decide, herror⟩

/-- The numbers that are kept are those of `NumberHolds`. -/
theorem keepsNumber_iff (hreach : Reaches pre node fathers) (hk : node.elemType = k.elemType)
    (hlead : Lead k lead name) (hnum : Number token v) (hnul : '\x00' ∉ pre ++ lead) :
    KeepsNumber pre lead token node fathers v ↔ NumberHolds k token v :=
  ⟨fun h => h.holds hreach hk hlead hnum hnul, fun h => h.keeps hreach hk hlead hnum⟩

end Number

/-- The start of an object is read up to its first member. -/
theorem reaches_object : Reaches ['{'] Container.map.rootNode [] :=
  ⟨[], .map, [], rfl, by simp, fun _ => .refl⟩

/-- The name of a member and its colon. -/
theorem lead_a : Lead .map ['"', 'a', '"', ':'] ['a'] := by
  have hchars : Chars ['a'] ['a'] := .plain (by decide) (by decide) (by decide) .nil
  have hblank : ∀ c ∈ ([] : List Char), isIgnoreChar c := by simp
  exact .member hchars (by decide) hblank hblank

theorem number_seven : Number ['7'] 7 := .pos ⟨by simp, by simp, rfl⟩

theorem number_minus_one : Number ['-', '1'] (-1) := by
  have hone : Digits ['1'] 1 := ⟨by simp, by simp, rfl⟩
  exact .neg hone

/-- In `{"a":7}`, the number comes back. -/
theorem keepsNumber_iff_seven :
    KeepsNumber ['{'] ['"', 'a', '"', ':'] ['7'] Container.map.rootNode [] 7 :=
  (keepsNumber_iff reaches_object rfl lead_a number_seven (by decide)).2
    (.inl ⟨rfl, by decide, by decide, by decide⟩)

/-- In `{"a":-1}`, it does not. -/
theorem keepsNumber_not :
    ¬ KeepsNumber ['{'] ['"', 'a', '"', ':'] ['-', '1'] Container.map.rootNode [] (-1) := by
  intro hkeeps
  rcases hkeeps.holds reaches_object rfl lead_a number_minus_one (by decide) with
    ⟨-, hnonneg, -⟩ | ⟨hfits, -⟩
  · exact absurd hnonneg (by decide)
  · exact hfits (by decide)

end Cube.Json
