import Cube.Lib.Scan
import Cube.Json.Grammar
import Cube.Json.Solve

/-!
# The turns of the JSON parser

What a turn of the loop of `json_solve_str` does, against the grammar.

* `solves_of_moves`: the parser makes the moves of a reader, for which a word for
  false stands for true.
* `solveTurn_cases`: where there is no move, the container ends, the text is refused,
  or the parser has come to a name that is too long or to an item that it does not
  hold, of which the last is a fault (`solveTurn_fault`).
-/

namespace Cube.Json

open Lib

variable {wide : Bool}

/-! ## Turns that are moves -/

theorem Parser.advance_append (node : JsonNode) (fathers : List JsonNode) (piece rest : List Char)
    (offset : Nat) :
    Parser.advance ⟨node, fathers, piece ++ rest, offset⟩ piece.length =
      ⟨node, fathers, rest, offset + piece.length⟩ := by
  simp [Parser.advance]

variable {c : Char} {after name lead token text : List Char} {negative : Bool} {k : Container}
  {node : JsonNode} {y : Place}

theorem Parser.skip_append (node : JsonNode) (fathers : List JsonNode) {piece : List Char}
    {skipped : Char → Bool} (hpiece : ∀ d ∈ piece, skipped d) (hc : skipped c = false)
    (rest : List Char) (offset : Nat) :
    Parser.skip ⟨node, fathers, piece ++ c :: rest, offset⟩ skipped =
      ⟨node, fathers, c :: rest, offset + piece.length⟩ := by
  rw [Parser.skip]
  simp only [takeWhile_stop hpiece hc]
  exact Parser.advance_append node fathers piece (c :: rest) offset

theorem isIgnoreChar_of_isSplitChar (h : isSplitChar c = false) :
    isIgnoreChar c = false := by
  simp only [isSplitChar, Bool.or_eq_false_iff] at h
  simp [isIgnoreChar, h]

/-- The parser after the name of a member, up to its value. -/
theorem Parser.skip_colon {before : List Char} (hbefore : ∀ c ∈ before, isIgnoreChar c)
    (hafter : ∀ c ∈ after, isIgnoreChar c) (hc : isIgnoreChar c = false)
    (node : JsonNode) (fathers : List JsonNode) (rest : List Char) (offset : Nat) :
    ∃ p, Parser.skip ⟨node, fathers, before ++ ':' :: (after ++ c :: rest), offset⟩ isIgnoreChar =
        p ∧ p.str.head? = some ':' ∧ (p.advance 1).skip isIgnoreChar =
          ⟨node, fathers, c :: rest, offset + before.length + 1 + after.length⟩ := by
  have hcolon := Parser.skip_append node fathers hbefore (c := ':') rfl (after ++ c :: rest) offset
  have hadvance := Parser.advance_append node fathers [':'] (after ++ c :: rest)
    (offset + before.length)
  rw [List.length_singleton, List.singleton_append] at hadvance
  refine ⟨_, hcolon, rfl, ?_⟩
  rw [hadvance, Parser.skip_append node fathers hafter hc rest (offset + before.length + 1)]

/-- A member after its name, up to its value. -/
theorem solveMember_lead {before : List Char} (hbefore : ∀ c ∈ before, isIgnoreChar c)
    (hafter : ∀ c ∈ after, isIgnoreChar c) (hc : isIgnoreChar c = false)
    (node child : JsonNode) (fathers : List JsonNode) (rest : List Char) (offset : Nat) :
    solveMember wide ⟨node, fathers, before ++ ':' :: (after ++ c :: rest), offset⟩ child =
      solveValue wide Container.map.isValue Container.map.limit Container.map.negative
        ⟨node, fathers, c :: rest, offset + before.length + 1 + after.length⟩ child := by
  obtain ⟨p, hskip, hcolon, hvalue⟩ :=
    Parser.skip_colon hbefore hafter hc node fathers rest offset
  simp only [solveMember, hskip, hcolon, ne_eq, not_true_eq_false, if_false, hvalue]
  rfl

/-- The turn in a map at the name of a member. -/
theorem solveMap_name {raw : List Char} (hchars : Chars raw name)
    (hlen : raw.length + 2 < DIGEST_SIZE) (node : JsonNode) (fathers : List JsonNode)
    (rest : List Char) (offset : Nat) :
    solveMap wide ⟨node, fathers, '"' :: (raw ++ '"' :: rest), offset⟩ =
      solveMember wide ⟨node, fathers, rest, offset + (raw.length + 2)⟩ { name := name } := by
  have hle := hchars.length_le
  have hlen' : raw.length + 2 < 32 := hlen
  have hname : name.length ≤ DIGEST_SIZE := show name.length ≤ 32 by omega
  have hcopy : memcpy DIGEST_SIZE (name.length + 1) = .done () :=
    if_pos (show name.length + 1 ≤ 32 by omega)
  have hadvance := Parser.advance_append node fathers ('"' :: (raw ++ ['"'])) rest offset
  have hpiece : ('"' :: (raw ++ ['"'])).length = raw.length + 2 := by simp
  rw [hpiece, List.cons_append, List.append_assoc, List.singleton_append] at hadvance
  simp only [solveMap, jsonGetStrvalue_eq hchars (by omega) rest, Outcome.done_bind,
    Nat.not_le.2 hlen, hadvance, hname, hcopy, if_true, if_false, ge_iff_le]
  simp

/-- The turn in a map up to the value of a member. -/
theorem solveMap_lead (h : Lead .map lead name)
    (hc : isIgnoreChar c = false) (node : JsonNode) (fathers : List JsonNode) (rest : List Char)
    (offset : Nat) :
    solveMap wide ⟨node, fathers, lead ++ c :: rest, offset⟩ =
      solveValue wide Container.map.isValue Container.map.limit Container.map.negative
        ⟨node, fathers, c :: rest, offset + lead.length⟩ { name := name } := by
  cases h with
  | @member raw _ before after hchars hlen hbefore hafter =>
    have hlength : offset + (raw.length + 2) + before.length + 1 + after.length =
        offset + ('"' :: (raw ++ '"' :: (before ++ ':' :: after))).length := by
      simp only [List.length_cons, List.length_append]
      omega
    rw [List.cons_append, List.append_assoc, List.cons_append, List.append_assoc, List.cons_append,
      solveMap_name hchars hlen, solveMember_lead hbefore hafter hc, hlength]

/-- The turn in an array is at a value. -/
theorem solveArray_value (hc : isSplitChar c = false)
    (hclose : c ≠ Container.closing .array) (node : JsonNode) (fathers : List JsonNode)
    (rest : List Char) (offset : Nat) :
    solveArray wide ⟨node, fathers, c :: rest, offset⟩ =
      solveValue wide Container.array.isValue Container.array.limit Container.array.negative
        ⟨node, fathers, c :: rest, offset⟩ {} := by
  have hcomma : c ≠ ',' := by
    rintro rfl
    exact absurd hc (by decide)
  have hclose' : c ≠ ']' := hclose
  simp only [solveArray, if_neg hclose', if_neg hcomma]
  rfl

/-- What a number among the children of a container starts with. -/
def NumHead (negative : Bool) (c : Char) : Prop := negative ∧ c = '-' ∨ c.isDigit

instance (negative : Bool) (c : Char) : Decidable (NumHead negative c) :=
  inferInstanceAs (Decidable (_ ∨ _))

theorem NumHead.ne {d : Char} (h : NumHead negative c)
    (hd : d.isDigit = false) (hminus : d ≠ '-') : c ≠ d := by
  rcases h with ⟨-, rfl⟩ | h
  · exact hminus.symm
  · exact isDigit_ne h hd

/-- The first character of a number is none that is skipped, and closes no container. -/
theorem NumHead.plain (h : NumHead negative c) :
    isSplitChar c = false ∧ ∀ k, c ≠ Container.closing k := by
  refine ⟨?_, fun k => h.ne (by cases k <;> rfl) (by cases k <;> decide)⟩
  simp [isSplitChar, h.ne (d := ',') rfl (by decide), h.ne (d := ' ') rfl (by decide),
    h.ne (d := '\r') rfl (by decide), h.ne (d := '\n') rfl (by decide),
    h.ne (d := '\t') rfl (by decide)]

/-- The turn at a number. -/
theorem solveValue_num {isvalue : Bool} {limit : Nat}
    (hc : NumHead negative c) (node child : JsonNode) (fathers : List JsonNode) (rest : List Char)
    (offset : Nat) :
    solveValue wide isvalue limit negative ⟨node, fathers, c :: rest, offset⟩ child =
      jsonGetNumvalue wide (c :: rest) >>= fun (value, ret) =>
        if ret ≥ DIGEST_SIZE then .done (.returned ret)
        else .done (.next (Parser.addValue ⟨node, fathers, c :: rest, offset⟩
          ((child.jsonSetType .num isvalue).setValue value) ret)) := by
  simp only [solveValue, if_neg (hc.ne (d := '{') rfl (by decide)),
    if_neg (hc.ne (d := '[') rfl (by decide)), if_neg (hc.ne (d := '"') rfl (by decide))]
  exact if_pos hc

/-- The turn at a value that starts as none else. -/
theorem solveValue_bool {isvalue : Bool} {limit : Nat} (hmap : c ≠ '{')
    (harray : c ≠ '[') (hquote : c ≠ '"') (hc : ¬ NumHead negative c) (node child : JsonNode)
    (fathers : List JsonNode) (rest : List Char) (offset : Nat) :
    solveValue wide isvalue limit negative ⟨node, fathers, c :: rest, offset⟩ child =
      jsonGetBoolvalue (c :: rest) >>= fun (value, ret) =>
        if ret ≥ DIGEST_SIZE then .done (.returned ret)
        else .done (.next (Parser.addValue ⟨node, fathers, c :: rest, offset⟩
          ((child.jsonSetType .bool isvalue).setValue value) ret)) := by
  simp only [solveValue, if_neg hmap, if_neg harray, if_neg hquote]
  exact if_neg hc

theorem word_split : ∀ word ∈ trueWords ++ falseWords, ∃ c rest, word = c :: rest ∧
    isSplitChar c = false ∧ c ≠ '{' ∧ c ≠ '[' ∧ c ≠ '"' ∧ c ≠ '-' ∧ c.isDigit = false ∧
    word.length < DIGEST_SIZE := by
  intro word hword
  simp only [trueWords, falseWords, List.cons_append, List.nil_append, List.mem_cons,
    List.not_mem_nil, or_false] at hword
  rcases hword with rfl | rfl | rfl | rfl | rfl | rfl <;> exact ⟨_, _, rfl, by decide⟩

/-- The turn at a word. -/
theorem solveValue_word {word : List Char} (hword : word ∈ trueWords ++ falseWords)
    (k : Container) (node child : JsonNode) (fathers : List JsonNode) (after : List Char)
    (offset : Nat) :
    solveValue wide k.isValue k.limit k.negative ⟨node, fathers, word ++ after, offset⟩ child =
      .done (.next ⟨(node.addChild ((child.jsonSetType .bool k.isValue).setValue 1)).countElem,
        fathers, after, offset + word.length⟩) := by
  have hread := jsonGetBoolvalue_eq hword after
  have hadvance := Parser.advance_append node fathers word after offset
  obtain ⟨c, rest, rfl, -, hmap, harray, hquote, hminus, hdigit, hlen⟩ := word_split word hword
  have hc : ¬ NumHead k.negative c := by
    rintro (⟨-, h⟩ | h)
    · exact hminus h
    · simp [hdigit] at h
  rw [List.cons_append] at hread hadvance ⊢
  rw [solveValue_bool hmap harray hquote hc, hread, Outcome.done_bind]
  simp only [ge_iff_le, Nat.not_le.2 hlen, if_false, Parser.addValue, hadvance]

theorem Number.exists_head {v : Int} (h : Number token v)
    (hneg : negative = false → token.head? ≠ some '-') :
    ∃ c rest, token = c :: rest ∧ NumHead negative c := by
  cases h with
  | pos hds =>
    obtain ⟨c, ds, rfl, hc⟩ := hds.exists_cons
    exact ⟨c, ds, rfl, .inr hc⟩
  | neg _ =>
    refine ⟨_, _, rfl, .inl ⟨?_, rfl⟩⟩
    cases negative
    · exact absurd rfl (hneg rfl)
    · rfl

/-- The turn at a string that is copied. -/
theorem solveValue_string {raw content : List Char} (hchars : Chars raw content)
    (hfit : content.length < 512) (hlimit : raw.length + 2 ≤ k.limit)
    (hcopy : memcpy (bufferSize wide (raw.length + 2)) (raw.length + 2) = .done ())
    (name after : List Char) (node : JsonNode) (fathers : List JsonNode) (offset : Nat) :
    solveValue wide k.isValue k.limit k.negative
        ⟨node, fathers, '"' :: (raw ++ ['"']) ++ after, offset⟩ { name := name } =
      .done (.next ⟨(node.addChild
        { elemType := .string, isValue := k.isValue, name := name, valueStr := some content
          }).countElem, fathers, after, offset + ('"' :: (raw ++ ['"'])).length⟩) := by
  have hadvance := Parser.advance_append node fathers ('"' :: (raw ++ ['"'])) after offset
  have hpiece : ('"' :: (raw ++ ['"'])).length = raw.length + 2 := by simp
  rw [hpiece, List.cons_append, List.append_assoc, List.singleton_append] at hadvance ⊢
  simp only [solveValue, jsonGetStrvalue_eq hchars hfit after, Outcome.done_bind,
    Nat.not_lt.2 hlimit, hcopy, gt_iff_lt, if_false, Parser.addValue, hadvance]
  rfl

/-- The turn at a number that the parser holds. -/
theorem solveValue_number {v : Int}
    (hnum : Number token v) (hfits : wide = true ∨ v.natAbs < 2 ^ 31)
    (hlen : token.length < DIGEST_SIZE) (hneg : k.negative = false → token.head? ≠ some '-')
    (hend : EndsValue after) (name : List Char) (node : JsonNode) (fathers : List JsonNode)
    (offset : Nat) :
    solveValue wide k.isValue k.limit k.negative ⟨node, fathers, token ++ after, offset⟩
        { name := name } =
      .done (.next ⟨(node.addChild
        { elemType := .num, isValue := k.isValue, name := name, value := v % 2 ^ 32 }).countElem,
        fathers, after, offset + token.length⟩) := by
  have hadvance := Parser.advance_append node fathers token after offset
  have hread := jsonGetNumvalue_eq hnum hfits hlen hend
  obtain ⟨c, rest, rfl, hc⟩ := hnum.exists_head hneg
  rw [List.cons_append] at hread hadvance ⊢
  rw [solveValue_num hc, hread, Outcome.done_bind]
  simp only [ge_iff_le, Nat.not_le.2 hlen, if_false, Parser.addValue, hadvance]
  rfl

/-- The turn at a value that is no container. -/
theorem solveValue_leaf {child : JsonNode}
    (h : Leaf (some 1) k name token after child) (node : JsonNode) (fathers : List JsonNode)
    (offset : Nat) :
    solveValue wide k.isValue k.limit k.negative ⟨node, fathers, token ++ after, offset⟩
        { name := name } =
      .done (.next ⟨(node.addChild child).countElem, fathers, after, offset + token.length⟩) := by
  cases h with
  | @string raw content _ hchars hlen =>
    have hle := hchars.length_le
    refine solveValue_string hchars (by omega) (hlen.trans (by cases k <;> decide)) ?_ ..
    cases wide
    · exact if_pos hlen
    · exact if_pos le_rfl
  | num hnum hmax hlen hneg hend => exact solveValue_number hnum (.inr hmax) hlen hneg hend ..
  | trueWord hword => exact solveValue_word (List.mem_append_left falseWords hword) ..
  | falseWord hword hv =>
    obtain rfl := Option.some.inj hv
    exact solveValue_word (List.mem_append_right trueWords hword) ..

/-- The turn at the bracket of a container. -/
theorem solveValue_nest (k k' : Container) (name : List Char) (node : JsonNode)
    (fathers : List JsonNode) (after : List Char) (offset : Nat) :
    solveValue wide k.isValue k.limit k.negative ⟨node, fathers, k'.opening :: after, offset⟩
        { name := name } =
      .done (.next ⟨k.child name k', node :: fathers, after, offset + 1⟩) := by
  cases k' <;> rfl

/-- The turn up to a value, in a container of either kind. -/
theorem solveTurn_lead (h : Lead k lead name)
    (hk : node.elemType = k.elemType) (hc : isSplitChar c = false)
    (hclose : ∀ k', c ≠ Container.closing k') (fathers : List JsonNode) (rest : List Char)
    (offset : Nat) :
    solveTurn wide ⟨node, fathers, lead ++ c :: rest, offset⟩ =
      solveValue wide k.isValue k.limit k.negative ⟨node, fathers, c :: rest, offset + lead.length⟩
        { name := name } := by
  cases k with
  | map =>
    simp only [solveTurn, hk, Container.elemType]
    exact solveMap_lead h (isIgnoreChar_of_isSplitChar hc) node fathers rest offset
  | array =>
    cases h
    simp only [solveTurn, hk, Container.elemType]
    exact solveArray_value hc (hclose .array) node fathers rest offset

theorem Leaf.exists_head {falsehood : Option Int}
    {child : JsonNode} (h : Leaf falsehood k name token after child) :
    ∃ c rest, token = c :: rest ∧ isSplitChar c = false := by
  have hword : ∀ word ∈ trueWords ++ falseWords,
      ∃ c rest, word = c :: rest ∧ isSplitChar c = false := fun word hmem =>
    let ⟨c, rest, heq, hc, _⟩ := word_split word hmem
    ⟨c, rest, heq, hc⟩
  cases h with
  | string _ _ => exact ⟨_, _, rfl, rfl⟩
  | num hnum _ _ hneg _ =>
    obtain ⟨c, rest, heq, hc⟩ := hnum.exists_head hneg
    exact ⟨c, rest, heq, hc.plain.1⟩
  | trueWord hmem => exact hword _ (List.mem_append_left _ hmem)
  | falseWord hmem _ => exact hword _ (List.mem_append_right _ hmem)

theorem Lead.exists_head (h : Lead k lead name) (hc : isSplitChar c = false) (rest : List Char) :
    ∃ d rest', lead ++ c :: rest = d :: rest' ∧ isSplitChar d = false := by
  cases h with
  | element => exact ⟨c, rest, rfl, hc⟩
  | member _ _ _ _ => exact ⟨_, _, rfl, rfl⟩

/-! ## The loop -/

/-- The loop at a character that is skipped. -/
theorem solveLoop_split (hn : c ≠ '\x00') (hc : isSplitChar c) (fuel : Nat)
    (node : JsonNode) (fathers : List JsonNode) (rest : List Char) (offset : Nat) :
    solveLoop wide (fuel + 1) ⟨node, fathers, c :: rest, offset⟩ =
      solveLoop wide fuel ⟨node, fathers, rest, offset + 1⟩ := by
  simp only [solveLoop, if_neg hn, if_pos hc]
  rfl

/-- The loop at a character that is not skipped. -/
theorem solveLoop_turn (hn : c ≠ '\x00') (hc : isSplitChar c = false) (fuel : Nat)
    (node : JsonNode) (fathers : List JsonNode) (rest : List Char) (offset : Nat) :
    solveLoop wide (fuel + 1) ⟨node, fathers, c :: rest, offset⟩ =
      solveTurn wide ⟨node, fathers, c :: rest, offset⟩ >>= Turn.follow (solveLoop wide fuel) := by
  have hc' : ¬ isSplitChar c = true := by simp [hc]
  simp only [solveLoop, if_neg hn, if_neg hc']

/-- The outcome of the loop from a place in a text of `total` characters, which is
    the same for all fuel that is enough. -/
def Solves (total : Nat) (x : Place) (r : Outcome (Nat × Option JsonNode)) : Prop :=
  ∀ fuel offset, offset + x.2.2.length = total → x.2.2.length < fuel →
    solveLoop false fuel ⟨x.1, x.2.1, x.2.2 ++ ['\x00'], offset⟩ = r

/-- The loop after a turn that goes on at another place. -/
theorem solves_of_turn {total n : Nat} {fathers : List JsonNode}
    {rest : List Char} (hn : c ≠ '\x00') (hc : isSplitChar c = false)
    (hlen : (c :: rest).length = n + y.2.2.length) (hpos : 0 < n)
    (hturn : ∀ offset, solveTurn false ⟨node, fathers, c :: rest ++ ['\x00'], offset⟩ =
      .done (.next ⟨y.1, y.2.1, y.2.2 ++ ['\x00'], offset + n⟩))
    {r : Outcome (Nat × Option JsonNode)} (hy : Solves total y r) :
    Solves total (node, fathers, c :: rest) r := by
  intro fuel offset htotal hfuel
  obtain ⟨fuel, rfl⟩ : ∃ m, fuel = m + 1 := ⟨fuel - 1, by omega⟩
  simp only at htotal hfuel
  have hturn' := hturn offset
  rw [List.cons_append] at hturn' ⊢
  rw [solveLoop_turn hn hc, hturn', Outcome.done_bind]
  exact hy fuel (offset + n) (by omega) (by omega)

/-- The turn at a move of a reader, for which a word for false is one for true, if no character
    is skipped there. -/
theorem solveTurn_of_moves {x : Place} (h : Moves (some 1) x y) :
    (∃ c, isSplitChar c ∧ x = (y.1, y.2.1, c :: y.2.2)) ∨
      ∃ c rest n, x.2.2 = c :: rest ∧ isSplitChar c = false ∧
        (c :: rest).length = n + y.2.2.length ∧ 0 < n ∧
        ∀ offset, solveTurn wide ⟨x.1, x.2.1, c :: rest ++ ['\x00'], offset⟩ =
          .done (.next ⟨y.1, y.2.1, y.2.2 ++ ['\x00'], offset + n⟩) := by
  cases h with
  | @blank node fathers c text hc => exact .inl ⟨c, hc, rfl⟩
  | @leaf node child fathers k lead name token text hk hlead hleaf =>
    have hleaf' := hleaf.exists_token.2.2 (text ++ ['\x00']) fun hend => hend.append _
    have hturn : ∀ offset, solveTurn wide ⟨node, fathers, lead ++ (token ++ text) ++ ['\x00'], offset⟩ =
        .done (.next ⟨(node.addChild child).countElem, fathers, text ++ ['\x00'],
          offset + (lead ++ token).length⟩) := fun offset => by
      have hvalue := @solveValue_leaf wide _ _ _ _ _ hleaf' node fathers (offset + lead.length)
      obtain ⟨c, rest, rfl, hc⟩ := hleaf.exists_head
      have hclose : ∀ k', c ≠ Container.closing k' := fun k' hk' =>
        hleaf.head_ne_closing k' (by rw [List.head?_cons, hk'])
      rw [List.append_assoc, List.append_assoc, List.cons_append,
        solveTurn_lead hlead hk hc hclose, ← List.cons_append, hvalue, List.length_append,
        Nat.add_assoc]
    obtain ⟨c, rest, htoken, hc⟩ := hleaf.exists_head
    obtain ⟨d, rest', heq, hd⟩ := hlead.exists_head hc (rest ++ text)
    have htext : lead ++ (token ++ text) = d :: rest' := by rw [htoken, List.cons_append, heq]
    have hne := List.length_pos_of_ne_nil hleaf.exists_token.1
    rw [htext] at hturn
    refine .inr ⟨d, rest', _, htext, hd, ?_, ?_, hturn⟩
    · rw [← htext]
      simp only [List.length_append]
      omega
    · rw [List.length_append]
      omega
  | @nest node fathers k k' lead name text hk hlead =>
    have hturn : ∀ offset,
        solveTurn wide ⟨node, fathers, lead ++ k'.opening :: text ++ ['\x00'], offset⟩ =
          .done (.next ⟨k.child name k', node :: fathers, text ++ ['\x00'],
            offset + (lead.length + 1)⟩) := fun offset => by
      rw [List.append_assoc, List.cons_append,
        solveTurn_lead hlead hk k'.isSplitChar_opening fun k'' => k'.opening_ne_closing k'',
        solveValue_nest, Nat.add_assoc]
    obtain ⟨d, rest', htext, hd⟩ := hlead.exists_head k'.isSplitChar_opening text
    rw [htext] at hturn
    refine .inr ⟨d, rest', _, htext, hd, ?_, Nat.succ_pos _, hturn⟩
    rw [← htext]
    simp only [List.length_append, List.length_cons]
    omega
  | @close node father fathers k text hk =>
    refine .inr ⟨k.closing, text, 1, rfl, k.isSplitChar_closing, Nat.add_comm _ _, Nat.one_pos,
      fun offset => ?_⟩
    cases k <;> simp only [solveTurn, hk, Container.elemType] <;> rfl

/-- The loop makes the moves of a reader, for which a word for false is one for
    true. -/
theorem solves_of_moves {total : Nat} {x : Place} (h : Moves (some 1) x y)
    (hx : '\x00' ∉ x.2.2) {r : Outcome (Nat × Option JsonNode)} (hy : Solves total y r) :
    Solves total x r := by
  rcases solveTurn_of_moves h with ⟨c, hc, rfl⟩ | ⟨c, rest, n, htext, hc, hlen, hpos, hturn⟩
  · intro fuel offset htotal hfuel
    obtain ⟨fuel, rfl⟩ : ∃ n, fuel = n + 1 := ⟨fuel - 1, by omega⟩
    have hn : c ≠ '\x00' := fun h => hx (by simp [h])
    simp only [List.length_cons] at htotal hfuel
    simp only
    rw [List.cons_append, solveLoop_split hn hc]
    exact hy fuel (offset + 1) (by omega) (by omega)
  · obtain ⟨node, fathers, text⟩ := x
    obtain rfl : text = c :: rest := htext
    exact solves_of_turn (fun h => hx (by simp [h])) hc hlen hpos hturn hy

theorem solves_of_reflTransGen {total : Nat} {x : Place}
    (h : Relation.ReflTransGen (Moves (some 1)) x y) (hx : '\x00' ∉ x.2.2)
    {r : Outcome (Nat × Option JsonNode)} (hy : Solves total y r) : Solves total x r := by
  induction h using Relation.ReflTransGen.head_induction_on with
  | refl => exact hy
  | @head x z hxz _ ih =>
    refine solves_of_moves hxz hx (ih ?_)
    obtain ⟨node, fathers, text⟩ := x
    obtain ⟨node', fathers', rest⟩ := z
    obtain ⟨piece, -, rfl, -⟩ := hxz.exists_piece
    exact fun h => hx (List.mem_append_right piece h)

/-! ## Turns that are none -/

/-- A value that the parser does not hold: a string that does not fit the buffer, or
    of which more is copied than the buffer has, or a number that no `int` is. -/
def BadValue (k : Container) (text : List Char) : Prop :=
  (∃ body, text = '"' :: body ∧ (Spills body ∨ ∃ raw content after, body = raw ++ '"' :: after ∧
    Chars raw content ∧ content.length < 512 ∧ 512 < raw.length + 2 ∧ raw.length + 2 ≤ k.limit)) ∨
  Overflows text ∧ (k.negative = false → text.head? ≠ some '-')

/-- An item of a container that the parser does not hold: such a value, or a name
    that does not fit the buffer. -/
def BadItem (k : Container) (text : List Char) : Prop :=
  (k = .map ∧ ∃ body, text = '"' :: body ∧ Spills body) ∨
    ∃ lead name rest, text = lead ++ rest ∧ Lead k lead name ∧ BadValue k rest

/-- The name of a member that takes as many characters as a node has for it, its
    quotes included. -/
def LongName (text : List Char) : Prop :=
  ∃ raw content rest, text = '"' :: (raw ++ '"' :: rest) ∧ Chars raw content ∧
    content.length < 512 ∧ DIGEST_SIZE ≤ raw.length + 2

theorem Overflows.exists_head (h : Overflows text)
    (hneg : negative = false → text.head? ≠ some '-') :
    ∃ c rest, text = c :: rest ∧ NumHead negative c := by
  obtain ⟨token, rest, v, rfl, hnum, -⟩ := h
  obtain ⟨c, rest', rfl, hc⟩ := hnum.exists_head fun hfalse h => hneg hfalse (by
    rw [List.head?_append, h, Option.some_or])
  exact ⟨c, _, rfl, hc⟩

theorem BadValue.exists_head (h : BadValue k text) :
    ∃ c rest, text = c :: rest ∧ isSplitChar c = false ∧ ∀ k', c ≠ Container.closing k' := by
  rcases h with ⟨body, rfl, -⟩ | ⟨hover, hneg⟩
  · exact ⟨_, _, rfl, rfl, fun k' => by cases k' <;> decide⟩
  · obtain ⟨c, rest, rfl, hc⟩ := hover.exists_head hneg
    exact ⟨c, rest, rfl, hc.plain⟩

/-- A value that the parser does not hold is a fault. -/
theorem solveValue_fault (h : BadValue k text)
    (htext : '\x00' ∉ text) (node child : JsonNode) (fathers : List JsonNode) (offset : Nat) :
    solveValue false k.isValue k.limit k.negative ⟨node, fathers, text ++ ['\x00'], offset⟩ child =
      .fault := by
  rcases h with ⟨body, rfl, hspill | ⟨raw, content, after, rfl, hchars, hfit, hmore, hlimit⟩⟩ |
    ⟨hover, hneg⟩
  · have hread := jsonGetStrvalue_fault (fun h => htext (List.mem_cons_of_mem _ h)) hspill
    simp only [solveValue, List.cons_append, hread]
    rfl
  · have hread := jsonGetStrvalue_eq hchars hfit (after ++ ['\x00'])
    have hcopy : memcpy (bufferSize false (raw.length + 2)) (raw.length + 2) = .fault :=
      if_neg (Nat.not_le.2 hmore)
    simp only [solveValue, List.cons_append, List.append_assoc, hread, Outcome.done_bind,
      gt_iff_lt, Nat.not_lt.2 hlimit, if_false, hcopy]
    rfl
  · have hread := jsonGetNumvalue_fault hover
    obtain ⟨c, rest, rfl, hc⟩ := hover.exists_head hneg
    rw [List.cons_append] at hread ⊢
    rw [solveValue_num hc, hread, Outcome.fault_bind]

/-- In a container, the text goes on as a name or a string that takes more memory than there is. -/
def Spilling (k : Container) (text : List Char) : Prop :=
  (k = .map ∧ ∃ body, text = '"' :: body ∧ Spills body) ∨
    ∃ lead name body, text = lead ++ '"' :: body ∧ Lead k lead name ∧ Spills body

theorem Spilling.exists_head (h : Spilling k text) :
    ∃ c rest, text = c :: rest ∧ isSplitChar c = false := by
  rcases h with ⟨-, body, rfl, -⟩ | ⟨lead, name, body, rfl, hlead, -⟩
  · exact ⟨_, _, rfl, rfl⟩
  · exact hlead.exists_head rfl body

/-- A turn at a name or a string that spills is a fault. -/
theorem solveTurn_spilling (h : Spilling k text)
    (htext : '\x00' ∉ text) (hk : node.elemType = k.elemType)
    (fathers : List JsonNode) (offset : Nat) :
    solveTurn wide ⟨node, fathers, text ++ ['\x00'], offset⟩ = .fault := by
  rcases h with ⟨rfl, body, rfl, hspill⟩ | ⟨lead, name, body, rfl, hlead, hspill⟩
  · have hread := jsonGetStrvalue_fault (fun h => htext (List.mem_cons_of_mem _ h)) hspill
    simp only [solveTurn, hk, Container.elemType, solveMap, List.cons_append, hread]
    rfl
  · have hbody : '\x00' ∉ body := fun h =>
      htext (List.mem_append_right lead (List.mem_cons_of_mem _ h))
    have hread := jsonGetStrvalue_fault hbody hspill
    rw [List.append_assoc, List.cons_append, solveTurn_lead hlead hk rfl
      fun k' => by cases k' <;> decide]
    simp only [solveValue, hread]
    rfl

/-- An item that the parser does not hold is a fault. -/
theorem solveTurn_fault (h : BadItem k text)
    (htext : '\x00' ∉ text) (hk : node.elemType = k.elemType)
    (fathers : List JsonNode) (offset : Nat) :
    solveTurn false ⟨node, fathers, text ++ ['\x00'], offset⟩ = .fault := by
  rcases h with ⟨rfl, body, rfl, hspill⟩ | ⟨lead, name, rest, rfl, hlead, hbad⟩
  · exact solveTurn_spilling (.inl ⟨rfl, body, rfl, hspill⟩) htext hk fathers offset
  · have hvalue := solveValue_fault hbad (fun h => htext (List.mem_append_right lead h)) node
      { name := name } fathers (offset + lead.length)
    obtain ⟨c, rest, rfl, hc, hclose⟩ := hbad.exists_head
    rw [List.append_assoc, List.cons_append, solveTurn_lead hlead hk hc hclose,
      ← List.cons_append, hvalue]

/-- A name that is too long is read, and `json_solve_str` returns what it takes. -/
theorem solveTurn_longName (h : LongName text)
    (hk : node.elemType = Container.map.elemType) (fathers : List JsonNode) :
    ∃ ret, ∀ offset,
      solveTurn wide ⟨node, fathers, text ++ ['\x00'], offset⟩ = .done (.returned ret) := by
  obtain ⟨raw, content, rest, rfl, hchars, hfit, hlen⟩ := h
  have hread := jsonGetStrvalue_eq hchars hfit (rest ++ ['\x00'])
  refine ⟨raw.length + 2, fun offset => ?_⟩
  simp only [solveTurn, hk, Container.elemType, solveMap, List.cons_append, List.append_assoc,
    hread, Outcome.done_bind, ge_iff_le, hlen, if_true]
  rfl

/-! ## What a turn does -/

/-- What comes of a value: a container, another value, an error, or a value that the
    parser does not hold. -/
theorem solveValue_cases {body : List Char} (hbody : '\x00' ∉ body) (k : Container)
    (name : List Char) (node : JsonNode) (fathers : List JsonNode) (offset : Nat) :
    (∃ k' rest, body = Container.opening k' :: rest) ∨
      (∃ token after child, body = token ++ after ∧ Leaf (some 1) k name token after child) ∨
      solveValue wide k.isValue k.limit k.negative ⟨node, fathers, body ++ ['\x00'], offset⟩
        { name := name } = .error (-EINVAL) ∨
      BadValue k body := by
  rcases body with _ | ⟨c, rest⟩
  · refine .inr (.inr (.inl ?_))
    have hc : ¬ NumHead k.negative '\x00' := by
      rintro (⟨-, h⟩ | h)
      · exact absurd h (by decide)
      · exact absurd h (by decide)
    rw [List.nil_append, solveValue_bool (by decide) (by decide) (by decide) hc]
    rfl
  rcases eq_or_ne c '{' with rfl | hmap
  · exact .inl ⟨.map, rest, rfl⟩
  rcases eq_or_ne c '[' with rfl | harray
  · exact .inl ⟨.array, rest, rfl⟩
  rcases eq_or_ne c '"' with rfl | hquote
  · rcases jsonGetStrvalue_cases (fun h => hbody (List.mem_cons_of_mem _ h)) with
      ⟨raw, content, after, rfl, hchars, hfit, hread⟩ | hread | hspill
    · by_cases hlimit : k.limit < raw.length + 2
      · refine .inr (.inr (.inl ?_))
        simp only [solveValue, List.cons_append, hread, Outcome.done_bind, gt_iff_lt, hlimit,
          if_true]
        rfl
      by_cases hcopy : 512 < raw.length + 2
      · exact .inr (.inr (.inr (.inl ⟨_, rfl, .inr ⟨raw, content, after, rfl, hchars, hfit, hcopy,
          Nat.not_lt.1 hlimit⟩⟩)))
      · exact .inr (.inl ⟨'"' :: (raw ++ ['"']), after, _, by simp,
          .string hchars (Nat.not_lt.1 hcopy)⟩)
    · refine .inr (.inr (.inl ?_))
      simp only [solveValue, List.cons_append, hread]
      rfl
    · exact .inr (.inr (.inr (.inl ⟨_, rfl, .inl hspill⟩)))
  by_cases hc : NumHead k.negative c
  · have hneg : k.negative = false → (c :: rest).head? ≠ some '-' := fun hfalse h => by
      rw [List.head?_cons, Option.some.injEq] at h
      rcases hc with ⟨htrue, -⟩ | hdigit
      · exact absurd (htrue.symm.trans hfalse) (by decide)
      · exact isDigit_ne hdigit rfl h
    rcases @jsonGetNumvalue_cases wide _ _ hbody (hc.imp_left And.right) with
      ⟨token, after, v, heq, hnum, -, hlen, hend, -⟩ | hread | ⟨-, hover⟩
    · by_cases hmax : v.natAbs < 2 ^ 31
      · refine .inr (.inl ⟨token, after, _, heq, .num hnum hmax hlen (fun hfalse h => ?_) hend⟩)
        exact hneg hfalse (by rw [heq, List.head?_append, h, Option.some_or])
      · exact .inr (.inr (.inr (.inr ⟨⟨token, after, v, heq, hnum, Nat.not_lt.1 hmax, hlen.le⟩,
          hneg⟩)))
    · refine .inr (.inr (.inl ?_))
      rw [List.cons_append] at hread ⊢
      rw [solveValue_num hc, hread, Outcome.error_bind]
    · exact .inr (.inr (.inr (.inr ⟨hover, hneg⟩)))
  · rcases jsonGetBoolvalue_cases (c :: rest) with ⟨word, hword, after, heq, -⟩ | hread
    · rw [heq]
      rcases List.mem_append.1 hword with htrue | hfalse
      · exact .inr (.inl ⟨word, after, _, rfl, .trueWord htrue⟩)
      · exact .inr (.inl ⟨word, after, _, rfl, .falseWord hfalse rfl⟩)
    · refine .inr (.inr (.inl ?_))
      rw [List.cons_append] at hread ⊢
      rw [solveValue_bool hmap harray hquote hc, hread, Outcome.error_bind]

/-- A text goes on as characters that are skipped. -/
theorem exists_skipped (skipped : Char → Bool) (text : List Char) :
    ∃ piece rest, text = piece ++ rest ∧ (∀ c ∈ piece, skipped c) ∧
      ∀ c, rest.head? = some c → skipped c = false := by
  refine ⟨text.takeWhile skipped, text.dropWhile skipped, (List.takeWhile_append_dropWhile).symm,
    fun c hc => List.mem_takeWhile_imp hc, fun c hc => ?_⟩
  have hnot := List.head?_dropWhile_not skipped text
  rw [hc] at hnot
  simpa using hnot

/-- The first character of a text in memory. -/
theorem exists_head_nul (htext : ∀ c, text.head? = some c → isIgnoreChar c = false) :
    ∃ c rest, text ++ ['\x00'] = c :: rest ∧ isIgnoreChar c = false := by
  rcases text with _ | ⟨c, rest⟩
  · exact ⟨_, [], rfl, rfl⟩
  · exact ⟨c, _, rfl, htext c rfl⟩

/-- A member without its colon is refused. -/
theorem solveMember_error {before : List Char} (hbefore : ∀ c ∈ before, isIgnoreChar c)
    (hc : isIgnoreChar c = false) (hcolon : c ≠ ':') (node child : JsonNode)
    (fathers : List JsonNode) (rest : List Char) (offset : Nat) :
    solveMember wide ⟨node, fathers, before ++ c :: rest, offset⟩ child = .error (-EINVAL) := by
  rw [solveMember, Parser.skip_append node fathers hbefore hc rest offset]
  simp [hcolon]

/-- What comes of the text after the name of a member: a value, up to which the name
    leads, or an error. -/
theorem solveMember_cases (rest : List Char) {raw : List Char}
    (hchars : Chars raw name) (hlen : raw.length + 2 < DIGEST_SIZE) (node : JsonNode)
    (fathers : List JsonNode) (offset : Nat) :
    (∃ lead text, '"' :: (raw ++ '"' :: rest) = lead ++ text ∧ Lead .map lead name ∧
      ∃ offset', solveMember wide ⟨node, fathers, rest ++ ['\x00'], offset⟩ { name := name } =
        solveValue wide Container.map.isValue Container.map.limit Container.map.negative
          ⟨node, fathers, text ++ ['\x00'], offset'⟩ { name := name }) ∨
      solveMember wide ⟨node, fathers, rest ++ ['\x00'], offset⟩ { name := name } = .error (-EINVAL) := by
  obtain ⟨before, text, rfl, hbefore, htext⟩ := exists_skipped isIgnoreChar rest
  obtain ⟨c, tail, heq, hc⟩ := exists_head_nul htext
  rw [List.append_assoc]
  by_cases hcolon : c = ':'
  · subst hcolon
    rcases text with _ | ⟨d, text⟩
    · exact absurd (List.cons.inj heq).1 (by decide)
    · obtain ⟨rfl, -⟩ := List.cons.inj heq
      obtain ⟨after, text, rfl, hafter, htext⟩ := exists_skipped isIgnoreChar text
      obtain ⟨e, tail', heq', he⟩ := exists_head_nul htext
      refine .inl ⟨'"' :: (raw ++ '"' :: (before ++ ':' :: after)), text, by simp,
        .member hchars hlen hbefore hafter, offset + before.length + 1 + after.length, ?_⟩
      rw [List.cons_append, List.append_assoc, heq', solveMember_lead hbefore hafter he]
  · exact .inr (by rw [heq, solveMember_error hbefore hc hcolon])

/-- What comes of a value, up to which the text leads. -/
theorem moves_or_of_value (hk : node.elemType = k.elemType)
    (hlead : Lead k lead name) (htext : '\x00' ∉ text)
    {fathers : List JsonNode} {offset : Nat} {turn : Outcome Turn}
    (hturn : turn = solveValue wide k.isValue k.limit k.negative
      ⟨node, fathers, text ++ ['\x00'], offset⟩ { name := name }) :
    (∃ y, Moves (some 1) (node, fathers, lead ++ text) y) ∨ turn = .error (-EINVAL) ∨
      BadItem k (lead ++ text) := by
  rcases solveValue_cases htext k name node fathers offset with
    ⟨k', rest, rfl⟩ | ⟨token, after, child, rfl, hleaf⟩ | herr | hbad
  · exact .inl ⟨_, .nest hk hlead⟩
  · exact .inl ⟨_, .leaf hk hlead hleaf⟩
  · exact .inr (.inl (hturn.trans herr))
  · exact .inr (.inr (.inr ⟨lead, name, text, rfl, hlead, hbad⟩))

/-- What a turn does at a character that is not skipped: it ends the container, makes
    a move, refuses the text, or comes to a name that is too long or an item that the
    parser does not hold. -/
theorem solveTurn_cases (hk : node.elemType = k.elemType)
    {rest : List Char} (hc : isSplitChar c = false) (hbody : '\x00' ∉ c :: rest)
    (fathers : List JsonNode) (offset : Nat) :
    c = k.closing ∨ (∃ y, Moves (some 1) (node, fathers, c :: rest) y) ∨
      solveTurn wide ⟨node, fathers, c :: rest ++ ['\x00'], offset⟩ = .error (-EINVAL) ∨
      (k = .map ∧ LongName (c :: rest)) ∨ BadItem k (c :: rest) := by
  rcases eq_or_ne c k.closing with hclose | hclose
  · exact .inl hclose
  refine .inr ?_
  cases k with
  | array =>
    have hturn : solveTurn wide ⟨node, fathers, c :: rest ++ ['\x00'], offset⟩ =
        solveValue wide Container.array.isValue Container.array.limit Container.array.negative
          ⟨node, fathers, c :: rest ++ ['\x00'], offset⟩ {} := by
      simp only [solveTurn, hk, Container.elemType, List.cons_append]
      exact solveArray_value hc hclose node fathers _ offset
    exact (moves_or_of_value hk .element hbody hturn).imp_right (Or.imp_right .inr)
  | map =>
    have hturn : solveTurn wide ⟨node, fathers, c :: rest ++ ['\x00'], offset⟩ =
        solveMap wide ⟨node, fathers, c :: rest ++ ['\x00'], offset⟩ := by
      simp only [solveTurn, hk, Container.elemType]
    rcases eq_or_ne c '"' with rfl | hquote
    · rcases jsonGetStrvalue_cases (fun h => hbody (List.mem_cons_of_mem _ h)) with
        ⟨raw, content, after, rfl, hchars, hfit, -⟩ | hread | hspill
      · by_cases hlen : raw.length + 2 < DIGEST_SIZE
        · have hmember : solveTurn wide ⟨node, fathers, '"' :: (raw ++ '"' :: after) ++ ['\x00'],
                offset⟩ =
              solveMember wide ⟨node, fathers, after ++ ['\x00'], offset + (raw.length + 2)⟩
                { name := content } := by
            rw [hturn, List.cons_append, List.append_assoc, List.cons_append,
              solveMap_name hchars hlen]
          rcases solveMember_cases after hchars hlen node fathers (offset + (raw.length + 2)) with
            ⟨lead, text, heq, hlead, offset', hvalue⟩ | herr
          · rw [heq] at hbody hmember ⊢
            exact (moves_or_of_value hk hlead (fun h => hbody (List.mem_append_right lead h))
              (hmember.trans hvalue)).imp_right (Or.imp_right .inr)
          · exact .inr (.inl (hmember.trans herr))
        · exact .inr (.inr (.inl ⟨rfl, raw, content, after, rfl, hchars, hfit,
            Nat.not_lt.1 hlen⟩))
      · refine .inr (.inl ?_)
        rw [hturn]
        simp only [solveMap, List.cons_append, hread]
        rfl
      · exact .inr (.inr (.inr (.inl ⟨rfl, _, rfl, hspill⟩)))
    · refine .inr (.inl ?_)
      have hclose' : c ≠ '}' := hclose
      have hcomma : c ≠ ',' := by
        rintro rfl
        exact absurd hc (by decide)
      rw [hturn]
      simp only [solveMap, List.cons_append, if_neg hclose', if_neg hcomma]
      exact if_pos hquote

end Cube.Json
