import Cube.Json.Accept

/-!
# The bounds of the memory of the JSON parser

`json_solve_str` once more, where a fault is an access to memory that is not there: a character of
the text behind its NUL is read, or one is written behind the 512 of `value_buffer`, behind those of
the name of a node, or behind the string of a value. An `int` of a number that is too great wraps
round, and a copy from `value_buffer` may take what stands behind it, for it only reads there.

The parser goes from place to place in a text, and what takes more memory than there is is a name or
a string.

* `exists_stops`: where the loop ends, and how.
* `jsonSolveStr_bounded_iff`: the texts on which no access is outside, and what is too long is refused.
-/

namespace Cube.Json.Bounds

open Lib

/-- `json_solve_str`, for its memory. -/
def jsonSolveStr (str : List Char) : Outcome (Nat × Option JsonNode) :=
  solveLoop true str.length { curr := {}, fathers := [], str := str, offset := 0 }

/-! ## Values that the other parser does not hold -/

/-- A value that is read here though it is a fault of the other parser: a string of which more is
    copied than the buffer has, or a number that no `int` is, with the text after it. -/
inductive Wide (k : Container) (name : List Char) : List Char → List Char → JsonNode → Prop
  | string {raw content after : List Char} : Chars raw content → content.length < 512 →
      512 < raw.length + 2 → raw.length + 2 ≤ k.limit →
      Wide k name ('"' :: (raw ++ ['"'])) after
        { elemType := .string, isValue := k.isValue, name := name, valueStr := some content }
  | num {token after : List Char} {v : Int} : Number token v → 2 ^ 31 ≤ v.natAbs →
      token.length < DIGEST_SIZE → (k.negative = false → token.head? ≠ some '-') →
      EndsValue after →
      Wide k name token after
        { elemType := .num, isValue := k.isValue, name := name, value := v % 2 ^ 32 }

variable {k : Container} {x y : Place}

theorem Wide.exists_head {name token after : List Char} {child : JsonNode}
    (h : Wide k name token after child) :
    ∃ c rest, token = c :: rest ∧ isSplitChar c = false ∧ ∀ k', c ≠ Container.closing k' := by
  cases h with
  | string _ _ _ _ => exact ⟨_, _, rfl, rfl, fun k' => by cases k' <;> decide⟩
  | num hnum _ _ hneg _ =>
    obtain ⟨c, rest, heq, hc⟩ := hnum.exists_head hneg
    exact ⟨c, rest, heq, hc.plain⟩

/-- The turn at such a value. -/
theorem solveValue_wide {name token after : List Char} {child : JsonNode}
    (h : Wide k name token after child) (post : List Char) (node : JsonNode)
    (fathers : List JsonNode) (offset : Nat) :
    solveValue true k.isValue k.limit k.negative ⟨node, fathers, token ++ (after ++ post), offset⟩
        { name := name } =
      .done (.next ⟨(node.addChild child).countElem, fathers, after ++ post,
        offset + token.length⟩) := by
  cases h with
  | @string raw _ _ hchars hfit _ hlimit =>
    have hcopy : memcpy (bufferSize true (raw.length + 2)) (raw.length + 2) = .done () :=
      if_pos le_rfl
    exact solveValue_string hchars hfit hlimit hcopy ..
  | num hnum _ hlen hneg hend =>
    exact solveValue_number hnum (.inl rfl) hlen hneg (hend.append post) ..

/-- What comes of a value that the other parser does not hold. -/
theorem solveValue_badValue {text : List Char} (h : BadValue k text)
    (htext : '\x00' ∉ text) (name : List Char) (node : JsonNode) (fathers : List JsonNode)
    (offset : Nat) :
    (∃ token after child, text = token ++ after ∧ Wide k name token after child) ∨
      solveValue true k.isValue k.limit k.negative ⟨node, fathers, text ++ ['\x00'], offset⟩
        { name := name } = .error (-EINVAL) ∨
      ∃ body, text = '"' :: body ∧ Spills body := by
  rcases h with ⟨body, rfl, hspill | ⟨raw, content, after, rfl, hchars, hfit, hmore, hlimit⟩⟩ |
    ⟨hover, hneg⟩
  · exact .inr (.inr ⟨body, rfl, hspill⟩)
  · exact .inl ⟨'"' :: (raw ++ ['"']), after, _, by simp, .string hchars hfit hmore hlimit⟩
  · obtain ⟨c, rest, rfl, hc⟩ := hover.exists_head hneg
    rcases @jsonGetNumvalue_cases true _ _ htext (hc.imp_left And.right) with
      ⟨token, after, v, heq, hnum, -, hlen, hend, -⟩ | hread | ⟨hnarrow, -⟩
    · -- The number is none that an `int` is, since the other parser does not hold it.
      have hmax : 2 ^ 31 ≤ v.natAbs := by
        by_contra hlt
        have hfault := jsonGetNumvalue_fault hover
        rw [heq, List.append_assoc,
          jsonGetNumvalue_eq hnum (.inr (Nat.not_le.1 hlt)) hlen (hend.append _)] at hfault
        cases hfault
      refine .inl ⟨token, after, _, heq, .num hnum hmax hlen (fun hfalse h => ?_) hend⟩
      exact hneg hfalse (by rw [heq, List.head?_append, h, Option.some_or])
    · refine .inr (.inl ?_)
      rw [List.cons_append] at hread ⊢
      rw [solveValue_num hc, hread, Outcome.error_bind]
    · cases hnarrow

/-! ## Moves -/

/-- The moves of the parser: those of a reader, and the ones over wide values. -/
inductive Goes : Place → Place → Prop
  | move {x y : Place} : Moves (some 1) x y → Goes x y
  | wide {node child : JsonNode} {fathers : List JsonNode} {k : Container}
      {lead name token text : List Char} : node.elemType = k.elemType → Lead k lead name →
      Wide k name token text child →
      Goes (node, fathers, lead ++ (token ++ text)) ((node.addChild child).countElem, fathers, text)

/-- The parser comes to a place in a text, from the bracket of the root on. -/
def Comes (s : List Char) (y : Place) : Prop :=
  ∃ blanks k text, s = blanks ++ Container.opening k :: text ∧ (∀ c ∈ blanks, isSplitChar c) ∧
    Relation.ReflTransGen Goes (k.rootNode, [], text) y

/-- In a container, the text goes on as a name or a string that is longer than its limit. -/
def TooLong (k : Container) (text : List Char) : Prop :=
  (k = .map ∧ ∃ raw content after, text = '"' :: (raw ++ '"' :: after) ∧ Chars raw content ∧
      DIGEST_SIZE ≤ raw.length + 2) ∨
    ∃ lead name raw content after, text = lead ++ '"' :: (raw ++ '"' :: after) ∧
      Lead k lead name ∧ Chars raw content ∧ k.limit < raw.length + 2

/-- What is expected of the memory of the parser on a text: no access is outside, and a name or a
    string that is too long is refused with an error. -/
structure Bounded (s : List Char) : Prop where
  inside : jsonSolveStr (s ++ ['\x00']) ≠ .fault
  refuses : ∀ y k, Comes s y → y.1.elemType = Container.elemType k → TooLong k y.2.2 →
    ∃ e, e < 0 ∧ jsonSolveStr (s ++ ['\x00']) = .error e

/-! ## Turns -/

theorem Goes.containers (h : Goes x y) {ks : List Container} (hx : Frames x ks) :
    ∃ ks', Frames y ks' := by
  cases h with
  | move h => exact hx.of_moves h
  | wide hk _ _ =>
    cases hx with
    | cons hnode hfathers => exact ⟨_, .cons hnode hfathers⟩

/-- The turn at a move. -/
theorem Goes.turn (h : Goes x y) :
    (∃ c, isSplitChar c ∧ x = (y.1, y.2.1, c :: y.2.2)) ∨
      ∃ c rest n, x.2.2 = c :: rest ∧ isSplitChar c = false ∧
        (c :: rest).length = n + y.2.2.length ∧ 0 < n ∧ (∃ piece, c :: rest = piece ++ y.2.2) ∧
        ∀ offset, solveTurn true ⟨x.1, x.2.1, c :: rest ++ ['\x00'], offset⟩ =
          .done (.next ⟨y.1, y.2.1, y.2.2 ++ ['\x00'], offset + n⟩) := by
  cases h with
  | move h =>
    refine (@solveTurn_of_moves true _ _ h).imp_right ?_
    rintro ⟨c, rest, n, htext, hc, hlen, hpos, hturn⟩
    obtain ⟨node, fathers, text⟩ := x
    obtain ⟨node', fathers', rest'⟩ := y
    obtain ⟨piece, -, htext', -⟩ := h.exists_piece
    exact ⟨c, rest, n, htext, hc, hlen, hpos, ⟨piece, htext.symm.trans htext'⟩, hturn⟩
  | @wide node child fathers k lead name token text hk hlead hwide =>
    obtain ⟨c, rest, rfl, hc, hclose⟩ := hwide.exists_head
    obtain ⟨d, rest', heq, hd⟩ := hlead.exists_head hc (rest ++ text)
    refine .inr ⟨d, rest', (lead ++ c :: rest).length, heq, hd, ?_,
      List.length_pos_of_ne_nil (by simp), ⟨lead ++ c :: rest, ?_⟩, fun offset => ?_⟩
    · rw [← heq]
      simp only [List.length_append, List.length_cons]
      omega
    · rw [← heq, List.append_assoc, List.cons_append]
    · have hvalue := solveValue_wide hwide ['\x00'] node fathers (offset + lead.length)
      rw [← heq, List.append_assoc, List.cons_append, List.cons_append, List.append_assoc]
      exact (solveTurn_lead hlead hk hc hclose fathers _ offset).trans
        (by rw [← List.cons_append, hvalue, List.length_append, Nat.add_assoc])

theorem TooLong.exists_head {text : List Char} (h : TooLong k text) :
    ∃ c rest, text = c :: rest ∧ isSplitChar c = false := by
  rcases h with ⟨-, raw, content, after, rfl, -⟩ | ⟨lead, name, raw, content, after, rfl, hlead, -⟩
  · exact ⟨_, _, rfl, rfl⟩
  · exact hlead.exists_head rfl _

/-- A turn at a name or a string that is too long refuses the text, if it does not spill. -/
theorem solveTurn_tooLong {text : List Char} (h : TooLong k text)
    (htext : '\x00' ∉ text) {node : JsonNode} (hk : node.elemType = k.elemType)
    (fathers : List JsonNode) (offset : Nat) :
    solveTurn true ⟨node, fathers, text ++ ['\x00'], offset⟩ = .error (-EINVAL) ∨
      (k = .map ∧ LongName text) ∨ Spilling k text := by
  rcases h with ⟨rfl, raw, content, after, rfl, hchars, hlong⟩ |
    ⟨lead, name, raw, content, after, rfl, hlead, hchars, hlong⟩
  · have hbody : '\x00' ∉ raw ++ '"' :: after := fun h => htext (List.mem_cons_of_mem _ h)
    rcases jsonGetStrvalue_cases hbody with
      ⟨raw', content', after', heq, hchars', hfit, -⟩ | hread | hspill
    · obtain rfl := hchars.unique hchars' heq
      exact .inr (.inl ⟨rfl, raw, content', after', by rw [heq], hchars', hfit, hlong⟩)
    · refine .inl ?_
      simp only [solveTurn, hk, Container.elemType, solveMap, List.cons_append, hread]
      rfl
    · exact .inr (.inr (.inl ⟨rfl, _, rfl, hspill⟩))
  · have hbody : '\x00' ∉ raw ++ '"' :: after := fun h =>
      htext (List.mem_append_right lead (List.mem_cons_of_mem _ h))
    have hturn : solveTurn true ⟨node, fathers, lead ++ '"' :: (raw ++ '"' :: after) ++ ['\x00'],
        offset⟩ = solveValue true k.isValue k.limit k.negative ⟨node, fathers,
          '"' :: (raw ++ '"' :: after ++ ['\x00']), offset + lead.length⟩ { name := name } := by
      rw [List.append_assoc, List.cons_append, solveTurn_lead hlead hk rfl
        fun k' => by cases k' <;> decide]
    rcases jsonGetStrvalue_cases hbody with
      ⟨raw', content', after', heq, hchars', hfit, hread⟩ | hread | hspill
    · obtain rfl := hchars.unique hchars' heq
      refine .inl (hturn.trans ?_)
      simp only [solveValue, hread, Outcome.done_bind, gt_iff_lt, hlong, if_true]
      rfl
    · refine .inl (hturn.trans ?_)
      simp only [solveValue, hread]
      rfl
    · exact .inr (.inr (.inr ⟨lead, name, _, rfl, hlead, hspill⟩))

/-- What a turn does in a container at a character that is not skipped: it ends the container,
    makes a move, refuses the text, or comes to a name that is too long or to what spills. -/
theorem solveTurn_cases {node : JsonNode} (hk : node.elemType = k.elemType)
    {c : Char} {rest : List Char} (hc : isSplitChar c = false) (hbody : '\x00' ∉ c :: rest)
    (fathers : List JsonNode) (offset : Nat) :
    c = k.closing ∨ (∃ y, Goes (node, fathers, c :: rest) y) ∨
      solveTurn true ⟨node, fathers, c :: rest ++ ['\x00'], offset⟩ = .error (-EINVAL) ∨
      (k = .map ∧ LongName (c :: rest)) ∨ Spilling k (c :: rest) := by
  rcases @Json.solveTurn_cases true _ _ _ hk _ hc hbody fathers offset with
    hclose | ⟨y, hy⟩ | hturn | hlong | ⟨rfl, body, heq, hspill⟩ | ⟨lead, name, text, heq, hlead, hbad⟩
  · exact .inl hclose
  · exact .inr (.inl ⟨y, .move hy⟩)
  · exact .inr (.inr (.inl hturn))
  · exact .inr (.inr (.inr (.inl hlong)))
  · exact .inr (.inr (.inr (.inr (.inl ⟨rfl, body, heq, hspill⟩))))
  · rw [heq] at hbody ⊢
    have htext : '\x00' ∉ text := fun h => hbody (List.mem_append_right lead h)
    -- Of what the other parser does not hold, only what spills is a fault here.
    rcases solveValue_badValue hbad htext name node fathers (offset + lead.length) with
      ⟨token, after, child, rfl, hwide⟩ | hvalue | ⟨body, rfl, hspill⟩
    · exact .inr (.inl ⟨_, .wide hk hlead hwide⟩)
    · obtain ⟨d, tail, rfl, hd, hclose⟩ := hbad.exists_head
      refine .inr (.inr (.inl ?_))
      rw [List.append_assoc, List.cons_append,
        solveTurn_lead hlead hk hd hclose, ← List.cons_append, hvalue]
    · exact .inr (.inr (.inr (.inr (.inr ⟨lead, name, body, rfl, hlead, hspill⟩))))

/-! ## The loop -/

/-- The outcome of the loop from a place. -/
def loopAt (fuel offset : Nat) (x : Place) : Outcome (Nat × Option JsonNode) :=
  solveLoop true fuel ⟨x.1, x.2.1, x.2.2 ++ ['\x00'], offset⟩

/-- The loop at a character that is not skipped. -/
theorem loopAt_turn {c : Char} (hn : c ≠ '\x00') (hc : isSplitChar c = false) (fuel : Nat)
    (node : JsonNode) (fathers : List JsonNode) (rest : List Char) (offset : Nat) :
    loopAt (fuel + 1) offset (node, fathers, c :: rest) =
      solveTurn true ⟨node, fathers, c :: rest ++ ['\x00'], offset⟩ >>=
        Turn.follow (solveLoop true fuel) := by
  have hc' : ¬ isSplitChar c = true := by simp [hc]
  simp only [loopAt, List.cons_append, solveLoop, if_neg hn, if_neg hc']

/-- The loop goes on where a move leads. -/
theorem Goes.loopAt (h : Goes x y) (hx : '\x00' ∉ x.2.2) {fuel : Nat}
    (hfuel : x.2.2.length < fuel) (offset : Nat) :
    '\x00' ∉ y.2.2 ∧ ∃ fuel' offset', y.2.2.length < fuel' ∧
      Bounds.loopAt fuel offset x = Bounds.loopAt fuel' offset' y := by
  obtain ⟨fuel, rfl⟩ : ∃ m, fuel = m + 1 := ⟨fuel - 1, by omega⟩
  obtain ⟨node, fathers, text⟩ := x
  rcases h.turn with ⟨c, hc, heq⟩ | ⟨c, rest, n, rfl, hc, hlen, hpos, ⟨piece, hpiece⟩, hturn⟩
  · obtain ⟨rfl, rfl, rfl⟩ : node = y.1 ∧ fathers = y.2.1 ∧ text = c :: y.2.2 := by
      simpa using heq
    have hn : c ≠ '\x00' := fun h => hx (by simp [h])
    refine ⟨fun h => hx (List.mem_cons_of_mem _ h), fuel, offset + 1, by simpa using hfuel, ?_⟩
    simp only [Bounds.loopAt, List.cons_append, solveLoop, if_neg hn, if_pos hc]
    rfl
  · have hn : c ≠ '\x00' := fun h => hx (by simp [h])
    refine ⟨fun h => hx ?_, fuel, offset + n, ?_, ?_⟩
    · rw [hpiece]
      exact List.mem_append_right piece h
    · simp only at hfuel
      omega
    · rw [loopAt_turn hn hc, hturn, Outcome.done_bind]
      rfl

theorem loopAt_of_goes (h : Relation.ReflTransGen Goes x y) (hx : '\x00' ∉ x.2.2)
    {fuel : Nat} (hfuel : x.2.2.length < fuel) (offset : Nat) :
    '\x00' ∉ y.2.2 ∧ ∃ fuel' offset', y.2.2.length < fuel' ∧
      loopAt fuel offset x = loopAt fuel' offset' y := by
  induction h with
  | refl => exact ⟨hx, fuel, offset, hfuel, rfl⟩
  | tail _ hstep ih =>
    obtain ⟨hy, fuel', offset', hfuel', heq⟩ := ih
    obtain ⟨hz, fuel'', offset'', hfuel'', heq'⟩ := hstep.loopAt hy hfuel' offset'
    exact ⟨hz, fuel'', offset'', hfuel'', heq.trans heq'⟩

/-- Where the loop of the parser ends, and how. -/
inductive Stops (k : Container) (text : List Char) : Outcome (Nat × Option JsonNode) → Prop
  | solved (ret : Nat) (root : JsonNode) : Stops k text (.done (ret, some root))
  | refused : Stops k text (.error (-EINVAL))
  | longName (ret : Nat) : k = .map → LongName text → Stops k text (.done (ret, none))
  | fault : Spilling k text → Stops k text .fault

/-- The loop comes to an end from any place in containers. -/
theorem exists_stops (hx : '\x00' ∉ x.2.2) {ks : List Container} (hframes : Frames x ks)
    {fuel : Nat} (hfuel : x.2.2.length < fuel) (offset : Nat) :
    ∃ y k, Relation.ReflTransGen Goes x y ∧ y.1.elemType = Container.elemType k ∧
      Stops k y.2.2 (loopAt fuel offset x) := by
  induction hn : x.2.2.length using Nat.strongRecOn generalizing x ks fuel offset with
  | ind n ih =>
    have hmove : (∃ y, Goes x y) → ∃ y k, Relation.ReflTransGen Goes x y ∧
        y.1.elemType = Container.elemType k ∧ Stops k y.2.2 (loopAt fuel offset x) := by
      rintro ⟨y, hy⟩
      have hlt : y.2.2.length < n := by
        rcases hy.turn with ⟨c, -, rfl⟩ | ⟨c, rest, m, htext, -, hlen, hpos, -⟩
        · rw [← hn]
          exact Nat.lt_succ_self _
        · rw [← hn, htext]
          omega
      obtain ⟨hnul, fuel', offset', hfuel', heq⟩ := hy.loopAt hx hfuel offset
      obtain ⟨ks', hframes'⟩ := hy.containers hframes
      obtain ⟨z, k, hgoes, hk, hz⟩ := ih _ hlt hnul hframes' hfuel' offset' rfl
      exact ⟨z, k, .head hy hgoes, hk, heq ▸ hz⟩
    obtain ⟨fuel, rfl⟩ : ∃ m, fuel = m + 1 := ⟨fuel - 1, by omega⟩
    obtain ⟨node, fathers, text⟩ := x
    obtain ⟨k, hk⟩ : ∃ k, node.elemType = Container.elemType k := by
      cases hframes with
      | @cons _ k _ _ hk _ => exact ⟨k, hk⟩
    rcases text with _ | ⟨c, rest⟩
    · exact ⟨_, k, .refl, hk, .solved _ _⟩
    have hnul : c ≠ '\x00' := fun h => hx (by simp [h])
    by_cases hc : isSplitChar c
    · exact hmove ⟨_, .move (.blank hc)⟩
    rw [Bool.not_eq_true] at hc
    -- A bracket that closes a container that is not the root is a move.
    by_cases hmoves : ∃ y, Goes (node, fathers, c :: rest) y
    · exact hmove hmoves
    refine ⟨_, k, .refl, hk, ?_⟩
    rw [loopAt_turn hnul hc]
    rcases solveTurn_cases hk hc hx fathers offset with rfl | h | h | ⟨rfl, hlong⟩ | hspill
    · rcases fathers with _ | ⟨father, fathers⟩
      · have hturn : solveTurn true ⟨node, [], k.closing :: rest ++ ['\x00'], offset⟩ =
            .done (.closed node (offset + 1)) := by
          cases k <;> simp only [solveTurn, hk, Container.elemType] <;> rfl
        rw [hturn]
        exact .solved _ _
      · exact absurd ⟨_, .move (.close hk)⟩ hmoves
    · exact absurd h hmoves
    · rw [h, Outcome.error_bind]
      exact .refused
    · obtain ⟨ret, hturn⟩ := solveTurn_longName hlong hk fathers
      rw [hturn]
      exact .longName ret rfl hlong
    · rw [solveTurn_spilling hspill hx hk]
      exact .fault hspill

/-- The loop at the start of a text: it comes to the bracket of a root, or accepts or refuses the
    text before that. -/
theorem jsonSolveStr_start {s : List Char} (hs : '\x00' ∉ s) :
    (∀ y, ¬ Comes s y) ∧ ((∃ ret root, jsonSolveStr (s ++ ['\x00']) = .done (ret, some root)) ∨
        jsonSolveStr (s ++ ['\x00']) = .error (-EINVAL)) ∨
      ∃ k text, '\x00' ∉ text ∧
        (∀ y, Comes s y ↔ Relation.ReflTransGen Goes (k.rootNode, [], text) y) ∧
        ∃ fuel offset, text.length < fuel ∧
          jsonSolveStr (s ++ ['\x00']) = loopAt fuel offset (Container.rootNode k, [], text) := by
  obtain ⟨blanks, text, rfl, hblanks, htext⟩ := exists_skipped isSplitChar s
  -- The blanks before the root are skipped, and the turn at what follows decides.
  have hskip : Relation.ReflTransGen Goes ({}, [], blanks ++ text) ({}, [], text) :=
    (reflTransGen_blanks hblanks {} [] text).lift id fun _ _ => .move
  have hlen : (blanks ++ text).length < (blanks ++ text ++ ['\x00']).length := by simp
  obtain ⟨-, fuel, offset, hfuel, heq⟩ := loopAt_of_goes hskip hs hlen 0
  have hsolve : jsonSolveStr (blanks ++ text ++ ['\x00']) = loopAt fuel offset ({}, [], text) := heq
  obtain ⟨fuel, rfl⟩ : ∃ m, fuel = m + 1 := ⟨fuel - 1, by omega⟩
  rcases text with _ | ⟨c, text⟩
  · refine .inl ⟨?_, .inl ⟨offset, {}, hsolve⟩⟩
    rintro y ⟨blanks', k, text, htext', -, -⟩
    have hsplit := hblanks k.opening (by
      rw [List.append_nil] at htext'
      rw [htext']
      exact List.mem_append_right _ List.mem_cons_self)
    rw [k.isSplitChar_opening] at hsplit
    cases hsplit
  have hc : isSplitChar c = false := htext c rfl
  have hn : c ≠ '\x00' := fun h => hs (by simp [h])
  have hnull := @solveTurn_null _ true hc [] (text ++ ['\x00']) offset
  rw [loopAt_turn hn hc, List.cons_append] at hsolve
  by_cases hopen : ∃ k, c = Container.opening k
  · obtain ⟨k, rfl⟩ := hopen
    refine .inr ⟨k, text, fun h => hs (by simp [h]), fun y => ⟨?_, fun hgoes =>
      ⟨blanks, k, text, rfl, hblanks, hgoes⟩⟩, fuel, offset + 1, by simpa using hfuel, ?_⟩
    · rintro ⟨blanks', k', text', heq', hblanks', hgoes⟩
      obtain ⟨-, hopening, rfl⟩ := stop_unique hblanks hblanks' k.isSplitChar_opening
        k'.isSplitChar_opening heq'
      rwa [Container.opening_inj.1 hopening]
    · have hturn : solveTurn true ⟨{}, [], k.opening :: (text ++ ['\x00']), offset⟩ =
          .done (.next ⟨k.rootNode, [], text ++ ['\x00'], offset + 1⟩) := by
        rw [hnull]
        cases k <;> rfl
      rw [hsolve, hturn, Outcome.done_bind]
      rfl
  · refine .inl ⟨?_, .inr ?_⟩
    · rintro y ⟨blanks', k', text', heq', hblanks', -⟩
      exact hopen ⟨k', (stop_unique hblanks hblanks' hc k'.isSplitChar_opening heq').2.1⟩
    · have hmap : c ≠ '{' := fun h => hopen ⟨.map, h⟩
      have harray : c ≠ '[' := fun h => hopen ⟨.array, h⟩
      rw [if_neg hmap, if_neg harray] at hnull
      rw [hsolve, hnull, Outcome.error_bind]

/-! ## The memory of the parser -/

/-- The parser stays within its memory, and refuses what is too long, exactly on the texts in which
    it comes to no name that is too long, and to no name or string that does not fit the buffer or
    ends in a backslash behind which the text ends. -/
theorem jsonSolveStr_bounded_iff {s : List Char} (hs : '\x00' ∉ s) :
    Bounded s ↔ ∀ y k, Comes s y → y.1.elemType = Container.elemType k →
      ¬ (k = .map ∧ LongName y.2.2) ∧ ¬ Spilling k y.2.2 := by
  rcases jsonSolveStr_start hs with ⟨hnone, hr⟩ | ⟨k₀, text, hnul, hcomes, fuel, offset, hfuel, hr⟩
  · refine iff_of_true ⟨?_, fun y k hy => absurd hy (hnone y)⟩ fun y k hy => absurd hy (hnone y)
    rcases hr with ⟨ret, root, hr⟩ | hr <;> simp [hr]
  · -- From a place that the parser comes to, the outcome is that of the turn there.
    have hturn : ∀ {y : Place}, Comes s y → (∃ c rest, y.2.2 = c :: rest ∧ isSplitChar c = false) →
        '\x00' ∉ y.2.2 ∧ ∃ fuel offset, jsonSolveStr (s ++ ['\x00']) =
          solveTurn true ⟨y.1, y.2.1, y.2.2 ++ ['\x00'], offset⟩ >>= Turn.follow (solveLoop true fuel) := by
      rintro ⟨node, fathers, text'⟩ hy ⟨c, rest, rfl, hc⟩
      obtain ⟨hnul', fuel', offset', hfuel', heq⟩ :=
        loopAt_of_goes ((hcomes _).1 hy) hnul hfuel offset
      obtain ⟨fuel', rfl⟩ : ∃ m, fuel' = m + 1 := ⟨fuel' - 1, by omega⟩
      have hn : c ≠ '\x00' := fun h => hnul' (by simp [h])
      exact ⟨hnul', fuel', offset', by rw [hr, heq, loopAt_turn hn hc]⟩
    constructor
    · intro hbounded y k hy hk
      refine ⟨?_, fun hspill => ?_⟩
      · -- A name that is too long is refused with what it takes.
        rintro ⟨rfl, hlong⟩
        obtain ⟨c, rest, heq, hc, -⟩ := hlong.exists_head
        obtain ⟨-, fuel', offset', hr'⟩ := hturn hy ⟨c, rest, heq, hc⟩
        obtain ⟨ret, hreturned⟩ := @solveTurn_longName true _ _ hlong hk y.2.1
        obtain ⟨raw, content, after, htext, hchars, -, hlen⟩ := hlong
        obtain ⟨e, -, herror⟩ := hbounded.refuses y .map hy hk
          (.inl ⟨rfl, raw, content, after, htext, hchars, hlen⟩)
        rw [hreturned] at hr'
        rw [herror] at hr'
        cases hr'
      · obtain ⟨hnul', fuel', offset', hr'⟩ := hturn hy hspill.exists_head
        rw [solveTurn_spilling hspill hnul' hk, Outcome.fault_bind] at hr'
        exact hbounded.inside hr'
    · intro hfree
      have hframes : Frames (k₀.rootNode, [], text) [k₀] := .cons rfl .nil
      -- The loop stops somewhere, and not at what spills or is too long.
      obtain ⟨y, k, hgoes, hk, hstops⟩ := exists_stops hnul hframes hfuel offset
      have hy := hfree y k ((hcomes y).2 hgoes) hk
      refine ⟨fun hfault => ?_, fun y' k' hy' hk' hlong => ?_⟩
      · rw [hr] at hfault
        rw [hfault] at hstops
        cases hstops with
        | fault hspill => exact hy.2 hspill
      · obtain ⟨hnul', fuel', offset', hr'⟩ := hturn hy' hlong.exists_head
        have hfree' := hfree y' k' hy' hk'
        rcases solveTurn_tooLong hlong hnul' hk' y'.2.1 offset' with herr | hname | hspill
        · exact ⟨-EINVAL, by decide, by rw [hr', herr, Outcome.error_bind]⟩
        · exact absurd hname hfree'.1
        · exact absurd hspill hfree'.2

/-- What the parser comes to is an end of the text. -/
theorem Comes.suffix {s : List Char} (h : Comes s y) : y.2.2 <:+ s := by
  obtain ⟨blanks, k, text, rfl, -, hgoes⟩ := h
  refine List.IsSuffix.trans ?_ ((List.suffix_cons _ text).trans (List.suffix_append blanks _))
  -- What is left of the text grows shorter with every move.
  clear * - hgoes
  induction hgoes with
  | refl => exact List.suffix_rfl
  | tail _ hstep ih =>
    refine List.IsSuffix.trans ?_ ih
    rcases hstep.turn with ⟨d, -, rfl⟩ | ⟨d, rest, n, htext, -, -, -, ⟨piece, hpiece⟩, -⟩
    · exact List.suffix_cons d _
    · rw [htext, hpiece]
      exact List.suffix_append piece _

/-- In a text shorter than the memory for a name, without a backslash, nothing is too long. -/
theorem Comes.short {s : List Char} (h : Comes s y) (hlen : s.length < DIGEST_SIZE)
    (hs : '\\' ∉ s) (k : Container) : ¬ (k = .map ∧ LongName y.2.2) ∧ ¬ Spilling k y.2.2 := by
  have hle := h.suffix.length_le
  have hdigest : DIGEST_SIZE = 32 := rfl
  have hfits : ∀ lead body, y.2.2 = lead ++ '"' :: body → ¬ Spills body := by
    rintro lead _ htext ⟨raw, content, rest, rfl, hchars, ⟨hlong, -⟩ | ⟨-, -, rfl⟩⟩
    · have hraw := hchars.length_le
      rw [htext] at hle
      simp only [List.length_append, List.length_cons] at hle
      omega
    · exact hs (h.suffix.subset (by simp [htext]))
  constructor
  · rintro ⟨-, raw, content, rest, htext, -, -, hlong⟩
    rw [htext] at hle
    simp only [List.length_append, List.length_cons] at hle
    omega
  · rintro (⟨-, body, htext, hspills⟩ | ⟨lead, name, body, htext, -, hspills⟩)
    · exact hfits [] body htext hspills
    · exact hfits lead body htext hspills

/-- An object with names, a string and a number stays within the memory, though no `int` is the
    number. -/
theorem jsonSolveStr_bounded_iff_object :
    Bounded "\x7b\"a\":\"b\",\"c\":[99999999999]\x7d".toList :=
  (jsonSolveStr_bounded_iff (by decide)).2 fun _ k hy _ => hy.short (by decide) (by decide) k

/-- A string that ends in a backslash is read behind the text. -/
theorem bounded_not : ¬ Bounded ['[', '"', '\\'] := by
  intro h
  have hfault : jsonSolveStr (['[', '"', '\\'] ++ ['\x00']) = .fault := rfl
  exact h.inside hfault

end Cube.Json.Bounds
