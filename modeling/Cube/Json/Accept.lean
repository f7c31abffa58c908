import Cube.Json.Turn

/-!
# The texts that the JSON parser accepts

What `json_solve_str` makes of a text as a whole. A complete object or array at the
start of it is accepted; what follows is left to the next call, as the callers that
read several objects from one buffer have it.

* `jsonSolveStr_cases`: any other text is refused, or is one of those that are not:
  a text without its end, one with a name that is too long, one with an item that
  the parser does not hold.
* `jsonSolveStr_sound_iff`: the texts on which the parser does what is expected.
-/

namespace Cube.Json

open Lib

/-! ## The end of the loop -/

/-- The places where the loop ends, in a text of `total` characters, and how. -/
inductive Ends (total : Nat) : Place → Outcome (Nat × Option JsonNode) → Prop
  | closed {node : JsonNode} {k : Container} {rest : List Char} : node.elemType = k.elemType →
      Ends total (node, [], k.closing :: rest) (.done (total - rest.length, some node))
  | cut (node : JsonNode) (fathers : List JsonNode) :
      Ends total (node, fathers, [])
        (.done (total, some (fathers.foldl (fun child father => father.addChild child) node)))
  | refused {node : JsonNode} {fathers : List JsonNode} {text : List Char} :
      Ends total (node, fathers, text) (.error (-EINVAL))
  | longName {node : JsonNode} {fathers : List JsonNode} {text : List Char} {ret : Nat} :
      node.elemType = Container.map.elemType → LongName text →
      Ends total (node, fathers, text) (.done (ret, none))
  | fault {node : JsonNode} {fathers : List JsonNode} {k : Container} {text : List Char} :
      node.elemType = k.elemType → BadItem k text → Ends total (node, fathers, text) .fault

variable {c : Char} {rest s blanks text doc : List Char} {r : Outcome (Nat × Option JsonNode)}
  {k : Container} {root : JsonNode}

/-- The outcome of the loop is that of the turn it ends at. -/
theorem solves_of_last {total : Nat} {node : JsonNode} {fathers : List JsonNode}
    (hn : c ≠ '\x00') (hc : isSplitChar c = false)
    (hturn : ∀ offset loop, offset + (c :: rest).length = total →
      (solveTurn false ⟨node, fathers, c :: rest ++ ['\x00'], offset⟩ >>= Turn.follow loop) = r) :
    Solves total (node, fathers, c :: rest) r := by
  intro fuel offset htotal hfuel
  obtain ⟨fuel, rfl⟩ : ∃ m, fuel = m + 1 := ⟨fuel - 1, by omega⟩
  simp only at htotal hfuel
  rw [List.cons_append, solveLoop_turn hn hc]
  exact hturn offset _ htotal

/-- A closed root ends the loop. -/
theorem solves_closed {node : JsonNode} (hk : node.elemType = k.elemType)
    (total : Nat) (rest : List Char) :
    Solves total (node, [], k.closing :: rest) (.done (total - rest.length, some node)) := by
  refine solves_of_last k.closing_ne_nul k.isSplitChar_closing fun offset loop htotal => ?_
  have hoffset : total - rest.length = offset + 1 := by
    rw [← htotal, List.length_cons]
    omega
  rw [hoffset]
  cases k <;> simp only [solveTurn, hk, Container.elemType] <;> rfl

/-- The end of the text ends the loop. -/
theorem solves_cut (node : JsonNode) (fathers : List JsonNode) (total : Nat) :
    Solves total (node, fathers, [])
      (.done (total, some (fathers.foldl (fun child father => father.addChild child) node))) := by
  intro fuel offset htotal hfuel
  obtain ⟨fuel, rfl⟩ : ∃ m, fuel = m + 1 := ⟨fuel - 1, by omega⟩
  obtain rfl : offset = total := by simpa using htotal
  rfl

theorem not_nul_of_moves {x y : Place} {falsehood : Option Int} (h : Moves falsehood x y)
    (hx : '\x00' ∉ x.2.2) : '\x00' ∉ y.2.2 ∧ y.2.2.length < x.2.2.length := by
  obtain ⟨node, fathers, text⟩ := x
  obtain ⟨node', fathers', rest⟩ := y
  obtain ⟨piece, hne, rfl, -⟩ := h.exists_piece
  have hpos := List.length_pos_of_ne_nil hne
  refine ⟨fun h => hx (List.mem_append_right piece h), ?_⟩
  simp only [List.length_append]
  omega

/-- The loop comes to an end from any place in containers. -/
theorem exists_end {x : Place} (hx : '\x00' ∉ x.2.2) {ks : List Container} (hframes : Frames x ks)
    (total : Nat) :
    ∃ y r, Relation.ReflTransGen (Moves (some 1)) x y ∧ Solves total y r ∧ Ends total y r := by
  induction hn : x.2.2.length using Nat.strongRecOn generalizing x ks with
  | ind n ih =>
    -- A move leaves less of the text, to which the induction applies.
    have hmove : (∃ y, Moves (some 1) x y) → ∃ y r, Relation.ReflTransGen (Moves (some 1)) x y ∧
        Solves total y r ∧ Ends total y r := by
      rintro ⟨y, hy⟩
      obtain ⟨hnul, hlt⟩ := not_nul_of_moves hy hx
      obtain ⟨ks', hframes'⟩ := hframes.of_moves hy
      obtain ⟨z, r, hmoves, hz⟩ := ih _ (by omega) hnul hframes' rfl
      exact ⟨z, r, .head hy hmoves, hz⟩
    obtain ⟨node, fathers, text⟩ := x
    rcases text with _ | ⟨c, rest⟩
    · exact ⟨_, _, .refl, solves_cut node fathers total, .cut node fathers⟩
    have hnul : c ≠ '\x00' := fun h => hx (by simp [h])
    by_cases hc : isSplitChar c
    · exact hmove ⟨_, .blank hc⟩
    rw [Bool.not_eq_true] at hc
    obtain ⟨k, hk⟩ : ∃ k, node.elemType = Container.elemType k := by
      cases hframes with
      | @cons _ k _ _ hk _ => exact ⟨k, hk⟩
    by_cases hclose : c = k.closing
    · subst hclose
      rcases fathers with _ | ⟨father, fathers⟩
      · exact ⟨_, _, .refl, solves_closed hk total rest, .closed hk⟩
      · exact hmove ⟨_, .close hk⟩
    by_cases hmoves : ∃ y, Moves (some 1) (node, fathers, c :: rest) y
    · exact hmove hmoves
    by_cases hlong : k = .map ∧ LongName (c :: rest)
    · obtain ⟨rfl, hlong⟩ := hlong
      obtain ⟨ret, hturn⟩ := solveTurn_longName hlong hk fathers
      exact ⟨_, _, .refl, solves_of_last hnul hc fun offset loop _ => by rw [hturn]; rfl,
        (.longName hk hlong : Ends total _ (.done (ret, none)))⟩
    by_cases hbad : BadItem k (c :: rest)
    · exact ⟨_, _, .refl, solves_of_last hnul hc fun offset loop _ => by
        rw [solveTurn_fault hbad hx hk, Outcome.fault_bind], .fault hk hbad⟩
    · refine ⟨_, _, .refl, solves_of_last hnul hc fun offset loop _ => ?_, .refused⟩
      rcases solveTurn_cases hk hc hx fathers offset with h | h | h | h | h
      · exact absurd h hclose
      · exact absurd h hmoves
      · rw [h, Outcome.error_bind]
      · exact absurd h hlong
      · exact absurd h hbad

/-! ## The start of the loop -/

/-- The outcome of `json_solve_str` is that of the loop at a node of no type. -/
theorem jsonSolveStr_eq (h : Solves s.length ({}, [], s) r) : jsonSolveStr (s ++ ['\x00']) = r := by
  refine h _ 0 (Nat.zero_add _) ?_
  rw [List.length_append]
  exact Nat.lt_succ_self _

/-- The loop over blanks. -/
theorem reflTransGen_blanks {falsehood : Option Int}
    (hblanks : ∀ c ∈ blanks, isSplitChar c) (node : JsonNode) (fathers : List JsonNode)
    (rest : List Char) :
    Relation.ReflTransGen (Moves falsehood) (node, fathers, blanks ++ rest)
      (node, fathers, rest) := by
  induction blanks with
  | nil => exact .refl
  | cons c blanks ih =>
    exact .head (.blank (hblanks c List.mem_cons_self))
      (ih fun d hd => hblanks d (List.mem_cons_of_mem c hd))

/-- The turn at a node of no type. -/
theorem solveTurn_null {wide : Bool} (hc : isSplitChar c = false) (fathers : List JsonNode)
    (rest : List Char) (offset : Nat) :
    solveTurn wide ⟨{}, fathers, c :: rest, offset⟩ =
      if c = '{' then .done (.next ⟨Container.map.rootNode, fathers, rest, offset + 1⟩)
      else if c = '[' then .done (.next ⟨Container.array.rootNode, fathers, rest, offset + 1⟩)
      else .error (-EINVAL) := by
  have hnil : ∀ d ∈ ([] : List Char), isSplitChar d := by simp
  have hskip := Parser.skip_append {} fathers hnil hc rest offset
  rw [List.nil_append] at hskip
  simp only [solveTurn, solveNull, hskip]
  rfl

/-- The bracket of the root. -/
theorem solves_opening {total : Nat} (h : Solves total (k.rootNode, [], text) r) :
    Solves total ({}, [], k.opening :: text) r := by
  refine solves_of_turn k.opening_ne_nul k.isSplitChar_opening (n := 1) (Nat.add_comm _ _)
    Nat.one_pos (fun offset => ?_) h
  rw [List.cons_append, solveTurn_null k.isSplitChar_opening]
  cases k <;> rfl

/-- The outcome of `json_solve_str` is that of the loop at a place in the root. -/
theorem jsonSolveStr_of_moves {y : Place}
    (hblanks : ∀ c ∈ blanks, isSplitChar c) (hs : '\x00' ∉ blanks ++ k.opening :: text)
    (hmoves : Relation.ReflTransGen (Moves (some 1)) (k.rootNode, [], text) y)
    (hr : Solves (blanks ++ k.opening :: text).length y r) :
    jsonSolveStr (blanks ++ k.opening :: text ++ ['\x00']) = r := by
  have hnul : '\x00' ∉ text := fun h =>
    hs (List.mem_append_right blanks (List.mem_cons_of_mem _ h))
  exact jsonSolveStr_eq (solves_of_reflTransGen (reflTransGen_blanks hblanks _ _ _) hs
    (solves_opening (solves_of_reflTransGen hmoves hnul hr)))

/-- A text that does not start with a bracket is refused. -/
theorem solves_no_opening {total : Nat} (hn : c ≠ '\x00') (hc : isSplitChar c = false)
    (hopen : ∀ k, c ≠ Container.opening k) (text : List Char) :
    Solves total ({}, [], c :: text) (.error (-EINVAL)) := by
  refine solves_of_last hn hc fun offset loop _ => ?_
  have hmap : c ≠ '{' := hopen .map
  have harray : c ≠ '[' := hopen .array
  rw [List.cons_append, solveTurn_null hc, if_neg hmap, if_neg harray, Outcome.error_bind]

/-- A complete object or array is accepted, whatever follows it. -/
theorem jsonSolveStr_document (h : Document (some 1) doc root) (hs : '\x00' ∉ doc ++ rest) :
    jsonSolveStr (doc ++ rest ++ ['\x00']) = .done (doc.length, some root) := by
  obtain ⟨blanks, k, text, nodes, rfl, hblanks, hitems, rfl⟩ := h
  have hroot : k.rootNode.elemType = k.elemType := rfl
  have hgrown : (k.rootNode.extend nodes).elemType = k.elemType := rfl
  have hmoves := (hitems.append rest).reflTransGen hroot []
  have hclosed := solves_closed hgrown (blanks ++ k.opening :: text ++ rest).length rest
  have hlen : (blanks ++ k.opening :: text ++ rest).length - rest.length =
      (blanks ++ k.opening :: text).length := by
    rw [List.length_append]
    omega
  rw [hlen] at hclosed
  refine jsonSolveStr_eq (solves_of_reflTransGen (y := ({}, [], k.opening :: (text ++ rest))) ?_ hs
    (solves_opening (solves_of_reflTransGen hmoves ?_ hclosed)))
  · rw [List.append_assoc, List.cons_append]
    exact reflTransGen_blanks hblanks _ _ _
  · intro h
    refine hs ?_
    simp only [List.append_assoc, List.cons_append, List.mem_append, List.mem_cons] at h ⊢
    tauto

/-! ## Places in a text -/

/-- A text that leaves the brackets of containers open, the innermost first: it lacks
    only the brackets that close them, and does not end within a number. -/
def Leaves (text : List Char) (ks : List Container) : Prop :=
  (∀ c, text.getLast? = some c → c.isDigit = false) ∧
    ∃ root, Document (some 0) (text ++ ks.map Container.closing) root

/-- A text without its end: it is blank, or leaves brackets open. -/
def Unfinished (s : List Char) : Prop :=
  (∀ c ∈ s, isSplitChar c) ∨ ∃ ks, ks ≠ [] ∧ Leaves s ks

/-- A text with a name that is too long where a member may be. -/
def HasLongName (s : List Char) : Prop :=
  ∃ pre text ks, s = pre ++ text ∧ Leaves pre (.map :: ks) ∧ LongName text

/-- A text with an item that the parser does not hold, where an item may be. -/
def HasBadItem (s : List Char) : Prop :=
  ∃ pre text k ks, s = pre ++ text ∧ Leaves pre (k :: ks) ∧ BadItem k text

/-- A text that starts with an object or array with a word for false. -/
def HasFalse (s : List Char) : Prop :=
  ∃ doc rest root, s = doc ++ rest ∧ Document (some 0) doc root ∧ ¬ ∃ root, Document none doc root

theorem Document.reword {falsehood : Option Int}
    (h : Document falsehood doc root) (v : Int) : ∃ root, Document (some v) doc root := by
  obtain ⟨blanks, k, text, nodes, rfl, hblanks, hitems, -⟩ := h
  obtain ⟨nodes', hitems'⟩ := hitems.reword v
  exact ⟨_, blanks, k, text, nodes', rfl, hblanks, hitems', rfl⟩

theorem Document.mono (h : Document none doc root)
    (falsehood : Option Int) : Document falsehood doc root := by
  obtain ⟨blanks, k, text, nodes, rfl, hblanks, hitems, rfl⟩ := h
  exact ⟨blanks, k, text, nodes, rfl, hblanks, hitems.mono falsehood, rfl⟩

/-- A tree that is that of a text also where a word for false stands for true is that
    of a text without the words for false. -/
theorem Document.of_true (h : Document (some 0) doc root)
    (htrue : Document (some 1) doc root) : Document none doc root := by
  obtain ⟨blanks, k, text, nodes, rfl, hblanks, hitems, rfl⟩ := h
  obtain ⟨_, _, _, nodes', -, -, hitems', hroot⟩ := htrue
  have hnodes : nodes = nodes' := by
    simpa [JsonNode.extend, Container.rootNode] using congrArg JsonNode.childlist hroot
  subst hnodes
  exact ⟨blanks, k, text, nodes, rfl, hblanks, hitems.of_truthful hitems'.truthful, rfl⟩

theorem closers_map (ks : List Container) : Closers (ks.map Container.closing) := by
  intro c hc
  obtain ⟨k, -, rfl⟩ := List.mem_map.1 hc
  exact ⟨k, rfl⟩

/-- The brackets that close containers hold no NUL. -/
theorem not_nul_closers (hs : '\x00' ∉ s) (ks : List Container) :
    '\x00' ∉ s ++ ks.map Container.closing := by
  intro hmem
  rcases List.mem_append.1 hmem with hmem | hmem
  · exact hs hmem
  · obtain ⟨k, hk⟩ := closers_map ks _ hmem
    exact k.closing_ne_nul hk.symm

/-- A place that a reader comes to, before what ends no value, is after a text that
    leaves the brackets of its containers open. -/
theorem leaves_of_reflTransGen (hblanks : ∀ c ∈ blanks, isSplitChar c) {x : Place}
    (h : Relation.ReflTransGen (Moves (some 1)) (k.rootNode, [], text) x)
    (hend : ¬ EndsValue x.2.2) :
    ∃ pre ks, text = pre ++ x.2.2 ∧ Frames x ks ∧ Leaves (blanks ++ k.opening :: pre) ks := by
  have hstart : Frames (k.rootNode, [], text) [k] := .cons rfl .nil
  obtain ⟨ks, hframes⟩ := hstart.of_reflTransGen h
  obtain ⟨pre, htext, hlast, hmoves⟩ := exists_pieces h
  refine ⟨pre, ks, htext, hframes, fun c hc => ?_, ?_⟩
  · rcases eq_or_ne pre [] with rfl | hpre
    · rw [List.getLast?_concat, Option.some.injEq] at hc
      subst hc
      cases k <;> rfl
    · rw [← List.singleton_append, ← List.append_assoc, List.getLast?_append_of_ne_nil _ hpre] at hc
      by_contra hdigit
      exact hend (hlast c hc (by simpa using hdigit))
  · obtain ⟨root, hroot⟩ : ∃ root, Closes (some 1) (x.1, x.2.1, ks.map Container.closing) root [] :=
      hframes.closes
    have hcloses := Closes.of_reflTransGen (hmoves _ fun h => absurd h hend) hroot
    obtain ⟨k', nodes, rest, hk, hitems, rfl, rfl⟩ := closes_iff.1 hcloses
    obtain rfl := Container.elemType_inj.1 (show k.elemType = k'.elemType from hk)
    exact Document.reword ⟨blanks, k, _, nodes, by simp, hblanks, hitems, rfl⟩ 0

/-- A reader comes to the end of a text that leaves brackets open. -/
theorem Leaves.exists_place {pre : List Char} {ks : List Container} (h : Leaves pre ks)
    (hne : ks ≠ []) :
    ∃ blanks k text node fathers, pre = blanks ++ Container.opening k :: text ∧
      (∀ c ∈ blanks, isSplitChar c) ∧ Frames (node, fathers, []) ks ∧
      ∀ rest, Relation.ReflTransGen (Moves (some 1)) (k.rootNode, [], text ++ rest)
        (node, fathers, rest) := by
  obtain ⟨hlast, root, hdoc⟩ := h
  obtain ⟨root', blanks, k, text, nodes, heq, hblanks, hitems, -⟩ := hdoc.reword 1
  have heq' : (blanks ++ [k.opening]) ++ text = pre ++ ks.map Container.closing := by
    rw [heq, List.append_assoc, List.singleton_append]
  obtain ⟨mid, rfl, rfl⟩ := exists_before_closers heq' (closers_map ks)
    ⟨k.opening, List.getLast?_concat, fun k' => k.opening_ne_closing k'⟩
  have hcloses : Closes (some 1) (k.rootNode, [], mid ++ ks.map Container.closing)
      (k.rootNode.extend nodes) [] := .root rfl hitems
  obtain ⟨node, fathers, hmoves, hend⟩ := hcloses.reflTransGen (closers_map ks) (by simpa using hne)
    fun d hd => hlast d (by
      rw [List.getLast?_append_of_ne_nil _ fun h => by simp [h] at hd, hd])
  exact ⟨blanks, k, mid, node, fathers, by simp, hblanks, hend.frames, hmoves⟩

/-! ## What comes of a text -/

theorem EndsValue.head (h : EndsValue (c :: rest)) :
    isSplitChar c ∨ ∃ k, c = Container.closing k := by
  obtain ⟨d, tail, heq, hd, hn⟩ := h
  obtain ⟨rfl, -⟩ := List.cons.inj heq
  simp only [isValueEnd, Bool.or_eq_true, beq_iff_eq] at hd
  rcases hd with (((((((rfl | rfl) | rfl) | rfl) | rfl) | rfl) | rfl) | rfl)
  · exact .inl rfl
  · exact .inl rfl
  · exact absurd rfl hn
  · exact .inr ⟨.map, rfl⟩
  · exact .inr ⟨.array, rfl⟩
  all_goals exact .inl rfl

/-- What a text where an item may be starts with, if it ends no value. -/
theorem not_endsValue (hc : isSplitChar c = false)
    (hclose : ∀ k, c ≠ Container.closing k) (rest : List Char) : ¬ EndsValue (c :: rest) := by
  intro h
  rcases h.head with h | ⟨k, hk⟩
  · simp [hc] at h
  · exact hclose k hk

theorem LongName.exists_head (h : LongName text) :
    ∃ c rest, text = c :: rest ∧ isSplitChar c = false ∧ ∀ k, c ≠ Container.closing k := by
  obtain ⟨raw, content, rest, rfl, -⟩ := h
  exact ⟨_, _, rfl, rfl, fun k => by cases k <;> decide⟩

theorem BadItem.exists_head (h : BadItem k text) :
    ∃ c rest, text = c :: rest ∧ isSplitChar c = false ∧ ∀ k, c ≠ Container.closing k := by
  have hquote : ∀ k, '"' ≠ Container.closing k := fun k => by cases k <;> decide
  rcases h with ⟨-, body, rfl, -⟩ | ⟨lead, name, rest, rfl, hlead, hbad⟩
  · exact ⟨_, _, rfl, rfl, hquote⟩
  · cases hlead with
    | element => exact hbad.exists_head
    | member _ _ _ _ => exact ⟨_, _, rfl, rfl, hquote⟩

/-- The run of the parser over a text, from the bracket of the root, if it starts with
    one, to the end of the loop. -/
theorem exists_run (hs : '\x00' ∉ s) :
    ((∀ c ∈ s, isSplitChar c) ∧ jsonSolveStr (s ++ ['\x00']) = .done (s.length, some {})) ∨
      jsonSolveStr (s ++ ['\x00']) = .error (-EINVAL) ∨
      ∃ blanks k text x, s = blanks ++ Container.opening k :: text ∧
        (∀ c ∈ blanks, isSplitChar c) ∧
        Relation.ReflTransGen (Moves (some 1)) (k.rootNode, [], text) x ∧
        Ends s.length x (jsonSolveStr (s ++ ['\x00'])) := by
  obtain ⟨blanks, text, rfl, hblanks, htext⟩ := exists_skipped isSplitChar s
  have hstart : ∀ {r}, Solves (blanks ++ text).length ({}, [], text) r →
      jsonSolveStr (blanks ++ text ++ ['\x00']) = r := fun h =>
    jsonSolveStr_eq (solves_of_reflTransGen (reflTransGen_blanks hblanks _ _ _) hs h)
  rcases text with _ | ⟨c, text⟩
  · exact .inl ⟨by simpa using hblanks, hstart (by simpa using solves_cut {} [] _)⟩
  have hn : c ≠ '\x00' := fun h => hs (by simp [h])
  by_cases hopen : ∃ k, c = Container.opening k
  · obtain ⟨k, rfl⟩ := hopen
    have hnul : '\x00' ∉ text := fun h => hs (by simp [h])
    have hframes : Frames (k.rootNode, [], text) [k] := .cons rfl .nil
    obtain ⟨x, r, hmoves, hsolves, hends⟩ :=
      exists_end hnul hframes (blanks ++ k.opening :: text).length
    have hr := hstart (solves_opening (solves_of_reflTransGen hmoves hnul hsolves))
    exact .inr (.inr ⟨blanks, k, text, x, rfl, hblanks, hmoves, hr ▸ hends⟩)
  · exact .inr (.inl (hstart (solves_no_opening hn (htext c rfl)
      (fun k hk => hopen ⟨k, hk⟩) text)))

/-- Up to the bracket that closes the root, a text is that of the items of the root. -/
theorem document_of_reflTransGen (hblanks : ∀ c ∈ blanks, isSplitChar c)
    {k' : Container} {node : JsonNode}
    (hmoves : Relation.ReflTransGen (Moves (some 1)) (k.rootNode, [], text)
      (node, [], k'.closing :: rest)) (hk : node.elemType = k'.elemType) :
    ∃ pieces, text = pieces ++ k'.closing :: rest ∧
      Document (some 1) (blanks ++ k.opening :: (pieces ++ [k'.closing])) node := by
  obtain ⟨pieces, htext, -, hpieces⟩ := exists_pieces hmoves
  have hclose : Closes (some 1) (node, [], [k'.closing]) (node.extend []) [] := .root hk .close
  have hcloses := Closes.of_reflTransGen (hpieces [k'.closing] fun _ =>
    ⟨_, [], rfl, k'.isValueEnd_closing, k'.closing_ne_nul⟩) hclose
  obtain ⟨k'', nodes, after, hk'', hitems, hroot, rfl⟩ := closes_iff.1 hcloses
  obtain rfl := Container.elemType_inj.1 (show k.elemType = k''.elemType from hk'')
  rw [JsonNode.extend_nil] at hroot
  exact ⟨pieces, htext, blanks, k, _, nodes, rfl, hblanks, hitems, hroot⟩

/-- What comes of a text: a complete object or array at its start is accepted; else it
    is refused, or one of the others comes out in its own way. -/
theorem jsonSolveStr_cases (hs : '\x00' ∉ s) :
    (∃ doc rest root, s = doc ++ rest ∧ Document (some 1) doc root ∧
        jsonSolveStr (s ++ ['\x00']) = .done (doc.length, some root)) ∨
      (Unfinished s ∧ ∃ root, jsonSolveStr (s ++ ['\x00']) = .done (s.length, some root)) ∨
      jsonSolveStr (s ++ ['\x00']) = .error (-EINVAL) ∨
      (HasLongName s ∧ ∃ ret, jsonSolveStr (s ++ ['\x00']) = .done (ret, none)) ∨
      (HasBadItem s ∧ jsonSolveStr (s ++ ['\x00']) = .fault) := by
  rcases exists_run hs with ⟨hblanks, hr⟩ | hr | ⟨blanks, k, text, x, rfl, hblanks, hmoves, hends⟩
  · exact .inr (.inl ⟨.inl hblanks, _, hr⟩)
  · exact .inr (.inr (.inl hr))
  · generalize jsonSolveStr (blanks ++ k.opening :: text ++ ['\x00']) = r at hends ⊢
    cases hends with
    | @closed node k' rest hk =>
      obtain ⟨pieces, rfl, hdoc⟩ := document_of_reflTransGen hblanks hmoves hk
      refine .inl ⟨_, rest, node, by simp, hdoc, ?_⟩
      congr 2
      simp only [List.length_append, List.length_cons, List.length_nil]
      omega
    | cut node fathers =>
      obtain ⟨pre, ks, htext', hframes, hleaves⟩ := leaves_of_reflTransGen hblanks hmoves
        (fun ⟨_, _, h, _⟩ => by simp at h)
      rw [List.append_nil] at htext'
      subst htext'
      exact .inr (.inl ⟨.inr ⟨ks, hframes.ne_nil, hleaves⟩, _, rfl⟩)
    | refused => exact .inr (.inr (.inl rfl))
    | @longName node fathers rest ret hk hlong =>
      obtain ⟨d, tail, rfl, hd, hclose⟩ := hlong.exists_head
      obtain ⟨pre, ks, htext', hframes, hleaves⟩ := leaves_of_reflTransGen hblanks hmoves
        (not_endsValue hd hclose tail)
      obtain ⟨ks', rfl⟩ := hframes.exists_cons hk
      exact .inr (.inr (.inr (.inl ⟨⟨_, _, ks', by simp [htext'], hleaves, hlong⟩, ret, rfl⟩)))
    | @fault node fathers k' rest hk hbad =>
      obtain ⟨d, tail, rfl, hd, hclose⟩ := hbad.exists_head
      obtain ⟨pre, ks, htext', hframes, hleaves⟩ := leaves_of_reflTransGen hblanks hmoves
        (not_endsValue hd hclose tail)
      obtain ⟨ks', rfl⟩ := hframes.exists_cons hk
      exact .inr (.inr (.inr (.inr ⟨⟨_, _, k', ks', by simp [htext'], hleaves, hbad⟩, rfl⟩)))

/-- After a text that leaves brackets open, what comes is what comes of the place
    there. -/
theorem Leaves.jsonSolveStr_eq {pre : List Char} {ks : List Container} (h : Leaves pre ks)
    (hne : ks ≠ []) :
    ∃ node fathers, Frames (node, fathers, []) ks ∧ ∀ {text : List Char}
      {r : Outcome (Nat × Option JsonNode)}, '\x00' ∉ pre ++ text →
      Solves (pre ++ text).length (node, fathers, text) r →
      jsonSolveStr (pre ++ text ++ ['\x00']) = r := by
  obtain ⟨blanks, k, mid, node, fathers, rfl, hblanks, hframes, hmoves⟩ := h.exists_place hne
  refine ⟨node, fathers, hframes, fun {text} {r} hs hr => ?_⟩
  have heq : blanks ++ k.opening :: mid ++ text = blanks ++ k.opening :: (mid ++ text) := by
    rw [List.append_assoc, List.cons_append]
  rw [heq] at hs hr ⊢
  exact jsonSolveStr_of_moves hblanks hs (hmoves text) hr

/-- A text without its end is accepted. -/
theorem jsonSolveStr_unfinished (hs : '\x00' ∉ s) (h : Unfinished s) :
    ∃ root, jsonSolveStr (s ++ ['\x00']) = .done (s.length, some root) := by
  rcases h with hblanks | ⟨ks, hne, hleaves⟩
  · have hmoves : Relation.ReflTransGen (Moves (some 1)) ({}, [], s ++ []) ({}, [], []) :=
      reflTransGen_blanks hblanks {} [] []
    rw [List.append_nil] at hmoves
    exact ⟨_, jsonSolveStr_eq (solves_of_reflTransGen hmoves hs (solves_cut _ _ _))⟩
  · obtain ⟨node, fathers, -, hsolve⟩ := hleaves.jsonSolveStr_eq hne
    have hs' : '\x00' ∉ s ++ [] := by rwa [List.append_nil]
    have hr := hsolve hs' (solves_cut node fathers (s ++ []).length)
    rw [List.append_nil] at hr
    exact ⟨_, hr⟩

/-- A text with a name that is too long is given a value, and no root. -/
theorem jsonSolveStr_longName (hs : '\x00' ∉ s) (h : HasLongName s) :
    ∃ ret, jsonSolveStr (s ++ ['\x00']) = .done (ret, none) := by
  obtain ⟨pre, text, ks, rfl, hleaves, hlong⟩ := h
  obtain ⟨node, fathers, hframes, hsolve⟩ := hleaves.jsonSolveStr_eq (by simp)
  cases hframes with
  | cons hk _ =>
    obtain ⟨ret, hturn⟩ := solveTurn_longName hlong hk fathers
    obtain ⟨c, rest, rfl, hc, -⟩ := hlong.exists_head
    have hn : c ≠ '\x00' := fun h => hs (by simp [h])
    exact ⟨ret, hsolve hs (solves_of_last hn hc fun offset loop _ => by rw [hturn]; rfl)⟩

/-- A text with an item that the parser does not hold is a fault. -/
theorem jsonSolveStr_badItem (hs : '\x00' ∉ s) (h : HasBadItem s) :
    jsonSolveStr (s ++ ['\x00']) = .fault := by
  obtain ⟨pre, text, k, ks, rfl, hleaves, hbad⟩ := h
  obtain ⟨node, fathers, hframes, hsolve⟩ := hleaves.jsonSolveStr_eq (by simp)
  have htext : '\x00' ∉ text := fun h => hs (List.mem_append_right pre h)
  cases hframes with
  | cons hk _ =>
    have hturn := solveTurn_fault hbad htext hk fathers
    obtain ⟨c, rest, rfl, hc, -⟩ := hbad.exists_head
    have hn : c ≠ '\x00' := fun h => htext (by simp [h])
    exact hsolve hs (solves_of_last hn hc fun offset loop _ => by rw [hturn, Outcome.fault_bind])

/-! ## Acceptance -/

/-- What is expected of `json_solve_str` on a text: that it comes to an end; that it
    returns a value only with the root set to the tree of a complete object or array
    at the start of the text, the value being the number of the characters of that;
    and that it returns an error for any other text. -/
structure Sound (s : List Char) : Prop where
  returns : jsonSolveStr (s ++ ['\x00']) ≠ .fault
  accepts : ∀ ret root, jsonSolveStr (s ++ ['\x00']) = .done (ret, root) →
    ∃ doc rest tree, s = doc ++ rest ∧ Document (some 0) doc tree ∧ root = some tree ∧
      ret = doc.length
  refuses : (¬ ∃ doc rest tree, s = doc ++ rest ∧ Document (some 0) doc tree) →
    ∃ e, e < 0 ∧ jsonSolveStr (s ++ ['\x00']) = .error e

/-- A complete object or array does not go on as another. -/
theorem Document.eq_nil_of_append {root' : JsonNode}
    (h : Document (some 1) doc root) (h' : Document (some 1) (doc ++ rest) root')
    (hs : '\x00' ∉ doc ++ rest) : rest = [] := by
  have hs' : '\x00' ∉ doc ++ rest ++ [] := by rwa [List.append_nil]
  have hlong := jsonSolveStr_document h' hs'
  rw [List.append_nil, jsonSolveStr_document h hs, Outcome.done.injEq, Prod.mk.injEq,
    List.length_append] at hlong
  exact List.length_eq_zero_iff.1 (by omega)

/-- A text without its end is none of an object or array. -/
theorem Unfinished.not_document (h : Unfinished s) (hs : '\x00' ∉ s)
    (root : JsonNode) : ¬ Document (some 1) s root := by
  intro hdoc
  rcases h with hblanks | ⟨ks, hne, -, root', hleaves⟩
  · obtain ⟨blanks, k, text, nodes, rfl, -⟩ := hdoc
    have hc := hblanks k.opening (by simp)
    simp [k.isSplitChar_opening] at hc
  · obtain ⟨root'', hdoc'⟩ := hleaves.reword 1
    exact hne (List.map_eq_nil_iff.1 (hdoc.eq_nil_of_append hdoc' (not_nul_closers hs ks)))

/-- A text without its end is accepted as one that has it. -/
theorem Unfinished.not_sound (h : Unfinished s) (hs : '\x00' ∉ s) :
    ¬ Sound s := by
  intro hsound
  -- The root would be that of the text as a whole, which is none.
  obtain ⟨root, hr⟩ := jsonSolveStr_unfinished hs h
  obtain ⟨doc, rest, tree, hdoc, htree, -, hlen⟩ := hsound.accepts _ _ hr
  have hnil : rest = [] := by
    rw [hdoc, List.length_append] at hlen
    exact List.length_eq_zero_iff.1 (by omega)
  rw [hnil, List.append_nil] at hdoc
  obtain ⟨root', hdoc'⟩ := htree.reword 1
  exact h.not_document hs root' (hdoc ▸ hdoc')

/-- `json_solve_str` does what is expected of it exactly on the texts that have their
    end, no name that is too long, no item that the parser does not hold and no word
    for false. -/
theorem jsonSolveStr_sound_iff {s : List Char} (hs : '\x00' ∉ s) :
    Sound s ↔ ¬ Unfinished s ∧ ¬ HasLongName s ∧ ¬ HasBadItem s ∧ ¬ HasFalse s := by
  constructor
  · intro h
    refine ⟨fun hcut => ?_, fun hlong => ?_, fun hbad => ?_, fun hfalse => ?_⟩
    · exact hcut.not_sound hs h
    · obtain ⟨ret, hr⟩ := jsonSolveStr_longName hs hlong
      obtain ⟨_, _, tree, -, -, hroot, -⟩ := h.accepts _ _ hr
      exact absurd hroot (by simp)
    · exact h.returns (jsonSolveStr_badItem hs hbad)
    · obtain ⟨doc, rest, root, rfl, hdoc, hnone⟩ := hfalse
      obtain ⟨root₁, hdoc₁⟩ := hdoc.reword 1
      obtain ⟨doc', rest', tree, heq, htree, hroot, hlen⟩ :=
        h.accepts _ _ (jsonSolveStr_document hdoc₁ hs)
      obtain rfl := Option.some.inj hroot
      obtain ⟨rfl, -⟩ := List.append_inj heq hlen
      exact hnone ⟨_, htree.of_true hdoc₁⟩
  · rintro ⟨hcut, hlong, hbad, hfalse⟩
    rcases jsonSolveStr_cases hs with ⟨doc, rest, root, rfl, hdoc, hr⟩ | ⟨h, -⟩ | hr | ⟨h, -⟩ | ⟨h, -⟩
    · obtain ⟨root₀, hdoc₀⟩ := hdoc.reword 0
      have hnone : ∃ root, Document none doc root := by
        by_contra hnone
        exact hfalse ⟨doc, rest, root₀, rfl, hdoc₀, hnone⟩
      obtain ⟨tree, htree⟩ := hnone
      have hr' := jsonSolveStr_document (htree.mono (some 1)) hs
      refine ⟨by rw [hr]; simp, fun ret root' hret => ?_, fun hno => ?_⟩
      · rw [hr', Outcome.done.injEq, Prod.mk.injEq] at hret
        exact ⟨doc, rest, tree, rfl, htree.mono (some 0), hret.2.symm, hret.1.symm⟩
      · exact absurd ⟨doc, rest, root₀, rfl, hdoc₀⟩ hno
    · exact absurd h hcut
    · exact ⟨by simp [hr], fun ret root h => by simp [hr] at h, fun _ => ⟨-EINVAL, by decide, hr⟩⟩
    · exact absurd h hlong
    · exact absurd h hbad

/-- A bracket alone leaves it open. -/
theorem unfinished_bracket : Unfinished ['['] := by
  refine .inr ⟨[.array], by simp, fun c hc => ?_, _, [], .array, [']'], [], rfl, by simp,
    .close, rfl⟩
  obtain rfl : '[' = c := by simpa using hc
  rfl

/-- An array of a string is accepted with its tree. -/
theorem sound_array : Sound ['[', '"', 'a', '"', ']'] := by
  have ha : Chars ['a'] ['a'] := .plain (by decide) (by decide) (by decide) .nil
  obtain ⟨root, hdoc⟩ : ∃ root, ∀ falsehood, Document falsehood ['[', '"', 'a', '"', ']'] root :=
    ⟨_, fun falsehood => ⟨[], .array, ['"', 'a', '"', ']'], _, rfl, nofun,
      .leaf .element (.string ha (by decide)) .close, rfl⟩⟩
  have hnul : '\x00' ∉ ['[', '"', 'a', '"', ']'] ++ [] := by decide
  have hsolve := jsonSolveStr_document (hdoc (some 1)) hnul
  have hwhole := (List.append_nil ['[', '"', 'a', '"', ']']).symm
  refine ⟨fun hfault => ?_, fun ret root' h => ?_, fun hnone =>
    absurd ⟨_, [], root, hwhole, hdoc (some 0)⟩ hnone⟩
  · cases hsolve.symm.trans hfault
  obtain ⟨rfl, rfl⟩ := Outcome.pair_inj (hsolve.symm.trans h)
  exact ⟨_, [], root, hwhole, hdoc (some 0), rfl, rfl⟩

theorem array_sound_bracket_not : Sound ['[', '"', 'a', '"', ']'] ∧ ¬ Sound ['['] :=
  ⟨sound_array, fun h => ((jsonSolveStr_sound_iff (by decide)).1 h).1 unfinished_bracket⟩

/-- An array that is cut off after its first element is accepted. -/
theorem array_cut_off : ¬ Sound ['[', '"', 'a', '"'] := by
  have ha : Chars ['a'] ['a'] := .plain (by decide) (by decide) (by decide) .nil
  obtain ⟨nodes, hitems⟩ : ∃ nodes, Items (some 0) .array ['"', 'a', '"', ']'] nodes [] :=
    ⟨_, .leaf .element (.string ha (by decide)) .close⟩
  refine Unfinished.not_sound (.inr ⟨[.array], by simp, fun c hc => ?_, _, [], .array, _, nodes,
    rfl, by simp, hitems, rfl⟩) (by decide)
  obtain rfl : '"' = c := by simpa using hc
  rfl

end Cube.Json
