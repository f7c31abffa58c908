import Cube.Json.Built

/-!
# Texts that are cut off

What `json_solve_str` makes of the front of a complete object or array, as a caller
has it that reads the text in pieces.

* `Document.of_cut`: a tree for a text that is cut off is that of the whole text only
  where nothing but blanks and the last bracket are missing.
* `jsonSolveStr_none`: the value returned when the root is not set.
* `Document.length_members`: a text is longer than the names in it.
-/

namespace Cube.Json

open Lib

/-! ## The growth of the nodes -/

namespace JsonNode

/-- The nodes of trees, and the elements that they count. -/
def grade (nodes : List JsonNode) : Int :=
  ((nodesBelow nodes).map fun node => 1 + node.elemNo).sum

@[simp] theorem grade_nil : grade [] = 0 := by
  simp [grade]

theorem grade_cons (node : JsonNode) (nodes : List JsonNode) :
    grade (node :: nodes) = 1 + node.elemNo + grade node.childlist + grade nodes := by
  simp [grade, node.nodes_eq, Int.add_assoc]

theorem grade_append (l l' : List JsonNode) : grade (l ++ l') = grade l + grade l' := by
  simp [grade]

theorem grade_addChild (node child : JsonNode) (nodes : List JsonNode) :
    grade (node.addChild child :: nodes) = grade (node :: nodes) + grade [child] := by
  have hno : (node.addChild child).elemNo = node.elemNo := rfl
  have hchildren : (node.addChild child).childlist = node.childlist ++ [child] := rfl
  rw [grade_cons, grade_cons, hno, hchildren, grade_append]
  omega

theorem grade_countElem (node : JsonNode) (nodes : List JsonNode) :
    grade (node.countElem :: nodes) = grade (node :: nodes) + 1 := by
  have hno : node.countElem.elemNo = node.elemNo + 1 := rfl
  have hchildren : node.countElem.childlist = node.childlist := rfl
  rw [grade_cons, grade_cons, hno, hchildren]
  omega

theorem grade_rootOf (node : JsonNode) (fathers : List JsonNode) :
    grade [rootOf node fathers] = grade (node :: fathers) := by
  induction fathers generalizing node with
  | nil => rfl
  | cons father fathers ih =>
    rw [rootOf, List.foldl_cons, ← rootOf, ih, grade_addChild, grade_cons node, grade_cons node]
    simp only [grade_nil]
    omega

end JsonNode

open JsonNode (grade grade_nil grade_cons grade_rootOf)

variable {falsehood : Option Int}

variable {k : Container} {name after : List Char} {root : JsonNode} {ret : Nat} {wide : Bool}
  {p : Parser}

/-- A value that is no container counts for one. -/
theorem Leaf.grade_eq {token : List Char} {node : JsonNode}
    (h : Leaf falsehood k name token after node) : grade [node] = 1 := by
  rw [grade_cons, h.childlist_eq, grade_nil]
  cases h <;> rfl

variable {x y : Place} {s blanks doc text : List Char} {nodes : List JsonNode}

/-- A move is over a blank, or the nodes grow. -/
theorem grade_of_moves (h : Moves falsehood x y) :
    (y.1 = x.1 ∧ y.2.1 = x.2.1 ∧ ∃ c, isSplitChar c ∧ x.2.2 = c :: y.2.2) ∨
      grade (x.1 :: x.2.1) < grade (y.1 :: y.2.1) := by
  cases h with
  | blank hc => exact .inl ⟨rfl, rfl, _, hc, rfl⟩
  | leaf _ _ hleaf =>
    right
    have hone := hleaf.grade_eq
    simp only [JsonNode.grade_countElem, JsonNode.grade_addChild]
    omega
  | @nest node fathers k k' lead name text _ _ =>
    right
    have hno : (k.child name k').elemNo = 0 := rfl
    have hchildren : (k.child name k').childlist = [] := rfl
    simp only
    rw [grade_cons (k.child name k'), hno, hchildren, grade_nil]
    omega
  | close _ =>
    right
    simp only [JsonNode.grade_countElem, JsonNode.grade_addChild]
    rw [grade_cons, grade_cons _ []]
    simp only [grade_nil]
    omega

/-- Moves that do not make the nodes grow are over blanks. -/
theorem blanks_of_reflTransGen (h : Relation.ReflTransGen (Moves falsehood) x y) :
    grade (x.1 :: x.2.1) ≤ grade (y.1 :: y.2.1) ∧
      (grade (x.1 :: x.2.1) = grade (y.1 :: y.2.1) → y.1 = x.1 ∧ y.2.1 = x.2.1 ∧
        ∃ blanks, (∀ c ∈ blanks, isSplitChar c) ∧ x.2.2 = blanks ++ y.2.2) := by
  induction h using Relation.ReflTransGen.head_induction_on with
  | refl => exact ⟨Int.le_refl _, fun _ => ⟨rfl, rfl, [], by simp, rfl⟩⟩
  | head hxz _ ih =>
    obtain ⟨hle, hblanks⟩ := ih
    rcases grade_of_moves hxz with ⟨hnode, hfathers, c, hc, htext⟩ | hlt
    · rw [hnode, hfathers] at hle hblanks
      refine ⟨hle, fun heq => ?_⟩
      obtain ⟨hnode', hfathers', blanks, hall, htext'⟩ := hblanks heq
      exact ⟨hnode', hfathers', c :: blanks, by simpa [hc] using hall, by rw [htext, htext']; rfl⟩
    · exact ⟨Int.le_trans (Int.le_of_lt hlt) hle, fun heq => absurd heq (by omega)⟩

/-! ## The front of a document -/

theorem HasLongName.append (h : HasLongName s) (more : List Char) :
    HasLongName (s ++ more) := by
  obtain ⟨pre, text, ks, rfl, hleaves, raw, content, rest, rfl, hchars, hfit, hlen⟩ := h
  exact ⟨pre, _, ks, List.append_assoc _ _ _, hleaves, raw, content, rest ++ more, by simp, hchars,
    hfit, hlen⟩

/-- What moves leave of a text is no longer than it. -/
theorem length_le_of_reflTransGen
    (h : Relation.ReflTransGen (Moves falsehood) x y) : y.2.2.length ≤ x.2.2.length := by
  obtain ⟨pieces, htext, -⟩ := exists_pieces h
  rw [htext, List.length_append]
  omega

/-- The run over the rest of a document, from the place where its front ends. -/
theorem Leaves.reflTransGen_rest {pre more : List Char} {ks : List Container}
    (hpre : Leaves pre ks) (h : Document (some 1) (pre ++ more) root)
    (hs : '\x00' ∉ pre ++ more) (hne : ks ≠ []) :
    ∃ node fathers k, Frames (node, fathers, []) ks ∧ root.elemType = Container.elemType k ∧
      jsonSolveStr (pre ++ ['\x00']) = .done (pre.length, some (rootOf node fathers)) ∧
      Relation.ReflTransGen (Moves (some 1)) (node, fathers, more)
        (root, [], [Container.closing k]) := by
  obtain ⟨blanks, k, text, node, fathers, rfl, hblanks, hframes, hmoves⟩ := hpre.exists_place hne
  have hmore : '\x00' ∉ more := fun hmem => hs (List.mem_append_right _ hmem)
  have hfront : '\x00' ∉ blanks ++ k.opening :: text := fun hmem =>
    hs (List.mem_append_left more hmem)
  have hdoc := jsonSolveStr_document h (by rwa [List.append_nil])
  obtain ⟨y, r, hrest, hsolves, hends⟩ :=
    exists_end (x := (node, fathers, more)) hmore hframes (blanks ++ k.opening :: text ++ more).length
  have heq : blanks ++ k.opening :: text ++ more = blanks ++ k.opening :: (text ++ more) := by
    rw [List.append_assoc, List.cons_append]
  rw [List.append_nil, heq] at hdoc
  rw [heq] at hs h hsolves hends
  rw [jsonSolveStr_of_moves hblanks hs ((hmoves more).trans hrest) hsolves] at hdoc
  have hcut := hmoves []
  rw [List.append_nil] at hcut
  refine ⟨node, fathers, ?_⟩
  cases hends with
  | @closed node' k' rest hk' =>
    -- The whole text is taken, up to the bracket that closes the root.
    simp only [Outcome.done.injEq, Prod.mk.injEq, Option.some.injEq] at hdoc
    obtain ⟨hlen, rfl⟩ := hdoc
    have hshort := length_le_of_reflTransGen hrest
    obtain rfl : rest = [] := by
      refine List.length_eq_zero_iff.1 ?_
      simp only [List.length_append, List.length_cons] at hlen hshort
      omega
    exact ⟨k', hframes, hk', jsonSolveStr_of_moves hblanks hfront hcut (solves_cut node fathers _),
      hrest⟩
  | cut node' fathers' =>
    -- Then the whole text would be without its end.
    obtain ⟨pre', ks', htext, hframes', hleaves⟩ := leaves_of_reflTransGen hblanks
      ((hmoves more).trans hrest) (fun ⟨_, _, h, _⟩ => by simp at h)
    rw [List.append_nil] at htext
    rw [← htext] at hleaves
    exact absurd h (Unfinished.not_document (.inr ⟨ks', hframes'.ne_nil, hleaves⟩) hs _)
  | refused => cases hdoc
  | longName _ _ => cases hdoc
  | fault _ _ => cases hdoc

/-- The brackets that a text leaves open are of one kind only. -/
theorem Leaves.unique {ks ks' : List Container} (h : Leaves s ks)
    (h' : Leaves s ks') (hs : '\x00' ∉ s) (hne : ks ≠ []) : ks = ks' := by
  obtain ⟨root, hdoc⟩ := h'.2
  obtain ⟨root', hdoc'⟩ := hdoc.reword 1
  obtain ⟨node, fathers, k, hframes, hk, -, hrest⟩ := h.reflTransGen_rest hdoc'
    (not_nul_closers hs ks') hne
  -- The brackets of `ks'` close the containers at the place where the text ends.
  have hclose : Closes (some 1) (root', [], [k.closing]) (root'.extend []) [] := .root hk .close
  exact hframes.unique (Closes.of_reflTransGen hrest hclose).frames

/-- The tree of a text that is cut off is that of the whole text only where blanks and
    the last bracket are missing. -/
theorem Document.of_cut {pre more : List Char}
    (h : Document (some 1) (pre ++ more) root) (hs : '\x00' ∉ pre ++ more) (hne : more ≠ [])
    {tree : Option JsonNode} (hsolve : jsonSolveStr (pre ++ ['\x00']) = .done (ret, tree)) :
    ret = pre.length ∧ ∃ root', tree = some root' ∧ (root' = root →
      ∃ blanks k, (∀ c ∈ blanks, isSplitChar c) ∧ more = blanks ++ [Container.closing k]) := by
  have hpre : '\x00' ∉ pre := fun hmem => hs (List.mem_append_left more hmem)
  rcases jsonSolveStr_cases hpre with
    ⟨doc, rest, root', rfl, hdoc, -⟩ | ⟨hunfinished, -⟩ | hr | ⟨hlong, -⟩ | ⟨-, hr⟩
  · -- A document does not go on as another.
    rw [List.append_assoc] at h hs
    have hnil := hdoc.eq_nil_of_append h hs
    exact absurd (List.append_eq_nil_iff.1 hnil).2 hne
  · rcases hunfinished with hblanks | ⟨ks, hks, hleaves⟩
    · -- A node of no type is not the root.
      obtain ⟨_, hr⟩ | hr | ⟨blanks, k, text, _, rfl, -⟩ := exists_run hpre
      · rw [hr, Outcome.done.injEq, Prod.mk.injEq] at hsolve
        refine ⟨hsolve.1.symm, _, hsolve.2.symm, ?_⟩
        rintro rfl
        obtain ⟨blanks, k, text, nodes, -, -, -, hroot⟩ := h
        have htype := congrArg JsonNode.elemType hroot
        cases k <;> cases htype
      · rw [hr] at hsolve
        cases hsolve
      · have hopening := hblanks k.opening (by simp)
        rw [k.isSplitChar_opening] at hopening
        cases hopening
    · obtain ⟨node, fathers, k, -, -, hr, hrest⟩ := hleaves.reflTransGen_rest h hs hks
      rw [hr, Outcome.done.injEq, Prod.mk.injEq] at hsolve
      refine ⟨hsolve.1.symm, _, hsolve.2.symm, ?_⟩
      intro hroot
      have hgrade : grade (node :: fathers) = grade [root] := by rw [← hroot, grade_rootOf]
      obtain ⟨-, -, blanks, hall, hmore⟩ := (blanks_of_reflTransGen hrest).2 hgrade
      exact ⟨blanks, k, hall, hmore⟩
  · rw [hr] at hsolve
    cases hsolve
  · -- The name is in the whole text too, which is then given no root.
    obtain ⟨ret', hr⟩ := jsonSolveStr_longName hs (hlong.append more)
    have hdoc := jsonSolveStr_document h (by rwa [List.append_nil])
    rw [List.append_nil, hr] at hdoc
    cases hdoc
  · rw [hr] at hsolve
    cases hsolve

/-! ## Texts without a document -/

/-- What comes of blanks is a node of no type. -/
theorem jsonSolveStr_blanks (h : ∀ c ∈ blanks, isSplitChar c) :
    jsonSolveStr (blanks ++ ['\x00']) = .done (blanks.length, some {}) := by
  have hs : '\x00' ∉ blanks := fun hmem => by cases h _ hmem
  have hmoves : Relation.ReflTransGen (Moves (some 1)) ({}, [], blanks ++ []) ({}, [], []) :=
    reflTransGen_blanks h {} [] []
  rw [List.append_nil] at hmoves
  exact jsonSolveStr_eq (solves_of_reflTransGen hmoves hs (solves_cut {} [] _))

/-- A bracket that closes nothing is refused, whatever follows it. -/
theorem jsonSolveStr_closing (h : ∀ c ∈ blanks, isSplitChar c)
    (k : Container) {rest : List Char} (hs : '\x00' ∉ blanks ++ k.closing :: rest) :
    jsonSolveStr (blanks ++ k.closing :: rest ++ ['\x00']) = .error (-EINVAL) :=
  jsonSolveStr_eq (solves_of_reflTransGen (reflTransGen_blanks h _ _ _) hs
    (solves_no_opening k.closing_ne_nul k.isSplitChar_closing
      (fun k' => (k'.opening_ne_closing k).symm) rest))

/-! ## Documents and their texts -/

/-- The leading blanks of a text are before the bracket of its document. -/
theorem Document.length_lt {rest rest' : List Char}
    (h : Document falsehood doc root) (hblanks : ∀ c ∈ blanks, isSplitChar c)
    (heq : blanks ++ rest = doc ++ rest') : blanks.length < doc.length := by
  obtain ⟨blanks', k, text, nodes, rfl, -⟩ := h
  by_contra hle
  -- Else the bracket is among the blanks.
  have hpre : blanks' ++ k.opening :: text <+: blanks :=
    List.prefix_of_prefix_length_le ⟨rest', heq.symm⟩ ⟨rest, rfl⟩ (Nat.not_lt.1 hle)
  have hopening := hblanks k.opening (hpre.subset (by simp))
  rw [k.isSplitChar_opening] at hopening
  cases hopening

theorem isIgnoreChar_ne_nul {c : Char} (h : isIgnoreChar c) : c ≠ '\x00' := by
  rintro rfl
  cases h

theorem isSplitChar_ne_nul {c : Char} (h : isSplitChar c) : c ≠ '\x00' := by
  rintro rfl
  cases h

theorem Chars.not_nul_raw {raw content : List Char} (h : Chars raw content) : '\x00' ∉ raw := by
  induction h with
  | nil => simp
  | plain _ _ hn _ ih => simp [ih, Ne.symm hn]
  | escaped hn _ ih => simp [ih, Ne.symm hn]

theorem Lead.not_nul {lead : List Char} (h : Lead k lead name) :
    '\x00' ∉ lead := by
  cases h with
  | element => simp
  | member hchars _ hbefore hafter =>
    have hraw := hchars.not_nul_raw
    have hblank : ∀ {l : List Char}, (∀ c ∈ l, isIgnoreChar c) → '\x00' ∉ l :=
      fun hl hmem => isIgnoreChar_ne_nul (hl _ hmem) rfl
    simp [hraw, hblank hbefore, hblank hafter]

theorem Leaf.not_nul {token : List Char} {node : JsonNode}
    (h : Leaf falsehood k name token after node) : '\x00' ∉ token := by
  have hword : ∀ word ∈ trueWords ++ falseWords, '\x00' ∉ word := by decide
  cases h with
  | string hchars _ =>
    have hraw := hchars.not_nul_raw
    simp [hraw]
  | num hnum _ _ _ _ => exact hnum.not_nul
  | trueWord hmem => exact hword _ (List.mem_append_left _ hmem)
  | falseWord hmem _ => exact hword _ (List.mem_append_right _ hmem)

/-- There is no NUL in the items of a container. -/
theorem Items.not_nul
    (h : Items falsehood k text nodes after) (hafter : '\x00' ∉ after) : '\x00' ∉ text := by
  induction h with
  | @close k _ => simpa [k.closing_ne_nul.symm] using hafter
  | blank hc _ ih => simpa [(isSplitChar_ne_nul hc).symm] using ih hafter
  | leaf hlead hleaf _ ih => simpa [hlead.not_nul, hleaf.not_nul] using ih hafter
  | @nest _ k' _ _ _ _ _ _ _ hlead _ _ ihinner ih =>
    simpa [hlead.not_nul, k'.opening_ne_nul.symm] using ihinner (ih hafter)

theorem Document.not_nul (h : Document falsehood doc root) :
    '\x00' ∉ doc := by
  obtain ⟨blanks, k, text, nodes, rfl, hblanks, hitems, -⟩ := h
  have hfront : '\x00' ∉ blanks := fun h => isSplitChar_ne_nul (hblanks _ h) rfl
  simp [hfront, k.opening_ne_nul.symm, hitems.not_nul List.not_mem_nil]

/-- The items of a container are shorter than the text they are read from. -/
theorem Items.length_lt (h : Items falsehood k text nodes after) : after.length < text.length := by
  induction h with
  | close => simp
  | blank _ _ ih => exact Nat.lt_succ_of_lt ih
  | leaf _ _ _ ih =>
    simp only [List.length_append]
    omega
  | nest _ _ _ ihinner ih =>
    simp only [List.length_append, List.length_cons]
    omega

/-- The lead of a member is longer than its name. -/
theorem Lead.length_name {lead : List Char} (h : Lead .map lead name) :
    name.length + 2 ≤ lead.length := by
  cases h with
  | member hchars _ _ _ =>
    have hle := hchars.length_le
    simp only [List.length_cons, List.length_append]
    omega

/-- The text of a map is longer than the names of its members, in quotes. -/
theorem Items.length_members (h : Items falsehood k text nodes after) (hk : k = .map) :
    (nodes.map fun node => node.name.length + 2).sum + after.length < text.length := by
  induction h with
  | close => simp
  | blank _ _ ih => exact Nat.lt_succ_of_lt (ih hk)
  | @leaf k lead name token text after node nodes hlead hleaf _ ih =>
    subst hk
    have hrest := ih rfl
    have hmember := hlead.length_name
    have hname : node.name = name := by cases hleaf <;> rfl
    rw [List.map_cons, List.sum_cons, hname, List.length_append, List.length_append]
    omega
  | @nest k k' lead name inner text after children nodes hlead hinner _ _ ih =>
    subst hk
    have hrest := ih rfl
    have hmember := hlead.length_name
    have hshort := hinner.length_lt
    have hname : ((Container.map.child name k').extend children).name = name := rfl
    rw [List.map_cons, List.sum_cons, hname, List.length_append, List.length_cons]
    omega

/-- The text of an object is longer than any names in it, in quotes. -/
theorem Document.length_names
    (h : Document falsehood doc root) (hmap : root.elemType = .map) {names : List (List Char)}
    (hnodup : names.Nodup) (hnames : ∀ name ∈ names, ∃ child ∈ root.childlist, child.name = name) :
    (names.map fun name => name.length + 2).sum < doc.length := by
  obtain ⟨blanks, k, text, nodes, rfl, -, hitems, rfl⟩ := h
  obtain rfl : k = .map := Container.elemType_inj.1 hmap
  have hmembers := hitems.length_members rfl
  have hsub : names ⊆ nodes.map JsonNode.name := by
    intro name hname
    obtain ⟨child, hchild, rfl⟩ := hnames name hname
    exact List.mem_map_of_mem (by simpa [Container.rootNode, JsonNode.extend] using hchild)
  obtain ⟨l, hperm, hl⟩ := List.subperm_of_subset hnodup hsub
  have hsum := (hl.map fun name => name.length + 2).sum_le_sum fun _ _ => Nat.zero_le _
  rw [(hperm.map fun name => name.length + 2).sum_eq, List.map_map] at hsum
  simp only [List.length_append, List.length_cons, List.length_nil] at hmembers ⊢
  have heq : ((fun name : List Char => name.length + 2) ∘ JsonNode.name) =
      fun node => node.name.length + 2 := rfl
  rw [heq] at hsum
  omega

/-! ## A value without a root -/

/-- A value is returned before the end of the text only where it is too long for a node. -/
theorem solveValue_returned {isvalue negative : Bool} {limit : Nat} {child : JsonNode}
    (h : solveValue wide isvalue limit negative p child = .done (.returned ret)) : DIGEST_SIZE ≤ ret := by
  unfold solveValue at h
  split at h
  · cases h
  · split_ifs at h
    · cases h
    · cases h
    · obtain ⟨⟨value, n⟩, -, h⟩ := Outcome.bind_eq_done.1 h
      simp only at h
      split_ifs at h
      obtain ⟨_, -, h⟩ := Outcome.bind_eq_done.1 h
      cases h
    all_goals
      obtain ⟨⟨value, n⟩, -, h⟩ := Outcome.bind_eq_done.1 h
      simp only at h
      split_ifs at h with hlong
      · cases h
        exact hlong
      · cases h

theorem solveMember_returned {child : JsonNode}
    (h : solveMember wide p child = .done (.returned ret)) : DIGEST_SIZE ≤ ret := by
  simp only [solveMember] at h
  split_ifs at h
  exact solveValue_returned h

theorem solveMap_returned (h : solveMap wide p = .done (.returned ret)) :
    DIGEST_SIZE ≤ ret := by
  unfold solveMap at h
  split at h
  · cases h
  · split_ifs at h
    · unfold Parser.close at h
      split at h <;> cases h
    · cases h
    · obtain ⟨⟨value, n⟩, -, h⟩ := Outcome.bind_eq_done.1 h
      simp only at h
      by_cases hlong : n ≥ DIGEST_SIZE
      · rw [if_pos hlong] at h
        cases h
        exact hlong
      · rw [if_neg hlong] at h
        obtain ⟨_, -, h⟩ := Outcome.bind_eq_done.1 h
        exact solveMember_returned h

theorem solveArray_returned (h : solveArray wide p = .done (.returned ret)) :
    DIGEST_SIZE ≤ ret := by
  unfold solveArray at h
  split at h
  · cases h
  · split_ifs at h
    · unfold Parser.close at h
      split at h <;> cases h
    · cases h
    · exact solveValue_returned h

theorem solveTurn_returned (h : solveTurn wide p = .done (.returned ret)) :
    DIGEST_SIZE ≤ ret := by
  unfold solveTurn at h
  split at h
  · simp only [solveNull] at h
    split at h
    · cases h
    · split_ifs at h <;> cases h
  · exact solveMap_returned h
  · exact solveArray_returned h
  · cases h

/-- The value that is returned where the root is not set. -/
theorem jsonSolveStr_none (h : jsonSolveStr s = .done (ret, none)) : DIGEST_SIZE ≤ ret := by
  have hloop : ∀ fuel p, solveLoop false fuel p = .done (ret, none) → DIGEST_SIZE ≤ ret := by
    intro fuel
    induction fuel with
    | zero =>
      intro p h
      cases h
    | succ fuel ih =>
      intro p h
      unfold solveLoop at h
      split at h
      · cases h
      · split_ifs at h
        · cases h
        · exact ih _ h
        · obtain ⟨turn, hturn, h⟩ := Outcome.bind_eq_done.1 h
          cases turn with
          | next p' => exact ih _ h
          | closed _ _ => cases h
          | returned n =>
            cases h
            exact solveTurn_returned hturn
  exact hloop _ _ h

end Cube.Json
