import Cube.Json.Node

/-!
# The grammar of JSON texts

The texts that the parser takes for objects and arrays, and the trees they stand
for: a comma is a blank, and only a number needs a character that ends it. The
grammar is given twice, by derivations of whole containers (`Items`, `Document`),
and by the moves of a reader over a stack of containers (`Moves`); `Closes` says
what a stack still demands of the text.

* `Closes.of_moves`, `Items.reflTransGen`: the two agree.
* `Closes.reflTransGen`: a text that lacks closing brackets is read up to them.
* `Items.truthful`, `Items.of_truthful`: a tree without the boolean false is that of
  a text without the words for it.
-/

namespace Cube.Json

open Lib

/-! ## Containers -/

/-- The containers of a text. -/
inductive Container
  | map
  | array
  deriving DecidableEq, Repr

namespace Container

/-- The type of the node of a container. -/
def elemType : Container → JsonElemType
  | map => .map
  | array => .array

/-- The bracket that opens a container. -/
def opening : Container → Char
  | map => '{'
  | array => '['

/-- The bracket that closes a container. -/
def closing : Container → Char
  | map => '}'
  | array => ']'

/-- The flag of the types of the children. -/
def isValue : Container → Bool
  | map => false
  | array => true

/-- The characters a string among the children may take, its quotes included. -/
def limit : Container → Nat
  | map => DIGEST_SIZE * 24 + 2
  | array => DIGEST_SIZE * 16 + 2

/-- Whether a number among the children may be negative. -/
def negative : Container → Bool
  | map => true
  | array => false

/-- A container among the children of another, empty as yet. -/
def child (k : Container) (name : List Char) (k' : Container) : JsonNode :=
  { elemType := k'.elemType, isValue := k.isValue, name := name }

/-- The root, empty as yet. -/
def rootNode (k : Container) : JsonNode := { elemType := k.elemType, isValue := true }

variable {k k' : Container} {node : JsonNode} {fathers nodes : List JsonNode}
  {text after token name : List Char} {x y : Place} {ks : List Container}

@[simp] theorem elemType_inj : k.elemType = k'.elemType ↔ k = k' := by
  cases k <;> cases k' <;> decide

@[simp] theorem closing_inj : k.closing = k'.closing ↔ k = k' := by
  cases k <;> cases k' <;> decide

theorem opening_inj : k.opening = k'.opening ↔ k = k' := by
  cases k <;> cases k' <;> decide

theorem closing_ne_nul (k : Container) : k.closing ≠ '\x00' := by
  cases k <;> decide

theorem opening_ne_nul (k : Container) : k.opening ≠ '\x00' := by
  cases k <;> decide

theorem isSplitChar_closing (k : Container) : isSplitChar k.closing = false := by
  cases k <;> rfl

theorem isSplitChar_opening (k : Container) : isSplitChar k.opening = false := by
  cases k <;> rfl

theorem isValueEnd_closing (k : Container) : isValueEnd k.closing := by
  cases k <;> rfl

theorem opening_ne_closing (k k' : Container) : k.opening ≠ k'.closing := by
  cases k <;> cases k' <;> decide

end Container

/-- The node with more children, all of which are counted. -/
def JsonNode.extend (node : JsonNode) (nodes : List JsonNode) : JsonNode :=
  { node with elemNo := node.elemNo + nodes.length, childlist := node.childlist ++ nodes }

@[simp] theorem JsonNode.extend_nil (node : JsonNode) : node.extend [] = node := by
  cases node
  simp [JsonNode.extend]

theorem JsonNode.extend_cons (node child : JsonNode) (nodes : List JsonNode) :
    node.extend (child :: nodes) = ((node.addChild child).countElem).extend nodes := by
  simp [JsonNode.extend, JsonNode.addChild, JsonNode.countElem]
  omega

/-! ## Derivations -/

/-- What leads to a value in a container: the name of a member, and its colon. -/
inductive Lead : Container → List Char → List Char → Prop
  | element : Lead .array [] []
  | member {raw name before after : List Char} : Chars raw name → raw.length + 2 < DIGEST_SIZE →
      (∀ c ∈ before, isIgnoreChar c) → (∀ c ∈ after, isIgnoreChar c) →
      Lead .map ('"' :: (raw ++ '"' :: (before ++ ':' :: after))) name

/-- A value that is no container, the text after it, and its node. A word for false
    stands for `falsehood`, and is none where there is none. -/
inductive Leaf (falsehood : Option Int) (k : Container) (name : List Char) :
    List Char → List Char → JsonNode → Prop
  | string {raw content after : List Char} : Chars raw content → raw.length + 2 ≤ 512 →
      Leaf falsehood k name ('"' :: (raw ++ ['"'])) after
        { elemType := .string, isValue := k.isValue, name := name, valueStr := some content }
  | num {token after : List Char} {v : Int} : Number token v → v.natAbs < 2 ^ 31 →
      token.length < DIGEST_SIZE → (k.negative = false → token.head? ≠ some '-') →
      EndsValue after →
      Leaf falsehood k name token after
        { elemType := .num, isValue := k.isValue, name := name, value := v % 2 ^ 32 }
  | trueWord {word after : List Char} : word ∈ trueWords →
      Leaf falsehood k name word after
        { elemType := .bool, isValue := k.isValue, name := name, value := 1 }
  | falseWord {word after : List Char} {v : Int} : word ∈ falseWords → falsehood = some v →
      Leaf falsehood k name word after
        { elemType := .bool, isValue := k.isValue, name := name, value := v }

/-- The text in a container: its items, the closing bracket, and the text after. -/
inductive Items (falsehood : Option Int) :
    Container → List Char → List JsonNode → List Char → Prop
  | close {k : Container} {after : List Char} :
      Items falsehood k (k.closing :: after) [] after
  | blank {k : Container} {c : Char} {text after : List Char} {nodes : List JsonNode} :
      isSplitChar c → Items falsehood k text nodes after →
      Items falsehood k (c :: text) nodes after
  | leaf {k : Container} {lead name token text after : List Char} {node : JsonNode}
      {nodes : List JsonNode} : Lead k lead name → Leaf falsehood k name token text node →
      Items falsehood k text nodes after →
      Items falsehood k (lead ++ (token ++ text)) (node :: nodes) after
  | nest {k k' : Container} {lead name inner text after : List Char}
      {children nodes : List JsonNode} : Lead k lead name → Items falsehood k' inner children text →
      Items falsehood k text nodes after →
      Items falsehood k (lead ++ k'.opening :: inner) ((k.child name k').extend children :: nodes)
        after

/-- A complete object or array, and its tree. -/
def Document (falsehood : Option Int) (doc : List Char) (root : JsonNode) : Prop :=
  ∃ blanks k text nodes, doc = blanks ++ Container.opening k :: text ∧
    (∀ c ∈ blanks, isSplitChar c) ∧ Items falsehood k text nodes [] ∧
    root = k.rootNode.extend nodes

/-! ## Moves -/

/-- A place in a text: the current node, its fathers, and the text from there on. -/
abbrev Place := JsonNode × List JsonNode × List Char

/-- The moves of a reader of the grammar. -/
inductive Moves (falsehood : Option Int) : Place → Place → Prop
  | blank {node : JsonNode} {fathers : List JsonNode} {c : Char} {text : List Char} :
      isSplitChar c → Moves falsehood (node, fathers, c :: text) (node, fathers, text)
  | leaf {node child : JsonNode} {fathers : List JsonNode} {k : Container}
      {lead name token text : List Char} : node.elemType = k.elemType → Lead k lead name →
      Leaf falsehood k name token text child →
      Moves falsehood (node, fathers, lead ++ (token ++ text))
        ((node.addChild child).countElem, fathers, text)
  | nest {node : JsonNode} {fathers : List JsonNode} {k k' : Container}
      {lead name text : List Char} : node.elemType = k.elemType → Lead k lead name →
      Moves falsehood (node, fathers, lead ++ k'.opening :: text)
        (k.child name k', node :: fathers, text)
  | close {node father : JsonNode} {fathers : List JsonNode} {k : Container} {text : List Char} :
      node.elemType = k.elemType →
      Moves falsehood (node, father :: fathers, k.closing :: text)
        ((father.addChild node).countElem, fathers, text)

/-- What the nodes at a place demand of the text: their brackets are closed, the
    root is then `root`, and the text `after` is left. -/
inductive Closes (falsehood : Option Int) : Place → JsonNode → List Char → Prop
  | root {node : JsonNode} {k : Container} {text after : List Char} {nodes : List JsonNode} :
      node.elemType = k.elemType → Items falsehood k text nodes after →
      Closes falsehood (node, [], text) (node.extend nodes) after
  | inner {node father root : JsonNode} {fathers : List JsonNode} {k : Container}
      {text rest after : List Char} {nodes : List JsonNode} :
      node.elemType = k.elemType → Items falsehood k text nodes rest →
      Closes falsehood ((father.addChild (node.extend nodes)).countElem, fathers, rest) root after →
      Closes falsehood (node, father :: fathers, text) root after

variable {falsehood : Option Int}

/-- What is demanded, of the items of the current node and of its fathers alike. -/
theorem closes_iff {root : JsonNode} :
    Closes falsehood (node, fathers, text) root after ↔
      ∃ k nodes rest, node.elemType = Container.elemType k ∧ Items falsehood k text nodes rest ∧
        match fathers with
        | [] => root = node.extend nodes ∧ rest = after
        | father :: fathers =>
          Closes falsehood ((father.addChild (node.extend nodes)).countElem, fathers, rest) root
            after := by
  constructor
  · intro h
    cases h with
    | root hk hitems => exact ⟨_, _, _, hk, hitems, rfl, rfl⟩
    | inner hk hitems hrest => exact ⟨_, _, _, hk, hitems, hrest⟩
  · rintro ⟨k, nodes, rest, hk, hitems, h⟩
    cases fathers with
    | nil =>
      obtain ⟨rfl, rfl⟩ := h
      exact .root hk hitems
    | cons father fathers => exact .inner hk hitems h

/-- What is demanded after a move was demanded before it. -/
theorem Closes.of_moves (h : Moves falsehood x y) {root : JsonNode}
    (hy : Closes falsehood y root after) : Closes falsehood x root after := by
  cases h with
  | blank hc =>
    obtain ⟨k, nodes, rest, hk, hitems, hrest⟩ := closes_iff.1 hy
    exact closes_iff.2 ⟨k, nodes, rest, hk, hitems.blank hc, hrest⟩
  | leaf hk hlead hleaf =>
    obtain ⟨k', nodes, rest, hk', hitems, hrest⟩ := closes_iff.1 hy
    obtain rfl := Container.elemType_inj.1 (hk.symm.trans hk')
    exact closes_iff.2 ⟨_, _, rest, hk, .leaf hlead hleaf hitems, by
      simpa only [JsonNode.extend_cons] using hrest⟩
  | nest hk hlead =>
    cases hy with
    | inner hk₁ hinner hy =>
      obtain rfl := Container.elemType_inj.1 hk₁
      obtain ⟨k', nodes, rest, hk', hitems, hrest⟩ := closes_iff.1 hy
      obtain rfl := Container.elemType_inj.1 (hk.symm.trans hk')
      exact closes_iff.2 ⟨_, _, rest, hk, .nest hlead hinner hitems, by
        simpa only [JsonNode.extend_cons] using hrest⟩
  | close hk => exact .inner hk .close (by simpa using hy)

theorem Closes.of_reflTransGen (h : Relation.ReflTransGen (Moves falsehood) x y)
    {root : JsonNode} (hy : Closes falsehood y root after) :
    Closes falsehood x root after := by
  induction h using Relation.ReflTransGen.head_induction_on with
  | refl => exact hy
  | head hxz _ ih => exact .of_moves hxz ih

/-! ## Moves before other texts -/

theorem Number.ne_nil {v : Int} (h : Number token v) : token ≠ [] := by
  cases h with
  | pos hds => exact hds.1
  | neg _ => simp

theorem word_getLast : ∀ word ∈ trueWords ++ falseWords,
    word.getLast? = some 'e' ∨ word.getLast? = some 'E' := by
  decide

theorem word_last {word : List Char} (hword : word ∈ trueWords ++ falseWords) :
    word ≠ [] ∧ ∀ c, word.getLast? = some c → c.isDigit = false := by
  have hlast := word_getLast word hword
  refine ⟨?_, fun c hc => ?_⟩
  · rintro rfl
    simp at hlast
  · rw [hc, Option.some.injEq, Option.some.injEq] at hlast
    rcases hlast with rfl | rfl <;> rfl

/-- A value takes a character at least; it is the same before any text, where a
    number keeps the character that ends it. -/
theorem Leaf.exists_token (h : Leaf falsehood k name token after node) :
    token ≠ [] ∧ (∀ c, token.getLast? = some c → c.isDigit → EndsValue after) ∧
      ∀ after', (EndsValue after → EndsValue after') → Leaf falsehood k name token after' node := by
  cases h with
  | string hchars hlen =>
    refine ⟨by simp, fun c hc hdigit => ?_, fun after' _ => .string hchars hlen⟩
    rw [← List.cons_append, List.getLast?_concat, Option.some.injEq] at hc
    exact absurd rfl (isDigit_ne hdigit (by decide) ∘ hc.symm.trans)
  | num hnum hmax hlen hneg hend =>
    exact ⟨hnum.ne_nil, fun _ _ _ => hend, fun _ hafter => .num hnum hmax hlen hneg (hafter hend)⟩
  | trueWord hword =>
    obtain ⟨hne, hlast⟩ := word_last (List.mem_append_left _ hword)
    exact ⟨hne, fun c hc hdigit => by simp [hlast c hc] at hdigit, fun _ _ => .trueWord hword⟩
  | falseWord hword hv =>
    obtain ⟨hne, hlast⟩ := word_last (List.mem_append_right _ hword)
    exact ⟨hne, fun c hc hdigit => by simp [hlast c hc] at hdigit, fun _ _ => .falseWord hword hv⟩

theorem isSplitChar_not_digit {c : Char} (h : isSplitChar c) : c.isDigit = false := by
  simp only [isSplitChar, Bool.or_eq_true, beq_iff_eq] at h
  rcases h with (((rfl | rfl) | rfl) | rfl) | rfl <;> rfl

/-- A move takes a character at least; it is the same before any text, where a
    number keeps the character that ends it. -/
theorem Moves.exists_piece {node' : JsonNode} {fathers' : List JsonNode}
    {rest : List Char} (h : Moves falsehood (node, fathers, text) (node', fathers', rest)) :
    ∃ piece, piece ≠ [] ∧ text = piece ++ rest ∧
      (∀ c, piece.getLast? = some c → c.isDigit → EndsValue rest) ∧
      ∀ rest', (EndsValue rest → EndsValue rest') →
        Moves falsehood (node, fathers, piece ++ rest') (node', fathers', rest') := by
  cases h with
  | @blank _ _ c _ hc =>
    refine ⟨[c], by simp, rfl, fun d hd hdigit => ?_, fun rest' _ => .blank hc⟩
    obtain rfl : c = d := by simpa using hd
    simp [isSplitChar_not_digit hc] at hdigit
  | @leaf _ child _ k lead name token _ hk hlead hleaf =>
    obtain ⟨hne, hlast, hafter⟩ := hleaf.exists_token
    refine ⟨lead ++ token, by simp [hne], by simp, fun c hc => hlast c ?_, fun rest' h => ?_⟩
    · rwa [List.getLast?_append_of_ne_nil _ hne] at hc
    · rw [List.append_assoc]
      exact .leaf hk hlead (hafter rest' h)
  | @nest _ _ k k' lead name _ hk hlead =>
    refine ⟨lead ++ [k'.opening], by simp, by simp, fun c hc hdigit => ?_, fun rest' _ => ?_⟩
    · rw [List.getLast?_concat, Option.some.injEq] at hc
      subst hc
      cases k' <;> exact absurd hdigit (by decide)
    · rw [List.append_assoc]
      exact .nest hk hlead
  | @close _ father _ k _ hk =>
    refine ⟨[k.closing], by simp, rfl, fun c hc hdigit => ?_, fun rest' _ => .close hk⟩
    obtain rfl : k.closing = c := by simpa using hc
    cases k <;> exact absurd hdigit (by decide)

/-- Moves, with the text that they take. -/
theorem exists_pieces (h : Relation.ReflTransGen (Moves falsehood) x y) :
    ∃ pieces, x.2.2 = pieces ++ y.2.2 ∧
      (∀ c, pieces.getLast? = some c → c.isDigit → EndsValue y.2.2) ∧
      ∀ rest', (EndsValue y.2.2 → EndsValue rest') →
        Relation.ReflTransGen (Moves falsehood) (x.1, x.2.1, pieces ++ rest') (y.1, y.2.1, rest') := by
  induction h using Relation.ReflTransGen.head_induction_on with
  | refl => exact ⟨[], rfl, by simp, fun rest' _ => .refl⟩
  | @head x z hxz _ ih =>
    obtain ⟨node, fathers, text⟩ := x
    obtain ⟨node', fathers', mid⟩ := z
    obtain ⟨piece, hne, htext, hlast, hmove⟩ := hxz.exists_piece
    obtain ⟨pieces, hmid, hlasts, hmoves⟩ := ih
    simp only at htext hmid hmoves ⊢
    refine ⟨piece ++ pieces, by rw [htext, hmid, List.append_assoc], fun c hc hdigit => ?_,
      fun rest' hrest => ?_⟩
    · rcases eq_or_ne pieces [] with rfl | hpieces
      · rw [List.append_nil] at hc
        simpa [hmid] using hlast c hc hdigit
      · rw [List.getLast?_append_of_ne_nil _ hpieces] at hc
        exact hlasts c hc hdigit
    · rw [List.append_assoc]
      refine .head (hmove _ fun hend => ?_) (hmoves rest' hrest)
      -- The character that ends the number is still there, if it is not in `rest'`.
      rcases pieces with _ | ⟨c, pieces⟩
      · rw [hmid] at hend
        exact hrest hend
      · obtain ⟨d, tail, heq, hd, hn⟩ := hend
        rw [hmid, List.cons_append, List.cons.injEq] at heq
        exact ⟨c, _, rfl, heq.1 ▸ hd, heq.1 ▸ hn⟩

theorem EndsValue.append (h : EndsValue text) (rest : List Char) :
    EndsValue (text ++ rest) := by
  obtain ⟨c, tail, rfl, hc, hn⟩ := h
  exact ⟨c, tail ++ rest, rfl, hc, hn⟩

/-- Items are the same before any text. -/
theorem Items.append (h : Items falsehood k text nodes after) (rest : List Char) :
    Items falsehood k (text ++ rest) nodes (after ++ rest) := by
  induction h with
  | close => exact .close
  | blank hc _ ih => exact .blank hc ih
  | leaf hlead hleaf _ ih =>
    rw [List.append_assoc, List.append_assoc]
    exact .leaf hlead (hleaf.exists_token.2.2 _ fun hend => hend.append rest) ih
  | nest hlead _ _ ihinner ih =>
    rw [List.append_assoc]
    exact .nest hlead ihinner ih

/-! ## Stacks of containers -/

/-- The nodes at a place are those of containers. -/
def Frames (x : Place) (ks : List Container) : Prop :=
  List.Forall₂ (fun node k => node.elemType = Container.elemType k) (x.1 :: x.2.1) ks

theorem Frames.ne_nil (h : Frames x ks) : ks ≠ [] := by
  cases h
  simp

/-- The innermost of the containers at a place. -/
theorem Frames.exists_cons (h : Frames x ks)
    (hk : x.1.elemType = k.elemType) : ∃ ks', ks = k :: ks' := by
  cases h with
  | @cons _ k' _ ks' hk' _ =>
    obtain rfl := Container.elemType_inj.1 (hk.symm.trans hk')
    exact ⟨ks', rfl⟩

/-- The containers at a place are those of one stack. -/
theorem Frames.unique {ks' : List Container} (h : Frames x ks) (h' : Frames x ks') : ks = ks' := by
  unfold Frames at h h'
  generalize x.1 :: x.2.1 = nodes at h h'
  induction h generalizing ks' with
  | nil => cases h'; rfl
  | cons hk _ ih =>
    cases h' with
    | cons hk' hrest => rw [Container.elemType_inj.1 (hk.symm.trans hk'), ih hrest]

theorem Frames.of_moves (hx : Frames x ks) (h : Moves falsehood x y) : ∃ ks', Frames y ks' := by
  cases h with
  | blank _ => exact ⟨ks, hx⟩
  | leaf hk _ _ =>
    cases hx with
    | cons hnode hfathers => exact ⟨_, .cons hnode hfathers⟩
  | @nest _ _ k k' _ name _ hk _ => exact ⟨k' :: ks, .cons rfl hx⟩
  | close _ =>
    cases hx with
    | cons _ hfathers =>
      cases hfathers with
      | cons hfather hfathers => exact ⟨_, .cons hfather hfathers⟩

theorem Frames.of_reflTransGen (h : Relation.ReflTransGen (Moves falsehood) x y)
    (hx : Frames x ks) : ∃ ks', Frames y ks' := by
  induction h with
  | refl => exact ⟨ks, hx⟩
  | tail _ h ih =>
    obtain ⟨ks', hy⟩ := ih
    exact hy.of_moves h

/-- The brackets that close the containers at a place are all that is demanded. -/
theorem Frames.closes (h : Frames (node, fathers, text) ks) :
    ∃ root, Closes falsehood (node, fathers, ks.map Container.closing) root [] := by
  induction fathers generalizing node ks with
  | nil =>
    cases h with
    | cons hk hks =>
      cases hks
      exact ⟨node.extend [], .root hk .close⟩
  | cons father fathers ih =>
    cases h with
    | cons hk hks =>
      cases hks with
      | @cons _ k _ ks hk' hks' =>
        have hframes : Frames ((father.addChild (node.extend [])).countElem, fathers, text)
            (k :: ks) := .cons hk' hks'
        obtain ⟨root, hroot⟩ := ih hframes
        exact ⟨root, .inner hk .close hroot⟩

theorem Lead.head_ne_closing {lead : List Char} (h : Lead k lead name)
    (hne : lead ≠ []) (k' : Container) : lead.head? ≠ some k'.closing := by
  cases h with
  | element => exact absurd rfl hne
  | member _ _ _ _ => cases k' <;> simp [Container.closing]

theorem word_head : ∀ word ∈ trueWords ++ falseWords, ∀ k : Container,
    word.head? ≠ some k.closing := by
  intro word hword k
  cases k <;> revert word <;> decide

theorem Leaf.head_ne_closing (h : Leaf falsehood k name token after node) (k' : Container) :
    token.head? ≠ some k'.closing := by
  cases h with
  | string _ _ => cases k' <;> simp [Container.closing]
  | num hnum _ _ _ _ =>
    cases hnum with
    | pos hds =>
      obtain ⟨c, ds, rfl, hc⟩ := hds.exists_cons
      rw [List.head?_cons, Ne, Option.some.injEq]
      cases k' <;> exact isDigit_ne hc (by decide)
    | neg _ => cases k' <;> simp [Container.closing]
  | trueWord hword => exact word_head _ (List.mem_append_left _ hword) k'
  | falseWord hword _ => exact word_head _ (List.mem_append_right _ hword) k'

theorem Items.ne_nil (h : Items falsehood k text nodes after) : text ≠ [] := by
  cases h with
  | leaf _ hleaf _ => simp [hleaf.exists_token.1]
  | _ => simp

/-- A closing bracket ends the items. -/
theorem Items.closing_inv (h : Items falsehood k (k'.closing :: text) nodes after) :
    k = k' ∧ nodes = [] ∧ text = after := by
  generalize heq : k'.closing :: text = all at h
  cases h with
  | close =>
    rw [List.cons.injEq, Container.closing_inj] at heq
    exact ⟨heq.1.symm, rfl, heq.2⟩
  | blank hc _ =>
    rw [List.cons.injEq] at heq
    simp [← heq.1, Container.isSplitChar_closing] at hc
  | @leaf _ lead _ token rest _ _ _ hlead hleaf _ =>
    exfalso
    rcases lead with _ | ⟨c, lead⟩
    · obtain ⟨d, token, rfl⟩ := List.exists_cons_of_ne_nil hleaf.exists_token.1
      rw [List.nil_append, List.cons_append, List.cons.injEq] at heq
      exact hleaf.head_ne_closing k' (by simp [heq.1])
    · rw [List.cons_append, List.cons.injEq] at heq
      exact hlead.head_ne_closing (by simp) k' (by simp [heq.1])
  | @nest _ k₁ lead _ _ _ _ _ _ hlead _ _ =>
    exfalso
    rcases lead with _ | ⟨c, lead⟩
    · rw [List.nil_append, List.cons.injEq] at heq
      exact Container.opening_ne_closing _ _ heq.1.symm
    · rw [List.cons_append, List.cons.injEq] at heq
      exact hlead.head_ne_closing (by simp) k' (by simp [heq.1])

/-- Closing brackets are what is demanded by containers of their kinds only. -/
theorem Closes.frames
    {root : JsonNode} (h : Closes falsehood (node, fathers, ks.map Container.closing) root []) :
    Frames (node, fathers, []) ks := by
  induction fathers generalizing node ks with
  | nil =>
    obtain ⟨k, nodes, rest, hk, hitems, -, rfl⟩ := closes_iff.1 h
    rcases ks with _ | ⟨k', ks⟩
    · exact absurd rfl hitems.ne_nil
    · obtain ⟨rfl, rfl, hnil⟩ := Items.closing_inv hitems
      obtain rfl := List.map_eq_nil_iff.1 hnil
      exact .cons hk .nil
  | cons father fathers ih =>
    obtain ⟨k, nodes, rest, hk, hitems, hrest⟩ := closes_iff.1 h
    rcases ks with _ | ⟨k', ks⟩
    · exact absurd rfl hitems.ne_nil
    · obtain ⟨rfl, rfl, rfl⟩ := Items.closing_inv hitems
      cases ih hrest with
      | cons hfather hfathers => exact .cons hk (.cons hfather hfathers)

/-! ## From derivations to moves -/

/-- A reader goes over the items of a container to its closing bracket. -/
theorem Items.reflTransGen
    (h : Items falsehood k text nodes after) (hk : node.elemType = k.elemType)
    (fathers : List JsonNode) :
    Relation.ReflTransGen (Moves falsehood) (node, fathers, text)
      (node.extend nodes, fathers, k.closing :: after) := by
  induction h generalizing node fathers with
  | close => simpa using Relation.ReflTransGen.refl
  | blank hc _ ih => exact .head (.blank hc) (ih hk fathers)
  | leaf hlead hleaf _ ih =>
    rw [JsonNode.extend_cons]
    refine .head (.leaf hk hlead hleaf) (ih ?_ fathers)
    exact hk
  | nest hlead _ _ ihinner ih =>
    rw [JsonNode.extend_cons]
    refine .head (.nest hk hlead) ((ihinner rfl (node :: fathers)).trans
      (.head (.close rfl) (ih ?_ fathers)))
    exact hk

/-! ## Moves before closing brackets -/

/-- A text of closing brackets. -/
def Closers (text : List Char) : Prop := ∀ c ∈ text, ∃ k, c = Container.closing k

/-- What does not end in a closing bracket ends before them. -/
theorem exists_before_closers {piece pre closers : List Char}
    (h : piece ++ text = pre ++ closers) (hclosers : Closers closers)
    (hlast : ∃ c, piece.getLast? = some c ∧ ∀ k, c ≠ Container.closing k) :
    ∃ mid, pre = piece ++ mid ∧ text = mid ++ closers := by
  rcases List.append_eq_append_iff.1 h with ⟨mid, rfl, htext⟩ | ⟨mid, rfl, rfl⟩
  · exact ⟨mid, rfl, htext⟩
  · rcases eq_or_ne mid [] with rfl | hne
    · exact ⟨[], by simp⟩
    · -- The last character would be one of the brackets.
      obtain ⟨c, hc, hnot⟩ := hlast
      rw [List.getLast?_append_of_ne_nil _ hne] at hc
      obtain ⟨k, hk⟩ := hclosers c (List.mem_append_left _ (List.mem_of_getLast? hc))
      exact absurd hk (hnot k)

theorem Digits.getLast {ds : List Char} {value : Nat} (h : Digits ds value) :
    ∃ c, ds.getLast? = some c ∧ c.isDigit :=
  ⟨ds.getLast h.1, List.getLast?_eq_some_getLast h.1, h.2.1 _ (List.getLast_mem h.1)⟩

theorem Number.getLast {v : Int} (h : Number token v) :
    ∃ c, token.getLast? = some c ∧ c.isDigit := by
  cases h with
  | pos hds => exact hds.getLast
  | neg hds =>
    obtain ⟨c, hc, hdigit⟩ := hds.getLast
    exact ⟨c, by rw [List.getLast?_cons, hc]; rfl, hdigit⟩

theorem Leaf.getLast (h : Leaf falsehood k name token after node) :
    ∃ c, token.getLast? = some c ∧ ∀ k', c ≠ Container.closing k' := by
  have hword : ∀ word ∈ trueWords ++ falseWords,
      ∃ c, word.getLast? = some c ∧ ∀ k', c ≠ Container.closing k' := fun word hmem => by
    rcases word_getLast word hmem with h | h <;>
      exact ⟨_, h, fun k' => by cases k' <;> decide⟩
  cases h with
  | string _ _ =>
    exact ⟨'"', by rw [← List.cons_append, List.getLast?_concat], fun k' => by cases k' <;> decide⟩
  | num hnum _ _ _ _ =>
    obtain ⟨c, hc, hdigit⟩ := hnum.getLast
    exact ⟨c, hc, fun k' => isDigit_ne hdigit (by cases k' <;> rfl)⟩
  | trueWord hmem => exact hword _ (List.mem_append_left _ hmem)
  | falseWord hmem _ => exact hword _ (List.mem_append_right _ hmem)

/-- A value that does not end in a digit is the same before any text. -/
theorem Leaf.before (h : Leaf falsehood k name token after node)
    (hlast : ∀ c, token.getLast? = some c → c.isDigit = false) (after' : List Char) :
    Leaf falsehood k name token after' node := by
  cases h with
  | string hchars hlen => exact .string hchars hlen
  | num hnum _ _ _ _ =>
    obtain ⟨c, hc, hdigit⟩ := hnum.getLast
    simp [hlast c hc] at hdigit
  | trueWord hword => exact .trueWord hword
  | falseWord hword hv => exact .falseWord hword hv

/-- A move at a place that is before the closing brackets is a move before them. -/
theorem Closes.exists_moves {c : Char} {pre closers : List Char} {root : JsonNode}
    (h : Closes falsehood (node, fathers, c :: pre ++ closers) root [])
    (hclosers : Closers closers) (hne : closers ≠ [])
    (hlast : ∀ d, (c :: pre).getLast? = some d → d.isDigit = false) :
    ∃ node' fathers' pre', pre'.length ≤ pre.length ∧
      (∀ d, pre'.getLast? = some d → d.isDigit = false) ∧
      (∀ rest, Moves falsehood (node, fathers, c :: pre ++ rest) (node', fathers', pre' ++ rest)) ∧
      Closes falsehood (node', fathers', pre' ++ closers) root [] := by
  have hrest : ∀ piece pre' : List Char, piece ≠ [] → c :: pre = piece ++ pre' →
      pre'.length ≤ pre.length ∧ (∀ d, pre'.getLast? = some d → d.isDigit = false) := by
    intro piece pre' hpiece heq
    have hlen := congrArg List.length heq
    have hpos := List.length_pos_of_ne_nil hpiece
    rw [List.length_cons, List.length_append] at hlen
    refine ⟨by omega, fun d hd => hlast d ?_⟩
    rw [heq, List.getLast?_append_of_ne_nil _ fun h => by simp [h] at hd, hd]
  obtain ⟨k, nodes, rest, hk, hitems, hdemand⟩ := closes_iff.1 h
  generalize htext : c :: pre ++ closers = text at hitems
  cases hitems with
  | close =>
    obtain ⟨rfl, rfl⟩ := List.cons.inj htext
    rcases fathers with _ | ⟨father, fathers⟩
    · -- The root would be closed before the last bracket.
      exact absurd (List.append_eq_nil_iff.1 hdemand.2).2 hne
    · obtain ⟨hlen, hpre⟩ := hrest [k.closing] pre (by simp) rfl
      exact ⟨_, fathers, pre, hlen, hpre, fun _ => .close hk, by simpa using hdemand⟩
  | blank hc hitems =>
    obtain ⟨rfl, rfl⟩ := List.cons.inj htext
    obtain ⟨hlen, hpre⟩ := hrest [c] pre (by simp) rfl
    exact ⟨node, fathers, pre, hlen, hpre, fun _ => .blank hc,
      closes_iff.2 ⟨k, nodes, rest, hk, hitems, hdemand⟩⟩
  | @leaf _ lead name token text _ child nodes hlead hleaf hitems =>
    obtain ⟨d, hd, hnot⟩ := hleaf.getLast
    rw [← List.append_assoc] at htext
    have htoken := hleaf.exists_token.1
    obtain ⟨pre', hpre', rfl⟩ := exists_before_closers htext.symm hclosers
      ⟨d, by rw [List.getLast?_append_of_ne_nil _ htoken, hd], hnot⟩
    obtain ⟨hlen, hpre⟩ := hrest (lead ++ token) pre' (by simp [htoken]) hpre'
    refine ⟨(node.addChild child).countElem, fathers, pre', hlen, hpre, fun rest' => ?_,
      closes_iff.2 ⟨k, nodes, rest, hk, hitems, by
        simpa only [JsonNode.extend_cons] using hdemand⟩⟩
    rw [hpre', List.append_assoc, List.append_assoc]
    refine .leaf hk hlead ?_
    rcases pre' with _ | ⟨e, pre'⟩
    · -- The value ends where the brackets start, so that it is no number.
      refine hleaf.before (fun e he => hlast e ?_) _
      rw [hpre', List.append_nil, List.getLast?_append_of_ne_nil _ htoken, he]
    · refine hleaf.exists_token.2.2 _ fun hend => ?_
      obtain ⟨e', tail, heq, he', hn⟩ := hend
      obtain ⟨rfl, -⟩ := List.cons.inj heq
      exact ⟨e, _, rfl, he', hn⟩
  | @nest _ k' lead name inner _ _ children nodes hlead hinner hitems =>
    have htext' : (lead ++ [k'.opening]) ++ inner = c :: pre ++ closers := by simp [htext]
    obtain ⟨pre', hpre', rfl⟩ := exists_before_closers htext' hclosers
      ⟨k'.opening, List.getLast?_concat, fun k'' => Container.opening_ne_closing k' k''⟩
    obtain ⟨hlen, hpre⟩ := hrest (lead ++ [k'.opening]) pre' (by simp) hpre'
    refine ⟨k.child name k', node :: fathers, pre', hlen, hpre, fun rest' => ?_,
      .inner rfl hinner (closes_iff.2 ⟨k, nodes, rest, hk, hitems, by
        simpa only [JsonNode.extend_cons] using hdemand⟩)⟩
    rw [hpre', List.append_assoc, List.append_assoc]
    exact .nest hk hlead

/-- A reader comes to the closing brackets that are missing. -/
theorem Closes.reflTransGen {pre closers : List Char}
    {root : JsonNode} (h : Closes falsehood (node, fathers, pre ++ closers) root [])
    (hclosers : Closers closers) (hne : closers ≠ [])
    (hlast : ∀ d, pre.getLast? = some d → d.isDigit = false) :
    ∃ node' fathers', (∀ rest, Relation.ReflTransGen (Moves falsehood) (node, fathers, pre ++ rest)
        (node', fathers', rest)) ∧ Closes falsehood (node', fathers', closers) root [] := by
  induction hn : pre.length using Nat.strongRecOn generalizing node fathers pre with
  | ind n ih =>
    rcases pre with _ | ⟨c, pre⟩
    · exact ⟨node, fathers, fun _ => .refl, h⟩
    · obtain ⟨node₁, fathers₁, pre', hlen, hlast', hmove, hnext⟩ :=
        h.exists_moves hclosers hne hlast
      rw [List.length_cons] at hn
      obtain ⟨node', fathers', hmoves, hend⟩ := ih _ (by omega) hnext hlast' rfl
      exact ⟨node', fathers', fun rest => .head (hmove rest) (hmoves rest), hend⟩

/-! ## Words for false -/

/-- The nodes for booleans among nodes and those below them are all for true. -/
def Truthful (nodes : List JsonNode) : Prop :=
  ∀ n ∈ JsonNode.nodesBelow nodes, n.elemType = .bool → n.value = 1

theorem truthful_cons :
    Truthful (node :: nodes) ↔ (node.elemType = .bool → node.value = 1) ∧
      Truthful node.childlist ∧ Truthful nodes := by
  simp only [Truthful, JsonNode.nodesBelow_cons, node.nodes_eq, List.mem_append, List.mem_cons]
  constructor
  · exact fun h => ⟨h _ (.inl (.inl rfl)), fun n hn => h n (.inl (.inr hn)), fun n hn => h n (.inr hn)⟩
  · rintro ⟨hnode, hbelow, hnodes⟩ n ((rfl | hn) | hn)
    · exact hnode
    · exact hbelow n hn
    · exact hnodes n hn

theorem Leaf.childlist_eq (h : Leaf falsehood k name token after node) : node.childlist = [] := by
  cases h <;> rfl

@[simp] theorem Container.child_extend_childlist (k : Container) (name : List Char)
    (k' : Container) (children : List JsonNode) :
    ((k.child name k').extend children).childlist = children := by
  simp [Container.child, JsonNode.extend]

theorem Container.elemType_ne_bool (k : Container) : k.elemType ≠ .bool := by
  cases k <;> decide

/-- What a word for false stands for changes the tree, not the text. -/
theorem Items.reword (h : Items falsehood k text nodes after) (v : Int) :
    ∃ nodes', Items (some v) k text nodes' after := by
  induction h with
  | close => exact ⟨_, .close⟩
  | blank hc _ ih =>
    obtain ⟨nodes', hitems⟩ := ih
    exact ⟨_, hitems.blank hc⟩
  | leaf hlead hleaf _ ih =>
    obtain ⟨nodes', hitems⟩ := ih
    cases hleaf with
    | string hchars hlen => exact ⟨_, .leaf hlead (.string hchars hlen) hitems⟩
    | num hnum hmax hlen hneg hend =>
      exact ⟨_, .leaf hlead (.num hnum hmax hlen hneg hend) hitems⟩
    | trueWord hword => exact ⟨_, .leaf hlead (.trueWord hword) hitems⟩
    | falseWord hword _ => exact ⟨_, .leaf hlead (.falseWord hword rfl) hitems⟩
  | nest hlead _ _ ihinner ih =>
    obtain ⟨children, hinner⟩ := ihinner
    obtain ⟨nodes', hitems⟩ := ih
    exact ⟨_, .nest hlead hinner hitems⟩

/-- A text without the words for false is one whatever they stand for. -/
theorem Items.mono (h : Items none k text nodes after) (falsehood : Option Int) :
    Items falsehood k text nodes after := by
  induction h with
  | close => exact .close
  | blank hc _ ih => exact .blank hc ih
  | leaf hlead hleaf _ ih =>
    refine .leaf hlead ?_ ih
    cases hleaf with
    | string hchars hlen => exact .string hchars hlen
    | num hnum hmax hlen hneg hend => exact .num hnum hmax hlen hneg hend
    | trueWord hword => exact .trueWord hword
    | falseWord _ hv => exact absurd hv (by simp)
  | nest hlead _ _ ihinner ih => exact .nest hlead ihinner ih

/-- Where a word for false stands for true, all booleans of the tree are true. -/
theorem Items.truthful (h : Items (some 1) k text nodes after) : Truthful nodes := by
  induction h with
  | close => simp [Truthful]
  | blank _ _ ih => exact ih
  | leaf _ hleaf _ ih =>
    refine truthful_cons.2 ⟨fun hbool => ?_, by simp [hleaf.childlist_eq, Truthful], ih⟩
    cases hleaf with
    | string _ _ => exact absurd hbool (by simp)
    | num _ _ _ _ _ => exact absurd hbool (by simp)
    | trueWord _ => rfl
    | falseWord _ hv => exact (Option.some.inj hv).symm
  | nest _ _ _ ihinner ih =>
    refine truthful_cons.2 ⟨fun hbool => ?_, by simpa using ihinner, ih⟩
    exact absurd hbool (Container.elemType_ne_bool _)

/-- Where a word for false stands for false and all booleans of the tree are true,
    there is no such word. -/
theorem Items.of_truthful (h : Items (some 0) k text nodes after) (htrue : Truthful nodes) :
    Items none k text nodes after := by
  induction h with
  | close => exact .close
  | blank hc _ ih => exact .blank hc (ih htrue)
  | leaf hlead hleaf _ ih =>
    obtain ⟨hnode, -, hnodes⟩ := truthful_cons.1 htrue
    refine .leaf hlead ?_ (ih hnodes)
    cases hleaf with
    | string hchars hlen => exact .string hchars hlen
    | num hnum hmax hlen hneg hend => exact .num hnum hmax hlen hneg hend
    | trueWord hword => exact .trueWord hword
    | falseWord _ hv =>
      -- A word for false would be a node for false.
      obtain rfl := Option.some.inj hv
      exact absurd (hnode rfl) (by simp)
  | nest hlead _ _ ihinner ih =>
    obtain ⟨-, hchildren, hnodes⟩ := truthful_cons.1 htrue
    exact .nest hlead (ihinner (by simpa using hchildren)) (ih hnodes)

end Cube.Json
