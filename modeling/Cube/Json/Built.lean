import Cube.Json.Accept

/-!
# The trees that the JSON parser builds

* `Standing.of_moves`: what the nodes are that the parser has built at a place.
* `jsonSolveStr_tree`: what the root is when `json_solve_str` sets it: the root of a
  container, with a child that is not counted where the text is cut off in it.
* `jsonSolveStr_load`: the load of a tree, in brackets and in characters that have a
  meaning, is no more than that of the text.
-/

namespace Cube.Json

open Lib

/-! ## Nodes built -/

/-- A name of a child of a container. -/
def Named (k : Container) (name : List Char) : Prop :=
  match k with
  | .map => name.length + 2 < DIGEST_SIZE ∧ '\x00' ∉ name
  | .array => name = []

/-- A child that the parser builds in a container, closed if it is one. -/
inductive Built : Container → JsonNode → Prop
  | string {k : Container} {name content : List Char} : Named k name →
      content.length + 2 ≤ 512 → '\x00' ∉ content →
      Built k { elemType := .string, isValue := k.isValue, name := name, valueStr := some content }
  | num {k : Container} {name : List Char} {v : Int} : Named k name → v.natAbs < 2 ^ 31 →
      (k.negative = false → 0 ≤ v) →
      Built k { elemType := .num, isValue := k.isValue, name := name, value := v % 2 ^ 32 }
  | bool {k : Container} {name : List Char} : Named k name →
      Built k { elemType := .bool, isValue := k.isValue, name := name, value := 1 }
  | container {k k' : Container} {name : List Char} {children : List JsonNode} : Named k name →
      (∀ c ∈ children, Built k' c) → Built k ((k.child name k').extend children)

theorem Chars.not_nul {raw content : List Char} (h : Chars raw content) : '\x00' ∉ content := by
  induction h with
  | nil => simp
  | plain _ _ hn _ ih => simp [ih, Ne.symm hn]
  | escaped hn _ ih => simp [ih, Ne.symm hn]

theorem Number.not_nul {token : List Char} {v : Int} (h : Number token v) : '\x00' ∉ token := by
  have hdigits : ∀ {ds : List Char} {value : Nat}, Digits ds value → '\x00' ∉ ds :=
    fun hds hmem => absurd (hds.2.1 _ hmem) (by decide)
  cases h with
  | pos hds => exact hdigits hds
  | neg hds => simp [hdigits hds]

variable {k : Container} {name : List Char} {node : JsonNode} {x y : Place}

theorem Lead.named {lead : List Char} (h : Lead k lead name) :
    Named k name := by
  cases h with
  | element => rfl
  | member hchars hlen _ _ =>
    exact ⟨Nat.lt_of_le_of_lt (Nat.add_le_add_right hchars.length_le 2) hlen, hchars.not_nul⟩

theorem Leaf.built {token after : List Char}
    (h : Leaf (some 1) k name token after node) (hname : Named k name) : Built k node := by
  cases h with
  | string hchars hlen =>
    exact .string hname (Nat.le_trans (Nat.add_le_add_right hchars.length_le 2) hlen)
      hchars.not_nul
  | num hnum hmax _ hneg _ =>
    refine .num hname hmax fun hfalse => ?_
    cases hnum with
    | pos _ => exact Int.natCast_nonneg _
    | neg _ => exact absurd rfl (hneg hfalse)
  | trueWord _ => exact .bool hname
  | falseWord _ hv =>
    obtain rfl := Option.some.inj hv
    exact .bool hname

/-- The nodes at a place: the root of a container at the bottom, and containers above
    it, with the children built and counted; of each, the one above is not yet. -/
inductive Standing : JsonNode → List JsonNode → Prop
  | root {k : Container} {nodes : List JsonNode} : (∀ c ∈ nodes, Built k c) →
      Standing (k.rootNode.extend nodes) []
  | inner {father : JsonNode} {fathers nodes : List JsonNode} {k k' : Container}
      {name : List Char} : Standing father fathers → father.elemType = k.elemType →
      Named k name → (∀ c ∈ nodes, Built k' c) →
      Standing ((k.child name k').extend nodes) (father :: fathers)

theorem JsonNode.addChild_extend (node : JsonNode) (nodes : List JsonNode) (child : JsonNode) :
    ((node.extend nodes).addChild child).countElem = node.extend (nodes ++ [child]) := by
  simp [JsonNode.extend, JsonNode.addChild, JsonNode.countElem, Int.add_assoc]

/-- A child built in the current node. -/
theorem Standing.addChild {fathers : List JsonNode} (h : Standing node fathers)
    (hk : node.elemType = k.elemType) {child : JsonNode} (hchild : Built k child) :
    Standing (node.addChild child).countElem fathers := by
  cases h with
  | @root k' nodes hnodes =>
    obtain rfl : k' = k := Container.elemType_inj.1 hk
    rw [JsonNode.addChild_extend]
    exact .root fun c hc => by
      rcases List.mem_append.1 hc with hc | hc
      · exact hnodes c hc
      · rwa [List.mem_singleton.1 hc]
  | @inner father fathers nodes k₁ k' name hfather hk₁ hname hnodes =>
    obtain rfl : k' = k := Container.elemType_inj.1 hk
    rw [JsonNode.addChild_extend]
    exact .inner hfather hk₁ hname fun c hc => by
      rcases List.mem_append.1 hc with hc | hc
      · exact hnodes c hc
      · rwa [List.mem_singleton.1 hc]

/-- The moves of the parser build the nodes. -/
theorem Standing.of_moves (h : Moves (some 1) x y) (hx : Standing x.1 x.2.1) :
    Standing y.1 y.2.1 := by
  cases h with
  | blank _ => exact hx
  | leaf hk hlead hleaf => exact hx.addChild hk (hleaf.built hlead.named)
  | @nest node fathers k k' lead name text hk hlead =>
    have hnest : Standing ((k.child name k').extend []) (node :: fathers) :=
      .inner hx hk hlead.named (by simp)
    rwa [JsonNode.extend_nil] at hnest
  | close hk =>
    cases hx with
    | @inner _ _ nodes k₁ k' name hfather hk₁ hname hnodes =>
      exact hfather.addChild hk₁ (.container hname hnodes)

theorem Standing.of_reflTransGen
    (h : Relation.ReflTransGen (Moves (some 1)) x y) (hx : Standing x.1 x.2.1) :
    Standing y.1 y.2.1 := by
  induction h with
  | refl => exact hx
  | tail _ hyz ih => exact ih.of_moves hyz

/-- The node of the text as a whole, of a place in it. -/
abbrev rootOf (node : JsonNode) (fathers : List JsonNode) : JsonNode :=
  fathers.foldl (fun child father => father.addChild child) node

/-- A root that the parser has built: that of a container whose children are counted,
    but for one, where the text is cut off in it. -/
def Grown (root : JsonNode) : Prop :=
  ∃ k nodes, (∀ c ∈ nodes, Built k c) ∧ (root = (Container.rootNode k).extend nodes ∨
    ∃ k' child, child.elemType = Container.elemType k' ∧
      root = ((Container.rootNode k).extend nodes).addChild child)

theorem Standing.grown_addChild {father : JsonNode} {fathers : List JsonNode}
    (h : Standing father fathers) {child : JsonNode}
    (hk : child.elemType = k.elemType) : Grown (rootOf child (father :: fathers)) := by
  induction h generalizing child k with
  | @root k₁ nodes hnodes => exact ⟨k₁, nodes, hnodes, .inr ⟨k, child, hk, rfl⟩⟩
  | @inner father' fathers' nodes k₁ k' name _ _ _ _ ih =>
    have hfather : (((k₁.child name k').extend nodes).addChild child).elemType = k'.elemType := rfl
    exact ih hfather

/-- The root at a place is one that has grown. -/
theorem Standing.grown {fathers : List JsonNode} (h : Standing node fathers) :
    Grown (rootOf node fathers) := by
  cases h with
  | @root k nodes hnodes => exact ⟨k, nodes, hnodes, .inl rfl⟩
  | @inner father fathers nodes k k' name hfather _ _ _ =>
    have hk : ((k.child name k').extend nodes).elemType = k'.elemType := rfl
    exact hfather.grown_addChild hk

/-- The root that `json_solve_str` sets. -/
theorem jsonSolveStr_tree {s : List Char} (hs : '\x00' ∉ s) {ret : Nat} {root : JsonNode}
    (h : jsonSolveStr (s ++ ['\x00']) = .done (ret, some root)) : root = {} ∨ Grown root := by
  rcases exists_run hs with ⟨-, hr⟩ | hr | ⟨blanks, k, text, x, rfl, -, hmoves, hends⟩
  · rw [h, Outcome.done.injEq, Prod.mk.injEq, Option.some.injEq] at hr
    exact .inl hr.2
  · rw [h] at hr
    cases hr
  · have hstart : Standing k.rootNode [] := by
      have hroot : Standing (k.rootNode.extend []) [] := .root (by simp)
      rwa [JsonNode.extend_nil] at hroot
    have hx := Standing.of_reflTransGen hmoves hstart
    rw [h] at hends
    cases hends with
    | closed _ => exact .inr hx.grown
    | cut node fathers => exact .inr hx.grown

/-! ## The load of a tree -/

/-- The characters with a meaning in a text: those of a backslash and of the brackets
    that open containers. -/
def weight (text : List Char) : Nat := text.countP fun c => c == '\\' || c == '{' || c == '['

/-- The characters that a string in a text needs a backslash for. -/
def specials (text : List Char) : Nat := text.countP fun c => c == '"' || c == '\\'

/-- The characters that a string stands for weigh no more than those in the text, even
    when each that needs a backslash counts for one more. -/
theorem Chars.weight_le {raw content : List Char} (h : Chars raw content) :
    weight content + specials content ≤ weight raw := by
  induction h with
  | nil => simp [weight, specials]
  | @plain c raw content hq hb hn _ ih =>
    simp only [weight, specials, List.countP_cons] at ih ⊢
    simp only [beq_eq_false_iff_ne.2 hq, beq_eq_false_iff_ne.2 hb]
    simp
    omega
  | @escaped c raw content hn _ ih =>
    -- The backslash weighs what the character counts for more.
    have hc : (if c == '"' || c == '\\' then 1 else 0) ≤ 1 := by split <;> simp
    simp only [weight, specials, List.countP_cons] at ih ⊢
    have hback : ('\\' == '\\' || '\\' == '{' || '\\' == '[') = true := rfl
    rw [if_pos hback]
    omega

@[simp] theorem weight_append (a b : List Char) : weight (a ++ b) = weight a + weight b :=
  List.countP_append

@[simp] theorem specials_append (a b : List Char) : specials (a ++ b) = specials a + specials b :=
  List.countP_append

namespace JsonNode

/-- The characters of a node. -/
def chars (node : JsonNode) : List Char := node.name ++ node.valueStr.getD []

/-- Whether a node is that of a container. -/
def isContainer (node : JsonNode) : Bool := node.elemType == .map || node.elemType == .array

/-- What a node adds to the load of a tree. -/
def ownLoad (node : JsonNode) : Nat :=
  (if node.isContainer then 1 else 0) + weight node.chars + specials node.chars

/-- The load of trees: of their containers and characters. -/
def load (nodes : List JsonNode) : Nat := ((nodesBelow nodes).map ownLoad).sum

@[simp] theorem load_nil : load [] = 0 := by
  simp [load]

theorem load_cons (node : JsonNode) (nodes : List JsonNode) :
    load (node :: nodes) = node.ownLoad + load node.childlist + load nodes := by
  simp [load, node.nodes_eq, Nat.add_assoc]

theorem ownLoad_of_none (hcontainer : node.isContainer = false)
    (hstr : node.valueStr = none) : node.ownLoad = weight node.name + specials node.name := by
  simp [ownLoad, chars, hcontainer, hstr]

theorem ownLoad_of_some (hcontainer : node.isContainer = false)
    {value : List Char} (hstr : node.valueStr = some value) :
    node.ownLoad = weight node.name + weight value + (specials node.name + specials value) := by
  simp [ownLoad, chars, hcontainer, hstr]

theorem ownLoad_of_container (hcontainer : node.isContainer = true)
    (hstr : node.valueStr = none) : node.ownLoad = 1 + weight node.name + specials node.name := by
  simp [ownLoad, chars, hcontainer, hstr]

@[simp] theorem load_append (l l' : List JsonNode) : load (l ++ l') = load l + load l' := by
  simp [load]

theorem load_addChild (node child : JsonNode) (nodes : List JsonNode) :
    load ((node.addChild child) :: nodes) = load (node :: nodes) + load [child] := by
  have hown : (node.addChild child).ownLoad = node.ownLoad := rfl
  have hchildren : (node.addChild child).childlist = node.childlist ++ [child] := rfl
  rw [load_cons, load_cons, hown, hchildren, load_append]
  omega

theorem load_countElem (node : JsonNode) (nodes : List JsonNode) :
    load (node.countElem :: nodes) = load (node :: nodes) := by
  have hown : node.countElem.ownLoad = node.ownLoad := rfl
  have hchildren : node.countElem.childlist = node.childlist := rfl
  rw [load_cons, load_cons, hown, hchildren]

theorem load_rootOf (node : JsonNode) (fathers : List JsonNode) :
    load [rootOf node fathers] = load (node :: fathers) := by
  induction fathers generalizing node with
  | nil => rfl
  | cons father fathers ih =>
    rw [rootOf, List.foldl_cons, ← rootOf, ih, load_addChild, load_cons node, load_cons node]
    simp only [load_nil]
    omega

end JsonNode

open JsonNode (load load_nil load_cons load_append ownLoad)

/-- The load of the lead of a value is that of its name at least. -/
theorem Lead.weight_le {lead : List Char} (h : Lead k lead name) :
    weight name + specials name ≤ weight lead := by
  cases h with
  | element => simp [weight, specials]
  | @member raw _ before after hchars _ _ _ =>
    have hle := hchars.weight_le
    rw [← List.singleton_append, weight_append, weight_append]
    omega

/-- The load of a value is no more than that of its token, with the name. -/
theorem Leaf.load_le {token after : List Char} (h : Leaf (some 1) k name token after node) :
    load [node] ≤ weight token + weight name + specials name := by
  rw [load_cons, h.childlist_eq, load_nil]
  cases h with
  | @string raw content _ hchars _ =>
    have hle := hchars.weight_le
    rw [← List.singleton_append, weight_append, weight_append, JsonNode.ownLoad_of_some rfl rfl]
    simp only
    omega
  | _ =>
    rw [JsonNode.ownLoad_of_none rfl rfl]
    simp only
    omega

/-- A move adds no more to the load of the nodes than the text it takes weighs. -/
theorem load_of_moves (h : Moves (some 1) x y) :
    load (y.1 :: y.2.1) + weight y.2.2 ≤ load (x.1 :: x.2.1) + weight x.2.2 := by
  cases h with
  | @blank node fathers c text _ =>
    simp only
    rw [← List.singleton_append (x := c), weight_append]
    omega
  | @leaf node child fathers k lead name token text _ hlead hleaf =>
    have hname := hlead.weight_le
    have hload := hleaf.load_le
    simp only [JsonNode.load_countElem, JsonNode.load_addChild, weight_append]
    omega
  | @nest node fathers k k' lead name text _ hlead =>
    have hname := hlead.weight_le
    have hopen : weight [k'.opening] = 1 := by cases k' <;> rfl
    have hown : (k.child name k').ownLoad = 1 + weight name + specials name :=
      JsonNode.ownLoad_of_container (by cases k' <;> rfl) rfl
    simp only [weight_append]
    rw [load_cons, hown, ← List.singleton_append (x := k'.opening), weight_append, hopen]
    simp only [Container.child, load_nil]
    omega
  | @close node father fathers k text _ =>
    simp only [JsonNode.load_countElem, JsonNode.load_addChild]
    rw [← List.singleton_append (x := k.closing), weight_append, load_cons node (father :: fathers),
      load_cons node []]
    simp only [load_nil]
    omega

theorem load_of_reflTransGen (h : Relation.ReflTransGen (Moves (some 1)) x y) :
    load (y.1 :: y.2.1) + weight y.2.2 ≤ load (x.1 :: x.2.1) + weight x.2.2 := by
  induction h with
  | refl => exact Nat.le_refl _
  | tail _ hyz ih => exact Nat.le_trans (load_of_moves hyz) ih

/-- The load of the root that `json_solve_str` sets is no more than the text weighs. -/
theorem jsonSolveStr_load {s : List Char} (hs : '\x00' ∉ s) {ret : Nat} {root : JsonNode}
    (h : jsonSolveStr (s ++ ['\x00']) = .done (ret, some root)) : load [root] ≤ weight s := by
  rcases exists_run hs with ⟨-, hr⟩ | hr | ⟨blanks, k, text, x, rfl, -, hmoves, hends⟩
  · rw [h, Outcome.done.injEq, Prod.mk.injEq, Option.some.injEq] at hr
    rw [hr.2]
    exact Nat.zero_le _
  · rw [h] at hr
    cases hr
  · have hload := load_of_reflTransGen hmoves
    have hopen : weight [k.opening] = 1 := by cases k <;> rfl
    have hroot : load [k.rootNode] = 1 := by cases k <;> rfl
    simp only [hroot] at hload
    rw [h] at hends
    rw [← List.singleton_append (x := k.opening), weight_append, weight_append, hopen]
    cases hends with
    | closed _ =>
      simp only at hload
      omega
    | cut node fathers =>
      rw [← rootOf, JsonNode.load_rootOf]
      simp only at hload
      omega

end Cube.Json
