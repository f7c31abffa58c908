import Cube.Json.Print

/-!
# Printing a tree and parsing the text

`json_print_str` puts the characters of names and strings as they are, while
`json_get_strvalue` takes a backslash for an escape and a quote for the end. The text
of a tree in which there are none is read back to the tree. Where there are some, the
text weighs less than the tree that it would have to stand for.

* `Built.reads`: a child built of plain characters is read back from its text.
* `Built.weight_eq`: what the text of a child weighs.
* `jsonPrintStr_roundTrips_iff`: the trees that are read back.
-/

namespace Cube.Json

open Lib
open JsonNode (load load_nil load_cons load_append)

/-! ## Plain characters -/

/-- A text that a string holds as it is. -/
def Plain (text : List Char) : Prop := '"' ∉ text ∧ '\\' ∉ text

theorem Plain.left {a b : List Char} (h : Plain (a ++ b)) : Plain a :=
  ⟨fun hq => h.1 (List.mem_append_left b hq), fun hb => h.2 (List.mem_append_left b hb)⟩

theorem Plain.right {a b : List Char} (h : Plain (a ++ b)) : Plain b :=
  ⟨fun hq => h.1 (List.mem_append_right a hq), fun hb => h.2 (List.mem_append_right a hb)⟩

theorem Plain.chars {text : List Char} (h : Plain text) (hn : '\x00' ∉ text) :
    Chars text text := by
  induction text with
  | nil => exact .nil
  | cons c text ih =>
    have htext : Plain text := Plain.right (a := [c]) h
    refine .plain ?_ ?_ ?_ (ih htext fun hn' => hn (List.mem_cons_of_mem c hn'))
    · rintro rfl
      exact h.1 List.mem_cons_self
    · rintro rfl
      exact h.2 List.mem_cons_self
    · rintro rfl
      exact hn List.mem_cons_self

theorem specials_eq_zero {text : List Char} : specials text = 0 ↔ Plain text := by
  rw [specials, List.countP_eq_zero]
  constructor
  · exact fun h => ⟨fun hq => absurd rfl (h _ hq), fun hb => absurd rfl (h _ hb)⟩
  · rintro ⟨hq, hb⟩ c hc hspecial
    rw [Bool.or_eq_true, beq_iff_eq, beq_iff_eq] at hspecial
    rcases hspecial with rfl | rfl
    · exact hq hc
    · exact hb hc

/-! ## Texts that are read back -/

variable {k : Container} {node : JsonNode} {nodes : List JsonNode}

theorem Named.length_lt {name : List Char} (h : Named k name) :
    name.length < DIGEST_SIZE := by
  cases k with
  | map => exact Nat.lt_of_le_of_lt (Nat.le_add_right _ 2) h.1
  | array =>
    obtain rfl : name = [] := h
    decide

theorem Named.not_nul {name : List Char} (h : Named k name) : '\x00' ∉ name := by
  cases k with
  | map => exact h.2
  | array =>
    obtain rfl : name = [] := h
    simp

theorem Built.named (h : Built k node) : Named k node.name := by
  cases h with
  | string hname _ _ => exact hname
  | num hname _ _ => exact hname
  | bool hname => exact hname
  | container hname _ => exact hname

/-- The name of a child as it is printed. -/
theorem nameText_eq (h : Named k node.name) :
    nameText k.named node = if k.named then '"' :: (node.name ++ ['"', ':']) else [] := by
  rw [nameText, List.take_of_length_le (Nat.le_of_lt h.length_lt)]

/-- The name of a child, of plain characters, is its lead. -/
theorem lead_nameText (h : Named k node.name)
    (hplain : Plain node.name) : Lead k (nameText k.named node) node.name := by
  rw [nameText_eq h]
  cases k with
  | map =>
    have hblank : ∀ c ∈ ([] : List Char), isIgnoreChar c := by simp
    exact .member (hplain.chars h.2) h.1 hblank hblank
  | array =>
    rw [show node.name = [] from h]
    exact .element

/-- The text of a child is read back to it, before items that end a value. -/
def Reads (k : Container) (node : JsonNode) : Prop :=
  ∀ text nodes after, Items (some 1) k text nodes after → EndsValue text →
    Items (some 1) k (nameText k.named node ++ (valueText node ++ text)) (node :: nodes) after

theorem endsValue_restText (k : Container) (named : Bool) (nodes : List JsonNode)
    (text : List Char) : EndsValue (restText named nodes ++ k.closing :: text) := by
  rcases nodes with _ | ⟨node, nodes⟩
  · rw [restText_nil]
    exact ⟨k.closing, text, rfl, k.isValueEnd_closing, k.closing_ne_nul⟩
  · rw [restText_cons]
    exact ⟨',', _, rfl, rfl, by decide⟩

/-- The children that are not the first are read back: a comma is a blank. -/
theorem items_restText (h : ∀ c ∈ nodes, Reads k c) (after : List Char) :
    Items (some 1) k (restText k.named nodes ++ k.closing :: after) nodes after := by
  induction nodes with
  | nil =>
    rw [restText_nil]
    exact .close
  | cons node nodes ih =>
    have hrest := ih fun c hc => h c (List.mem_cons_of_mem node hc)
    rw [restText_cons, List.cons_append, List.append_assoc, List.append_assoc]
    exact .blank rfl (h node List.mem_cons_self _ _ _ hrest (endsValue_restText k _ _ _))

/-- The children of a container are read back. -/
theorem items_itemsText (h : ∀ c ∈ nodes, Reads k c) (after : List Char) :
    Items (some 1) k (itemsText k.named nodes ++ k.closing :: after) nodes after := by
  rcases nodes with _ | ⟨node, nodes⟩
  · rw [itemsText_nil]
    exact .close
  · have hrest := items_restText (fun c hc => h c (List.mem_cons_of_mem node hc)) after
    rw [itemsText_cons, List.append_assoc, List.append_assoc]
    exact h node List.mem_cons_self _ _ _ hrest (endsValue_restText k _ _ _)

/-- The text of a number starts with its sign, where it has one. -/
theorem numText_head {v : Int} (hv : 0 ≤ v) : (numText v).head? ≠ some '-' := by
  have hdigits := itoaLoop_digits v.natAbs
  obtain ⟨c, ds, hcons, hc⟩ := hdigits.exists_cons
  rw [numText, if_neg (by omega), List.nil_append, hcons, List.head?_cons, Ne, Option.some.injEq]
  exact isDigit_ne hc rfl

/-- A child that is built of plain characters is read back from its text. -/
theorem Built.reads (h : Built k node)
    (hplain : ∀ n ∈ node.nodes, Plain n.chars) : Reads k node := by
  induction h with
  | @string k name content hname hlen hnul =>
    intro text nodes after hitems _
    have hchars : Plain (name ++ content) := hplain _ (JsonNode.mem_nodes_self _)
    have htake : content.take (DIGEST_SIZE * 16) = content :=
      List.take_of_length_le (show content.length ≤ 512 by omega)
    rw [valueText, Option.getD_some, htake]
    exact .leaf (lead_nameText hname hchars.left) (.string (hchars.right.chars hnul) hlen) hitems
  | @num k name v hname hv hneg =>
    intro text nodes after hitems hend
    have hchars : Plain (name ++ []) := hplain _ (JsonNode.mem_nodes_self _)
    obtain ⟨hnum, hlen⟩ := numText_number hv
    rw [valueText, intOf_emod hv]
    exact .leaf (lead_nameText hname hchars.left)
      (.num hnum hv hlen (fun hfalse => numText_head (hneg hfalse)) hend) hitems
  | @bool k name hname =>
    intro text nodes after hitems _
    have hchars : Plain (name ++ []) := hplain _ (JsonNode.mem_nodes_self _)
    rw [valueText]
    exact .leaf (lead_nameText hname hchars.left) (.trueWord (by decide)) hitems
  | @container k k' name children hname _ ih =>
    intro text nodes after hitems _
    have hchars : Plain (name ++ []) := hplain _ (JsonNode.mem_nodes_self _)
    have hlist : ((k.child name k').extend children).childlist = children := rfl
    have hk' : ((k.child name k').extend children).elemType = k'.elemType := rfl
    -- Every node below a child is one below the container.
    have hreads : ∀ c ∈ children, Reads k' c := fun c hc => ih c hc fun n hn => by
      refine hplain n ?_
      rw [JsonNode.nodes_eq, hlist]
      exact List.mem_cons_of_mem _ (JsonNode.mem_nodesBelow.2 ⟨c, hc, hn⟩)
    rw [valueText_container hk', hlist, List.cons_append, List.append_assoc]
    exact .nest (lead_nameText hname hchars.left) (items_itemsText hreads text) hitems

/-- A root that is built of plain characters is read back from its text. -/
theorem document_rootText (h : ∀ c ∈ nodes, Built k c)
    (hplain : ∀ n ∈ JsonNode.nodesBelow nodes, Plain n.chars) :
    Document (some 1) (rootText k nodes) (k.rootNode.extend nodes) := by
  have hreads : ∀ c ∈ nodes, Reads k c := fun c hc =>
    (h c hc).reads fun n hn => hplain n (JsonNode.mem_nodesBelow.2 ⟨c, hc, hn⟩)
  exact ⟨[], k, _, nodes, rfl, by simp, items_itemsText hreads [], rfl⟩

/-! ## The weight of a text -/

/-- The special characters of the nodes of trees. -/
def specialsBelow (nodes : List JsonNode) : Nat :=
  ((JsonNode.nodesBelow nodes).map fun node => specials node.chars).sum

@[simp] theorem specialsBelow_nil : specialsBelow [] = 0 := by
  simp [specialsBelow]

theorem specialsBelow_cons (node : JsonNode) (nodes : List JsonNode) :
    specialsBelow (node :: nodes) =
      specials node.chars + specialsBelow node.childlist + specialsBelow nodes := by
  simp [specialsBelow, node.nodes_eq, Nat.add_assoc]

theorem specialsBelow_eq_zero :
    specialsBelow nodes = 0 ↔ ∀ node ∈ JsonNode.nodesBelow nodes, Plain node.chars := by
  simp only [specialsBelow, List.sum_eq_zero_iff_forall_eq_nat, List.forall_mem_map, specials_eq_zero]

@[simp] theorem weight_nil : weight [] = 0 := rfl

theorem weight_cons (c : Char) (text : List Char) :
    weight (c :: text) = weight [c] + weight text := by
  rw [← weight_append, List.singleton_append]

theorem weight_digits {ds : List Char} (h : ∀ c ∈ ds, c.isDigit) : weight ds = 0 := by
  rw [weight, List.countP_eq_zero]
  intro c hc
  have hne : ∀ d : Char, d.isDigit = false → c ≠ d := fun d hd => isDigit_ne (h c hc) hd
  simp [hne]

theorem Number.weight_eq {token : List Char} {v : Int} (h : Number token v) : weight token = 0 := by
  cases h with
  | pos hds => exact weight_digits hds.2.1
  | neg hds =>
    rw [weight_cons, weight_digits hds.2.1]
    rfl

/-- A text weighs what a tree loads, its special characters apart. -/
def Weighs (node : JsonNode) : Prop :=
  weight node.name + weight (valueText node) + specialsBelow [node] = load [node]

theorem weight_nameText (h : Named k node.name) :
    weight (nameText k.named node) = weight node.name := by
  rw [nameText_eq h]
  cases k with
  | map =>
    rw [Container.named, if_pos rfl, weight_cons, weight_append]
    exact Nat.zero_add _
  | array =>
    rw [show node.name = [] from h]
    rfl

theorem weight_restText (h : ∀ c ∈ nodes, Named k c.name ∧ Weighs c) :
    weight (restText k.named nodes) + specialsBelow nodes = load nodes := by
  induction nodes with
  | nil => rfl
  | cons node nodes ih =>
    obtain ⟨hname, hnode⟩ := h node List.mem_cons_self
    have hrest := ih fun c hc => h c (List.mem_cons_of_mem node hc)
    have hcomma : weight [','] = 0 := rfl
    rw [Weighs, specialsBelow_cons, load_cons, specialsBelow_nil, load_nil] at hnode
    rw [restText_cons, weight_cons, hcomma, weight_append, weight_append, weight_nameText hname,
      specialsBelow_cons, load_cons]
    omega

/-- The first child has no comma, which weighs nothing. -/
theorem weight_itemsText (named : Bool) (nodes : List JsonNode) :
    weight (itemsText named nodes) = weight (restText named nodes) := by
  rcases nodes with _ | ⟨node, nodes⟩
  · rw [itemsText_nil, restText_nil]
  · rw [itemsText_cons, restText_cons, weight_cons ',']
    exact (Nat.zero_add _).symm

/-- The text of a container weighs one more than those of its children. -/
theorem weight_rootText (k : Container) (nodes : List JsonNode) :
    weight (rootText k nodes) = 1 + weight (restText k.named nodes) := by
  have hopen : weight [k.opening] = 1 := by cases k <;> rfl
  have hclose : weight [k.closing] = 0 := by cases k <;> rfl
  rw [rootText, weight_cons, hopen, weight_append, hclose, weight_itemsText, Nat.add_zero]

/-- The text of a child weighs what it loads, its special characters apart. -/
theorem Built.weight_eq (h : Built k node) : Weighs node := by
  induction h with
  | @string k name content hname hlen hnul =>
    have htake : content.take (DIGEST_SIZE * 16) = content :=
      List.take_of_length_le (show content.length ≤ 512 by omega)
    have hquote : weight ['"'] = 0 := rfl
    rw [Weighs, valueText, Option.getD_some, htake, weight_cons, weight_append, hquote,
      specialsBelow_cons, load_cons, JsonNode.ownLoad]
    simp [JsonNode.chars, JsonNode.isContainer]
  | @num k name v hname hv hneg =>
    rw [Weighs, valueText, intOf_emod hv, (numText_number hv).1.weight_eq, specialsBelow_cons,
      load_cons, JsonNode.ownLoad]
    simp [JsonNode.chars, JsonNode.isContainer]
  | @bool k name hname =>
    have htrue : weight ['t', 'r', 'u', 'e'] = 0 := rfl
    rw [Weighs, valueText, specialsBelow_cons, load_cons, JsonNode.ownLoad]
    simp [JsonNode.chars, JsonNode.isContainer, htrue]
  | @container k k' name children hname hchildren ih =>
    have hk' : ((k.child name k').extend children).elemType = k'.elemType := rfl
    have hlist : ((k.child name k').extend children).childlist = children := rfl
    have hrest := weight_restText fun c hc => ⟨(hchildren c hc).named, ih c hc⟩
    have hcontainer : ((k.child name k').extend children).isContainer = true := by
      cases k' <;> rfl
    rw [Weighs, valueText_container hk', hlist, ← rootText, weight_rootText, specialsBelow_cons,
      load_cons, hlist, JsonNode.ownLoad_of_container hcontainer rfl]
    have hchars : ((k.child name k').extend children).chars = name ++ [] := rfl
    have hname' : ((k.child name k').extend children).name = name := rfl
    rw [hchars, hname', List.append_nil, specialsBelow_nil, load_nil]
    omega

/-- The text of a root weighs what the tree loads, its special characters apart. -/
theorem weight_root (h : ∀ c ∈ nodes, Built k c) :
    weight (rootText k nodes) + specialsBelow nodes = load [k.rootNode.extend nodes] := by
  have hrest := weight_restText fun c hc => ⟨(h c hc).named, (h c hc).weight_eq⟩
  have hlist : (k.rootNode.extend nodes).childlist = nodes := rfl
  have hcontainer : (k.rootNode.extend nodes).isContainer = true := by cases k <;> rfl
  have hname : (k.rootNode.extend nodes).name = [] := rfl
  rw [weight_rootText, load_cons, hlist, JsonNode.ownLoad_of_container hcontainer rfl, hname,
    weight_nil, load_nil]
  have hspecials : specials [] = 0 := rfl
  omega

/-! ## Texts without a NUL -/

theorem not_nul_nameText (h : Named k node.name) :
    '\x00' ∉ nameText k.named node := by
  rw [nameText_eq h]
  split
  · simpa using h.not_nul
  · simp

theorem not_nul_restText (h : ∀ c ∈ nodes, Named k c.name ∧ '\x00' ∉ valueText c) :
    '\x00' ∉ restText k.named nodes := by
  induction nodes with
  | nil => simp
  | cons node nodes ih =>
    obtain ⟨hname, hnode⟩ := h node List.mem_cons_self
    have hrest := ih fun c hc => h c (List.mem_cons_of_mem node hc)
    rw [restText_cons]
    simp [not_nul_nameText hname, hnode, hrest]

theorem not_nul_rootText
    (h : ∀ c ∈ nodes, Named k c.name ∧ '\x00' ∉ valueText c) : '\x00' ∉ rootText k nodes := by
  have hrest := not_nul_restText h
  have hitems : '\x00' ∉ itemsText k.named nodes := by
    rcases nodes with _ | ⟨node, nodes⟩
    · simp
    · rw [restText_cons] at hrest
      rw [itemsText_cons]
      exact fun hn => hrest (List.mem_cons_of_mem _ hn)
  rw [rootText]
  simp [hitems, Ne.symm k.opening_ne_nul, Ne.symm k.closing_ne_nul]

/-- The text of a child that is built has no NUL in it. -/
theorem Built.not_nul (h : Built k node) :
    '\x00' ∉ valueText node := by
  induction h with
  | @string k name content hname hlen hnul =>
    rw [valueText, Option.getD_some]
    have htake : '\x00' ∉ content.take (DIGEST_SIZE * 16) := fun hn => hnul (List.mem_of_mem_take hn)
    simp [htake]
  | @num k name v hname hv hneg =>
    rw [valueText, intOf_emod hv]
    exact (numText_number hv).1.not_nul
  | @bool k name hname =>
    rw [valueText]
    decide
  | @container k k' name children hname hchildren ih =>
    have hk' : ((k.child name k').extend children).elemType = k'.elemType := rfl
    have hlist : ((k.child name k').extend children).childlist = children := rfl
    rw [valueText_container hk', hlist, ← rootText]
    exact not_nul_rootText fun c hc => ⟨(hchildren c hc).named, ih c hc⟩

/-! ## The round trip -/

/-- A tree is printed, and the text is parsed to its end, to an equal tree; its text
    is the same. -/
def RoundTrips (root : JsonNode) : Prop :=
  ∃ text again, jsonPrintStr root = .done text ∧
    jsonSolveStr (text ++ ['\x00']) = .done (text.length, some again) ∧
    again = root ∧ jsonPrintStr again = .done text

/-- The tree of a complete object or array in which no name and no string has a quote
    or a backslash. -/
structure Printable (root : JsonNode) : Prop where
  started : root.isContainer
  closed : ∀ node ∈ root.nodes, node.isContainer → node.elemNo = node.childlist.length
  plain : ∀ node ∈ root.nodes, Plain node.chars

/-- A child that is built has its children counted, and so have those below it. -/
theorem Built.closed (h : Built k node) :
    ∀ n ∈ node.nodes, n.isContainer → n.elemNo = n.childlist.length := by
  induction h with
  | container _ _ ih =>
    intro n hn
    rw [JsonNode.nodes_eq] at hn
    rcases List.mem_cons.1 hn with rfl | hn
    · exact fun _ => by simp [Container.child, JsonNode.extend]
    · obtain ⟨c, hc, hn⟩ := JsonNode.mem_nodesBelow.1 hn
      exact ih c hc n hn
  | _ =>
    intro n hn hcontainer
    rw [JsonNode.nodes_eq, JsonNode.nodesBelow_nil] at hn
    obtain rfl := List.mem_singleton.1 hn
    exact absurd hcontainer (by simp [JsonNode.isContainer])

/-- A root that is read back has no special characters, and no child is left out of
    its text: the text weighs what the tree that it stands for loads. -/
theorem RoundTrips.load_le {root : JsonNode} (h : RoundTrips root) (hnodes : ∀ c ∈ nodes, Built k c)
    (hprint : jsonPrintStr root = .done (rootText k nodes)) :
    load [root] + specialsBelow nodes ≤ load [k.rootNode.extend nodes] := by
  obtain ⟨text, again, htext, hsolve, rfl, -⟩ := h
  rw [hprint, Outcome.done.injEq] at htext
  subst htext
  have hnul : '\x00' ∉ rootText k nodes :=
    not_nul_rootText fun c hc => ⟨(hnodes c hc).named, (hnodes c hc).not_nul⟩
  rw [← weight_root hnodes]
  exact Nat.add_le_add_right (jsonSolveStr_load hnul hsolve) _

/-- The trees that `json_solve_str` builds are printed, and their texts parsed to equal
    trees, exactly where they are complete, and no quote or backslash is in them. -/
theorem jsonPrintStr_roundTrips_iff {s : List Char} (hs : '\x00' ∉ s) {ret : Nat}
    {root : JsonNode} (h : jsonSolveStr (s ++ ['\x00']) = .done (ret, some root)) :
    RoundTrips root ↔ Printable root := by
  rcases jsonSolveStr_tree hs h with rfl | ⟨k, nodes, hnodes, rfl | ⟨k', child, hchild, rfl⟩⟩
  · -- The root of a blank text has no type.
    constructor
    · rintro ⟨text, again, hprint, -⟩
      have herror : jsonPrintStr {} = .error (-EINVAL) := rfl
      rw [herror] at hprint
      cases hprint
    · intro hprintable
      exact absurd hprintable.started (by decide)
  · have hlist : (k.rootNode.extend nodes).childlist = nodes := rfl
    have hprint := (jsonPrintStr_root hnodes).1
    constructor
    · intro htrip
      have hspecials : specialsBelow nodes = 0 := by
        have hload := htrip.load_le hnodes hprint
        omega
      have hplain := specialsBelow_eq_zero.1 hspecials
      refine ⟨by cases k <;> rfl, fun n hn => ?_, fun n hn => ?_⟩
      · rw [JsonNode.nodes_eq, hlist] at hn
        rcases List.mem_cons.1 hn with rfl | hn
        · exact fun _ => by simp [Container.rootNode, JsonNode.extend]
        · obtain ⟨c, hc, hn⟩ := JsonNode.mem_nodesBelow.1 hn
          exact (hnodes c hc).closed n hn
      · rw [JsonNode.nodes_eq, hlist] at hn
        rcases List.mem_cons.1 hn with rfl | hn
        · exact ⟨List.not_mem_nil, List.not_mem_nil⟩
        · exact hplain n hn
    · intro hprintable
      have hplain : ∀ n ∈ JsonNode.nodesBelow nodes, Plain n.chars := fun n hn => by
        refine hprintable.plain n ?_
        rw [JsonNode.nodes_eq, hlist]
        exact List.mem_cons_of_mem _ hn
      have hnul : '\x00' ∉ rootText k nodes ++ [] := by
        rw [List.append_nil]
        exact not_nul_rootText fun c hc => ⟨(hnodes c hc).named, (hnodes c hc).not_nul⟩
      have hsolve := jsonSolveStr_document (document_rootText hnodes hplain) hnul
      rw [List.append_nil] at hsolve
      exact ⟨_, _, hprint, hsolve, rfl, hprint⟩
  · have hprint := (jsonPrintStr_root hnodes).2 child
    constructor
    · -- The child that is left open is in the tree, and not in the text.
      intro htrip
      have hload := htrip.load_le hnodes hprint
      have hpos : 0 < load [child] := by
        have hcontainer : child.isContainer = true := by
          rw [JsonNode.isContainer, hchild]
          cases k' <;> rfl
        rw [load_cons, JsonNode.ownLoad, if_pos hcontainer]
        omega
      rw [JsonNode.load_addChild] at hload
      omega
    · intro hprintable
      have hno := hprintable.closed _ (JsonNode.mem_nodes_self _) hprintable.started
      have hlen : ((k.rootNode.extend nodes).addChild child).childlist.length = nodes.length + 1 := by
        simp [Container.rootNode, JsonNode.extend, JsonNode.addChild]
      have helem : ((k.rootNode.extend nodes).addChild child).elemNo = nodes.length := by
        simp [Container.rootNode, JsonNode.extend, JsonNode.addChild]
      omega

/-- An array in an array, each with a string, is restored from its text. -/
theorem arrays_roundTrip : ∃ root,
    jsonSolveStr ("[\"a\",[\"b\"]]".toList ++ ['\x00']) = .done (11, some root) ∧
      root.nodes.length = 4 ∧ RoundTrips root := by
  have hchars (c : Char) (hc : c = 'a' ∨ c = 'b') : Chars [c] [c] := by
    rcases hc with rfl | rfl <;> exact .plain (by decide) (by decide) (by decide) .nil
  have hdoc : Document (some 1) "[\"a\",[\"b\"]]".toList _ :=
    ⟨[], .array, _, _, rfl, nofun, .leaf .element (.string (hchars 'a' (.inl rfl)) (by decide))
      (.blank (by decide) (.nest .element
        (.leaf .element (.string (hchars 'b' (.inr rfl)) (by decide)) .close) .close)), rfl⟩
  have hnul : '\x00' ∉ "[\"a\",[\"b\"]]".toList ++ [] := by decide
  have hsolve := jsonSolveStr_document hdoc hnul
  rw [List.append_nil] at hsolve
  refine ⟨_, hsolve, ?_, (jsonPrintStr_roundTrips_iff (by decide) hsolve).2 ⟨rfl, ?_, ?_⟩⟩
  · simp [JsonNode.nodes_eq, JsonNode.nodesBelow_cons, JsonNode.extend, Container.child,
      Container.rootNode]
  all_goals
    intro n hn
    simp only [JsonNode.nodes_eq, JsonNode.nodesBelow_cons, JsonNode.nodesBelow_nil,
      JsonNode.extend, Container.child, Container.rootNode, List.nil_append, List.append_nil,
      List.cons_append, List.mem_cons, List.not_mem_nil, or_false] at hn
  · rcases hn with rfl | rfl | rfl | rfl <;> simp
  · rcases hn with rfl | rfl | rfl | rfl <;> exact ⟨by decide, by decide⟩

/-- A string of one quote, escaped in the text, is printed without its backslash. -/
theorem quote_not_roundTrips :
    ∃ ret root, jsonSolveStr (['[', '"', '\\', '"', '"', ']'] ++ ['\x00']) =
      .done (ret, some root) ∧ ¬ RoundTrips root := by
  refine ⟨6, _, rfl, ?_⟩
  rintro ⟨text, again, hprint, hsolve, -⟩
  have htext : text = ['[', '"', '"', '"', ']'] := by
    rw [← Outcome.done.injEq, ← hprint]
    rfl
  subst htext
  have herror : jsonSolveStr (['[', '"', '"', '"', ']'] ++ ['\x00']) = .error (-EINVAL) := rfl
  rw [herror] at hsolve
  cases hsolve

end Cube.Json
