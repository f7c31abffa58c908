import Cube.Json.Built

/-!
# Printing JSON trees

`json_print_str` of `json.c`. It goes over a tree by one loop, with a counter in
every node (`comp_no`) and a pointer to the child it is at (`curr_child`). Both are
set when a node is entered, so that they are held here with the nodes that lead to
the current one. The text is as long as it needs to be.

* `numText_number`: the digits of an `int` are those of a number.
* `Built.prints`, `jsonPrintStr_root`: the text of a tree that the parser has built.
-/

namespace Cube.Json

open Lib

/-! ## Numbers -/

/-- The digits of a number, the last one first, as the loop of `Itoa` puts them. -/
def itoaLoop (n : Nat) : List Char :=
  Char.ofNat (n % 10 + 48) :: if n / 10 > 0 then itoaLoop (n / 10) else []
decreasing_by omega

/-- The text of a number: its sign, and the digits in order. -/
def numText (n : Int) : List Char := (if n < 0 then ['-'] else []) ++ (itoaLoop n.natAbs).reverse

/-- `Itoa`: there is no `int` opposite to the least one. -/
def itoa (n : Int) : Outcome (List Char) := if n = -2 ^ 31 then .fault else .done (numText n)

/-! ## The printer -/

/-- A node on the way to the current one, with its counter and the children after the
    one that it is at. -/
structure Frame where
  node : JsonNode
  compNo : Int
  next : List JsonNode

/-- The state of the printer: `curr_node`, its fathers, the nearest first, and the text
    written. -/
structure Printer where
  curr : Frame
  fathers : List Frame
  str : List Char

namespace Printer

/-- The printer with more text. -/
def put (p : Printer) (text : List Char) : Printer := { p with str := p.str ++ text }

/-- The printer with a child of the current node being printed. -/
def count (p : Printer) (next : List JsonNode) : Printer :=
  { p with curr := { p.curr with compNo := p.curr.compNo + 1, next := next } }

/-- The printer at a node, with its counter set. -/
def enter (p : Printer) (node : JsonNode) : Printer :=
  { p with curr := { node := node, compNo := 0, next := [] }, fathers := p.curr :: p.fathers }

end Printer

/-- What comes of a turn of the loop: the loop goes on, or the function returns. -/
inductive PrintTurn
  | next (p : Printer)
  | returned (str : List Char)

/-- The end of a node: the function returns at the root. -/
def Printer.leave (p : Printer) : PrintTurn :=
  match p.fathers with
  | [] => .returned p.str
  | father :: fathers => .next { p with curr := father, fathers := fathers }

/-- The value of a child, and the turn of the loop with it. -/
def printValue (p : Printer) (child : JsonNode) : Outcome PrintTurn :=
  match child.elemType with
  | .map | .array => .done (.next (p.enter child))
  | .string =>
    match child.valueStr with
    | none => .fault
    | some value => .done (.next (p.put ('"' :: (value.take (DIGEST_SIZE * 16) ++ ['"']))))
  | .num => do
    let digits ← itoa (Int.bmod child.value (2 ^ 32))
    .done (.next (p.put digits))
  | .bool => .done (.next (p.put (if child.value ≠ 0 then "true".toList else "false".toList)))
  | .null => .error (-EINVAL)

/-- The name of a child and its colon, in a map. -/
def nameText (named : Bool) (child : JsonNode) : List Char :=
  if named then '"' :: (child.name.take DIGEST_SIZE ++ ['"', ':']) else []

/-- A turn of the loop in a map or an array, of which the brackets differ, and whether
    the children have names. -/
def printContainer (opening closing : Char) (named : Bool) (p : Printer) : Outcome PrintTurn :=
  let node := p.curr.node
  if node.elemNo = 0 then .done (p.put [opening, closing]).leave
  else if p.curr.compNo = 0 then
    match node.childlist with
    | [] => .error (-EINVAL)
    | child :: next => printValue ((p.put (opening :: nameText named child)).count next) child
  else if p.curr.compNo = node.elemNo then .done (p.put [closing]).leave
  else
    match p.curr.next with
    | [] => .error (-EINVAL)
    | child :: next => printValue ((p.put (',' :: nameText named child)).count next) child

/-- A turn of the loop of `json_print_str`. -/
def printTurn (p : Printer) : Outcome PrintTurn :=
  match p.curr.node.elemType with
  | .map => printContainer '{' '}' true p
  | .array => printContainer '[' ']' false p
  | _ => .error (-EINVAL)

/-- What follows a turn. -/
def PrintTurn.follow (loop : Printer → Outcome (List Char)) : PrintTurn → Outcome (List Char)
  | next p => loop p
  | returned str => .done str

/-- The loop of `json_print_str`. -/
def printLoop : Nat → Printer → Outcome (List Char)
  | 0, _ => .fault
  | fuel + 1, p => printTurn p >>= PrintTurn.follow (printLoop fuel)

/-- `json_print_str`: the characters written, of which it returns the number. Every
    turn of the loop starts a node or ends one. -/
def jsonPrintStr (root : JsonNode) : Outcome (List Char) :=
  printLoop (2 * root.nodes.length)
    { curr := { node := root, compNo := 0, next := [] }, fathers := [], str := [] }

/-! ## The text of a tree -/

/-- The four bytes of a value, as an `int`. -/
def intOf (value : Int) : Int := Int.bmod value (2 ^ 32)

mutual
/-- The text of a value. -/
def valueText : JsonNode → List Char
  | ⟨.map, _, _, _, _, _, childlist⟩ => '{' :: (itemsText true childlist ++ ['}'])
  | ⟨.array, _, _, _, _, _, childlist⟩ => '[' :: (itemsText false childlist ++ [']'])
  | ⟨.string, _, _, valueStr, _, _, _⟩ =>
    '"' :: ((valueStr.getD []).take (DIGEST_SIZE * 16) ++ ['"'])
  | ⟨.num, _, _, _, value, _, _⟩ => numText (intOf value)
  | ⟨.bool, _, _, _, value, _, _⟩ => if value ≠ 0 then "true".toList else "false".toList
  | ⟨.null, _, _, _, _, _, _⟩ => []

/-- The text of the children of a container. -/
def itemsText (named : Bool) : List JsonNode → List Char
  | [] => []
  | child :: next => nameText named child ++ (valueText child ++ restText named next)

/-- The text of the children of a container that are not the first. -/
def restText (named : Bool) : List JsonNode → List Char
  | [] => []
  | child :: next => ',' :: (nameText named child ++ (valueText child ++ restText named next))
end

/-- Whether the children of a container have names. -/
def Container.named : Container → Bool
  | map => true
  | array => false

variable {node : JsonNode} {k : Container}

theorem valueText_container (hk : node.elemType = k.elemType) :
    valueText node = k.opening :: (itemsText k.named node.childlist ++ [k.closing]) := by
  obtain ⟨elemType, _⟩ := node
  simp only at hk
  subst hk
  cases k <;> rw [Container.elemType, valueText] <;> rfl

@[simp] theorem itemsText_nil (named : Bool) : itemsText named [] = [] := by
  rw [itemsText]

theorem itemsText_cons (named : Bool) (child : JsonNode) (next : List JsonNode) :
    itemsText named (child :: next) =
      nameText named child ++ (valueText child ++ restText named next) := by
  rw [itemsText]

@[simp] theorem restText_nil (named : Bool) : restText named [] = [] := by
  rw [restText]

theorem restText_cons (named : Bool) (child : JsonNode) (next : List JsonNode) :
    restText named (child :: next) =
      ',' :: (nameText named child ++ (valueText child ++ restText named next)) := by
  rw [restText]

/-! ## Runs of the printer -/

/-- The loop gets from a state to another in a number of turns. -/
def Runs (n : Nat) (p q : Printer) : Prop :=
  ∀ fuel, printLoop (fuel + n) p = printLoop fuel q

theorem Runs.refl (p : Printer) : Runs 0 p p := fun _ => rfl

theorem Runs.trans {m n : Nat} {p q r : Printer} (h : Runs m p q) (h' : Runs n q r) :
    Runs (n + m) p r := fun fuel => by
  rw [← Nat.add_assoc, h, h']

theorem Runs.of_turn {p q : Printer} (h : printTurn p = .done (.next q)) : Runs 1 p q :=
  fun fuel => by
    rw [printLoop, h]
    rfl

/-- A child is printed: in the turn that comes to it, or from there on, in as many
    turns as it has nodes, twice. -/
def Prints (child : JsonNode) : Prop :=
  ∀ p : Printer, ∃ q m, m + 1 ≤ 2 * child.nodes.length ∧
    printValue p child = .done (.next q) ∧ Runs m q (p.put (valueText child))

theorem printTurn_container {p : Printer} (hk : p.curr.node.elemType = k.elemType) :
    printTurn p = printContainer k.opening k.closing k.named p := by
  cases k <;> simp only [printTurn, hk] <;> rfl

/-- The children that are left are printed, up to the last one that is counted. -/
theorem runs_next (hk : node.elemType = k.elemType)
    {next : List JsonNode} (hnext : ∀ c ∈ next, Prints c) {compNo : Int} (hpos : 0 < compNo)
    (hno : compNo + next.length = node.elemNo) (more : List JsonNode) (fathers : List Frame)
    (str : List Char) :
    ∃ n, n ≤ 2 * (JsonNode.nodesBelow next).length ∧
      Runs n ⟨⟨node, compNo, next ++ more⟩, fathers, str⟩
        ⟨⟨node, node.elemNo, more⟩, fathers, str ++ restText k.named next⟩ := by
  induction next generalizing compNo str with
  | nil =>
    obtain rfl : compNo = node.elemNo := by simpa using hno
    exact ⟨0, by simp, by simpa using Runs.refl _⟩
  | cons child next ih =>
    rw [List.length_cons] at hno
    have hno' : compNo + 1 + next.length = node.elemNo := by omega
    obtain ⟨q, m, hm, hvalue, hruns⟩ := hnext child List.mem_cons_self
      ⟨⟨node, compNo + 1, next ++ more⟩, fathers, str ++ ',' :: nameText k.named child⟩
    obtain ⟨n, hn, hrest⟩ := ih (fun c hc => hnext c (List.mem_cons_of_mem child hc)) (by omega) hno'
      (str ++ ',' :: nameText k.named child ++ valueText child)
    have hturn : printTurn ⟨⟨node, compNo, child :: next ++ more⟩, fathers, str⟩ =
        .done (.next q) := by
      rw [printTurn_container hk, ← hvalue]
      simp only [printContainer, List.cons_append]
      rw [if_neg (by omega), if_neg (by omega), if_neg (by omega)]
      rfl
    refine ⟨n + (m + 1), ?_, ?_⟩
    · rw [JsonNode.nodesBelow_cons, List.length_append]
      omega
    · have htext : str ++ restText k.named (child :: next) =
          str ++ ',' :: nameText k.named child ++ valueText child ++ restText k.named next := by
        rw [restText_cons]
        simp
      rw [htext]
      exact ((Runs.of_turn hturn).trans hruns).trans hrest

/-- A container is printed, with the children that are counted, up to the turn that
    leaves it. -/
theorem exists_last_turn (hk : node.elemType = k.elemType)
    {nodes more : List JsonNode} (hlist : node.childlist = nodes ++ more)
    (hno : node.elemNo = nodes.length) (hnodes : ∀ c ∈ nodes, Prints c) (fathers : List Frame)
    (str : List Char) :
    ∃ n q frame, n + 1 < 2 * node.nodes.length ∧
      Runs n ⟨⟨node, 0, []⟩, fathers, str⟩ q ∧
      printTurn q = .done (Printer.leave
        ⟨frame, fathers, str ++ k.opening :: (itemsText k.named nodes ++ [k.closing])⟩) := by
  have hlen : 1 + (JsonNode.nodesBelow nodes).length ≤ node.nodes.length := by
    rw [node.nodes_eq, hlist, JsonNode.nodesBelow_append, List.length_cons, List.length_append]
    omega
  rcases nodes with _ | ⟨child, next⟩
  · refine ⟨0, _, ⟨node, 0, []⟩, by omega, .refl _, ?_⟩
    rw [printTurn_container hk, itemsText_nil]
    simp only [printContainer]
    rw [if_pos (show node.elemNo = 0 from hno)]
    rfl
  · rw [List.length_cons] at hno
    have hno' : (1 : Int) + next.length = node.elemNo := by omega
    obtain ⟨q, m, hm, hvalue, hruns⟩ := hnodes child List.mem_cons_self
      ⟨⟨node, 1, next ++ more⟩, fathers, str ++ k.opening :: nameText k.named child⟩
    obtain ⟨n, hn, hrest⟩ := runs_next hk (fun c hc => hnodes c (List.mem_cons_of_mem child hc))
      Int.one_pos hno' more fathers (str ++ k.opening :: nameText k.named child ++ valueText child)
    have hfirst : printTurn ⟨⟨node, 0, []⟩, fathers, str⟩ = .done (.next q) := by
      rw [printTurn_container hk, ← hvalue]
      simp only [printContainer, hlist, List.cons_append]
      rw [if_neg (by omega)]
      rfl
    refine ⟨n + (m + 1), _, ⟨node, node.elemNo, more⟩, ?_,
      ((Runs.of_turn hfirst).trans hruns).trans hrest, ?_⟩
    · rw [JsonNode.nodesBelow_cons, List.length_append] at hlen
      omega
    · rw [printTurn_container hk]
      simp only [printContainer]
      rw [if_neg (by omega), if_neg (by omega)]
      simp [Printer.put, itemsText_cons]

/-- A container whose children are counted is printed as a child. -/
theorem prints_container (hk : node.elemType = k.elemType)
    (hno : node.elemNo = node.childlist.length) (hchildren : ∀ c ∈ node.childlist, Prints c) :
    Prints node := by
  intro p
  obtain ⟨n, q, frame, hn, hruns, hlast⟩ := exists_last_turn hk
    (List.append_nil node.childlist).symm hno hchildren (p.curr :: p.fathers) p.str
  refine ⟨p.enter node, n + 1, by omega, ?_, ?_⟩
  · cases k <;> simp only [printValue, hk, Container.elemType]
  · rw [Nat.add_comm, valueText_container hk]
    exact hruns.trans (.of_turn hlast)

/-- A container is printed as a root, with the children that are counted. -/
theorem jsonPrintStr_container (hk : node.elemType = k.elemType)
    {nodes more : List JsonNode} (hlist : node.childlist = nodes ++ more)
    (hno : node.elemNo = nodes.length) (hnodes : ∀ c ∈ nodes, Prints c) :
    jsonPrintStr node = .done (k.opening :: (itemsText k.named nodes ++ [k.closing])) := by
  obtain ⟨n, q, frame, hn, hruns, hlast⟩ := exists_last_turn hk hlist hno hnodes [] []
  obtain ⟨fuel, hfuel⟩ : ∃ fuel, 2 * node.nodes.length = fuel + 1 + n :=
    ⟨2 * node.nodes.length - n - 1, by omega⟩
  rw [jsonPrintStr, hfuel, hruns, printLoop, hlast]
  rfl

/-! ## The text of a number -/

theorem digit_ofNat : ∀ d < 10, (Char.ofNat (d + 48)).isDigit ∧
    (Char.ofNat (d + 48)).toNat - 48 = d := by
  decide

theorem digitsFrom_append (value : Nat) (a b : List Char) :
    digitsFrom value (a ++ b) = digitsFrom (digitsFrom value a) b :=
  List.foldl_append

/-- The digits of a number are those of its value. -/
theorem itoaLoop_digits (n : Nat) : Digits (itoaLoop n).reverse n := by
  induction n using itoaLoop.induct with
  | case1 n ih =>
    have hlt : n % 10 < 10 := Nat.mod_lt n (by decide)
    obtain ⟨hdigit, hvalue⟩ := digit_ofNat _ hlt
    rw [itoaLoop, List.reverse_cons]
    by_cases hn : n / 10 > 0
    · rw [if_pos hn]
      obtain ⟨-, hds, hds'⟩ := ih hn
      refine ⟨by simp, fun c hc => ?_, ?_⟩
      · rcases List.mem_append.1 hc with hc | hc
        · exact hds c hc
        · rwa [List.mem_singleton.1 hc]
      · rw [digitsFrom_append, ← hds', digitsFrom, List.foldl_cons, List.foldl_nil, hvalue]
        omega
    · rw [if_neg hn]
      refine ⟨by simp, by simpa using hdigit, ?_⟩
      simp only [List.reverse_nil, List.nil_append, digitsFrom, List.foldl_cons, List.foldl_nil,
        hvalue]
      omega

/-- A number has no more digits than the least power of ten above it. -/
theorem itoaLoop_length {k n : Nat} (h : n < 10 ^ (k + 1)) : (itoaLoop n).length ≤ k + 1 := by
  induction k generalizing n with
  | zero =>
    have hn : ¬ n / 10 > 0 := by omega
    rw [itoaLoop, if_neg hn]
    simp
  | succ k ih =>
    rw [itoaLoop, List.length_cons]
    split
    · have hlt : n / 10 < 10 ^ (k + 1) := by
        rw [Nat.div_lt_iff_lt_mul (by decide), ← Nat.pow_succ]
        exact h
      exact Nat.succ_le_succ (ih hlt)
    · simp

/-- The text of an `int` is that of a number, which the parser reads. -/
theorem numText_number {v : Int} (hv : v.natAbs < 2 ^ 31) :
    Number (numText v) v ∧ (numText v).length < DIGEST_SIZE := by
  have hdigits := itoaLoop_digits v.natAbs
  have hlen : (itoaLoop v.natAbs).length ≤ 9 + 1 := itoaLoop_length (by omega)
  have hsize : 10 + 1 < DIGEST_SIZE := by decide
  rw [numText]
  by_cases hneg : v < 0
  · have habs : v = -(v.natAbs : Int) := by omega
    refine ⟨?_, ?_⟩
    · rw [if_pos hneg, List.singleton_append]
      nth_rewrite 2 [habs]
      exact .neg hdigits
    · rw [if_pos hneg, List.length_append, List.length_reverse]
      simp only [List.length_singleton]
      omega
  · have habs : v = (v.natAbs : Int) := by omega
    refine ⟨?_, ?_⟩
    · rw [if_neg hneg, List.nil_append]
      nth_rewrite 2 [habs]
      exact .pos hdigits
    · rw [if_neg hneg, List.nil_append, List.length_reverse]
      omega

/-- The four bytes of an `int` are the `int`. -/
theorem intOf_emod {v : Int} (hv : v.natAbs < 2 ^ 31) : intOf (v % 2 ^ 32) = v := by
  simp only [intOf, Int.bmod_def]
  omega

/-! ## Trees that the parser has built -/

/-- A child that the parser has built is printed. -/
theorem Built.prints (h : Built k node) : Prints node := by
  induction h with
  | @string k name content hname hlen hnul =>
    intro p
    refine ⟨_, 0, by simp [JsonNode.nodes_eq], rfl, ?_⟩
    rw [valueText]
    exact .refl _
  | @num k name v hname hv hneg =>
    intro p
    have hint : Int.bmod (v % 2 ^ 32) (2 ^ 32) = v := intOf_emod hv
    have hitoa : itoa v = .done (numText v) := if_neg (by omega)
    refine ⟨p.put (numText v), 0, by simp [JsonNode.nodes_eq], ?_, ?_⟩
    · simp only [printValue, hint, hitoa]
      rfl
    · rw [valueText, intOf_emod hv]
      exact .refl _
  | @bool k name hname =>
    intro p
    refine ⟨_, 0, by simp [JsonNode.nodes_eq], rfl, ?_⟩
    rw [valueText]
    exact .refl _
  | @container k k' name children hname _ ih =>
    have hk : ((k.child name k').extend children).elemType = k'.elemType := rfl
    exact prints_container hk (by simp [Container.child, JsonNode.extend]) (by simpa using ih)

/-- The text of the root of a container, with the children in it. -/
def rootText (k : Container) (nodes : List JsonNode) : List Char :=
  k.opening :: (itemsText k.named nodes ++ [k.closing])

/-- The text of a root that the parser has built: a child that is not counted, in
    which the text is cut off, is not printed. -/
theorem jsonPrintStr_root {nodes : List JsonNode} (h : ∀ c ∈ nodes, Built k c) :
    jsonPrintStr (k.rootNode.extend nodes) = .done (rootText k nodes) ∧
      ∀ child, jsonPrintStr ((k.rootNode.extend nodes).addChild child) =
        .done (rootText k nodes) := by
  have hk : (k.rootNode.extend nodes).elemType = k.elemType := rfl
  have hlist : (k.rootNode.extend nodes).childlist = nodes := by
    simp [Container.rootNode, JsonNode.extend]
  have hno : (k.rootNode.extend nodes).elemNo = nodes.length := by
    simp [Container.rootNode, JsonNode.extend]
  have hnodes : ∀ c ∈ nodes, Prints c := fun c hc => (h c hc).prints
  refine ⟨jsonPrintStr_container hk (hlist.trans (List.append_nil nodes).symm) hno hnodes,
    fun child => ?_⟩
  have hk' : ((k.rootNode.extend nodes).addChild child).elemType = k.elemType := hk
  have hlist' : ((k.rootNode.extend nodes).addChild child).childlist = nodes ++ [child] := by
    rw [JsonNode.addChild, hlist]
  exact jsonPrintStr_container hk' hlist' hno hnodes

end Cube.Json
