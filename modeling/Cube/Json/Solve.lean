import Cube.Json.Node

/-!
# The JSON parser

`json_solve_str` of `json.c`. It goes over a text by one loop; what a turn of the
loop does depends on the type of the node it is at: the root before its bracket, a
map or an array. A node is at the end of the list of children of its father from
when it is made on; here the fathers of the current node are held without it, and
`Parser.root` puts the nodes together.

Memory is found for every node and string, and an offset is an `int` that does not
overflow: a text is shorter than the greatest. A number that overflows an `int`, and a copy
that takes what stands behind `value_buffer`, are faults; where the parser is `wide`, it
goes on with them, and only what is outside the memory it writes is a fault.
-/

namespace Cube.Json

open Lib

/-- The state of the parser: `curr_node`, its fathers (the nearest first, each
    without the child that leads to it), the text from `offset` on, and `offset`. -/
structure Parser where
  curr : JsonNode
  fathers : List JsonNode
  str : List Char
  offset : Nat

namespace Parser

/-- The root, with the nodes that are being worked on. -/
def root (p : Parser) : JsonNode := p.fathers.foldl (fun child father => father.addChild child) p.curr

/-- The parser `n` characters further. -/
def advance (p : Parser) (n : Nat) : Parser :=
  { p with str := p.str.drop n, offset := p.offset + n }

/-- The parser past the characters that a loop skips. -/
def skip (p : Parser) (skipped : Char → Bool) : Parser :=
  p.advance (p.str.takeWhile skipped).length

/-- The parser at a child of the current node, past its bracket. -/
def descend (p : Parser) (child : JsonNode) : Parser :=
  { p.advance 1 with curr := child, fathers := p.curr :: p.fathers }

/-- The parser with a value added to the current node, past the value. -/
def addValue (p : Parser) (child : JsonNode) (ret : Nat) : Parser :=
  { p.advance ret with curr := (p.curr.addChild child).countElem }

end Parser

/-- What comes of a turn of the loop: the loop goes on, it ends with `curr_node`
    NULL, or the function returns a value there, the root not set. -/
inductive Turn
  | next (p : Parser)
  | closed (root : JsonNode) (offset : Nat)
  | returned (ret : Nat)

/-- The end of a container: its father, of one more element, is the current node. -/
def Parser.close (p : Parser) : Turn :=
  match p.fathers with
  | [] => .closed p.curr (p.offset + 1)
  | father :: fathers =>
    .next { p.advance 1 with curr := (father.addChild p.curr).countElem, fathers := fathers }

/-- The turn at the root, before its bracket. -/
def solveNull (p : Parser) : Outcome Turn :=
  let p := p.skip isSplitChar
  match p.str with
  | [] => .fault
  | c :: _ =>
    if c = '{' then .done (.next { p.advance 1 with curr := p.curr.jsonSetType .map true })
    else if c = '[' then .done (.next { p.advance 1 with curr := p.curr.jsonSetType .array true })
    else .error (-EINVAL)

/-- A copy of `n` characters to memory of `size`. -/
def memcpy (size n : Nat) : Outcome Unit := if n ≤ size then .done () else .fault

/-- The characters that a copy of `n` of them from `value_buffer` may take. -/
def bufferSize (wide : Bool) (n : Nat) : Nat := if wide then n else 512

/-- The value of a child, where a map and an array differ in the flag of the type,
    in the limit of a string, and in whether a number may be negative. -/
def solveValue (wide isvalue : Bool) (limit : Nat) (negative : Bool) (p : Parser)
    (child : JsonNode) : Outcome Turn :=
  match p.str with
  | [] => .fault
  | c :: _ =>
    if c = '{' then .done (.next (p.descend (child.jsonSetType .map isvalue)))
    else if c = '[' then .done (.next (p.descend (child.jsonSetType .array isvalue)))
    else if c = '"' then do
      let (value, ret) ← jsonGetStrvalue p.str
      if ret > limit then .error (-EINVAL)
      else do
        -- The string has `ret` characters, and all of them are copied.
        memcpy (bufferSize wide ret) ret
        .done (.next
          (p.addValue { child.jsonSetType .string isvalue with valueStr := some value } ret))
    else if negative ∧ c = '-' ∨ c.isDigit then do
      let (value, ret) ← jsonGetNumvalue wide p.str
      if ret ≥ DIGEST_SIZE then .done (.returned ret)
      else .done (.next (p.addValue ((child.jsonSetType .num isvalue).setValue value) ret))
    else do
      let (value, ret) ← jsonGetBoolvalue p.str
      if ret ≥ DIGEST_SIZE then .done (.returned ret)
      else .done (.next (p.addValue ((child.jsonSetType .bool isvalue).setValue value) ret))

/-- A member of a map after its name: its colon and its value. -/
def solveMember (wide : Bool) (p : Parser) (child : JsonNode) : Outcome Turn :=
  let p := p.skip isIgnoreChar
  if p.str.head? ≠ some ':' then .error (-EINVAL)
  else solveValue wide false (DIGEST_SIZE * 24 + 2) true ((p.advance 1).skip isIgnoreChar) child

/-- The turn in a map. -/
def solveMap (wide : Bool) (p : Parser) : Outcome Turn :=
  match p.str with
  | [] => .fault
  | c :: _ =>
    if c = '}' then .done p.close
    else if c = ',' then .done (.next (p.advance 1))
    else if c ≠ '"' then .error (-EINVAL)
    else do
      let (value, ret) ← jsonGetStrvalue p.str
      if ret ≥ DIGEST_SIZE then .done (.returned ret)
      else do
        -- The NUL of a name is copied if the name is not longer than the field.
        memcpy DIGEST_SIZE (if value.length ≤ DIGEST_SIZE then value.length + 1 else DIGEST_SIZE)
        solveMember wide (p.advance ret)
          { name := if value.length ≤ DIGEST_SIZE then value else value.take DIGEST_SIZE }

/-- The turn in an array. -/
def solveArray (wide : Bool) (p : Parser) : Outcome Turn :=
  match p.str with
  | [] => .fault
  | c :: _ =>
    if c = ']' then .done p.close
    else if c = ',' then .done (.next (p.advance 1))
    else solveValue wide true (DIGEST_SIZE * 16 + 2) false p {}

/-- A turn of the loop at a character that is not skipped. -/
def solveTurn (wide : Bool) (p : Parser) : Outcome Turn :=
  match p.curr.elemType with
  | .null => solveNull p
  | .map => solveMap wide p
  | .array => solveArray wide p
  | _ => .error (-EINVAL)

/-- What follows a turn: the loop goes on, or the function returns a value, with the
    root set to the node that is closed, or not. -/
def Turn.follow (loop : Parser → Outcome (Nat × Option JsonNode)) :
    Turn → Outcome (Nat × Option JsonNode)
  | next p => loop p
  | closed root offset => .done (offset, some root)
  | returned ret => .done (ret, none)

/-- The loop of `json_solve_str`: the value returned, and the root, where it is set. -/
def solveLoop (wide : Bool) : Nat → Parser → Outcome (Nat × Option JsonNode)
  | 0, _ => .fault
  | fuel + 1, p =>
    match p.str with
    | [] => .fault
    | c :: _ =>
      if c = '\x00' then .done (p.offset, some p.root)
      else if isSplitChar c then solveLoop wide fuel (p.advance 1)
      else solveTurn wide p >>= Turn.follow (solveLoop wide fuel)

/-- `json_solve_str`. Every turn of the loop takes a character at least. -/
def jsonSolveStr (str : List Char) : Outcome (Nat × Option JsonNode) :=
  solveLoop false str.length { curr := {}, fathers := [], str := str, offset := 0 }

end Cube.Json
