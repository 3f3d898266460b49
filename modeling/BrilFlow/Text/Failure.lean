/-! Reporting where a text failed to parse: the line and column, the line with a marker under the
column, and what was expected. -/
namespace BrilFlow.Text

/-- Line and column after reading the characters `cs` from line 1, column 1. -/
def lineColumnAfter : List Char → Nat × Nat → Nat × Nat
  | [], lc => lc
  | '\r' :: '\n' :: rest, (l, _) => lineColumnAfter rest (l + 1, 1)
  | '\n' :: rest, (l, _) => lineColumnAfter rest (l + 1, 1)
  | _ :: rest, (l, c) => lineColumnAfter rest (l, c + 1)

def lineColumn (s : Array Char) (pos : Nat) : Nat × Nat :=
  lineColumnAfter (s.toList.take pos) (1, 1)

/-- The line holding a position, from after the previous `\n` through the next one. -/
def lineAround (s : Array Char) (pos : Nat) : List Char :=
  let cs := s.toList
  let before := cs.take pos
  let start := before.length - (before.reverse.takeWhile (· ≠ '\n')).length
  let stop :=
    match (cs.drop pos).findIdx? (· = '\n') with
    | some i => pos + i + 1
    | none => cs.length
  (cs.take stop).drop start

def shownLine (s : Array Char) (pos : Nat) : String :=
  let line := lineAround s pos
  if s[pos]? = some '\n' ∨ s[pos]? = some '\r' then
    String.ofList (line.map fun c => if c = '\r' then '␍' else if c = '\n' then '␊' else c)
  else String.ofList (line.filter fun c => c ≠ '\r' ∧ c ≠ '\n')

def marker (line : String) (column : Nat) : String :=
  String.ofList ((line.toList.take (column - 1)).map fun c => if c = '\t' then '\t' else ' ') ++
    "^---"

/-- A list of alternatives in words: `a`, `a or b`, `a, b, or c`. -/
def alternatives : List String → String
  | [] => ""
  | [a] => a
  | [a, b] => a ++ " or " ++ b
  | names => ", ".intercalate names.dropLast ++ ", or " ++ names.getLastD ""

def expectation (names : List String) : String :=
  if names.isEmpty then "unknown parsing error" else "expected " ++ alternatives names

def report (s : Array Char) (pos : Nat) (message : String) : String :=
  let (line, column) := lineColumn s pos
  let number := line.repr
  let pad := String.ofList (List.replicate number.length ' ')
  let shown := shownLine s pos
  pad ++ "--> " ++ number ++ ":" ++ column.repr ++ "\n" ++
    pad ++ " |\n" ++
    number ++ " | " ++ shown ++ "\n" ++
    pad ++ " | " ++ marker shown column ++ "\n" ++
    pad ++ " |\n" ++
    pad ++ " = " ++ message

end BrilFlow.Text
