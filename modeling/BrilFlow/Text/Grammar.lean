import BrilFlow.Text.Peg
import BrilFlow.Program.Ty

/-! The grammar of Bril text as parsing expressions: functions, arguments, types, labels and
instructions, with blanks and `#` comments between the parts of a rule. -/
namespace BrilFlow.Text

/-- The named rules of the grammar, in the order in which failures list them. -/
inductive Rule where
  | eoi | program | function | argList | arg | ty | tyName | labelDef | instruction | dest
  | opcode | ident | labelRef | funcRef | labelName | float | int | boolean | charLit | charBody
deriving DecidableEq, Repr

namespace Rule

def order : Rule → Nat
  | eoi => 0 | program => 1 | function => 2 | argList => 3 | arg => 4 | ty => 5 | tyName => 6
  | labelDef => 7 | instruction => 8 | dest => 9 | opcode => 10 | ident => 11 | labelRef => 12
  | funcRef => 13 | labelName => 14 | float => 15 | int => 16 | boolean => 17 | charLit => 18
  | charBody => 19

def name : Rule → String
  | eoi => "EOI" | program => "program" | function => "function" | argList => "arg_list"
  | arg => "arg" | ty => "ty" | tyName => "ty_name" | labelDef => "label_def"
  | instruction => "instruction" | dest => "dest" | opcode => "opcode" | ident => "ident"
  | labelRef => "label_ref" | funcRef => "func_ref" | labelName => "label_name"
  | float => "float" | int => "int" | boolean => "boolean" | charLit => "char_lit"
  | charBody => "char_body"

end Rule

inductive LiteralToken where
  | float (text : String)
  | int (text : String)
  | boolean (text : String)
  | char (text : String) (body : Char)
deriving Repr

def LiteralToken.text : LiteralToken → String
  | .float t | .int t | .boolean t | .char t _ => t

inductive Operand where
  | literal (tok : LiteralToken)
  | label (name : String)
  | func (name : String)
  | ident (name : String)
deriving Repr

/-- An instruction as written: where it starts, its destination with optional type, its opcode
and its operands in order. -/
structure InstrSyntax where
  start : Nat
  dest : Option (String × Option Ty)
  opcode : String
  operands : List Operand
deriving Repr

inductive ItemSyntax where
  | label (name : String)
  | instr (i : InstrSyntax)
deriving Repr

structure FunctionSyntax where
  name : String
  args : List (String × Ty)
  ret : Option Ty
  items : List ItemSyntax
deriving Repr

open Peg

abbrev P := Peg Rule

def isNameChar (c : Char) : Bool := c.isAlphanum || c == '_' || c == '.'

/-- Blanks and comments: from `pos`, the next character that starts neither. Inside a
comment (`inComment`) every character up to a line break is skipped. -/
def skipTrivia (s : Array Char) (pos : Nat) (inComment : Bool) : Nat :=
  if h : pos < s.size then
    let c := s[pos]
    if c == '\n' || c == '\r' then skipTrivia s (pos + 1) false
    else if inComment then skipTrivia s (pos + 1) true
    else if c == ' ' || c == '\t' then skipTrivia s (pos + 1) false
    else if c == '#' then skipTrivia s (pos + 1) true
    else pos
  else pos
termination_by s.size - pos

def skip : P Unit := fun s c => (some (), { c with pos := skipTrivia s c.pos false })

def repeated (p : P α) : P (List α) := do
  match ← optional p with
  | none => pure []
  | some a => return a :: (← many (do skip; p))

def run1 (ok : Char → Bool) : P Unit := do
  discard (char ok)
  discard (many (char ok))

def labelName : P String := rule .labelName do
  let start ← position
  run1 isNameChar
  sliceFrom start

def labelRef : P String := rule .labelRef do
  text "."
  labelName

def funcRef : P String := rule .funcRef do
  text "@"
  labelName

/-- A letter or underscore followed by name characters, as text. -/
def identText : P String := do
  let start ← position
  discard (char fun c => c.isAlpha || c == '_')
  discard (many (char isNameChar))
  sliceFrom start

def ident : P String := rule .ident identText

def dest : P String := rule .dest identText

def opcode : P String := rule .opcode do
  let start ← position
  discard (char Char.isAlpha)
  discard (many (char isNameChar))
  sliceFrom start

def tyName : P String := rule .tyName do
  let start ← position
  discard (char Char.isAlpha)
  discard (many (char fun c => c.isAlphanum || c == '_'))
  sliceFrom start

/-- A type, nested at most `fuel` deep. -/
def ty : Nat → P Ty
  | 0 => fail
  | fuel + 1 => rule .ty do
    let name ← tyName
    skip
    let inner ← optional do
      text "<"
      skip
      let t ← ty fuel
      skip
      text ">"
      pure t
    pure (match inner with
      | some t => Ty.param name t
      | none => .primitive name)

def digits : P Unit := run1 Char.isDigit

def float : P LiteralToken := rule .float do
  let start ← position
  discard (optional (text "-"))
  digits
  text "."
  digits
  discard (optional do
    discard (char fun c => c == 'e' || c == 'E')
    discard (optional (char fun c => c == '+' || c == '-'))
    digits)
  return .float (← sliceFrom start)

def int : P LiteralToken := rule .int do
  let start ← position
  discard (optional (text "-"))
  digits
  notNext isNameChar
  return .int (← sliceFrom start)

def boolean : P LiteralToken := rule .boolean do
  let start ← position
  orElse (text "true") (text "false")
  notNext isNameChar
  return .boolean (← sliceFrom start)

def charBody : P Char := rule .charBody (char (· ≠ '\''))

def charLit : P LiteralToken := rule .charLit do
  let start ← position
  text "'"
  let body ← charBody
  text "'"
  return .char (← sliceFrom start) body

def operand : P Operand :=
  orElse (Operand.literal <$> orElse float (orElse int (orElse boolean charLit)))
    (orElse (Operand.label <$> labelRef) (orElse (Operand.func <$> funcRef) (Operand.ident <$> ident)))

/-- An instruction; types nest at most `fuel` deep. -/
def instruction (fuel : Nat) : P InstrSyntax := rule .instruction do
  let start ← position
  let head ← optional do
    let d ← dest
    skip
    let t ← optional do
      text ":"
      skip
      ty fuel
    skip
    text "="
    pure (d, t)
  skip
  let op ← opcode
  skip
  let operands ← repeated operand
  skip
  text ";"
  pure { start, dest := head, opcode := op, operands }

def labelDef : P String := rule .labelDef do
  let l ← labelRef
  skip
  text ":"
  pure l

def arg (fuel : Nat) : P (String × Ty) := rule .arg do
  let n ← ident
  skip
  text ":"
  skip
  let t ← ty fuel
  pure (n, t)

def argList (fuel : Nat) : P (List (String × Ty)) := rule .argList do
  text "("
  skip
  let args ← optional do
    let a ← arg fuel
    skip
    let rest ← repeated do
      text ","
      skip
      arg fuel
    pure (a :: rest)
  skip
  text ")"
  pure (args.getD [])

def function (fuel : Nat) : P FunctionSyntax := rule .function do
  let name ← funcRef
  skip
  let args ← optional (argList fuel)
  skip
  let ret ← optional do
    text ":"
    skip
    ty fuel
  skip
  text "\x7b"
  skip
  let items ← repeated (orElse (ItemSyntax.label <$> labelDef) (ItemSyntax.instr <$> instruction fuel))
  skip
  text "\x7d"
  pure { name, args := args.getD [], ret, items }

def eoi : P Unit := rule .eoi do
  if ← atEnd then pure () else fail

/-- A whole program, by the grammar

```
program     = function*
function    = "@" name arg_list? (":" ty)? "{" (label_def | instruction)* "}"
arg_list    = "(" (arg ("," arg)*)? ")"
arg         = ident ":" ty
ty          = ty_name ("<" ty ">")?
label_def   = "." name ":"
instruction = (dest (":" ty)? "=")? opcode operand* ";"
operand     = float | int | boolean | char_lit | "." name | "@" name | ident
```

with alternatives tried in the order written and blanks and comments between the parts. -/
def program (fuel : Nat) : P (List FunctionSyntax) := rule .program do
  skip
  let fs ← repeated (function fuel)
  skip
  eoi
  pure fs

/-- The functions of a text, or the furthest failure: its position and the rules expected there,
in listing order and each once. -/
def parseFunctions (s : Array Char) : Except (Nat × List Rule) (List FunctionSyntax) :=
  match Peg.run (program s.size) s with
  | .ok fs => .ok fs
  | .error (pos, rules) =>
    let sorted := (rules.mergeSort fun a b => a.order ≤ b.order)
    .error (pos, sorted.eraseDups)

end BrilFlow.Text
