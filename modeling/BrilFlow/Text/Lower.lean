import BrilFlow.Text.Grammar
import BrilFlow.Text.Failure
import BrilFlow.Program.Basic
import BrilFlow.Parse.Error

/-! From Bril text to a program: operands sorted into an operation's parts, literals read to values,
and the first instruction that breaks the rules failing the whole text. -/
namespace BrilFlow.Text

open BrilFlow.Decimal

def lineOf (s : Array Char) (pos : Nat) : Nat := ((s.toList.take pos).filter (· = '\n')).length + 1

/-- An integer literal's value, if it fits in 64 bits. -/
def intValue (t : String) : Option Int :=
  match t.toInt? with
  | some n => if Literal.intMin ≤ n ∧ n ≤ Literal.intMax then some n else none
  | none => none

def digitsValue (cs : List Char) : Nat := cs.foldl (fun acc c => acc * 10 + (c.toNat - 48)) 0

/-- A float literal's value, nearest to the decimal written. -/
def floatValue (t : String) : UInt64 :=
  let cs := t.toList
  let negative := cs.head? = some '-'
  let body := if negative then cs.drop 1 else cs
  let whole := body.takeWhile Char.isDigit
  let afterWhole := (body.dropWhile Char.isDigit).drop 1
  let frac := afterWhole.takeWhile Char.isDigit
  let expPart := (afterWhole.dropWhile Char.isDigit).drop 1
  let expNegative := expPart.head? = some '-'
  let expDigits := expPart.dropWhile fun c => c = '+' ∨ c = '-'
  let e : Int := if expNegative then -(digitsValue expDigits : Int) else digitsValue expDigits
  let bits := nearest (digitsValue (whole ++ frac)) (e - frac.length)
  if negative then negate bits else bits

def LiteralToken.value? : LiteralToken → Option Literal
  | .int t => (intValue t).map .int
  | .float t => some (.float (floatValue t))
  | .boolean t => some (.bool (t == "true"))
  | .char _ body => some (.char body)

/-- Takes one operand into an operation starting on `line`. -/
def takeOperand (line : Nat) (o : Operation) : Operand → Except ParseError Operation
  | .ident a => .ok { o with args := o.args ++ [a] }
  | .label l => .ok { o with labels := o.labels ++ [l] }
  | .func f => .ok { o with funcs := o.funcs ++ [f] }
  | .literal tok =>
    if !o.isConst || o.value.isSome then .error (.unexpectedLiteral line o.op tok.text)
    else
      match tok.value? with
      | some v => .ok { o with value := some v }
      | none => .error (.unexpectedLiteral line o.op tok.text)

def lowerInstr (s : Array Char) (i : InstrSyntax) : Except ParseError Operation := do
  let line := lineOf s i.start
  let o ← i.operands.foldlM (takeOperand line)
    { op := i.opcode, dest := i.dest.map (·.1), ty := i.dest.bind (·.2) }
  if o.isConst then
    match o.value, o.ty with
    | none, _ => throw (.missingValue line)
    | some (.int n), some (.primitive "float") =>
      return { o with value := some (.float (Literal.floatOfInt n)) }
    | _, _ => return o
  else return o

def lowerItem (s : Array Char) : ItemSyntax → Except ParseError Instr
  | .label name => .ok (.label name)
  | .instr i => Instr.op <$> lowerInstr s i

def lowerFunction (s : Array Char) (f : FunctionSyntax) : Except ParseError Function := do
  let instrs ← f.items.mapM (lowerItem s)
  return { name := f.name, args := f.args.map fun (n, t) => { name := n, ty := t },
           ret := f.ret, instrs }

def Program.ofText (text : String) : Except ParseError Program :=
  let s := text.toList.toArray
  match parseFunctions s with
  | .error (pos, rules) => .error (.grammar (report s pos (expectation (rules.map Rule.name))))
  | .ok fs => do
    let functions ← fs.mapM (lowerFunction s)
    return { functions }

end BrilFlow.Text
