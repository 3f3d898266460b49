import BrilFlow.Proofs.FloatText

/-! The text form of a program, and `Program.Textual`, the programs written so that the text reader
gives them back. -/
namespace BrilFlow

open Text

namespace Text

/-- A first character of one class and then characters of another. -/
def isWord (first rest : Char → Bool) (t : String) : Bool :=
  match t.toList with
  | c :: cs => first c && cs.all rest
  | [] => false

def isName (t : String) : Bool := isWord isNameChar isNameChar t

def isIdent (t : String) : Bool := isWord (fun c => c.isAlpha || c == '_') isNameChar t

def isOpcode (t : String) : Bool := isWord Char.isAlpha isNameChar t

def isTypeName (t : String) : Bool := isWord Char.isAlpha (fun c => c.isAlphanum || c == '_') t

end Text

/-- Types with a text: a type name, or one parameter of a type name over such a type. -/
inductive Ty.Textual : Ty → Prop
  | primitive {name : String} : isTypeName name → Ty.Textual (.primitive name)
  | param {name : String} {t : Ty} : isTypeName name → Ty.Textual t → Ty.Textual (.param name t)

/-- Literals a text can hold: a 64-bit integer, a float that is no NaN, any character but the
quote, and a boolean. -/
def Literal.Textual : Literal → Prop
  | .int n => Literal.intMin ≤ n ∧ n ≤ Literal.intMax
  | .float bits => Decimal.isNaN bits = false
  | .char c => c ≠ '\''
  | .bool _ => True

/-- Operations whose parts each have a text. An argument `true` or `false` would be read as a
literal. -/
structure Operation.PartsTextual (o : Operation) : Prop where
  op : isOpcode o.op
  dest : ∀ d ∈ o.dest, isIdent d
  ty : ∀ t ∈ o.ty, t.Textual ∧ o.dest.isSome
  args : ∀ a ∈ o.args, isIdent a ∧ a ≠ "true" ∧ a ≠ "false"
  labels : ∀ l ∈ o.labels, isName l
  funcs : ∀ f ∈ o.funcs, isName f
  literal : ∀ v ∈ o.value, v.Textual

/-- Operations with a text: their parts have one, the value stands exactly on a `const`, and a
`float` constant holds no integer. -/
structure Operation.Textual (o : Operation) : Prop extends o.PartsTextual where
  value : o.value.isSome = o.isConst
  floatConst : o.ty = some (.primitive "float") → ∀ n, o.value ≠ some (.int n)

def Instr.Textual : Instr → Prop
  | .label l => isName l
  | .op o => o.Textual

structure Function.Textual (f : Function) : Prop where
  name : isName f.name
  args : ∀ a ∈ f.args, isIdent a.name ∧ a.ty.Textual
  ret : ∀ t ∈ f.ret, t.Textual
  instrs : ∀ i ∈ f.instrs, i.Textual

/-- Programs with a text: the programs the text reader can give. -/
def Program.Textual (p : Program) : Prop := ∀ f ∈ p.functions, f.Textual

def Literal.token : Literal → LiteralToken
  | .bool b => .boolean (if b then "true" else "false")
  | .int n => .int (toString n)
  | .float bits => .float (Decimal.floatText bits)
  | .char c => .char ("'" ++ c.toString ++ "'") c

def Text.Operand.text : Operand → String
  | .literal tok => tok.text
  | .label l => "." ++ l
  | .func f => "@" ++ f
  | .ident a => a

/-- The operands of an operation in the order they are written: functions, arguments, labels
and the value. -/
def Operation.operands (o : Operation) : List Operand :=
  o.funcs.map .func ++ o.args.map .ident ++ o.labels.map .label ++
    (o.value.map fun v => Operand.literal v.token).toList

def Operation.headText (o : Operation) : String :=
  match o.dest with
  | none => ""
  | some d => d ++ (match o.ty with | some t => ": " ++ t.render | none => "") ++ " = "

/-- The text of an operation: `dest: ty = op @f... a... .l... value;`. -/
def Operation.text (o : Operation) : String :=
  o.headText ++ o.op ++ String.join (o.operands.map (" " ++ ·.text)) ++ ";"

def Instr.text : Instr → String
  | .label l => "." ++ l ++ ":"
  | .op o => o.text

/-- Labels stand at the start of their line, operations two blanks in. -/
def Instr.indent : Instr → String
  | .label _ => ""
  | .op _ => "  "

def Argument.text (a : Argument) : String := a.name ++ ": " ++ a.ty.render

def argsText : List Argument → String
  | [] => ""
  | a :: as => "(" ++ a.text ++ String.join (as.map (", " ++ ·.text)) ++ ")"

def retText : Option Ty → String
  | some t => ": " ++ t.render
  | none => ""

/-- The text of a function up to its closing brace, each instruction on a line of its own. -/
def Function.text (f : Function) : String :=
  "@" ++ f.name ++ argsText f.args ++ retText f.ret ++ " \x7b\n" ++
    String.join (f.instrs.map fun i => i.indent ++ i.text ++ "\n") ++ "\x7d"

def Program.text (p : Program) : String := String.join (p.functions.map (·.text ++ "\n"))

end BrilFlow
