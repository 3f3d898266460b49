import BrilFlow.Program.Literal

/-! Bril instructions: labels and operations. `jmp`, `br`, `ret` and `call` end a block, `jmp`,
`br` and `ret` decide its successors, and `add mul and or eq fadd fmul feq` commute. -/
namespace BrilFlow

structure Operation where
  op : String
  dest : Option String := none
  ty : Option Ty := none
  args : List String := []
  labels : List String := []
  funcs : List String := []
  value : Option Literal := none
deriving DecidableEq, Repr, Inhabited

inductive Instr where
  | label (name : String)
  | op (o : Operation)
deriving DecidableEq, Repr, Inhabited

/-- Opcodes that end a basic block. -/
def terminatorOps : List String := ["jmp", "br", "ret", "call"]

/-- Opcodes that decide a block's successors. -/
def controlOps : List String := ["jmp", "br", "ret"]

/-- Opcodes whose operands may be reordered. -/
def commutativeOps : List String := ["add", "mul", "and", "or", "eq", "fadd", "fmul", "feq"]

namespace Operation

def isTerminator (o : Operation) : Bool := terminatorOps.contains o.op

def isControl (o : Operation) : Bool := controlOps.contains o.op

def isConst (o : Operation) : Bool := o.op == "const"

def isCommutative (o : Operation) : Bool := commutativeOps.contains o.op

def constant (dest : String) (value : Literal) : Operation :=
  { op := "const", dest := some dest, ty := some value.ty, value := some value }

def valueOp (op dest : String) (args : List String) : Operation :=
  { op, dest := some dest, args }

def effectOp (op : String) (args : List String) : Operation := { op, args }

def jump (target : String) : Operation := { op := "jmp", labels := [target] }

def branch (cond thenLabel elseLabel : String) : Operation :=
  { op := "br", args := [cond], labels := [thenLabel, elseLabel] }

def ret : Operation := { op := "ret" }

end Operation
end BrilFlow
