import BrilFlow.Program.Instr

/-! Bril functions and programs; looking a function up by name finds the first of that name. -/
namespace BrilFlow

structure Argument where
  name : String
  ty : Ty
deriving DecidableEq, Repr, Inhabited

structure Function where
  name : String
  args : List Argument := []
  ret : Option Ty := none
  instrs : List Instr := []
deriving DecidableEq, Repr, Inhabited

structure Program where
  functions : List Function := []
deriving DecidableEq, Repr, Inhabited

/-- The first function of a name. -/
def Program.function? (p : Program) (name : String) : Option Function :=
  p.functions.find? (·.name == name)

end BrilFlow
