import BrilFlow.Program.Ty
import BrilFlow.Decimal.Layout

/-! Literals of `const`: booleans, 64-bit integers, binary64 floats held as bits, and characters;
two are equal exactly when they have the same kind and bits. -/
namespace BrilFlow

open BrilFlow.Decimal

inductive Literal where
  | bool (b : Bool)
  | int (n : Int)
  | float (bits : UInt64)
  | char (c : Char)
deriving DecidableEq, Repr, Inhabited

namespace Literal

def intMin : Int := -(Int.pow 2 63)

def intMax : Int := Int.pow 2 63 - 1

def typeName : Literal → String
  | .bool _ => "bool"
  | .int _ => "int"
  | .float _ => "float"
  | .char _ => "char"

def ty (l : Literal) : Ty := .primitive l.typeName

/-- Floats in program text: positional from `1e-4` up to below `1e16` (zero too) with at least
one fractional digit, otherwise scientific with an unsigned exponent (`1e-5`, `1.5e16`); of two
equally near shortest candidates the larger is taken. -/
def floatLayout : FloatLayout :=
  { positionalAbove := some (-4), positionalUpTo := some 16, pointZero := true,
    exponentPlus := false, ties := .up,
    infinity := "inf", negInfinity := "-inf", nan := "NaN" }

/-- The text of a literal: integers in decimal, `true`/`false`, a float by `floatLayout`, a
character between single quotes as it is. -/
def render : Literal → String
  | .bool b => if b then "true" else "false"
  | .int n => toString n
  | .float bits => floatLayout.render bits
  | .char c => "'" ++ c.toString ++ "'"

/-- The float nearest to an integer. -/
def floatOfInt (n : Int) : UInt64 :=
  if 0 ≤ n then nearest n.toNat 0 else negate (nearest n.natAbs 0)

end Literal
end BrilFlow
