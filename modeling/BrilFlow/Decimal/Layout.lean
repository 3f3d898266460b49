import BrilFlow.Decimal.Shortest

/-! Laying out the shortest digits of a binary64 value: where positional notation gives way to
scientific, the exponent's sign, a trailing `.0`, the tie rule and the non-finite words. -/
namespace BrilFlow.Decimal

/-- The decisions of one number format. With digits `d₁…dₙ · 10^x`, the decimal point falls
`n + x` places after the first digit; positional notation is used when that place lies in
`(positionalAbove, positionalUpTo]` (a missing bound is no bound). -/
structure FloatLayout where
  positionalAbove : Option Int
  positionalUpTo : Option Int
  pointZero : Bool
  exponentPlus : Bool
  ties : TieBreak
  infinity : String
  negInfinity : String
  nan : String

def zeros (n : Nat) : String := String.ofList (List.replicate n '0')

/-- Whether the point place `p` is written positionally. -/
def FloatLayout.positional (l : FloatLayout) (p : Int) : Bool :=
  (match l.positionalAbove with | some a => decide (a < p) | none => true) &&
  (match l.positionalUpTo with | some b => decide (p ≤ b) | none => true)

def FloatLayout.body (l : FloatLayout) (d : Digits) : String :=
  let s := d.mantissa.repr
  let p : Int := (s.length : Int) + d.exponent
  if l.positional p then
    if 0 ≤ d.exponent then
      s ++ zeros d.exponent.toNat ++ (if l.pointZero then ".0" else "")
    else if 0 < p then
      String.ofList (s.toList.take p.toNat) ++ "." ++ String.ofList (s.toList.drop p.toNat)
    else "0." ++ zeros (-p).toNat ++ s
  else
    let rest := s.toList.drop 1
    String.ofList (s.toList.take 1) ++ (if rest.isEmpty then "" else "." ++ String.ofList rest) ++
      "e" ++ (if l.exponentPlus && 0 ≤ p - 1 then "+" else "") ++ toString (p - 1)

def FloatLayout.render (l : FloatLayout) (bits : UInt64) : String :=
  if isFinite bits then
    (if signBit bits then "-" else "") ++ l.body (shortest l.ties (magnitude bits))
  else if fractionField bits ≠ 0 then l.nan
  else if signBit bits then l.negInfinity
  else l.infinity

end BrilFlow.Decimal
