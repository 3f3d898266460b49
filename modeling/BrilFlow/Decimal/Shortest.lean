import BrilFlow.Decimal.Read

/-! The shortest decimal that reads back as a binary64 value: the first grid of `k = 1, …, 17`
significant digits on which a neighbour of the value lies in its rounding interval, the nearer
neighbour taken, a tie broken by the format. -/
namespace BrilFlow.Decimal

structure Digits where
  mantissa : Nat
  exponent : Int
deriving DecidableEq, Repr

inductive TieBreak where
  /-- The one with an even last digit. -/
  | toEven
  /-- The larger one. -/
  | up
deriving DecidableEq, Repr

/-- The rounding interval of a positive value, as numerators over a common denominator. -/
structure Interval where
  low : Nat
  value : Nat
  high : Nat
  den : Nat
  closed : Bool

/-- The interval of reals that round to the finite positive value with these bits. -/
def Interval.ofBits (bits : UInt64) : Interval :=
  let m := significand bits
  let c := binaryExponent bits - 2
  let up := Nat.pow 2 c.toNat
  let lowerGap := if fractionField bits = 0 ∧ 1 < exponentField bits then 1 else 2
  { low := (4 * m - lowerGap) * up, value := 4 * m * up, high := (4 * m + 2) * up,
    den := Nat.pow 2 (-c).toNat, closed := m % 2 == 0 }

/-- `(a, b)` with `c · 10^t` and the interval's numerators compared as `a` against `b · den`
over one scale: the candidate side and the unit of the interval side. -/
def scaleAt (c : Nat) (t : Int) : Nat × Nat :=
  if 0 ≤ t then (c * Nat.pow 10 t.toNat, 1) else (c, Nat.pow 10 (-t).toNat)

def Interval.contains (i : Interval) (c : Nat) (t : Int) : Bool :=
  let (a, u) := scaleAt c t
  let lhs := a * i.den
  if i.closed then i.low * u ≤ lhs ∧ lhs ≤ i.high * u else i.low * u < lhs ∧ lhs < i.high * u

def Interval.floorAt (i : Interval) (t : Int) : Nat × Bool :=
  if 0 ≤ t then
    let d := i.den * Nat.pow 10 t.toNat
    (i.value / d, i.value % d == 0)
  else
    let n := i.value * Nat.pow 10 (-t).toNat
    (n / i.den, n % i.den == 0)

def Interval.atLeastPow10 (i : Interval) (e : Int) : Bool :=
  if 0 ≤ e then i.den * Nat.pow 10 e.toNat ≤ i.value else i.den ≤ i.value * Nat.pow 10 (-e).toNat

def Interval.leadingPower (i : Interval) : Int :=
  let e : Int := (decimalLength i.value : Int) - decimalLength i.den
  if i.atLeastPow10 e then e else e - 1

/-- Of two candidates `lo < hi` on the grid `10^t`, the one nearer the value; a tie is broken
by `ties`. -/
def Interval.nearer (i : Interval) (ties : TieBreak) (lo hi : Nat) (t : Int) : Nat :=
  let (a, u) := scaleAt 1 t
  let v := i.value * u
  let below := v - lo * a * i.den
  let above := hi * a * i.den - v
  if below < above then lo
  else if above < below then hi
  else
    match ties with
    | .toEven => if lo % 2 = 0 then lo else hi
    | .up => hi

/-- The decimal with `k` significant digits on the grid of the value, if one reads back. -/
def Interval.hitAt (i : Interval) (ties : TieBreak) (k : Nat) : Option Digits :=
  let t := i.leadingPower - k + 1
  let (lo, exact) := i.floorAt t
  let hi := if exact then lo else lo + 1
  match i.contains lo t, i.contains hi t with
  | true, true => some ⟨i.nearer ties lo hi t, t⟩
  | true, false => some ⟨lo, t⟩
  | false, true => some ⟨hi, t⟩
  | false, false => none

def Digits.trim (d : Digits) : Digits :=
  if h : d.mantissa ≠ 0 ∧ d.mantissa % 10 = 0 then
    Digits.trim ⟨d.mantissa / 10, d.exponent + 1⟩
  else d
termination_by d.mantissa
decreasing_by omega

/-- The shortest decimal that reads back as the finite positive value with these bits, ties
broken by `ties`; zero gives `0 · 10^0`. -/
def shortest (ties : TieBreak) (bits : UInt64) : Digits :=
  if significand bits = 0 then ⟨0, 0⟩
  else
    let i := Interval.ofBits bits
    let found := (List.range 17).findSome? fun k => i.hitAt ties (k + 1)
    (found.getD ⟨(i.floorAt (i.leadingPower - 16)).1, i.leadingPower - 16⟩).trim

end BrilFlow.Decimal
