import BrilFlow.Decimal.Binary64

/-! Reading a decimal `n · 10^e` into the nearest binary64 value, a tie to the even significand,
computed on natural numbers so that it is correctly rounded for every input. -/
namespace BrilFlow.Decimal

/-- `a / b` rounded to the nearest integer, a half going to the even neighbour. -/
def roundHalfEven (a b : Nat) : Nat :=
  let q := a / b
  let r := a % b
  if b < 2 * r ∨ (2 * r = b ∧ q % 2 = 1) then q + 1 else q

def decimalLength (n : Nat) : Nat := (Nat.toDigits 10 n).length

def atLeastPow2 (num den : Nat) (k : Int) : Bool :=
  if 0 ≤ k then den * Nat.pow 2 k.toNat ≤ num else den ≤ num * Nat.pow 2 (-k).toNat

/-- `⌊log₂ (num / den)⌋` for positive `num` and `den`. -/
def floorLog2 (num den : Nat) : Int :=
  let k : Int := (Nat.log2 num : Int) - Nat.log2 den
  if atLeastPow2 num den k then k else k - 1

/-- The binary64 value nearest to `num / den`, for positive `num` and `den`. -/
def nearestRatio (num den : Nat) : UInt64 :=
  let q := max (floorLog2 num den - 52) (-1074)
  let m :=
    if 0 ≤ q then roundHalfEven num (den * Nat.pow 2 q.toNat)
    else roundHalfEven (num * Nat.pow 2 (-q).toNat) den
  let (m, q) := if m = Nat.pow 2 53 then (Nat.pow 2 52, q + 1) else (m, q)
  if 971 < q then infinityBits else ofSignificand m q

/-- The binary64 value nearest to `n · 10^e`. -/
def nearest (n : Nat) (e : Int) : UInt64 :=
  if n = 0 then 0
  else if 310 < (decimalLength n : Int) + e then infinityBits
  else if (decimalLength n : Int) + e < -330 then 0
  else if 0 ≤ e then nearestRatio (n * Nat.pow 10 e.toNat) 1
  else nearestRatio n (Nat.pow 10 (-e).toNat)

end BrilFlow.Decimal
