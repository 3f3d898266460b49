/-! Binary64 values as their 64 bits, so that equality is equality of bits. A finite value is
`m · 2^q`: a subnormal has `q = -1074`, a normal one has the hidden bit added to `m`. -/
namespace BrilFlow.Decimal

def signBit (bits : UInt64) : Bool := bits >>> 63 == 1

def exponentField (bits : UInt64) : Nat := ((bits >>> 52) &&& 0x7ff).toNat

def fractionField (bits : UInt64) : Nat := (bits &&& 0xfffffffffffff).toNat

/-- Infinities and NaNs have the largest exponent field. -/
def isFinite (bits : UInt64) : Bool := exponentField bits != 0x7ff

/-- The integer significand `m` of a finite value `m · 2^q`. -/
def significand (bits : UInt64) : Nat :=
  if exponentField bits = 0 then fractionField bits else fractionField bits + Nat.pow 2 52

/-- The binary exponent `q` of a finite value `m · 2^q`. -/
def binaryExponent (bits : UInt64) : Int :=
  if exponentField bits = 0 then -1074 else (exponentField bits : Int) - 1075

def magnitude (bits : UInt64) : UInt64 := bits &&& 0x7fffffffffffffff

def negate (bits : UInt64) : UInt64 := bits ^^^ 0x8000000000000000

def infinityBits : UInt64 := 0x7ff0000000000000

/-- Bits of a finite positive value `m · 2^q` whose significand is already in range:
`m < 2^53`, and `m ≥ 2^52` unless `q = -1074`. -/
def ofSignificand (m : Nat) (q : Int) : UInt64 :=
  if m < Nat.pow 2 52 then UInt64.ofNat m
  else UInt64.ofNat (((q + 1075).toNat <<< 52) + (m - Nat.pow 2 52))

end BrilFlow.Decimal
