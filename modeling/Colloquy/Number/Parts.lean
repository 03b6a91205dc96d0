/-!
# The parts of a float

A finite float is a significand times a power of two.  `Parts.of` reads both off the bit pattern, and
the exact arithmetic of this folder (shortest decimals, remainders) works on them in natural numbers.
-/

namespace Colloquy.Number

/-- A magnitude `significand * 2 ^ exponent`. -/
structure Parts where
  significand : Nat
  exponent : Int
  deriving DecidableEq, Repr

/-- Whether the sign bit is set; it is for negative zero. -/
def isNegative (x : Float) : Bool := 1 <<< 63 ≤ x.toBits.toNat

/-- The leading one of a normal significand, which is not stored: it stands above the 52 bits of the
fraction. -/
def hiddenBit : Nat := 1 <<< 52

/-- The exponent field of the bit pattern. -/
def exponentField (x : Float) : Nat := x.toBits.toNat >>> 52 % 2048

/-- The fraction field of the bit pattern. -/
def fractionField (x : Float) : Nat := x.toBits.toNat % hiddenBit

/-- The magnitude of a finite float.  Subnormal floats share the least exponent and have no leading
one. -/
def Parts.of (x : Float) : Parts :=
  if exponentField x = 0 then ⟨fractionField x, -1074⟩
  else ⟨hiddenBit + fractionField x, (exponentField x : Int) - 1075⟩

/-- Two to the power `e`, for `-1074 ≤ e ≤ 1023`. -/
def twoPow (e : Int) : Float :=
  if -1022 ≤ e then Float.ofBits ((e + 1023).toNat <<< 52).toUInt64
  else Float.ofBits (1 <<< (e + 1074).toNat).toUInt64

/-- The float of a magnitude.  It is exact when the significand has at most 53 bits and the product
is a float. -/
def Parts.toFloat (p : Parts) : Float := Float.ofNat p.significand * twoPow p.exponent

end Colloquy.Number
