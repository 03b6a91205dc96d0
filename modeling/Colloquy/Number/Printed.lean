import Colloquy.Number.Shortest

/-!
# Floats as text

The layout of a shortest decimal that a value shows to a reader: positional, without exponent, and
without a point when there is no fraction.
-/

namespace Colloquy.Number

/-- The digits of a decimal's coefficient. -/
def Decimal.digits (d : Decimal) : List Char := Nat.toDigits 10 d.coefficient

/-- The power of ten of a decimal's leading digit. -/
def Decimal.magnitude (d : Decimal) : Int := (d.digits.length : Int) - 1 + d.exponent

/-- The digits before the point and after it, in positional writing. -/
def Decimal.positional (d : Decimal) : List Char × List Char :=
  let digits := d.digits
  if 0 ≤ d.exponent then (digits ++ List.replicate d.exponent.toNat '0', [])
  else
    let places := (-d.exponent).toNat
    if places < digits.length then
      (digits.take (digits.length - places), digits.drop (digits.length - places))
    else (['0'], List.replicate (places - digits.length) '0' ++ digits)

/-- A sign for a number that has one. -/
def signed (x : Float) (magnitude : List Char) : List Char :=
  if isNegative x then '-' :: magnitude else magnitude

/-- A float for a reader: the fewest digits that read back, ties going up, never an exponent. -/
def plain (x : Float) : String :=
  if x.isNaN then "NaN"
  else if x.isInf then String.ofList (signed x "inf".toList)
  else
    let (whole, fraction) := (shortest .up x).positional
    String.ofList (signed x (if fraction.isEmpty then whole else whole ++ '.' :: fraction))

end Colloquy.Number
