import Colloquy.Number.Parts

/-!
# The remainder of a division toward zero

`remainder x y` is `x - n * y` for the integer `n` next to `x / y` on the side of zero.  The result is
always a float, so it is computed on exact magnitudes and never rounded.  It has the sign of `x`.
-/

namespace Colloquy.Number

/-- The remainder of two finite magnitudes over their common exponent. -/
def Parts.remainder (a b : Parts) : Parts :=
  let e := min a.exponent b.exponent
  let m := a.significand <<< (a.exponent - e).toNat
  let n := b.significand <<< (b.exponent - e).toNat
  ⟨m % n, e⟩

/-- The remainder of the division of `x` by `y` toward zero.  There is none of an infinity, nor by
zero; a finite number is its own remainder by an infinity. -/
def remainder (x y : Float) : Float :=
  if x.isNaN || y.isNaN || x.isInf || y == 0 then 0.0 / 0.0
  else if y.isInf then x
  else
    let r := ((Parts.of x).remainder (Parts.of y)).toFloat
    if isNegative x then -r else r

end Colloquy.Number
