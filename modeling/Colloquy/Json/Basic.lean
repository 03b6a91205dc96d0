import Colloquy.Number.Printed

/-!
# JSON values

A JSON document as a tree.  A number keeps the digits it is written with, because what it means
depends on who asks: a word of code must be written as an integer, and a float is computed from the
digits (`Json.Number.toFloat?`).  Object members keep their order and may repeat.
-/

namespace Colloquy

/-- The exponent of a written number. -/
structure Json.Exponent where
  negative : Bool
  digits : List Char
  deriving DecidableEq, Repr

/-- A written number: a sign, digits before the point, digits after it (none if there is no point), and
an optional exponent. -/
structure Json.Number where
  negative : Bool
  whole : List Char
  fraction : List Char
  exponent : Option Json.Exponent
  deriving DecidableEq, Repr

/-- A JSON document. -/
inductive Json where
  | null
  | bool (value : Bool)
  | number (value : Json.Number)
  | string (value : String)
  /-- A string with an escape for half of a surrogate pair.  It denotes no text, so it is accepted only
  where a value is skipped. -/
  | unpaired
  | array (items : List Json)
  | object (members : List (String × Json))
  deriving Inhabited, Repr

namespace Json

/-- A natural number. -/
def ofNat (n : Nat) : Json := .number ⟨false, Nat.toDigits 10 n, [], none⟩

/-! ## Floats in documents -/

namespace Number

/-- A finite float: the fewest digits that read back, ties going to an even digit; positional with a
fraction from `10 ^ -5` to below `10 ^ 16`, scientific elsewhere. -/
def ofFloat (x : Float) : Json.Number :=
  let d := Colloquy.Number.shortest .even x
  let negative := Colloquy.Number.isNegative x
  if -5 ≤ d.magnitude ∧ d.magnitude ≤ 15 then
    let (whole, fraction) := d.positional
    ⟨negative, whole, if fraction.isEmpty then ['0'] else fraction, none⟩
  else
    ⟨negative, d.digits.take 1, d.digits.drop 1,
      some ⟨d.magnitude < 0, Nat.toDigits 10 d.magnitude.natAbs⟩⟩

/-- The decimal coefficient of a number while its digits are read: it stays below `2 ^ 64`, and a digit
that no longer fits ends it. -/
def grow (limit : Nat) : Nat → List Char → Nat × List Char
  | n, [] => (n, [])
  | n, c :: cs =>
    let m := 10 * n + (c.toNat - '0'.toNat)
    if limit < m then (n, c :: cs) else grow limit m cs

/-- The largest coefficient. -/
def maxCoefficient : Nat := UInt64.size - 1

/-- Scale a coefficient by a negative power of ten below the smallest one that is a float, in steps of
that smallest one. -/
def scaleDown : Nat → Float → Nat → Float
  | 0, x, _ => x
  | fuel + 1, x, e =>
    if e ≤ 308 then x / Float.ofScientific 1 false e
    else if x == 0 then x
    else scaleDown fuel (x / Float.ofScientific 1 false 308) (e - 308)

/-- A coefficient times a power of ten, each rounded to a float first.  There is no number beyond the
largest float. -/
def scale? (coefficient : Nat) (e : Int) : Option Float :=
  let x := coefficient.toUInt64.toFloat
  if e < 0 then some (scaleDown 16 x e.natAbs)
  else if e ≤ 308 then
    let y := x * Float.ofScientific 1 false e.natAbs
    if y.isInf then none else some y
  else if x == 0 then some x
  else none

/-- The largest exponent, `2 ^ 31 - 1`. -/
def maxExponent : Nat := 2147483647

/-- The value of an exponent's digits, if it is not beyond the largest exponent. -/
def exponentValue? (digits : List Char) : Option Nat :=
  let (n, rest) := grow maxExponent 0 digits
  if rest.isEmpty then some n else none

/-- The magnitude of a number as a float.  Digits beyond a 64-bit coefficient are not looked at: those
before the point count as zeros, those after it are dropped. -/
def magnitude? (n : Json.Number) : Option Float :=
  let (whole, dropped) := grow maxCoefficient 0 n.whole
  let (coefficient, unread) := grow maxCoefficient whole n.fraction
  let e : Int := (dropped.length : Int) - ((n.fraction.length - unread.length : Nat) : Int)
  match n.exponent with
  | none => scale? coefficient e
  | some x =>
    match exponentValue? x.digits with
    | some k =>
      let shifted := if x.negative then e - k else e + k
      scale? coefficient (max (-(maxExponent : Int) - 1) (min maxExponent shifted))
    | none => if coefficient = 0 ∨ x.negative then some 0.0 else none

/-- The float a number is read as. -/
def toFloat? (n : Json.Number) : Option Float :=
  n.magnitude?.map fun x => if n.negative then -x else x

/-- The natural number below `bound` that a number is written as, without sign, fraction and
exponent. -/
def toNat? (bound : Nat) (n : Json.Number) : Option Nat :=
  if n.negative || !n.fraction.isEmpty || n.exponent.isSome then none
  else
    let (value, rest) := grow (bound - 1) 0 n.whole
    if rest.isEmpty then some value else none

end Number

/-- A float, or `null` for one that is not finite. -/
def ofFloat (x : Float) : Json := if x.isFinite then .number (.ofFloat x) else .null

end Json

end Colloquy
