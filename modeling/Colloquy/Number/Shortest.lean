import Colloquy.Number.Parts

/-!
# The shortest decimal of a float

Of the decimals that read back as a given float, a shortest one has the fewest digits, and is the
nearest to the float among those.  A float owns the reals up to the middle between it and either
neighbour (`Interval`), the middles included when its significand is even.  For one digit, two
digits, and so on, the two neighbours of the float on that decimal grid are tested for membership, in
exact arithmetic; the first grid with a hit has the answer.  Seventeen digits always suffice.
-/

namespace Colloquy.Number

/-- A decimal `coefficient * 10 ^ exponent`. -/
structure Decimal where
  coefficient : Nat
  exponent : Int
  deriving DecidableEq, Repr

/-- Ten to the power `n`. -/
def tenPow (n : Nat) : Nat := Nat.pow 10 n

/-- What to do when two shortest decimals are equally near. -/
inductive Tie where
  /-- Take the larger one. -/
  | up
  /-- Take the one whose last digit is even. -/
  | even
  deriving DecidableEq, Repr

/-- The reals that round to a float, over a common denominator: from `low / den` to `high / den`, with
the float itself at `mid / den`. -/
structure Interval where
  low : Nat
  mid : Nat
  high : Nat
  den : Nat
  /-- Whether the ends belong to it. -/
  closed : Bool
  deriving DecidableEq, Repr

/-- The interval of a positive finite float.  Below a power of two the floats lie twice as dense, so
that end is half as far. -/
def Interval.of (p : Parts) : Interval :=
  let below := if p.significand = hiddenBit ∧ -1074 < p.exponent then 1 else 2
  let e := p.exponent - 2
  let scale := 1 <<< e.toNat
  { low := (4 * p.significand - below) * scale
    mid := 4 * p.significand * scale
    high := (4 * p.significand + 2) * scale
    den := 1 <<< (-e).toNat
    closed := p.significand % 2 = 0 }

/-- Whether a decimal lies in an interval. -/
def Interval.contains (i : Interval) (d : Decimal) : Bool :=
  let x := d.coefficient * tenPow d.exponent.toNat * i.den
  let unit := tenPow (-d.exponent).toNat
  if i.closed then i.low * unit ≤ x ∧ x ≤ i.high * unit
  else i.low * unit < x ∧ x < i.high * unit

/-- The power of ten of the leading digit of the interval's float. -/
def Interval.magnitude (i : Interval) : Int :=
  let guess : Int := (Nat.toDigits 10 i.mid).length - (Nat.toDigits 10 i.den).length
  if i.den * tenPow guess.toNat ≤ i.mid * tenPow (-guess).toNat then guess else guess - 1

/-- The decimal of the interval with steps of `10 ^ e` that is nearest to its float, if there is
one. -/
def Interval.onGrid? (tie : Tie) (i : Interval) (e : Int) : Option Decimal :=
  let num := i.mid * tenPow (-e).toNat
  let den := i.den * tenPow e.toNat
  let floor : Decimal := ⟨num / den, e⟩
  let ceil : Decimal := ⟨num / den + 1, e⟩
  let rest := 2 * (num % den)
  match i.contains floor, i.contains ceil with
  | true, true =>
    if rest < den then some floor
    else if den < rest then some ceil
    else match tie with
      | .up => some ceil
      | .even => if floor.coefficient % 2 = 0 then some floor else some ceil
  | true, false => some floor
  | false, true => some ceil
  | false, false => none

/-- Drop the zeros a coefficient ends with, at most `fuel` of them. -/
def Decimal.strip : Nat → Decimal → Decimal
  | 0, d => d
  | fuel + 1, d =>
    if d.coefficient ≠ 0 ∧ d.coefficient % 10 = 0 then
      Decimal.strip fuel ⟨d.coefficient / 10, d.exponent + 1⟩
    else d

/-- Search the grids with `digits`, `digits + 1`, … digits. -/
def Interval.search (tie : Tie) (i : Interval) (magnitude : Int) : Nat → Nat → Option Decimal
  | 0, _ => none
  | fuel + 1, digits =>
    match i.onGrid? tie (magnitude - digits + 1) with
    | some d => some d
    | none => Interval.search tie i magnitude fuel (digits + 1)

/-- The shortest decimal of the magnitude of a finite float. -/
def shortest (tie : Tie) (x : Float) : Decimal :=
  let p := Parts.of x
  if p.significand = 0 then ⟨0, 0⟩
  else
    let i := Interval.of p
    match i.search tie i.magnitude 17 1 with
    | some d => d.strip 18
    | none => ⟨0, 0⟩

end Colloquy.Number
