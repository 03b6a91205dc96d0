/-!
# Reading floats

`parse?` accepts decimal notation with an optional sign, fraction and exponent, and the words for the
infinities and for what is not a number in any letter case.  The result is the float nearest to the
number written; a number beyond the largest float reads as an infinity.
-/

namespace Colloquy.Number

/-- The value of a list of decimal digits. -/
def digitsValue (ds : List Char) : Nat := ds.foldl (fun n c => 10 * n + (c.toNat - '0'.toNat)) 0

/-- The float nearest to `coefficient * 10 ^ exponent`.  Exponents far outside the range of floats are
settled by the number of digits, so that no huge power is computed. -/
def ofDecimal (coefficient : Nat) (exponent : Int) : Float :=
  if coefficient = 0 then 0.0
  else
    let magnitude : Int := (Nat.toDigits 10 coefficient).length + exponent
    if 400 < magnitude then 1.0 / 0.0
    else if magnitude < -400 then 0.0
    else Float.ofScientific coefficient (exponent < 0) exponent.natAbs

/-- An optional sign: whether the number is negative, and what follows. -/
def takeSign : List Char → Bool × List Char
  | '-' :: cs => (true, cs)
  | '+' :: cs => (false, cs)
  | cs => (false, cs)

/-- An exponent part up to the end of the text; no exponent part stands for zero. -/
def exponentPart? : List Char → Option Int
  | [] => some 0
  | c :: cs =>
    if c = 'e' ∨ c = 'E' then
      let (negative, ds) := takeSign cs
      if !ds.isEmpty && ds.all Char.isDigit then
        some (if negative then -(digitsValue ds : Int) else digitsValue ds)
      else none
    else none

/-- An unsigned decimal: digits on at least one side of an optional point, and an exponent. -/
def unsigned? (cs : List Char) : Option Float :=
  let whole := cs.takeWhile Char.isDigit
  let rest := cs.dropWhile Char.isDigit
  let (fraction, rest) := match rest with
    | '.' :: more => (more.takeWhile Char.isDigit, more.dropWhile Char.isDigit)
    | _ => ([], rest)
  if whole.isEmpty && fraction.isEmpty then none
  else (exponentPart? rest).map fun e =>
    ofDecimal (digitsValue (whole ++ fraction)) (e - fraction.length)

/-- Read a float from the whole of a text. -/
def parse? (s : String) : Option Float :=
  let (negative, cs) := takeSign s.toList
  let magnitude :=
    match String.ofList (cs.map Char.toLower) with
    | "inf" | "infinity" => some (1.0 / 0.0)
    | "nan" => some (0.0 / 0.0)
    | _ => unsigned? cs
  magnitude.map fun x => if negative then -x else x

end Colloquy.Number
