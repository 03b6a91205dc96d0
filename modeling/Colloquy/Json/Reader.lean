import Colloquy.Json.Basic

/-!
# Reading JSON

`Json.parse?` accepts one document with nothing but blanks around it.  The reader works on the list of
characters left and is bounded by the length of the text: a value, an item or a member takes at least
one character, and at most two calls stand between two characters taken.
-/

namespace Colloquy.Json

/-- The four blanks of the format. -/
def isSpace (c : Char) : Bool := c = ' ' ∨ c = '\n' ∨ c = '\t' ∨ c = '\r'

/-- Drop the blanks in front. -/
def skip (cs : List Char) : List Char := cs.dropWhile isSpace

/-- The value of a hexadecimal digit. -/
def hexValue? (c : Char) : Option Nat :=
  if c.isDigit then some (c.toNat - '0'.toNat)
  else if 'a' ≤ c ∧ c ≤ 'f' then some (c.toNat - 'a'.toNat + 10)
  else if 'A' ≤ c ∧ c ≤ 'F' then some (c.toNat - 'A'.toNat + 10)
  else none

/-- The code unit of four hexadecimal digits. -/
def hexUnit? (a b c d : Char) : Option Nat := do
  return ((← hexValue? a) * 16 + (← hexValue? b)) * 256 + (← hexValue? c) * 16 + (← hexValue? d)

/-- The character of a one-letter escape. -/
def escape? : Char → Option Char
  | '"' => some '"'
  | '\\' => some '\\'
  | '/' => some '/'
  | 'b' => some '\x08'
  | 'f' => some '\x0c'
  | 'n' => some '\n'
  | 'r' => some '\r'
  | 't' => some '\t'
  | _ => none

/-- What the characters read so far of a string denote: their list in reverse, or nothing if one of
them was half of a surrogate pair. -/
abbrev Partial := Option (List Char)

/-- Add the character of a code point; the halves of surrogate pairs have none. -/
def addPoint (acc : Partial) (n : Nat) : Partial :=
  if n < 0xD800 ∨ 0xE000 ≤ n then acc.map (Char.ofNat n :: ·) else none

/-- The rest of a string after its opening quote, and what follows the closing one. -/
def stringBody (acc : Partial) : List Char → Option (Partial × List Char)
  | [] => none
  | '"' :: cs => some (acc, cs)
  | '\\' :: 'u' :: a :: b :: c :: d :: cs =>
    match hexUnit? a b c d with
    | none => none
    | some hi =>
      if 0xD800 ≤ hi ∧ hi < 0xDC00 then
        match cs with
        | '\\' :: 'u' :: e :: f :: g :: h :: ds =>
          match hexUnit? e f g h with
          | none => none
          | some lo =>
            if 0xDC00 ≤ lo ∧ lo < 0xE000 then
              stringBody (addPoint acc (0x10000 + (hi - 0xD800) * 0x400 + (lo - 0xDC00))) ds
            else stringBody none ds
        | cs => stringBody none cs
      else stringBody (addPoint acc hi) cs
  | '\\' :: x :: cs =>
    match escape? x with
    | some y => stringBody (acc.map (y :: ·)) cs
    | none => none
  | c :: cs => if c.toNat < 32 ∨ c = '\\' then none else stringBody (acc.map (c :: ·)) cs

/-- A string after its opening quote. -/
def stringRest (cs : List Char) : Option (Partial × List Char) := do
  let (acc, rest) ← stringBody (some []) cs
  return (acc.map List.reverse, rest)

/-- Split off the digits in front. -/
def takeDigits (cs : List Char) : List Char × List Char :=
  (cs.takeWhile Char.isDigit, cs.dropWhile Char.isDigit)

/-- The digits after a point, at least one of them; none without a point. -/
def fractionPart : List Char → Option (List Char × List Char)
  | '.' :: cs =>
    let (digits, rest) := takeDigits cs
    if digits.isEmpty then none else some (digits, rest)
  | cs => some ([], cs)

/-- The digits of an exponent, at least one of them, after their sign. -/
def exponentDigits (negative : Bool) (cs : List Char) : Option (Option Exponent × List Char) :=
  let (digits, rest) := takeDigits cs
  if digits.isEmpty then none else some (some ⟨negative, digits⟩, rest)

/-- An exponent with an optional sign; nothing without its letter. -/
def exponentPart : List Char → Option (Option Exponent × List Char)
  | c :: cs =>
    if c = 'e' ∨ c = 'E' then
      match cs with
      | '+' :: ds => exponentDigits false ds
      | '-' :: ds => exponentDigits true ds
      | ds => exponentDigits false ds
    else some (none, c :: cs)
  | [] => some (none, [])

/-- A number after its sign.  A leading zero stands alone before the point. -/
def numberAfterSign (negative : Bool) (cs : List Char) : Option (Json.Number × List Char) := do
  let (whole, rest) := takeDigits cs
  if whole.isEmpty || (whole.head? == some '0' && whole.length != 1) then none
  else
    let (fraction, rest) ← fractionPart rest
    let (exponent, rest) ← exponentPart rest
    return (⟨negative, whole, fraction, exponent⟩, rest)

/-- A number. -/
def numberPart : List Char → Option (Json.Number × List Char)
  | '-' :: cs => numberAfterSign true cs
  | cs => numberAfterSign false cs

mutual

/-- One document in front of a text, within a bound on the calls. -/
def value : Nat → List Char → Option (Json × List Char)
  | 0, _ => none
  | fuel + 1, cs =>
    match skip cs with
    | 'n' :: 'u' :: 'l' :: 'l' :: rest => some (.null, rest)
    | 't' :: 'r' :: 'u' :: 'e' :: rest => some (.bool true, rest)
    | 'f' :: 'a' :: 'l' :: 's' :: 'e' :: rest => some (.bool false, rest)
    | '"' :: rest =>
      match stringRest rest with
      | some (some s, rest) => some (.string (String.ofList s), rest)
      | some (none, rest) => some (.unpaired, rest)
      | none => none
    | '[' :: rest =>
      match skip rest with
      | ']' :: rest => some (.array [], rest)
      | rest => match items fuel rest with
        | some (js, rest) => some (.array js, rest)
        | none => none
    | '\x7b' :: rest =>
      match skip rest with
      | '\x7d' :: rest => some (.object [], rest)
      | rest => match members fuel rest with
        | some (ms, rest) => some (.object ms, rest)
        | none => none
    | rest => match numberPart rest with
      | some (n, rest) => some (.number n, rest)
      | none => none

/-- One or more items and the closing bracket. -/
def items : Nat → List Char → Option (List Json × List Char)
  | 0, _ => none
  | fuel + 1, cs =>
    match value fuel cs with
    | none => none
    | some (j, rest) =>
      match skip rest with
      | ']' :: rest => some ([j], rest)
      | ',' :: rest => match items fuel rest with
        | some (js, rest) => some (j :: js, rest)
        | none => none
      | _ => none

/-- One or more members and the closing brace. -/
def members : Nat → List Char → Option (List (String × Json) × List Char)
  | 0, _ => none
  | fuel + 1, cs =>
    match skip cs with
    | '"' :: rest =>
      match stringRest rest with
      | some (some key, rest) =>
        match skip rest with
        | ':' :: rest =>
          match value fuel rest with
          | none => none
          | some (j, rest) =>
            match skip rest with
            | '\x7d' :: rest => some ([(String.ofList key, j)], rest)
            | ',' :: rest => match members fuel rest with
              | some (ms, rest) => some ((String.ofList key, j) :: ms, rest)
              | none => none
            | _ => none
        | _ => none
      | _ => none
    | _ => none

end

/-- Read a text that is one document with nothing but blanks around it. -/
def parse? (s : String) : Option Json :=
  let cs := s.toList
  match value (2 * cs.length + 2) cs with
  | some (j, rest) => if (skip rest).isEmpty then some j else none
  | none => none

end Colloquy.Json
