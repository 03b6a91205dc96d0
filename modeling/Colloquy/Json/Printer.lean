import Colloquy.Json.Basic

/-!
# Writing JSON

Two layouts of a document: `compact` without any blanks, and `pretty` with one member or item to a
line, indented by two blanks a level, and nothing between the brackets of an empty one.
-/

namespace Colloquy.Json

/-- One character inside a JSON string. -/
def escapedChar (c : Char) : List Char :=
  if c = '"' ∨ c = '\\' then ['\\', c]
  else if c = '\n' then ['\\', 'n']
  else if c = '\r' then ['\\', 'r']
  else if c = '\t' then ['\\', 't']
  else if c.toNat = 8 then ['\\', 'b']
  else if c.toNat = 12 then ['\\', 'f']
  else if c.toNat < 32 then
    ['\\', 'u', '0', '0', Nat.digitChar (c.toNat / 16), Nat.digitChar (c.toNat % 16)]
  else [c]

/-- A string with its quotes. -/
def stringText (s : String) : List Char := '"' :: (s.toList.flatMap escapedChar ++ ['"'])

/-- The text of a number. -/
def Number.text (n : Json.Number) : List Char :=
  let sign := if n.negative then ['-'] else []
  let fraction := if n.fraction.isEmpty then [] else '.' :: n.fraction
  let exponent := match n.exponent with
    | none => []
    | some e => 'e' :: (if e.negative then '-' else '+') :: e.digits
  sign ++ n.whole ++ fraction ++ exponent

/-- The text of a document that is neither an array nor an object. -/
def scalarText : Json → List Char
  | .bool true => "true".toList
  | .bool false => "false".toList
  | .number n => n.text
  | .string s => stringText s
  | .unpaired => stringText "\uFFFD"
  | _ => "null".toList

mutual

/-- A document without blanks. -/
def compactText : Json → List Char
  | .array [] => ['[', ']']
  | .array (j :: js) => '[' :: (compactText j ++ compactItems js ++ [']'])
  | .object [] => ['\x7b', '\x7d']
  | .object ((k, j) :: ms) =>
    '\x7b' :: (stringText k ++ ':' :: compactText j ++ compactMembers ms ++ ['\x7d'])
  | j => scalarText j

/-- The items after the first. -/
def compactItems : List Json → List Char
  | [] => []
  | j :: js => ',' :: (compactText j ++ compactItems js)

/-- The members after the first. -/
def compactMembers : List (String × Json) → List Char
  | [] => []
  | (k, j) :: ms => ',' :: (stringText k ++ ':' :: compactText j ++ compactMembers ms)

end

/-- A line break and the indentation of a level. -/
def newline (level : Nat) : List Char := '\n' :: List.replicate (2 * level) ' '

mutual

/-- A document at a level of indentation. -/
def prettyText (level : Nat) : Json → List Char
  | .array [] => ['[', ']']
  | .array (j :: js) =>
    '[' :: (newline (level + 1) ++ prettyText (level + 1) j ++ prettyItems (level + 1) js ++
      newline level ++ [']'])
  | .object [] => ['\x7b', '\x7d']
  | .object ((k, j) :: ms) =>
    '\x7b' :: (newline (level + 1) ++ stringText k ++ ':' :: ' ' :: prettyText (level + 1) j ++
      prettyMembers (level + 1) ms ++ newline level ++ ['\x7d'])
  | j => scalarText j

/-- The items after the first, each on its own line. -/
def prettyItems (level : Nat) : List Json → List Char
  | [] => []
  | j :: js => ',' :: (newline level ++ prettyText level j ++ prettyItems level js)

/-- The members after the first, each on its own line. -/
def prettyMembers (level : Nat) : List (String × Json) → List Char
  | [] => []
  | (k, j) :: ms =>
    ',' :: (newline level ++ stringText k ++ ':' :: ' ' :: prettyText level j ++
      prettyMembers level ms)

end

/-- A document without blanks. -/
def compact (j : Json) : String := String.ofList (compactText j)

/-- A document with one item or member to a line. -/
def pretty (j : Json) : String := String.ofList (prettyText 0 j)

end Colloquy.Json
