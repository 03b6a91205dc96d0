import Colloquy.Json.Reader
import Colloquy.Text.Quoted
import Colloquy.Value

/-!
# What the player types

Input comes in lines.  A line ends with a line feed, which may follow a carriage return; the last one
may have no end.  A backspace takes back the character before it together with the marks on it.
-/

namespace Colloquy.Console

/-- The lines of an input, with their ends. -/
def inputLines (input : String) : List String :=
  (lines input.toList).map String.ofList
where
  /-- Cut behind every line feed. -/
  lines : List Char → List (List Char)
    | [] => []
    | '\n' :: cs => ['\n'] :: lines cs
    | c :: cs =>
      match lines cs with
      | [] => [[c]]
      | l :: ls => (c :: l) :: ls

/-- A line, last character first, without its end. -/
def withoutEnd : List Char → List Char
  | '\n' :: '\r' :: cs => cs
  | '\n' :: cs => cs
  | cs => cs

/-- Whether a character is a control character, which carries no marks. -/
def isControl (c : Char) : Bool := c.toNat < 0x20 || (0x7F ≤ c.toNat && c.toNat < 0xA0)

/-- Split a text into characters with the marks on them, behind some clusters that are given last
first. -/
def clustersFrom : List (List Char) → List Char → List (List Char)
  | done, [] => done
  | [], c :: cs => clustersFrom [[c]] cs
  | cluster :: done, c :: cs =>
    if Text.inRanges Text.markRanges c && !cluster.any isControl then
      clustersFrom ((cluster ++ [c]) :: done) cs
    else clustersFrom ([c] :: cluster :: done) cs

/-- Carry out the backspaces among clusters, first cluster first, behind some that stay and are given
last first. -/
def rub : List (List Char) → List (List Char) → List (List Char)
  | kept, [] => kept.reverse
  | kept, cluster :: rest => if cluster = ['\x08'] then rub kept.tail rest else rub (cluster :: kept) rest

/-- The text of a line that was typed. -/
def typed (line : String) : String :=
  let cs := (withoutEnd line.toList.reverse).reverse
  String.ofList (rub [] (clustersFrom [] cs).reverse).flatten

/-- The number of a choice: decimal digits, perhaps behind a plus sign, for a number that fits into 64
bits. -/
def choiceIndex? (line : String) : Option Nat :=
  let digits := match Text.trim line.toList with
    | '+' :: cs => cs
    | cs => cs
  if digits.isEmpty || !digits.all Char.isDigit then none
  else
    let n := digits.foldl (fun n c => 10 * n + (c.toNat - '0'.toNat)) 0
    if n < UInt64.size then some n else none

/-- The result of a call: nothing typed is the zero of the kind, a document of a value is that value,
and anything else is a text. -/
def callResult (kind : Kind) (line : String) : Value :=
  let text := Text.trimmed line
  if text.isEmpty then .zero kind
  else ((Json.parse? text).bind Value.ofJson?).getD (.string text)

end Colloquy.Console
