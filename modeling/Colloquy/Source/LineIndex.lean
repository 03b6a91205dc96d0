import Colloquy.Source.Span
import Colloquy.Text.Blank

/-!
# Lines and columns

Editors speak of lines and columns where spans speak of bytes.  A line index cuts a source into its
lines once and answers where an offset stands: both numbers count from zero, and columns count
characters.
-/

namespace Colloquy

/-- A line of a source: the offset it starts at, and its characters without the line feed. -/
structure SourceLine where
  start : Nat
  chars : List Char
  deriving DecidableEq, Repr

/-- The lines of a source, and its size in bytes. -/
structure LineIndex where
  lines : List SourceLine
  size : Nat
  deriving DecidableEq, Repr

namespace LineIndex

/-- Cut a text at its line feeds.  The first line is `before`, in reverse, continued; it starts at
`start`, and `here` is the offset of the text. -/
def cut (start here : Nat) (before : List Char) : List Char → List SourceLine
  | [] => [⟨start, before.reverse⟩]
  | c :: cs =>
    if c = '\n' then ⟨start, before.reverse⟩ :: cut (here + 1) (here + 1) [] cs
    else cut start (here + c.utf8Size) (c :: before) cs

/-- The line index of a source. -/
def ofSource (source : String) : LineIndex :=
  ⟨cut 0 0 [] source.toList, source.utf8ByteSize⟩

/-- The number of lines; a line feed at the end of a source begins one more. -/
def lineCount (index : LineIndex) : Nat := index.lines.length

/-- The number of characters on a line, without the carriage returns it ends with.  Lines that do not
exist have none. -/
def lineLength (index : LineIndex) (line : Nat) : Nat :=
  match index.lines[line]? with
  | some l => (l.chars.reverse.dropWhile (· = '\r')).length
  | none => 0

/-- The number of characters in front of a byte of a text, if a character ends there. -/
def columnAt? : List Char → Nat → Option Nat
  | _, 0 => some 0
  | [], _ + 1 => none
  | c :: cs, k + 1 =>
    if c.utf8Size ≤ k + 1 then (columnAt? cs (k + 1 - c.utf8Size)).map (· + 1) else none

/-- The last line that starts at or before an offset, with its number. -/
def lineAt (offset : Nat) : Nat → SourceLine → List SourceLine → Nat × SourceLine
  | line, l, [] => (line, l)
  | line, l, m :: ms => if m.start ≤ offset then lineAt offset (line + 1) m ms else (line, l)

/-- The line and column of an offset.  Offsets past the end stand at the end; inside a character the
column counts bytes. -/
def position (index : LineIndex) (offset : Nat) : Nat × Nat :=
  let here := min offset index.size
  match index.lines with
  | [] => (0, here)
  | l :: ls =>
    let (line, l) := lineAt here 0 l ls
    (line, (columnAt? l.chars (here - l.start)).getD (here - l.start))

end LineIndex

end Colloquy
