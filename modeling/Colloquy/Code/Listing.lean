import Colloquy.Code.Decode
import Colloquy.Number.Printed
import Colloquy.Text.Quoted

/-!
# Listings

A stream for human readers: one row to a statement with its offset, the name of its code and its
operands.  Expressions are written with their operators in front, targets as `@` and four digits.
-/

namespace Colloquy

open Code

/-- A row of a listing: a statement, or the error that ends the listing. -/
structure ListingRow where
  offset : Nat
  entry : Except CodeError (StatementCode × String)

namespace Script

/-- A target. -/
def address (offset : Nat) : String := "@" ++ Text.padded 4 offset

/-- A node as text, given the texts of expressions further on. -/
def nodeText (s : Script) (textOf : Nat → Except CodeError String) : Node → Except CodeError String
  | .float index => return Number.plain (← s.float index)
  | .string index => return Text.quoted (← s.string index)
  | .bool value => return if value then "true" else "false"
  | .variable name => s.string name
  | .call name awaited args => do
    let args ← args.mapM textOf
    let callee ← s.string name
    return "(" ++ (if awaited then "await " else "") ++ callee
      ++ String.join (args.map (" " ++ ·)) ++ ")"
  | .unary op operand => return "(" ++ (ExprCode.unary op).symbol ++ " " ++ (← textOf operand) ++ ")"
  | .binary op left right => do
    let left ← textOf left
    let right ← textOf right
    return "(" ++ (ExprCode.binary op).symbol ++ " " ++ left ++ " " ++ right ++ ")"
  | .assign op name value => do
    let target ← s.string name
    return "(" ++ (ExprCode.assign op).symbol ++ " " ++ target ++ " " ++ (← textOf value) ++ ")"
  | .auto => return "auto"
  | .goto target => return "(goto " ++ address target ++ ")"
  | .speed operand => return "(speed " ++ (← textOf operand) ++ ")"
  | .pause operand => return "(pause " ++ (← textOf operand) ++ ")"

/-- The expression at an offset as text, for expressions that nest less than `fuel` deep. -/
def exprTextWithin (s : Script) : Nat → Nat → Except CodeError String
  | 0, offset => .error (.unexpectedEnd offset)
  | fuel + 1, offset => do
    let (node, _) ← s.decodeExpr offset
    s.nodeText (exprTextWithin s fuel) node

/-- The expression at an offset as text. -/
def exprText (s : Script) (offset : Nat) : Except CodeError String :=
  s.exprTextWithin (s.words.size + 1) offset

/-- A speaker of a line as text. -/
def slotText (s : Script) : SpeakerNode → Except CodeError String
  | .id index => s.speaker index
  | .variable name => do return "\x7b" ++ (← s.string name) ++ "\x7d"

/-- A stretch of text: quoted, or an expression between braces. -/
def segmentText (s : Script) : TextNode → Except CodeError String
  | .text index => do return Text.quoted (← s.string index)
  | .expr offset => do return "\x7b" ++ (← s.exprText offset) ++ "\x7d"

/-- Stretches of text. -/
def segmentsText (s : Script) (segments : List TextNode) : Except CodeError String := do
  return " ".intercalate (← segments.mapM s.segmentText)

/-- A key and its values as text. -/
def pairText (s : Script) (p : PairNode) : Except CodeError String := do
  let values ← p.values.mapM s.exprText
  return (← s.string p.key) ++ ": " ++ " ".intercalate values

/-- Hash data as text. -/
def pairsText (s : Script) (pairs : List PairNode) : Except CodeError String := do
  return "#\x7b" ++ ", ".intercalate (← pairs.mapM s.pairText) ++ "\x7d"

/-- An entry of a choice as text. -/
def itemText (s : Script) : ItemNode → Except CodeError String
  | .option next guard segments => do
    let guard ← match guard with
      | some offset => do pure ("[" ++ (← s.exprText offset) ++ "] ")
      | none => pure ""
    return "option " ++ address next ++ " " ++ guard ++ (← s.segmentsText segments)
  | .ifMarker condition => do return "if " ++ (← s.exprText condition)
  | .elseIf condition => do return "elseif " ++ (← s.exprText condition)
  | .elseMarker => return "else"
  | .endIf => return "endif"

/-- A condition and its target as text. -/
def branchText (s : Script) (b : Nat × Nat) : Except CodeError String := do
  return (← s.exprText b.1) ++ " -> " ++ address b.2

/-- The operands of a statement as text. -/
def operandsText (s : Script) : Statement → Except CodeError String
  | .entry next name => do return "next=" ++ address next ++ " " ++ Text.quoted (← s.string name)
  | .finish => return ""
  | .line l => do
    let speakers ← l.speakers.mapM s.slotText
    let segments ← s.segmentsText l.segments
    let directives ← l.directives.mapM s.exprText
    return "next=" ++ address l.next ++ " [" ++ ", ".intercalate speakers ++ "] " ++ segments ++
      if directives.isEmpty then "" else " <<" ++ ", ".intercalate directives ++ ">>"
  | .instruction next expr => do return "next=" ++ address next ++ " " ++ (← s.exprText expr)
  | .conditional otherwise branches => do
    return "else=" ++ address otherwise ++ " ["
      ++ ", ".intercalate (← branches.mapM s.branchText) ++ "]"
  | .choice next items => do
    return "next=" ++ address next ++ " [" ++ ", ".intercalate (← items.mapM s.itemText) ++ "]"
  | .hash next pairs => do return "next=" ++ address next ++ " " ++ (← s.pairsText pairs)
  | .speaker next speaker pairs => do
    let name ← s.speaker speaker
    return "next=" ++ address next ++ " " ++ name ++ " " ++ (← s.pairsText pairs)

/-- The code and operands of the statement at an offset, and the offset past it. -/
def describe (s : Script) (offset : Nat) : Except CodeError (StatementCode × String × Nat) := do
  let (statement, next) ← s.decodeStatement offset
  return (statement.code, ← s.operandsText statement, next)

/-- The rows from an offset on. -/
def listingFrom (s : Script) : Nat → Nat → List ListingRow
  | 0, _ => []
  | fuel + 1, offset =>
    if offset < s.words.size then
      match s.describe offset with
      | .ok (code, operands, next) => ⟨offset, .ok (code, operands)⟩ :: listingFrom s fuel next
      | .error e => [⟨offset, .error e⟩]
    else []

/-- The listing of a script: its statements in order, up to the first that cannot be read. -/
def listing (s : Script) : List ListingRow := s.listingFrom s.words.size 0

end Script

end Colloquy
