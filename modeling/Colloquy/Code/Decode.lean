import Colloquy.Catalog
import Colloquy.Code.Opcode
import Colloquy.Code.Script

/-!
# Decoding

Statements and expression nodes read from a stream at an offset.  Operands that are expressions stay
in the stream and are given by their offsets, so that they can be walked when they are needed.

A stream may hold anything.  Every operand lies beyond the word that opens it, so a nested expression
is never deeper than the stream is long, and a count that exceeds the stream runs into its end.
-/

namespace Colloquy

namespace Code

/-! ## Expressions -/

/-- An expression node.  Operands are offsets. -/
inductive Node where
  | float (index : Nat)
  | string (index : Nat)
  | bool (value : Bool)
  | variable (name : Nat)
  | call (name : Nat) (awaited : Bool) (args : List Nat)
  | unary (op : UnaryOp) (operand : Nat)
  | binary (op : BinaryOp) (left right : Nat)
  | assign (op : AssignOp) (name value : Nat)
  | auto
  | goto (target : Nat)
  | speed (operand : Nat)
  | pause (operand : Nat)
  deriving DecidableEq, Repr

/-- The code at an offset. -/
def exprCode (s : Script) (offset : Nat) : Except CodeError ExprCode := do
  let w ← s.word offset
  match ExprCode.ofWord? w with
  | some c => return c
  | none => throw (.invalidExprCode offset w)

/-- The offsets of `count` expressions one after another, and the offset past the last. -/
def operands (endOf : Nat → Except CodeError Nat) : Nat → Nat → Except CodeError (List Nat × Nat)
  | 0, offset => .ok ([], offset)
  | count + 1, offset => do
    let stop ← endOf offset
    let (rest, last) ← operands endOf count stop
    return (offset :: rest, last)

/-- The node at an offset and the offset past the whole expression, given the ends of expressions
further on. -/
def nodeAt (s : Script) (endOf : Nat → Except CodeError Nat) (offset : Nat) :
    Except CodeError (Node × Nat) := do
  match ← exprCode s offset with
  | .float => return (.float (← s.word (offset + 1)).toNat, offset + 2)
  | .string => return (.string (← s.word (offset + 1)).toNat, offset + 2)
  | .bool => return (.bool ((← s.word (offset + 1)) != 0), offset + 2)
  | .variable => return (.variable (← s.word (offset + 1)).toNat, offset + 2)
  | .call =>
    let name ← s.word (offset + 1)
    let awaited ← s.word (offset + 2)
    let count ← s.word (offset + 3)
    let (args, stop) ← operands endOf count.toNat (offset + 4)
    return (.call name.toNat (awaited != 0) args, stop)
  | .unary op => return (.unary op (offset + 1), ← endOf (offset + 1))
  | .speed => return (.speed (offset + 1), ← endOf (offset + 1))
  | .pause => return (.pause (offset + 1), ← endOf (offset + 1))
  | .binary op =>
    let right ← endOf (offset + 1)
    return (.binary op (offset + 1) right, ← endOf right)
  | .assign op =>
    let name ← s.word (offset + 1)
    return (.assign op name.toNat (offset + 2), ← endOf (offset + 2))
  | .goto => return (.goto (← s.word (offset + 1)).toNat, offset + 2)
  | .auto => return (.auto, offset + 1)

/-- The offset past an expression that nests less than `fuel` deep.  An expression cannot nest deeper
than there are words left, so an expression without fuel lies past the end. -/
def endWithin (s : Script) : Nat → Nat → Except CodeError Nat
  | 0, offset => .error (.unexpectedEnd offset)
  | fuel + 1, offset => do
    let (_, stop) ← nodeAt s (endWithin s fuel) offset
    return stop

end Code

open Code

/-- The offset past the expression at an offset. -/
def Script.exprEnd (s : Script) (offset : Nat) : Except CodeError Nat :=
  endWithin s (s.words.size + 1) offset

/-- The expression node at an offset, and the offset past the whole expression. -/
def Script.decodeExpr (s : Script) (offset : Nat) : Except CodeError (Node × Nat) :=
  nodeAt s (endWithin s s.words.size) offset

namespace Code

/-! ## Statements -/

/-- A speaker of a line. -/
inductive SpeakerNode where
  | id (index : Nat)
  | variable (name : Nat)
  deriving DecidableEq, Repr

/-- A stretch of shown text. -/
inductive TextNode where
  | text (index : Nat)
  | expr (offset : Nat)
  deriving DecidableEq, Repr

/-- A dialog line. -/
structure LineNode where
  next : Nat
  speakers : List SpeakerNode
  segments : List TextNode
  directives : List Nat
  deriving DecidableEq, Repr

/-- An entry of a choice: an option, or a mark of a filter around options. -/
inductive ItemNode where
  | option (next : Nat) (guard : Option Nat) (segments : List TextNode)
  | ifMarker (condition : Nat)
  | elseIf (condition : Nat)
  | elseMarker
  | endIf
  deriving DecidableEq, Repr

/-- A key and its values. -/
structure PairNode where
  key : Nat
  values : List Nat
  deriving DecidableEq, Repr

/-- A statement. -/
inductive Statement where
  | entry (next name : Nat)
  | finish
  | line (line : LineNode)
  | instruction (next expr : Nat)
  /-- The target for when no condition holds, and conditions with their targets. -/
  | conditional (otherwise : Nat) (branches : List (Nat × Nat))
  | choice (next : Nat) (items : List ItemNode)
  | hash (next : Nat) (pairs : List PairNode)
  | speaker (next speaker : Nat) (pairs : List PairNode)
  deriving DecidableEq, Repr

/-- The code of a statement. -/
def Statement.code : Statement → StatementCode
  | .entry .. => .entry
  | .finish => .finish
  | .line _ => .line
  | .instruction .. => .instruction
  | .conditional .. => .conditional
  | .choice .. => .choice
  | .hash .. => .hash
  | .speaker .. => .speaker

/-- A decoder moves an offset through a stream. -/
abbrev Decoder := StateT Nat (Except CodeError)

namespace Decoder

variable (s : Script)

/-- Read a word. -/
def word : Decoder UInt32 := fun offset => do return (← s.word offset, offset + 1)

/-- Read a place or an offset. -/
def index : Decoder Nat := do return (← word s).toNat

/-- Read a word that has a meaning in a family of codes, or fail with an error about it. -/
def coded {α : Type} (ofWord? : UInt32 → Option α) (error : Nat → UInt32 → CodeError) :
    Decoder α := do
  let offset ← get
  let w ← word s
  match ofWord? w with
  | some a => return a
  | none => throw (error offset w)

/-- Skip an expression and return its offset. -/
def expr : Decoder Nat := fun offset => do return (offset, ← s.exprEnd offset)

/-- Read a number of things one after another. -/
def many {α : Type} (r : Decoder α) : Nat → Decoder (List α)
  | 0 => return []
  | count + 1 => do
    let a ← r
    return a :: (← many r count)

/-- Read a count and as many things. -/
def counted {α : Type} (r : Decoder α) : Decoder (List α) := do many r (← index s)

/-- Read a stretch of text. -/
def segment : Decoder TextNode := do
  match ← coded s SegmentKind.ofWord? .invalidOperandKind with
  | .text => return .text (← index s)
  | .expr => return .expr (← expr s)

/-- Read a speaker. -/
def speaker : Decoder SpeakerNode := do
  match ← coded s SpeakerKind.ofWord? .invalidOperandKind with
  | .id => return .id (← index s)
  | .variable => return .variable (← index s)

/-- Read a key and its values; their number stands before the key. -/
def pair : Decoder PairNode := do
  let count ← index s
  let key ← index s
  return ⟨key, ← many (expr s) count⟩

/-- Read a condition and its target. -/
def branch : Decoder (Nat × Nat) := do
  let condition ← expr s
  return (condition, ← index s)

/-- Read a guard, if there is one. -/
def guard : Decoder (Option Nat) := do
  if (← word s) = 0 then return none else return some (← expr s)

/-- Read an entry of a choice. -/
def item : Decoder ItemNode := do
  match ← coded s ChoiceMarker.ofWord? .invalidChoiceMarker with
  | .option =>
    let next ← index s
    let guard ← guard s
    return .option next guard (← counted s (segment s))
  | .ifMarker => return .ifMarker (← expr s)
  | .elseIf => return .elseIf (← expr s)
  | .elseMarker => return .elseMarker
  | .endIf => return .endIf

/-- Read a statement. -/
def statement : Decoder Statement := do
  match ← coded s StatementCode.ofWord? .invalidStatementCode with
  | .entry =>
    let next ← index s
    return .entry next (← index s)
  | .finish => return .finish
  | .line =>
    let next ← index s
    let speakers ← counted s (speaker s)
    let segments ← counted s (segment s)
    return .line ⟨next, speakers, segments, ← counted s (expr s)⟩
  | .instruction =>
    let next ← index s
    return .instruction next (← expr s)
  | .conditional =>
    let otherwise ← index s
    return .conditional otherwise (← counted s (branch s))
  | .choice =>
    let next ← index s
    return .choice next (← counted s (item s))
  | .hash =>
    let next ← index s
    return .hash next (← counted s (pair s))
  | .speaker =>
    let next ← index s
    let speaker ← index s
    return .speaker next speaker (← counted s (pair s))

end Decoder

end Code

namespace Script

/-- The statement at an offset, and the offset past it. -/
def decodeStatement (s : Script) (offset : Nat) : Except CodeError (Statement × Nat) :=
  Decoder.statement s offset

/-- Add the sections from an offset on to a table.  Every statement takes a word, so the size of the
stream bounds their number. -/
def sectionsFrom (s : Script) : Nat → Nat → Catalog Nat → Except CodeError (Catalog Nat)
  | 0, _, table => .ok table
  | fuel + 1, offset, table =>
    if offset < s.words.size then do
      let (statement, next) ← s.decodeStatement offset
      match statement with
      | .entry _ name => sectionsFrom s fuel next (table.insert (← s.string name) offset)
      | _ => sectionsFrom s fuel next table
    else .ok table

/-- The offsets of sections by their names; of several sections of one name, the last. -/
def sectionTable (s : Script) : Except CodeError (Catalog Nat) :=
  s.sectionsFrom s.words.size 0 ∅

end Script

end Colloquy
