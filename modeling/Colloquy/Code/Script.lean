import Colloquy.Json.Printer
import Colloquy.Json.Reader
import Colloquy.Json.Record

/-!
# Compiled scripts

A compiled script is a stream of words and three pools of literals that the words point into.  It is
stored as a JSON document that keeps the order of all four sequences, so that places in them mean the
same after loading.
-/

namespace Colloquy

/-- A compiled script. -/
structure Script where
  speakers : Array String
  floats : Array Float
  strings : Array String
  words : Array UInt32
  deriving DecidableEq, Repr, Inhabited

/-- The pools of literals. -/
inductive PoolName where
  | speakers
  | floats
  | strings
  deriving DecidableEq, Repr

/-- The name of a pool in messages. -/
def PoolName.text : PoolName → String
  | .speakers => "SpeakerIds"
  | .floats => "Floats"
  | .strings => "Strings"

/-- What makes a stream unreadable. -/
inductive CodeError where
  | unexpectedEnd (offset : Nat)
  | invalidStatementCode (offset : Nat) (word : UInt32)
  | invalidExprCode (offset : Nat) (word : UInt32)
  | invalidChoiceMarker (offset : Nat) (word : UInt32)
  | invalidOperandKind (offset : Nat) (word : UInt32)
  | invalidPoolIndex (pool : PoolName) (index : Nat)
  deriving DecidableEq, Repr

/-- A read error in a sentence. -/
def CodeError.message : CodeError → String
  | .unexpectedEnd offset => s!"Unexpected end of code at index {offset}"
  | .invalidStatementCode offset word => s!"Unexpected statement code {word} at index {offset}"
  | .invalidExprCode offset word => s!"Unexpected expression code {word} at index {offset}"
  | .invalidChoiceMarker offset word => s!"Unexpected choice marker {word} at index {offset}"
  | .invalidOperandKind offset word => s!"Unexpected operand kind {word} at index {offset}"
  | .invalidPoolIndex pool index =>
    let name := pool.text
    s!"Unknown {name} entry {index}"

namespace Script

/-- The script without words and literals. -/
def empty : Script := ⟨#[], #[], #[], #[]⟩

/-- The word at an offset. -/
def word (s : Script) (offset : Nat) : Except CodeError UInt32 :=
  match s.words[offset]? with
  | some w => .ok w
  | none => .error (.unexpectedEnd offset)

/-- The speaker at a place of the pool. -/
def speaker (s : Script) (index : Nat) : Except CodeError String :=
  match s.speakers[index]? with
  | some x => .ok x
  | none => .error (.invalidPoolIndex .speakers index)

/-- The float at a place of the pool. -/
def float (s : Script) (index : Nat) : Except CodeError Float :=
  match s.floats[index]? with
  | some x => .ok x
  | none => .error (.invalidPoolIndex .floats index)

/-- The text at a place of the pool. -/
def string (s : Script) (index : Nat) : Except CodeError String :=
  match s.strings[index]? with
  | some x => .ok x
  | none => .error (.invalidPoolIndex .strings index)

/-! ## Artifacts -/

/-- A script as a document. -/
def toJson (s : Script) : Json :=
  .object [("speaker_ids", .array (s.speakers.toList.map .string)),
    ("floats", .array (s.floats.toList.map .ofFloat)),
    ("strings", .array (s.strings.toList.map .string)),
    ("instructions", .array (s.words.toList.map fun w => .ofNat w.toNat))]

/-- A word: a natural number below `2 ^ 32`. -/
def wordOfJson? : Json → Option UInt32
  | .number n => (n.toNat? UInt32.size).map UInt32.ofNat
  | _ => none

/-- The script of a document; all four sequences must be there. -/
def ofJson? (j : Json) : Option Script := do
  match ← j.record? ["speaker_ids", "floats", "strings", "instructions"] with
  | [some speakers, some floats, some strings, some words] =>
    return ⟨(← speakers.asListOf? Json.asString?).toArray, (← floats.asListOf? Json.asFloat?).toArray,
      (← strings.asListOf? Json.asString?).toArray, (← words.asListOf? wordOfJson?).toArray⟩
  | _ => none

/-- The text of a stored script. -/
def render (s : Script) : String := s.toJson.pretty

/-- Load a stored script. -/
def parse? (text : String) : Option Script := do ofJson? (← Json.parse? text)

/-- Whether two scripts are the same, with their floats compared as numbers. -/
def same (s t : Script) : Bool :=
  s.speakers == t.speakers && s.floats == t.floats && s.strings == t.strings && s.words == t.words

end Script

end Colloquy
