import Colloquy.Json.Record
import Colloquy.Json.Reader
import Colloquy.Json.Printer

/-!
# Values

What a script computes with: truth values, floats, texts, and nothing.  The kinds of values are the
types of the language; `undefined` is the kind of an expression that could not be checked and is the
kind of no value.
-/

namespace Colloquy

/-- The kinds of values. -/
inductive Kind where
  /-- The kind of an expression that failed to check. -/
  | undefined
  | void
  | bool
  | float
  | string
  deriving DecidableEq, Repr, Inhabited

namespace Kind

/-- The name of a kind in registries. -/
def name : Kind → String
  | .undefined => "undefined"
  | .void => "void"
  | .bool => "bool"
  | .float => "float"
  | .string => "string"

/-- All kinds. -/
def all : List Kind := [.undefined, .void, .bool, .float, .string]

/-- The kind of a name. -/
def ofName? (s : String) : Option Kind := all.find? fun k => k.name == s

/-- A kind in a sentence. -/
def phrase : Kind → String
  | .undefined => "an undefined value"
  | .void => "void"
  | .bool => "a bool"
  | .float => "a float"
  | .string => "a string"

/-- Whether a kind is the kind of some value. -/
def isDefined (k : Kind) : Bool := k != .undefined

/-- A kind in a document: its name, or an object with the name as its only key and `null` under it. -/
def ofJson? : Json → Option Kind
  | .string s => ofName? s
  | .object [(s, .null)] => ofName? s
  | _ => none

end Kind

/-- A value of a script. -/
inductive Value where
  | bool (value : Bool)
  | float (value : Float)
  | string (value : String)
  | void
  deriving DecidableEq, Repr, Inhabited

/-- A value of another kind than the one needed. -/
structure KindMismatch where
  expected : Kind
  actual : Kind
  deriving DecidableEq, Repr

/-- A mismatch in a sentence. -/
def KindMismatch.message (m : KindMismatch) : String :=
  "Expected " ++ m.expected.phrase ++ ", but found " ++ m.actual.phrase

namespace Value

/-- The kind of a value. -/
def kind : Value → Kind
  | .bool _ => .bool
  | .float _ => .float
  | .string _ => .string
  | .void => .void

/-- The truth value of a value. -/
def asBool : Value → Except KindMismatch Bool
  | .bool b => .ok b
  | v => .error ⟨.bool, v.kind⟩

/-- The float of a value. -/
def asFloat : Value → Except KindMismatch Float
  | .float x => .ok x
  | v => .error ⟨.float, v.kind⟩

/-- The text of a value. -/
def asString : Value → Except KindMismatch String
  | .string s => .ok s
  | v => .error ⟨.string, v.kind⟩

/-- Whether two values are equal to a script: floats as numbers, so zeros are equal whatever their
signs, and what is not a number equals nothing. -/
def same : Value → Value → Bool
  | .bool a, .bool b => a == b
  | .float x, .float y => x == y
  | .string s, .string t => s == t
  | .void, .void => true
  | _, _ => false

/-- A value as shown in a line; nothing is shown for void. -/
def text : Value → String
  | .bool true => "true"
  | .bool false => "false"
  | .float x => Number.plain x
  | .string s => s
  | .void => ""

/-- The value a variable of a kind holds before anything is stored in it. -/
def zero : Kind → Value
  | .float => .float 0.0
  | .bool => .bool false
  | .string => .string ""
  | .void | .undefined => .void

/-! ## Values in documents -/

/-- A value as a document. -/
def toJson : Value → Json
  | .bool b => .bool b
  | .float x => .ofFloat x
  | .string s => .string s
  | .void => .null

/-- The value of a document that is neither an array nor an object. -/
def ofJson? : Json → Option Value
  | .bool b => some (.bool b)
  | .number n => n.toFloat?.map .float
  | .string s => some (.string s)
  | .null => some .void
  | _ => none

end Value

end Colloquy
