import Colloquy.Story.Basic

/-!
# Opcodes

A compiled script is a stream of 32-bit words.  What a word means depends on where it stands: it may
open a statement or an expression, or tell what kind of operand follows.  Each family of codes is
numbered from zero in the order of its table.
-/

namespace Colloquy.Code

/-- The code at a place in a table, or nothing beyond its end. -/
def ofTable? {α : Type} (table : List α) (word : UInt32) : Option α := table[word.toNat]?

/-- The place of a code in its table. -/
def toTable {α : Type} [DecidableEq α] (table : List α) (code : α) : UInt32 :=
  UInt32.ofNat (table.idxOf code)

/-! ## Statements -/

/-- First words of statements. -/
inductive StatementCode where
  | entry
  | finish
  | line
  | instruction
  | conditional
  | choice
  | hash
  | speaker
  deriving DecidableEq, Repr

namespace StatementCode

/-- The codes in the order of their words. -/
def table : List StatementCode :=
  [.entry, .finish, .line, .instruction, .conditional, .choice, .hash, .speaker]

/-- The word of a code. -/
def word (c : StatementCode) : UInt32 := toTable table c

/-- The code of a word. -/
def ofWord? (w : UInt32) : Option StatementCode := ofTable? table w

/-- The name of a code in listings. -/
def name : StatementCode → String
  | .entry => "Section"
  | .finish => "End"
  | .line => "Line"
  | .instruction => "Instruction"
  | .conditional => "Conditional"
  | .choice => "Choice"
  | .hash => "Hash"
  | .speaker => "Speaker"

/-- Every statement code is read back from its word. -/
theorem ofWord?_word (c : StatementCode) : ofWord? c.word = some c := by
  cases c <;> decide

end StatementCode

/-! ## Expressions -/

/-- First words of expressions. -/
inductive ExprCode where
  | float
  | string
  | bool
  | variable
  | call
  | unary (op : UnaryOp)
  | binary (op : BinaryOp)
  | assign (op : AssignOp)
  | auto
  | goto
  | speed
  | pause
  deriving DecidableEq, Repr

namespace ExprCode

/-- The codes in the order of their words. -/
def table : List ExprCode :=
  [.float, .string, .bool, .variable, .call, .unary .negate, .unary .not,
   .binary .add, .binary .sub, .binary .mul, .binary .div, .binary .mod,
   .binary .equal, .binary .notEqual, .binary .less, .binary .lessEqual,
   .binary .greater, .binary .greaterEqual, .binary .and, .binary .or,
   .assign .set, .assign .add, .assign .sub, .assign .mul, .assign .div,
   .auto, .goto, .speed, .pause]

/-- The word of a code. -/
def word (c : ExprCode) : UInt32 := toTable table c

/-- The code of a word. -/
def ofWord? (w : UInt32) : Option ExprCode := ofTable? table w

/-- The name of a code. -/
def name : ExprCode → String
  | .float => "Float"
  | .string => "String"
  | .bool => "Bool"
  | .variable => "Var"
  | .call => "Func"
  | .unary .negate => "Negate"
  | .unary .not => "Not"
  | .binary .add => "Add"
  | .binary .sub => "Sub"
  | .binary .mul => "Mul"
  | .binary .div => "Div"
  | .binary .mod => "Mod"
  | .binary .equal => "Equal"
  | .binary .notEqual => "NotEqual"
  | .binary .less => "Less"
  | .binary .lessEqual => "LessEqual"
  | .binary .greater => "Greater"
  | .binary .greaterEqual => "GreaterEqual"
  | .binary .and => "And"
  | .binary .or => "Or"
  | .assign .set => "Assign"
  | .assign .add => "AddAssign"
  | .assign .sub => "SubAssign"
  | .assign .mul => "MulAssign"
  | .assign .div => "DivAssign"
  | .auto => "Auto"
  | .goto => "Goto"
  | .speed => "Speed"
  | .pause => "Pause"

/-- Whether a code has two operands. -/
def isBinary : ExprCode → Bool
  | .binary _ => true
  | _ => false

/-- Whether a code assigns to a variable. -/
def isAssignment : ExprCode → Bool
  | .assign _ => true
  | _ => false

/-- The operator of a code in listings; codes that are no operators show their names. -/
def symbol : ExprCode → String
  | .unary .negate | .binary .sub => "-"
  | .unary .not => "!"
  | .binary .add => "+"
  | .binary .mul => "*"
  | .binary .div => "/"
  | .binary .mod => "%"
  | .binary .equal => "=="
  | .binary .notEqual => "!="
  | .binary .less => "<"
  | .binary .lessEqual => "<="
  | .binary .greater => ">"
  | .binary .greaterEqual => ">="
  | .binary .and => "and"
  | .binary .or => "or"
  | .assign .set => "="
  | .assign .add => "+="
  | .assign .sub => "-="
  | .assign .mul => "*="
  | .assign .div => "/="
  | c => c.name

/-! Listings write operators as stories do. -/

/-- The code of a unary operator is written as the operator is. -/
theorem symbol_unary (op : UnaryOp) : (unary op).symbol = op.symbol := by
  cases op <;> rfl

/-- So is that of a binary operator. -/
theorem symbol_binary (op : BinaryOp) : (binary op).symbol = op.symbol := by
  cases op <;> rfl

/-- So is that of an assignment. -/
theorem symbol_assign (op : AssignOp) : (assign op).symbol = op.symbol := by
  cases op <;> rfl

/-- Every expression code is read back from its word. -/
theorem ofWord?_word (c : ExprCode) : ofWord? c.word = some c := by
  rcases c with _ | _ | _ | _ | _ | op | op | op | _ | _ | _ | _ <;> first
    | decide
    | (cases op <;> decide)

end ExprCode

/-! ## Operands -/

/-- Entries of a choice's list of items. -/
inductive ChoiceMarker where
  | option
  | ifMarker
  | elseIf
  | elseMarker
  | endIf
  deriving DecidableEq, Repr

namespace ChoiceMarker

/-- The markers in the order of their words. -/
def table : List ChoiceMarker := [.option, .ifMarker, .elseIf, .elseMarker, .endIf]

/-- The word of a marker. -/
def word (c : ChoiceMarker) : UInt32 := toTable table c

/-- The marker of a word. -/
def ofWord? (w : UInt32) : Option ChoiceMarker := ofTable? table w

/-- The name of a marker. -/
def name : ChoiceMarker → String
  | .option => "Option"
  | .ifMarker => "If"
  | .elseIf => "ElseIf"
  | .elseMarker => "Else"
  | .endIf => "EndIf"

/-- Every marker of a choice is read back from its word. -/
theorem ofWord?_word (c : ChoiceMarker) : ofWord? c.word = some c := by
  cases c <;> decide

end ChoiceMarker

/-- Ways of naming a speaker. -/
inductive SpeakerKind where
  /-- A place in the pool of speakers. -/
  | id
  /-- A place in the pool of texts, with the name of a variable. -/
  | variable
  deriving DecidableEq, Repr

namespace SpeakerKind

/-- The kinds in the order of their words. -/
def table : List SpeakerKind := [.id, .variable]

/-- The word of a kind. -/
def word (c : SpeakerKind) : UInt32 := toTable table c

/-- The kind of a word. -/
def ofWord? (w : UInt32) : Option SpeakerKind := ofTable? table w

/-- The name of a kind. -/
def name : SpeakerKind → String
  | .id => "Id"
  | .variable => "Variable"

/-- Every kind of speaker is read back from its word. -/
theorem ofWord?_word (c : SpeakerKind) : ofWord? c.word = some c := by
  cases c <;> decide

end SpeakerKind

/-- Stretches of shown text. -/
inductive SegmentKind where
  | text
  | expr
  deriving DecidableEq, Repr

namespace SegmentKind

/-- The kinds in the order of their words. -/
def table : List SegmentKind := [.text, .expr]

/-- The word of a kind. -/
def word (c : SegmentKind) : UInt32 := toTable table c

/-- The kind of a word. -/
def ofWord? (w : UInt32) : Option SegmentKind := ofTable? table w

/-- The name of a kind. -/
def name : SegmentKind → String
  | .text => "Text"
  | .expr => "Expr"

/-- Every kind of text is read back from its word. -/
theorem ofWord?_word (c : SegmentKind) : ofWord? c.word = some c := by
  cases c <;> decide

end SegmentKind

end Colloquy.Code
