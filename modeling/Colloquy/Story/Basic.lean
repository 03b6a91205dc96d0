import Colloquy.Source.Span

/-!
# Stories

What a script says: sections of statements, with the spans they were written at.  A statement that
holds statements holds them in lists (`Block`): the branches of a conditional, the bodies of options.
A choice holds items: options, and filters that select which options are offered without splitting
the flow of the story.
-/

namespace Colloquy

/-- A name and where it stands. -/
structure Ident where
  name : String
  span : Span
  deriving DecidableEq, Repr

/-! ## Expressions -/

/-- Operators with one operand. -/
inductive UnaryOp where
  | not
  | negate
  deriving DecidableEq, Repr

/-- How an operator is written. -/
def UnaryOp.symbol : UnaryOp → String
  | .not => "!"
  | .negate => "-"

/-- Operators with two operands. -/
inductive BinaryOp where
  | add | sub | mul | div | mod
  | equal | notEqual
  | less | lessEqual | greater | greaterEqual
  | and | or
  deriving DecidableEq, Repr

/-- How an operator is written. -/
def BinaryOp.symbol : BinaryOp → String
  | .add => "+"
  | .sub => "-"
  | .mul => "*"
  | .div => "/"
  | .mod => "%"
  | .equal => "=="
  | .notEqual => "!="
  | .less => "<"
  | .lessEqual => "<="
  | .greater => ">"
  | .greaterEqual => ">="
  | .and => "and"
  | .or => "or"

/-- Ways of assigning to a variable. -/
inductive AssignOp where
  | set | add | sub | mul | div
  deriving DecidableEq, Repr

/-- How an assignment is written. -/
def AssignOp.symbol : AssignOp → String
  | .set => "="
  | .add => "+="
  | .sub => "-="
  | .mul => "*="
  | .div => "/="

/-- Values written in a script. -/
inductive Literal where
  | float (value : Float)
  | string (value : String)
  | bool (value : Bool)
  deriving DecidableEq, Repr

/-- Expressions. -/
inductive Expr where
  | literal (value : Literal) (span : Span)
  | variable (name : Ident)
  | unary (op : Spanned UnaryOp) (operand : Expr)
  | binary (op : Spanned BinaryOp) (left right : Expr)
  | assign (target : Ident) (op : Spanned AssignOp) (value : Expr)
  /-- An expression between parentheses. -/
  | group (inner : Expr)
  /-- A call; an awaited one has the span of its `await`. -/
  | call (callee : Ident) (args : List Expr) (awaited : Option Span) (close : Span)
  deriving Repr

/-- The span of an expression.  Parentheses around it do not count. -/
def Expr.span : Expr → Span
  | .literal _ s => s
  | .variable x => x.span
  | .unary op e => .range op.span.start e.span.stop
  | .binary _ l r => .range l.span.start r.span.stop
  | .assign x _ e => .range x.span.start e.span.stop
  | .group e => e.span
  | .call f _ awaited close => .range (awaited.getD f.span).start close.stop

/-! ## Parts of lines -/

/-- A speaker of a line: a fixed one, or the one a variable holds. -/
inductive SpeakerRef where
  | named (name : Ident)
  | variable (name : Ident)
  deriving DecidableEq, Repr

/-- The name in a speaker. -/
def SpeakerRef.ident : SpeakerRef → Ident
  | .named x => x
  | .variable x => x

/-- A stretch of line text: fixed text, or an expression whose value is shown. -/
inductive Segment where
  | text (text : Spanned String)
  | placeholder (expr : Expr)
  deriving Repr

/-- What a line asks for besides being shown. -/
inductive Directive where
  | auto
  | speed (expr : Expr)
  | pause (expr : Expr)
  | goto (target : Ident)
  deriving Repr

/-- A key of hash data with the values written after it; without any it is a flag. -/
structure HashEntry where
  key : Ident
  values : List Expr
  deriving Repr

/-- Hash data between `#{` and `}`. -/
structure HashBlock where
  entries : List HashEntry
  span : Span
  deriving Repr

/-- A line of dialog. -/
structure Line where
  speakers : List SpeakerRef
  text : List Segment
  directives : List (Spanned Directive)
  hash : Option HashBlock
  span : Span
  deriving Repr

/-! ## Statements -/

mutual

/-- Statements. -/
inductive Stmt where
  | line (line : Line)
  | instruction (expr : Expr)
  | goto (target : Ident)
  /-- The end of the script. -/
  | finish (span : Span)
  /-- The body of the first branch whose condition holds, or the one of `else`. -/
  | conditional (branches : List (Expr × List Stmt)) (otherwise : Option (List Stmt)) (span : Span)
  | choice (items : List ChoiceItem) (span : Span)
  | hash (hash : HashBlock)
  | speaker (name : Ident) (hash : HashBlock) (span : Span)

/-- Entries of a choice. -/
inductive ChoiceItem where
  /-- An option: enabled if its guard holds, it leads through its body to its target. -/
  | option (guard : Option Expr) (text : List Segment) (target : Option Ident)
      (body : Option (List Stmt)) (span : Span)
  /-- The items of the first branch whose condition holds, or the ones of `else`. -/
  | filter (branches : List (Expr × List ChoiceItem)) (otherwise : Option (List ChoiceItem))
      (span : Span)

end

/-- Statements in order. -/
abbrev Block := List Stmt

/-- The span of a statement. -/
def Stmt.span : Stmt → Span
  | .line l => l.span
  | .instruction e => e.span
  | .goto x => x.span
  | .finish s => s
  | .conditional _ _ s => s
  | .choice _ s => s
  | .hash h => h.span
  | .speaker _ _ s => s

/-- Whether control never goes on to the statement after this one. -/
def Stmt.isTerminal : Stmt → Bool
  | .goto _ | .finish _ => true
  | _ => false

/-- A named section. -/
structure Section where
  name : Ident
  header : Span
  body : Block

/-- A script as a list of sections. -/
abbrev Story := List Section

end Colloquy
