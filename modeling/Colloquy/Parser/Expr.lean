import Colloquy.Parser.Basic

/-!
# Parsing expressions

The grammar is stratified: each level of binary operators binds tighter than the one before it, and
all of them associate to the left.  A level is a parser built from the parser of the next level
(`chain`), with the unary operators and the primary expressions at the bottom.

An expression inside an expression comes after at least one token, so the number of tokens left
bounds how deep expressions nest, how long chains grow and how many arguments follow.  With this bound no
parser stops for want of steps.
-/

namespace Colloquy.Parse

/-- The operators of a level. -/
abbrev Level := Mark → Option BinaryOp

/-- The levels of binary operators, the loosest first. -/
def levels : List Level :=
  [fun
    | .orWord => some .or
    | _ => none,
   fun
    | .andWord => some .and
    | _ => none,
   fun
    | .bangEqual => some .notEqual
    | .equalEqual => some .equal
    | _ => none,
   fun
    | .less => some .less
    | .lessEqual => some .lessEqual
    | .greater => some .greater
    | .greaterEqual => some .greaterEqual
    | _ => none,
   fun
    | .minus => some .sub
    | .plus => some .add
    | _ => none,
   fun
    | .star => some .mul
    | .slash => some .div
    | .percent => some .mod
    | _ => none]

/-- The unary operators. -/
def unaryOp? : Mark → Option UnaryOp
  | .minus => some .negate
  | .bang => some .not
  | _ => none

/-- The assignments. -/
def assignOp? : Mark → Option AssignOp
  | .equal => some .set
  | .plusEqual => some .add
  | .minusEqual => some .sub
  | .starEqual => some .mul
  | .slashEqual => some .div
  | _ => none

/-- Take an operator. -/
def operator {α : Type} (f : Mark → Option α) : Parse (Option (Spanned α)) :=
  accept? fun t => match t.lexeme with
    | .mark m => (f m).map fun op => ⟨op, t.span⟩
    | _ => none

/-- Operators of a level and their right operands, after a left one. -/
def chainRest (level : Level) (operand : Parse Expr) : Nat → Expr → Parse Expr
  | 0, _ => exhausted
  | fuel + 1, left => do
    match ← operator level with
    | none => return left
    | some op =>
      let right ← operand
      chainRest level operand fuel (.binary op left right)

/-- Operands separated by operators of a level. -/
def chain (fuel : Nat) (level : Level) (operand : Parse Expr) : Parse Expr := do
  let first ← operand
  chainRest level operand fuel first

/-- Unary operators in front of a primary expression. -/
def unary (primary : Parse Expr) : Nat → Parse Expr
  | 0 => exhausted
  | fuel + 1 => do
    match ← operator unaryOp? with
    | some op => return .unary op (← unary primary fuel)
    | none => primary

/-- The literal of a token. -/
def literal? (t : Token) : Option Expr :=
  match t.lexeme with
  | .mark .falseWord => some (.literal (.bool false) t.span)
  | .mark .trueWord => some (.literal (.bool true) t.span)
  | .number x => some (.literal (.float x) t.span)
  | .string s => some (.literal (.string s) t.span)
  | _ => none

/-- The name of a token. -/
def ident? (t : Token) : Option Ident :=
  match t.lexeme with
  | .identifier name => some ⟨name, t.span⟩
  | _ => none

/-- One or more arguments. -/
def arguments (expr : Parse Expr) : Nat → Parse (List Expr)
  | 0 => exhausted
  | fuel + 1 => do
    let e ← expr
    match ← accept .comma with
    | none => return [e]
    | some _ => return e :: (← arguments expr fuel)

/-- The rest of a call after its opening parenthesis. -/
def call (fuel : Nat) (expr : Parse Expr) (callee : Ident) (awaited : Option Span) :
    Parse Expr := do
  let opener ← lastSpan
  match ← accept .closeParen with
  | some close => return .call callee [] awaited close
  | none =>
    let args ← arguments expr fuel
    let close ← closeParen opener
    return .call callee args awaited close

/-- The expressions that bind tightest: literals, calls, variables and parentheses. -/
def primary (fuel : Nat) (expr : Parse Expr) : Parse Expr := do
  if let some e ← accept? literal? then return e
  if let some awaited ← accept .awaitWord then
    let callee ← ident
    match ← accept .openParen with
    | none => fail (.awaitWithoutCall (awaited.cover callee.span))
    | some _ => call fuel expr callee (some awaited)
  else if let some x ← accept? ident? then
    match ← accept .openParen with
    | some _ => call fuel expr x none
    | none => return .variable x
  else if let some opener ← accept .openParen then
    let e ← expr
    let _ ← closeParen opener
    return .group e
  else
    let t ← peek
    fail (.unexpectedExpressionToken t.lexeme.kind t.span)

/-- An expression of the given levels over a parser of operands. -/
def climb (fuel : Nat) (levels : List Level) (operand : Parse Expr) : Parse Expr :=
  levels.foldr (chain fuel) operand

/-- An expression, with at most `fuel` tokens left. -/
def expr : Nat → Parse Expr
  | 0 => exhausted
  | fuel + 1 => climb fuel levels (unary (primary fuel (expr fuel)) (fuel + 1))

/-- The expression of an instruction, which may be an assignment. -/
def instruction (fuel : Nat) : Parse Expr := do
  let left ← expr fuel
  match ← operator assignOp? with
  | none => return left
  | some op =>
    let value ← expr fuel
    match left with
    | .variable target => return .assign target op value
    | other => fail (.invalidAssignmentTarget other.span)

end Colloquy.Parse
