import Colloquy.Story.Basic
import Colloquy.Token.Basic

/-!
# Parsing: cursors and errors

A parser reads tokens from a cursor and either returns a result or stops with an error; in both cases
the cursor stays where it got to, so that a broken line can be skipped from there (`recover`).  The
token that ends the source is looked at and never taken.

Parsers that repeat something are given a bound on their steps.  Reaching it is not an error that could
be recovered from.
-/

namespace Colloquy

/-- What a parser refuses, and where. -/
inductive ParseError where
  | unmatchedParenthesis (opener : Span) (found : LexemeKind) (foundAt : Span)
  | unclosedBrace (opener : Span) (found : LexemeKind) (foundAt : Span)
  | expectedEndOfLine (found : LexemeKind) (foundAt : Span)
  | unexpectedExpressionToken (found : LexemeKind) (foundAt : Span)
  | unexpectedStatementToken (found : LexemeKind) (foundAt : Span)
  | unexpectedToken (found expected : LexemeKind) (foundAt : Span)
  | invalidAssignmentTarget (foundAt : Span)
  | awaitWithoutCall (foundAt : Span)
  | unknownDirective (name : String) (foundAt : Span)
  | optionOutsideChoice (foundAt : Span)
  | statementOutsideSection (foundAt : Span)
  deriving DecidableEq, Repr

/-- A parse error in a sentence. -/
def ParseError.message : ParseError → String
  | .unmatchedParenthesis .. => "Expected closing parenthesis"
  | .unclosedBrace .. => "Expected a closing brace"
  | .expectedEndOfLine .. => "Expected the end of the line"
  | .unexpectedExpressionToken .. => "Unexpected token in expression"
  | .unexpectedStatementToken .. => "Unexpected token at the start of a statement"
  | .unexpectedToken .. => "Unexpected token"
  | .invalidAssignmentTarget _ => "Invalid assignment target"
  | .awaitWithoutCall _ => "Only function calls can be awaited"
  | .unknownDirective name _ => "Unknown directive " ++ Text.quoted name
  | .optionOutsideChoice _ => "Choice option outside of a choice block"
  | .statementOutsideSection _ => "Statement outside of a section"

/-- A place in a list of tokens: those left, the one taken last, and the errors recovered from. -/
structure Cursor where
  rest : List Token
  last : Token
  errors : List ParseError
  deriving DecidableEq, Repr

namespace Cursor

/-- The place before the first token. -/
def start (tokens : List Token) : Cursor := ⟨tokens, ⟨.mark .endOfFile, ⟨0, 0⟩⟩, []⟩

/-- The next token; after all of them, the one taken last. -/
def next (c : Cursor) : Token := c.rest.headD c.last

/-- Take the next token. -/
def advance (c : Cursor) : Cursor :=
  match c.rest with
  | [] => c
  | t :: ts => { c with rest := ts, last := t }

/-- Record an error. -/
def report (c : Cursor) (e : ParseError) : Cursor := { c with errors := c.errors ++ [e] }

/-- The place after the line breaks in front. -/
def skipBreaks (errors : List ParseError) : Token → List Token → Cursor
  | last, [] => ⟨[], last, errors⟩
  | last, t :: ts => if t.is .newline then skipBreaks errors t ts else ⟨t :: ts, last, errors⟩

/-- The place after the next line break, or before a section or the end of the source if that comes
first. -/
def skipLine (errors : List ParseError) : Token → List Token → Cursor
  | last, [] => ⟨[], last, errors⟩
  | last, t :: ts =>
    if t.is .endOfFile || t.is .sectionMarker then ⟨t :: ts, last, errors⟩
    else if t.is .newline then ⟨ts, t, errors⟩
    else skipLine errors t ts

end Cursor

/-- Why a parser stops without a result: it refuses what it reads, or it is given too few steps. -/
inductive Halt where
  | error (e : ParseError)
  | exhausted
  deriving DecidableEq, Repr

/-- A parser. -/
abbrev Parse := EStateM Halt Cursor

namespace Parse

/-- Stop with an error. -/
def fail {α : Type} (e : ParseError) : Parse α := throw (.error e)

/-- Stop for want of steps. -/
def exhausted {α : Type} : Parse α := throw .exhausted

/-- Look at the next token. -/
def peek : Parse Token := fun c => .ok c.next c

/-- The span of the token taken last. -/
def lastSpan : Parse Span := fun c => .ok c.last.span c

/-- Take the next token. -/
def advance : Parse Unit := fun c => .ok () c.advance

/-- Take the next token if something can be made of it. -/
def accept? {α : Type} (f : Token → Option α) : Parse (Option α) := fun c =>
  match c.rest.head?.bind f with
  | some a => .ok (some a) c.advance
  | none => .ok none c

/-- Take the next token if it is the given mark. -/
def accept (m : Mark) : Parse (Option Span) := accept? fun t => if t.is m then some t.span else none

/-- Take the given mark or stop with an error about the token in its place. -/
def expect (m : Mark) (error : Token → ParseError) : Parse Span := do
  match ← accept m with
  | some span => return span
  | none => fail (error (← peek))

/-- Take the given mark; any other token is unexpected. -/
def require (m : Mark) : Parse Span :=
  expect m fun t => .unexpectedToken t.lexeme.kind (.mark m) t.span

/-- Take the brace that closes the one at `opener`. -/
def closeBrace (opener : Span) : Parse Span :=
  expect .closeBrace fun t => .unclosedBrace opener t.lexeme.kind t.span

/-- Take the parenthesis that closes the one at `opener`. -/
def closeParen (opener : Span) : Parse Span :=
  expect .closeParen fun t => .unmatchedParenthesis opener t.lexeme.kind t.span

/-- Take the end of a line; the end of the source ends one too and stays. -/
def lineEnd : Parse Unit := do
  let t ← peek
  if t.is .endOfFile then return
  else if t.is .newline then advance
  else fail (.expectedEndOfLine t.lexeme.kind t.span)

/-- Skip line breaks. -/
def skipBreaks : Parse Unit := fun c => .ok () (.skipBreaks c.errors c.last c.rest)

/-- Record an error. -/
def report (e : ParseError) : Parse Unit := fun c => .ok () (c.report e)

/-- Run a parser; if it stops, record why and skip the rest of the line it stopped in. -/
def recover {α : Type} (p : Parse α) : Parse (Option α) := fun c =>
  match p c with
  | .ok a c => .ok (some a) c
  | .error (.error e) c => .ok none (.skipLine (c.errors ++ [e]) c.last c.rest)
  | .error .exhausted c => .error .exhausted c

/-- A name. -/
def ident : Parse Ident := do
  let t ← peek
  match t.lexeme with
  | .identifier name => advance; return ⟨name, t.span⟩
  | other => fail (.unexpectedToken other.kind .identifier t.span)

/-- The word of a keyword. -/
def keywordText? : Mark → Option String
  | .endWord => some "end"
  | .choiceWord => some "choice"
  | .speakerWord => some "speaker"
  | .ifWord => some "if"
  | .elseWord => some "else"
  | .gotoWord => some "goto"
  | .awaitWord => some "await"
  | .andWord => some "and"
  | .orWord => some "or"
  | .trueWord => some "true"
  | .falseWord => some "false"
  | _ => none

/-- The name of a section, which may be a keyword. -/
def sectionName : Parse Ident := do
  let keyword ← accept? fun t => match t.lexeme with
    | .mark m => (keywordText? m).map fun word => ⟨word, t.span⟩
    | _ => none
  match keyword with
  | some x => return x
  | none => ident

end Parse

end Colloquy
