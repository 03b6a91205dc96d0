import Colloquy.Parser.Line
import Colloquy.Token.Scan

/-!
# Parsing stories

Statements, choices and sections.  A statement that cannot be parsed is reported and the rest of its
line skipped; the block it stands in goes on with the next line.  Blocks end at a section marker, at
the end of the source, and, between braces, at the closing brace.

Every statement takes at least one token, as does every brace a block stands in, so the number of
tokens left bounds both the length of blocks and their nesting.  It is the bound that `parseTokens` gives.
-/

namespace Colloquy.Parse

/-! ## Lists of statements and items -/

/-- Parse one after another until `stop` holds of the next token, going on after errors. -/
def many {α : Type} (stop : Token → Bool) (p : Parse α) : Nat → Parse (List α)
  | 0 => exhausted
  | fuel + 1 => do
    skipBreaks
    if stop (← peek) then return []
    else
      let a ← recover p
      return a.toList ++ (← many stop p fuel)

/-- Whether a token ends every block. -/
def endsSection (t : Token) : Bool := t.is .endOfFile || t.is .sectionMarker

/-- Whether a token ends a block between braces. -/
def endsBraces (t : Token) : Bool := endsSection t || t.is .closeBrace

/-- Something in lines of its own between braces. -/
def braces {α : Type} (p : Parse α) : Parse α := do
  let opener ← require .openBrace
  lineEnd
  let a ← p
  let _ ← closeBrace opener
  return a

/-- Branches of `if`, `else if` and `else`, after the first `if`: one, and at most `fuel` more. -/
def branches {α : Type} (condition : Parse Expr) (body : Parse α) (fuel : Nat) :
    Parse (List (Expr × α) × Option α) := do
  let e ← condition
  let a ← braces body
  match ← accept .elseWord with
  | none => return ([(e, a)], none)
  | some _ =>
    match ← accept .ifWord with
    | none => return ([(e, a)], some (← braces body))
    | some _ =>
      match fuel with
      | 0 => exhausted
      | fuel + 1 =>
        let (more, otherwise) ← branches condition body fuel
        return ((e, a) :: more, otherwise)

/-- The guard of an option between brackets, if there is one. -/
def optionGuard (expr : Parse Expr) : Parse (Option Expr) := do
  match ← accept .openBracket with
  | some _ =>
    let e ← expr
    let _ ← require .closeBracket
    return some e
  | none => return none

/-- The target of an option and the brace that opens its body.  If the brace follows the text of the
option, there is no target. -/
def optionTarget : Option Span → Parse (Option Ident × Option Span)
  | some opener => return (none, some opener)
  | none => do
    match ← accept .arrow with
    | some _ =>
      let target ← sectionName
      return (some target, ← accept .openBrace)
    | none => return (none, none)

/-- The body of an option after the brace that opens it. -/
def optionBody {α : Type} (body : Parse α) : Option Span → Parse (Option α)
  | some opener => do
    lineEnd
    let a ← body
    let _ ← closeBrace opener
    return some a
  | none => return none

mutual

/-- A statement and the end of its line. -/
def stmt : Nat → Parse Stmt
  | 0 => exhausted
  | fuel + 1 => do
    let t ← peek
    let s ← match t.lexeme with
      | .mark .tilde => do
        advance
        pure (.instruction (← instruction fuel))
      | .mark .gotoWord | .mark .arrow => do
        advance
        pure (.goto (← sectionName))
      | .mark .endWord => do
        advance
        pure (.finish t.span)
      | .mark .ifWord => do
        advance
        let (bs, otherwise) ← branches (expr fuel) (many endsBraces (stmt fuel) fuel) fuel
        pure (.conditional bs otherwise (t.span.cover (← lastSpan)))
      | .mark .choiceWord => do
        advance
        let opener ← require .openBrace
        lineEnd
        let items ← many endsBraces (item fuel) fuel
        let close ← closeBrace opener
        pure (.choice items (t.span.cover close))
      | .mark .hashOpen => do
        advance
        pure (.hash (← hashBody fuel t.span))
      | .mark .speakerWord => do
        advance
        let name ← ident
        let opener ← require .hashOpen
        let hash ← hashBody fuel opener
        pure (.speaker name hash (t.span.cover hash.span))
      | .mark .star => fail (.optionOutsideChoice t.span)
      | .identifier _ | .text _ | .mark .openBrace | .mark .colon => do
        pure (.line (← line (fuel + 1)))
      | other => fail (.unexpectedStatementToken other.kind t.span)
    lineEnd
    return s

/-- An item of a choice and the end of its line. -/
def item : Nat → Parse ChoiceItem
  | 0 => exhausted
  | fuel + 1 => do
    if let some star ← accept .star then
      let guard ← optionGuard (expr fuel)
      let (text, block) ← segments (expr fuel) fuel []
      let (target, block) ← optionTarget block
      let body ← optionBody (many endsBraces (stmt fuel) fuel) block
      let span := star.cover (← lastSpan)
      lineEnd
      return .option guard (trimText text) target body span
    else if let some word ← accept .ifWord then
      let (bs, otherwise) ← branches (expr fuel) (many endsBraces (item fuel) fuel) fuel
      let span := word.cover (← lastSpan)
      lineEnd
      return .filter bs otherwise span
    else
      let t ← peek
      fail (.unexpectedToken t.lexeme.kind (.mark .star) t.span)

end

/-! ## Sections -/

/-- The statements up to the next section. -/
def sectionBody (fuel : Nat) : Parse Block := many endsSection (stmt fuel) fuel

/-- A section header after its marker: a name, the marker again or not, and the end of the line. -/
def header : Parse Ident := do
  let name ← sectionName
  let _ ← accept .sectionMarker
  lineEnd
  return name

/-- A section header, with the span from its marker to the last token taken. -/
def headerFrom (marker : Span) : Parse (Ident × Span) := do
  let name ← header
  return (name, marker.cover (← lastSpan))

/-- A section.  The body of one with a broken header is read and dropped. -/
def sectionPart (fuel : Nat) : Parse (Option Section) := do
  advance
  match ← recover (headerFrom (← lastSpan)) with
  | some (name, span) => return some ⟨name, span, ← sectionBody fuel⟩
  | none =>
    let _ ← sectionBody fuel
    return none

/-- Sections up to the end of the source.  Statements before the first section belong to a section of
the name `implicit` if one is given; all others outside of sections are reported as one error. -/
def sections (implicit : Option String) (fuel : Nat) : Nat → List Section → Parse (List Section)
  | 0, _ => exhausted
  | bound + 1, acc => do
    skipBreaks
    let t ← peek
    if t.is .endOfFile then return acc
    else if t.is .sectionMarker then
      let s ← sectionPart fuel
      sections implicit fuel bound (acc ++ s.toList)
    else
      let body ← sectionBody fuel
      match implicit, acc with
      | some name, [] => sections implicit fuel bound [⟨⟨name, t.span⟩, t.span, body⟩]
      | _, _ =>
        report (.statementOutsideSection (t.span.cover (← lastSpan)))
        sections implicit fuel bound acc

end Colloquy.Parse

namespace Colloquy

/-- Parse tokens into a story and the errors recovered from. -/
def parseTokens (implicit : Option String) (tokens : List Token) : Story × List ParseError :=
  let fuel := tokens.length
  match Parse.sections implicit fuel fuel [] (.start tokens) with
  | .ok story c => (story, c.errors)
  | .error (.error e) c => ([], c.errors ++ [e])
  | .error .exhausted c => ([], c.errors)

/-- Scan and parse a source. -/
def parse (implicit : Option String) (source : String) : Story × List ParseError :=
  parseTokens implicit (tokensOf (scan source))

end Colloquy
