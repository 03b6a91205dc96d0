import Colloquy.Parser.Basic
import Colloquy.Source.LineIndex
import Colloquy.Token.Basic
import Colloquy.Value

/-!
# Diagnostics

All that is reported while a source is turned into a script: what the scan, the parser and the
compiler refuse, and what the compiler warns of.  A diagnostic has a message, labels that point at the
source, the most telling first, and sometimes a hint.  A record is a diagnostic for tools, with a line
and columns in place of spans.
-/

namespace Colloquy

/-- What the compiler reports. -/
inductive CompileError where
  | unknownVariable (name : String) (foundAt : Span)
  | unknownFunction (name : String) (foundAt : Span)
  | kindMismatch (mismatch : KindMismatch) (foundAt : Span)
  | arityMismatch (name : String) (least most actual : Nat) (foundAt : Span)
  | invalidDefault (name : String) (index : Nat) (mismatch : KindMismatch) (foundAt : Span)
  | awaitMismatch (name : String) (awaitable : Bool) (foundAt : Span)
  | unknownSection (name : String) (foundAt : Span)
  | duplicateSection (name : String) (foundAt firstAt : Span)
  | emptyChoice (foundAt : Span)
  | noGuaranteedChoice (foundAt : Span)
  | malformedHash (key : String) (valueCount : Nat) (foundAt : Span)
  | duplicateHashKey (key : String) (foundAt firstAt : Span)
  | unreachableStatement (foundAt terminatedAt : Span)
  deriving DecidableEq, Repr

/-- How bad a diagnostic is. -/
inductive Severity where
  | error
  | warning
  deriving DecidableEq, Repr

/-- The name of a severity. -/
def Severity.name : Severity → String
  | .error => "error"
  | .warning => "warning"

/-- A span of the source with what to say about it. -/
structure DiagnosticLabel where
  span : Span
  text : String
  deriving DecidableEq, Repr

/-- A range of numbers of arguments. -/
def arityText (least most : Nat) : String :=
  if least = most then toString least else s!"{least} to {most}"

namespace CompileError

/-- A compile error in a sentence. -/
def message : CompileError → String
  | .unknownVariable name _ => "Unknown variable " ++ name
  | .unknownFunction name _ => "Unknown function " ++ name
  | .kindMismatch m _ => m.message
  | .arityMismatch name least most actual _ =>
    name ++ " takes " ++ arityText least most ++ s!" arguments but {actual} were supplied"
  | .invalidDefault name index m _ =>
    s!"Default for parameter {index} of " ++ name ++ " is " ++ m.actual.phrase
      ++ ", but it must be " ++ m.expected.phrase
  | .awaitMismatch name awaitable _ =>
    name ++ if awaitable then " must be awaited" else " cannot be awaited"
  | .unknownSection name _ => "Unknown section " ++ name
  | .duplicateSection name _ _ => "Section " ++ name ++ " is already defined"
  | .emptyChoice _ => "Choice block has no options"
  | .noGuaranteedChoice _ => "Choice block may present no enabled option"
  | .malformedHash key count _ => "Hash key " ++ key ++ s!" has {count} values"
  | .duplicateHashKey key _ _ => "Hash key " ++ key ++ " is repeated"
  | .unreachableStatement _ _ => "Unreachable statement"

/-- What a compile error points at. -/
def labels : CompileError → List DiagnosticLabel
  | .unknownVariable name s | .unknownFunction name s =>
    [⟨s, "'" ++ name ++ "' is not exposed by the host"⟩]
  | .kindMismatch m s => [⟨s, "Found " ++ m.actual.name ++ " here"⟩]
  | .arityMismatch _ _ _ _ s => [⟨s, "Called here"⟩]
  | .invalidDefault _ _ _ s => [⟨s, "Default needed here"⟩]
  | .awaitMismatch _ _ s => [⟨s, "Called here"⟩]
  | .unknownSection name s => [⟨s, "No section named '" ++ name ++ "'"⟩]
  | .duplicateSection _ s first => [⟨s, "Defined again here"⟩, ⟨first, "First defined here"⟩]
  | .emptyChoice s => [⟨s, "Add at least one `* option`"⟩]
  | .noGuaranteedChoice s => [⟨s, "Every option here is guarded or filtered"⟩]
  | .malformedHash _ _ s => [⟨s, "A key takes at most one value"⟩]
  | .duplicateHashKey _ s first => [⟨s, "Repeated here"⟩, ⟨first, "First used here"⟩]
  | .unreachableStatement s cause =>
    [⟨s, "Control never reaches this"⟩, ⟨cause, "because of this"⟩]

/-- Doubtful but harmless things are warnings. -/
def severity : CompileError → Severity
  | .noGuaranteedChoice _ | .unreachableStatement _ _ => .warning
  | _ => .error

/-- What to do about a compile error. -/
def help? : CompileError → Option String
  | .invalidDefault .. => some "fix the parameter's default in the host registry"
  | _ => none

end CompileError

/-- What a scan error points at. -/
def ScanError.labels : ScanError → List DiagnosticLabel
  | .unexpectedCharacter _ offset => [⟨.single offset, "Character found here"⟩]
  | .unterminatedString s => [⟨s, "String"⟩]
  | .unknownEscape _ s => [⟨s, "Character found here"⟩]

/-- What a parse error points at. -/
def ParseError.labels : ParseError → List DiagnosticLabel
  | .unmatchedParenthesis opener found s =>
    [⟨opener, "Opening parenthesis here"⟩, ⟨s, "Found " ++ found.name ++ " instead"⟩]
  | .unclosedBrace opener found s =>
    [⟨opener, "Opened here"⟩, ⟨s, "Found " ++ found.name ++ " instead"⟩]
  | .expectedEndOfLine found s => [⟨s, "Found " ++ found.name ++ " instead of a line break"⟩]
  | .unexpectedExpressionToken found s =>
    [⟨s, "Found " ++ found.name ++ " instead of a number, variable, unary, etc."⟩]
  | .unexpectedStatementToken found s =>
    [⟨s, "Found " ++ found.name ++ " instead of a line, instruction or control statement"⟩]
  | .unexpectedToken found expected s =>
    [⟨s, "Found " ++ found.name ++ " instead of " ++ expected.name⟩]
  | .invalidAssignmentTarget s => [⟨s, "Cannot assign to this expression"⟩]
  | .awaitWithoutCall s => [⟨s, "Expected a call after await"⟩]
  | .unknownDirective _ s => [⟨s, "Expected auto, speed, pause or goto"⟩]
  | .optionOutsideChoice s => [⟨s, "Options must be inside `choice \x7b ... \x7d`"⟩]
  | .statementOutsideSection s => [⟨s, "Add a `=== name` header before this"⟩]

/-- Anything reported about a source. -/
inductive Diagnostic where
  | scan (error : ScanError)
  | parse (error : ParseError)
  | compile (error : CompileError)
  deriving DecidableEq, Repr

/-- A diagnostic for tools: where it stands, counted from zero, and what it says. -/
structure DiagnosticRecord where
  line : Nat
  columnStart : Nat
  columnEnd : Nat
  message : String
  severity : Severity
  deriving DecidableEq, Repr

/-- A record as a document. -/
def DiagnosticRecord.toJson (r : DiagnosticRecord) : Json :=
  .object [("line", .ofNat r.line), ("column_start", .ofNat r.columnStart),
    ("column_end", .ofNat r.columnEnd), ("message", .string r.message),
    ("severity", .string r.severity.name)]

namespace Diagnostic

/-- A diagnostic in a sentence. -/
def message : Diagnostic → String
  | .scan e => e.message
  | .parse e => e.message
  | .compile e => e.message

/-- What a diagnostic points at. -/
def labels : Diagnostic → List DiagnosticLabel
  | .scan e => e.labels
  | .parse e => e.labels
  | .compile e => e.labels

/-- How bad a diagnostic is. -/
def severity : Diagnostic → Severity
  | .compile e => e.severity
  | _ => .error

/-- What to do about a diagnostic. -/
def help? : Diagnostic → Option String
  | .compile e => e.help?
  | _ => none

/-- The span of the first label. -/
def span (d : Diagnostic) : Span :=
  match d.labels with
  | l :: _ => l.span
  | [] => ⟨0, 0⟩

/-- The record of a diagnostic.  One that goes on beyond its first line ends at the end of that
line. -/
def toRecord (index : LineIndex) (d : Diagnostic) : DiagnosticRecord :=
  let (line, start) := index.position d.span.start
  let (lastLine, stop) := index.position d.span.stop
  { line, columnStart := start
    columnEnd := if lastLine = line then max stop start else index.lineLength line
    message := d.message, severity := d.severity }

end Diagnostic

end Colloquy
