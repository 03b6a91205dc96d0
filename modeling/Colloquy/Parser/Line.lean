import Colloquy.Parser.Expr
import Colloquy.Text.Blank

/-!
# Parsing lines

A dialog line is a list of speakers, the text they speak with placeholders in it, and then directives,
hash data and targets in any order.
-/

namespace Colloquy.Parse

/-! ## Text -/

/-- A stretch of fixed text. -/
def text? (t : Token) : Option (Spanned String) :=
  match t.lexeme with
  | .text s => some ⟨s, t.span⟩
  | _ => none

/-- Text and placeholders.  A brace at the end of the line opens a block instead; its span is
returned. -/
def segments (expr : Parse Expr) : Nat → List Segment → Parse (List Segment × Option Span)
  | 0, _ => exhausted
  | fuel + 1, acc => do
    if let some t ← accept? text? then
      segments expr fuel (acc ++ [.text t])
    else if let some opener ← accept .openBrace then
      let next ← peek
      if next.is .newline || next.is .endOfFile then return (acc, some opener)
      else
        let e ← expr
        let _ ← closeBrace opener
        segments expr fuel (acc ++ [.placeholder e])
    else return (acc, none)

/-- Trim the blanks of a stretch of text; nothing stays of one that has only blanks. -/
def trimSegment (first last : Bool) : Segment → Option Segment
  | .text t =>
    let cs := t.val.toList
    let cs := if first then Text.trimStart cs else cs
    let cs := if last then Text.trimEnd cs else cs
    if cs.isEmpty then none else some (.text ⟨String.ofList cs, t.span⟩)
  | s => some s

/-- Trim the segments after the first. -/
def trimRest : List Segment → List Segment
  | [] => []
  | [s] => (trimSegment false true s).toList
  | s :: ss => (trimSegment false false s).toList ++ trimRest ss

/-- Trim the blanks that separate a text from what stands around it, and drop what becomes empty. -/
def trimText : List Segment → List Segment
  | [] => []
  | [s] => (trimSegment true true s).toList
  | s :: ss => (trimSegment true false s).toList ++ trimRest ss

/-! ## Hash data and directives -/

/-- The text of a token as a name. -/
def stringKey? (t : Token) : Option Ident :=
  match t.lexeme with
  | .string name => some ⟨name, t.span⟩
  | _ => none

/-- A key of hash data: a name or a string. -/
def hashKey : Parse Ident := do
  match ← accept? stringKey? with
  | some x => return x
  | none => ident

/-- Whether a token ends the values of a key. -/
def endsValues (t : Token) : Bool :=
  t.is .comma || t.is .closeBrace || t.is .newline || t.is .endOfFile

/-- One or more values of a key, up to the next key or the end. -/
def hashValues (expr : Parse Expr) : Nat → Parse (List Expr)
  | 0 => exhausted
  | fuel + 1 => do
    let e ← expr
    if endsValues (← peek) then return [e]
    else return e :: (← hashValues expr fuel)

/-- One or more keys with their values. -/
def hashEntries (fuel : Nat) (expr : Parse Expr) : Nat → Parse (List HashEntry)
  | 0 => exhausted
  | bound + 1 => do
    let key ← hashKey
    let values ← match ← accept .colon with
      | some _ => hashValues expr fuel
      | none => pure []
    match ← accept .comma with
    | none => return [⟨key, values⟩]
    | some _ => return ⟨key, values⟩ :: (← hashEntries fuel expr bound)

/-- Hash data after its opening mark. -/
def hashBody (fuel : Nat) (opener : Span) : Parse HashBlock := do
  let next ← peek
  let entries ← if next.is .closeBrace then pure [] else hashEntries fuel (expr fuel) fuel
  let close ← closeBrace opener
  return ⟨entries, opener.cover close⟩

/-- One directive. -/
def directive (fuel : Nat) : Parse (Spanned Directive) := do
  let t ← peek
  match t.lexeme with
  | .mark .gotoWord =>
    advance
    let target ← sectionName
    return ⟨.goto target, t.span.cover target.span⟩
  | .identifier name =>
    advance
    let kind ← match name with
      | "auto" => pure .auto
      | "speed" => do pure (.speed (← expr fuel))
      | "pause" => do pure (.pause (← expr fuel))
      | _ => fail (.unknownDirective name t.span)
    return ⟨kind, t.span.cover (← lastSpan)⟩
  | other => fail (.unexpectedToken other.kind .identifier t.span)

/-- One or more directives. -/
def directives (fuel : Nat) : Nat → Parse (List (Spanned Directive))
  | 0 => exhausted
  | bound + 1 => do
    let d ← directive fuel
    match ← accept .comma with
    | none => return [d]
    | some _ => return d :: (← directives fuel bound)

/-! ## Lines -/

/-- What opens a line: its speakers, or a placeholder that already belongs to its text. -/
structure Opening where
  speakers : List SpeakerRef
  text : List Segment

/-- What one step of the opening finds. -/
inductive Opener where
  | speaker (speaker : SpeakerRef)
  /-- The line has no speakers and its text starts with a placeholder. -/
  | placeholder (expr : Expr)
  | nothing

/-- One speaker.  A variable between braces is a speaker if a comma or a colon follows; any other
expression between braces starts the text of a line without speakers. -/
def opener (expr : Parse Expr) (isFirst : Bool) : Parse Opener := do
  let t ← peek
  match t.lexeme with
  | .identifier name =>
    advance
    return .speaker (.named ⟨name, t.span⟩)
  | .mark .openBrace =>
    advance
    let e ← expr
    let _ ← closeBrace t.span
    let next ← peek
    match e, next.is .comma || next.is .colon with
    | .variable x, true => return .speaker (.variable x)
    | e, _ =>
      if isFirst then return .placeholder e
      else fail (.unexpectedToken next.lexeme.kind (.mark .colon) next.span)
  | _ => return .nothing

/-- The speakers of a line, after those of `acc`, as long as commas follow. -/
def opening (expr : Parse Expr) : Nat → List SpeakerRef → Parse Opening
  | 0, _ => exhausted
  | fuel + 1, acc => do
    match ← opener expr acc.isEmpty with
    | .nothing => return ⟨acc, []⟩
    | .placeholder e => return ⟨[], [.placeholder e]⟩
    | .speaker s =>
      match ← accept .comma with
      | none => return ⟨acc ++ [s], []⟩
      | some _ => opening expr fuel (acc ++ [s])

/-- Directives and hash data of a line. -/
structure Trailer where
  directives : List (Spanned Directive)
  hash : Option HashBlock

/-- Add hash data to what a line has already. -/
def joinHash : Option HashBlock → HashBlock → HashBlock
  | none, h => h
  | some g, h => ⟨g.entries ++ h.entries, g.span.cover h.span⟩

/-- Directives, hash data and targets in any order. -/
def trailer (fuel : Nat) : Nat → Trailer → Parse Trailer
  | 0, _ => exhausted
  | bound + 1, acc => do
    if let some opener ← accept .directiveOpen then
      let ds ← directives fuel fuel
      let _ ← expect .directiveClose fun t =>
        .unexpectedToken t.lexeme.kind (.mark .directiveClose) (opener.cover t.span)
      trailer fuel bound { acc with directives := acc.directives ++ ds }
    else if let some opener ← accept .hashOpen then
      let h ← hashBody fuel opener
      trailer fuel bound { acc with hash := some (joinHash acc.hash h) }
    else if let some arrow ← accept .arrow then
      let target ← sectionName
      let d : Spanned Directive := ⟨.goto target, arrow.cover target.span⟩
      trailer fuel bound { acc with directives := acc.directives ++ [d] }
    else return acc

/-- A dialog line. -/
def line (fuel : Nat) : Parse Line := do
  let start := (← peek).span
  let opened ← opening (expr fuel) fuel []
  if opened.text.isEmpty then
    if opened.speakers.isEmpty then let _ ← accept .colon
    else let _ ← require .colon
  let (text, block) ← segments (expr fuel) fuel opened.text
  match block with
  | some opener => fail (.unexpectedExpressionToken (← peek).lexeme.kind opener)
  | none =>
    let t ← trailer fuel fuel ⟨[], none⟩
    return ⟨opened.speakers, trimText text, t.directives, t.hash, start.cover (← lastSpan)⟩

end Colloquy.Parse
