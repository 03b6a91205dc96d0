import Colloquy.Number.Read
import Colloquy.Token.Basic

/-!
# Scanning

Scripts are line oriented and mix two worlds: statements and expressions are code, while the body of a
dialog line or of a choice option is free text with `{expression}` placeholders.  Which world applies
is decided at the start of every line, and the marks of the line switch between them (`Mode`).

A scan is a run of `Scan.step`s.  Each step takes characters off the front of the rest of the
source, or leaves the start of a line for a mode that does, and yields what it found in order.
`Scan.run` is given two steps for each character and two more, which no scan needs to exceed.
-/

namespace Colloquy

/-- Which world the next characters belong to. -/
inductive Mode where
  | lineStart
  | code
  /-- Code that turns into text at the first colon. -/
  | speakers
  | text
  /-- An expression between braces in text, inside `depth` further braces. -/
  | placeholder (depth : Nat)
  /-- The guard of an option, inside `depth` further brackets. -/
  | guard (depth : Nat)
  deriving DecidableEq, Repr

/-- What a scan yields: a token, or an error in its place. -/
abbrev ScanItem := Except ScanError Token

/-- A scan under way: the mode, the offset, and the characters from there on. -/
structure Scan where
  mode : Mode
  offset : Nat
  rest : List Char
  deriving DecidableEq, Repr

namespace Scan

/-! ## Characters and words -/

/-- Blanks inside a line of code. -/
def isInlineBlank (c : Char) : Bool := c = ' ' ∨ c = '\t' ∨ c = '\r'

/-- Characters a name starts with. -/
def isNameStart (c : Char) : Bool := c.isAlpha || c = '_'

/-- Characters a name goes on with. -/
def isNameChar (c : Char) : Bool := c.isAlphanum || c = '_'

/-- The characters up to the next line feed. -/
def lineOf (cs : List Char) : List Char := cs.takeWhile (· ≠ '\n')

/-- The characters from the next line feed on. -/
def afterLine (cs : List Char) : List Char := cs.dropWhile (· ≠ '\n')

/-- Whether a text starts with another. -/
def startsWith (cs : List Char) (s : String) : Bool := s.toList.isPrefixOf cs

/-- The mark of a keyword. -/
def keyword? : String → Option Mark
  | "and" => some .andWord
  | "or" => some .orWord
  | "true" => some .trueWord
  | "false" => some .falseWord
  | "if" => some .ifWord
  | "else" => some .elseWord
  | "choice" => some .choiceWord
  | "goto" => some .gotoWord
  | "end" => some .endWord
  | "speaker" => some .speakerWord
  | "await" => some .awaitWord
  | _ => none

/-- The words that make a line a statement when they open it. -/
def statementWords : List String := ["if", "else", "choice", "goto", "end", "speaker"]

/-- Whether a line opens with a statement word that is not a part of a longer name. -/
def startsStatement (line : List Char) : Bool :=
  statementWords.contains (String.ofList (line.takeWhile isNameChar))

/-! ## Speakers in front of a line -/

/-- One speaker, a name or a name between braces, with the blanks around it.  What follows it is
returned. -/
def skipSpeaker (cs : List Char) : Option (List Char) :=
  let cs := Text.trimStart cs
  let (braced, cs) := match cs with
    | '\x7b' :: more => (true, Text.trimStart more)
    | cs => (false, cs)
  match cs with
  | c :: more =>
    if isNameStart c then
      let cs := Text.trimStart (more.dropWhile isNameChar)
      if braced then
        match cs with
        | '\x7d' :: cs => some (Text.trimStart cs)
        | _ => none
      else some cs
    else none
  | [] => none

/-- Whether a line opens with speakers, separated by commas and followed by a colon.  Each speaker
takes a character, so the length of the line bounds their number. -/
def hasSpeakersWithin : Nat → List Char → Bool
  | 0, _ => false
  | fuel + 1, cs =>
    match skipSpeaker cs with
    | some (':' :: _) => true
    | some (',' :: cs) => hasSpeakersWithin fuel cs
    | _ => false

/-- Whether a line opens with speakers. -/
def hasSpeakers (line : List Char) : Bool := hasSpeakersWithin line.length line

/-! ## Marks -/

/-- The mark written in front of a text with its width, the longest one that fits. -/
def punctuation? : List Char → Option (Mark × Nat × List Char)
  | '=' :: '=' :: '=' :: cs => some (.sectionMarker, 3, cs)
  | '=' :: '=' :: cs => some (.equalEqual, 2, cs)
  | '-' :: '>' :: cs => some (.arrow, 2, cs)
  | '-' :: '=' :: cs => some (.minusEqual, 2, cs)
  | '+' :: '=' :: cs => some (.plusEqual, 2, cs)
  | '*' :: '=' :: cs => some (.starEqual, 2, cs)
  | '/' :: '=' :: cs => some (.slashEqual, 2, cs)
  | '!' :: '=' :: cs => some (.bangEqual, 2, cs)
  | '<' :: '<' :: cs => some (.directiveOpen, 2, cs)
  | '<' :: '=' :: cs => some (.lessEqual, 2, cs)
  | '>' :: '>' :: cs => some (.directiveClose, 2, cs)
  | '>' :: '=' :: cs => some (.greaterEqual, 2, cs)
  | '&' :: '&' :: cs => some (.andWord, 2, cs)
  | '|' :: '|' :: cs => some (.orWord, 2, cs)
  | '#' :: '\x7b' :: cs => some (.hashOpen, 2, cs)
  | '(' :: cs => some (.openParen, 1, cs)
  | ')' :: cs => some (.closeParen, 1, cs)
  | '\x7b' :: cs => some (.openBrace, 1, cs)
  | '\x7d' :: cs => some (.closeBrace, 1, cs)
  | '[' :: cs => some (.openBracket, 1, cs)
  | ']' :: cs => some (.closeBracket, 1, cs)
  | ',' :: cs => some (.comma, 1, cs)
  | ':' :: cs => some (.colon, 1, cs)
  | '~' :: cs => some (.tilde, 1, cs)
  | '%' :: cs => some (.percent, 1, cs)
  | '-' :: cs => some (.minus, 1, cs)
  | '+' :: cs => some (.plus, 1, cs)
  | '*' :: cs => some (.star, 1, cs)
  | '/' :: cs => some (.slash, 1, cs)
  | '!' :: cs => some (.bang, 1, cs)
  | '=' :: cs => some (.equal, 1, cs)
  | '<' :: cs => some (.less, 1, cs)
  | '>' :: cs => some (.greater, 1, cs)
  | _ => none

/-- The mode after a mark of code: braces and brackets nest in the modes they close, and a colon ends
the speakers. -/
def modeAfter (m : Mark) : Mode → Mode
  | .placeholder depth =>
    match m with
    | .openBrace => .placeholder (depth + 1)
    | .closeBrace => match depth with
      | 0 => .text
      | depth + 1 => .placeholder depth
    | _ => .placeholder depth
  | .guard depth =>
    match m with
    | .openBracket => .guard (depth + 1)
    | .closeBracket => match depth with
      | 0 => .text
      | depth + 1 => .guard depth
    | _ => .guard depth
  | .speakers => if m = .colon then .text else .speakers
  | mode => mode

/-! ## Steps -/

/-- What a step yields and where the scan goes on, if it does. -/
abbrev Step := List ScanItem × Option Scan

/-- A mark from one offset up to another. -/
def markItem (m : Mark) (start stop : Nat) : ScanItem := .ok ⟨.mark m, .range start stop⟩

/-- End a line: at a line feed, or at the end of the source, which also ends the scan. -/
def endLine (offset : Nat) : List Char → Step
  | [] => ([markItem .newline offset offset, markItem .endOfFile offset offset], none)
  | _ :: cs => ([markItem .newline offset (offset + 1)], some ⟨.lineStart, offset + 1, cs⟩)

/-- The start of a line that is neither blank nor a comment, at `offset`. -/
def openLine (offset : Nat) (cs : List Char) : Step :=
  let line := lineOf cs
  if startsWith line "===" || startsWith line "~" || startsWith line "\x7d"
      || startsWith line "#\x7b" || startsWith line "->" || startsStatement line then
    ([], some ⟨.code, offset, cs⟩)
  else match cs with
    | '*' :: more =>
      let blanks := more.takeWhile isInlineBlank
      let after := offset + 1 + Text.byteSize blanks
      match more.dropWhile isInlineBlank with
      | '[' :: cs =>
        ([markItem .star offset (offset + 1), markItem .openBracket after (after + 1)],
          some ⟨.guard 0, after + 1, cs⟩)
      | cs => ([markItem .star offset (offset + 1)], some ⟨.text, after, cs⟩)
    | ':' :: cs => ([markItem .colon offset (offset + 1)], some ⟨.text, offset + 1, cs⟩)
    | cs =>
      if hasSpeakers line then ([], some ⟨.speakers, offset, cs⟩)
      else ([], some ⟨.text, offset, cs⟩)

/-- At the start of a line: skip it if it is blank or a comment, else choose its mode. -/
def stepLineStart (offset : Nat) (rest : List Char) : Step :=
  let offset := offset + Text.byteSize (rest.takeWhile isInlineBlank)
  match rest.dropWhile isInlineBlank with
  | [] => ([markItem .endOfFile offset offset], none)
  | c :: cs =>
    let line := lineOf (c :: cs)
    if (Text.trim line).isEmpty || startsWith line "//" then
      match afterLine (c :: cs) with
      | [] => ([], some ⟨.lineStart, offset + Text.byteSize line, []⟩)
      | _ :: cs => ([], some ⟨.lineStart, offset + Text.byteSize line + 1, cs⟩)
    else openLine offset (c :: cs)

/-- The characters a backslash stands before in text. -/
def isTextEscape (c : Char) : Bool :=
  c = '\x7b' || c = '\x7d' || c = '#' || c = '<' || c = '-' || c = '\\'

/-- Whether free text stops in front of these characters. -/
def stopsText : List Char → Bool
  | [] => true
  | '\n' :: _ => true
  | '\x7b' :: _ => true
  | '<' :: '<' :: _ => true
  | '#' :: '\x7b' :: _ => true
  | '-' :: '>' :: _ => true
  | _ => false

/-- Free text that was read: what it says, the errors in it, and where it stopped. -/
structure TextRun where
  text : List Char
  errors : List ScanError
  offset : Nat
  rest : List Char
  deriving DecidableEq, Repr

/-- Put a character in front of a run. -/
def TextRun.cons (c : Char) (r : TextRun) : TextRun := { r with text := c :: r.text }

/-- Read free text up to a line feed, a placeholder, a directive, hash data or an arrow.  A backslash
takes the next character, whatever it is; carriage returns are dropped. -/
def textRun (offset : Nat) (cs : List Char) : TextRun :=
  if stopsText cs then ⟨[], [], offset, cs⟩
  else match cs with
    | [] => ⟨[], [], offset, []⟩
    | '\r' :: cs => textRun (offset + 1) cs
    | ['\\'] => ⟨[], [], offset + 1, []⟩
    | '\\' :: c :: cs =>
      let run := (textRun (offset + 1 + c.utf8Size) cs).cons c
      if isTextEscape c then run
      else
        { run with errors :=
            .unknownEscape c (.range offset (offset + 1 + c.utf8Size)) :: run.errors }
    | c :: cs => (textRun (offset + c.utf8Size) cs).cons c

/-- Free text, and the mark that ends it. -/
def stepText (start : Nat) (rest : List Char) : Step :=
  let run := textRun start rest
  let items := run.errors.map .error ++
    if run.text.isEmpty then []
    else [.ok ⟨.text (String.ofList run.text), .range start run.offset⟩]
  let at2 (m : Mark) (cs : List Char) : Step :=
    (items ++ [markItem m run.offset (run.offset + 2)], some ⟨.code, run.offset + 2, cs⟩)
  match run.rest with
  | '\x7b' :: cs =>
    let after := Text.trim (lineOf cs)
    let mode := if after.isEmpty || startsWith after "//" then .code else .placeholder 0
    (items ++ [markItem .openBrace run.offset (run.offset + 1)], some ⟨mode, run.offset + 1, cs⟩)
  | '<' :: '<' :: cs => at2 .directiveOpen cs
  | '#' :: '\x7b' :: cs => at2 .hashOpen cs
  | '-' :: '>' :: cs => at2 .arrow cs
  | cs =>
    let (last, next) := endLine run.offset cs
    (items ++ last, next)

/-- A string that was read after its opening quote. -/
structure StringRun where
  value : List Char
  errors : List ScanError
  offset : Nat
  rest : List Char
  deriving DecidableEq, Repr

/-- Put a character in front of a run. -/
def StringRun.cons (c : Char) (r : StringRun) : StringRun := { r with value := c :: r.value }

/-- The character of an escape in a string. -/
def stringEscape? : Char → Option Char
  | 'n' => some '\n'
  | 't' => some '\t'
  | '"' => some '"'
  | '\\' => some '\\'
  | _ => none

/-- Read a string that opened at `start` up to its closing quote or the end of the line.  An unknown
escape is dropped from the string. -/
def stringRun (start offset : Nat) : List Char → StringRun
  | [] => ⟨[], [.unterminatedString (.range start offset)], offset, []⟩
  | '\n' :: cs => ⟨[], [.unterminatedString (.range start offset)], offset, '\n' :: cs⟩
  | '"' :: cs => ⟨[], [], offset + 1, cs⟩
  | ['\\'] => ⟨[], [.unterminatedString (.range start (offset + 1))], offset + 1, []⟩
  | '\\' :: c :: cs =>
    if c = '\n' then
      ⟨[], [.unterminatedString (.range start (offset + 1))], offset + 1, c :: cs⟩
    else
      let run := stringRun start (offset + 1 + c.utf8Size) cs
      match stringEscape? c with
      | some d => run.cons d
      | none =>
        { run with errors :=
            .unknownEscape c (.range offset (offset + 1 + c.utf8Size)) :: run.errors }
  | c :: cs => (stringRun start (offset + c.utf8Size) cs).cons c

/-- The digits of a number: a whole part, and a fraction if a digit follows the point. -/
def numberDigits (cs : List Char) : List Char × List Char :=
  let whole := cs.takeWhile Char.isDigit
  match cs.dropWhile Char.isDigit with
  | '.' :: d :: more =>
    if d.isDigit then
      (whole ++ '.' :: (d :: more).takeWhile Char.isDigit, (d :: more).dropWhile Char.isDigit)
    else (whole, '.' :: d :: more)
  | rest => (whole, rest)

/-- A lexeme of code that starts with `c` at `start`. -/
def stepLexeme (mode : Mode) (start : Nat) (c : Char) (cs : List Char) : Step :=
  match punctuation? (c :: cs) with
  | some (m, width, rest) =>
    ([markItem m start (start + width)], some ⟨modeAfter m mode, start + width, rest⟩)
  | none =>
    if c = '"' then
      let run := stringRun start (start + 1) cs
      (run.errors.map .error ++ [.ok ⟨.string (String.ofList run.value), .range start run.offset⟩],
        some ⟨mode, run.offset, run.rest⟩)
    else if c.isDigit then
      let (digits, rest) := numberDigits (c :: cs)
      let stop := start + digits.length
      let value := (Number.parse? (String.ofList digits)).getD 0.0
      ([.ok ⟨.number value, .range start stop⟩], some ⟨mode, stop, rest⟩)
    else if isNameStart c then
      let word := (c :: cs).takeWhile isNameChar
      let name := String.ofList word
      let lexeme := match keyword? name with
        | some m => Lexeme.mark m
        | none => .identifier name
      let stop := start + word.length
      ([.ok ⟨lexeme, .range start stop⟩], some ⟨mode, stop, (c :: cs).dropWhile isNameChar⟩)
    else
      ([.error (.unexpectedCharacter c start)], some ⟨mode, start + c.utf8Size, cs⟩)

/-- Code: blanks are skipped, a comment ends the line. -/
def stepCode (mode : Mode) (offset : Nat) (rest : List Char) : Step :=
  let start := offset + Text.byteSize (rest.takeWhile isInlineBlank)
  match rest.dropWhile isInlineBlank with
  | [] => endLine start []
  | c :: cs =>
    if c = '\n' then endLine start (c :: cs)
    else if startsWith (c :: cs) "//" then
      endLine (start + Text.byteSize (lineOf (c :: cs))) (afterLine (c :: cs))
    else stepLexeme mode start c cs

/-- One step of a scan. -/
def step (s : Scan) : Step :=
  match s.mode with
  | .lineStart => stepLineStart s.offset s.rest
  | .text => stepText s.offset s.rest
  | mode => stepCode mode s.offset s.rest

/-- All that the next `fuel` steps yield. -/
def run : Nat → Scan → List ScanItem
  | 0, _ => []
  | fuel + 1, s =>
    match s.step with
    | (items, none) => items
    | (items, some next) => items ++ run fuel next

end Scan

/-- Scan a source from its first line to its end. -/
def scan (source : String) : List ScanItem :=
  let cs := source.toList
  Scan.run (2 * cs.length + 2) ⟨.lineStart, 0, cs⟩

/-- The tokens of a scan. -/
def tokensOf (items : List ScanItem) : List Token :=
  items.filterMap fun
    | .ok t => some t
    | .error _ => none

/-- The errors of a scan. -/
def errorsOf (items : List ScanItem) : List ScanError :=
  items.filterMap fun
    | .ok _ => none
    | .error e => some e

end Colloquy
