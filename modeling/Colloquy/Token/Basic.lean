import Colloquy.Source.Span
import Colloquy.Text.Quoted

/-!
# Tokens

The words of a script.  A mark has one meaning and carries nothing else: punctuation, operators,
keywords, the end of a line and the end of the source.  The other lexemes carry what was written.
-/

namespace Colloquy

/-- Lexemes that carry nothing. -/
inductive Mark where
  | openParen | closeParen | openBrace | closeBrace | openBracket | closeBracket
  | comma | colon | minus | plus | slash | star | percent | bang | bangEqual
  | equal | equalEqual | greater | greaterEqual | less | lessEqual
  | plusEqual | minusEqual | starEqual | slashEqual | arrow | tilde
  | hashOpen | directiveOpen | directiveClose | sectionMarker
  | andWord | orWord | trueWord | falseWord | ifWord | elseWord | choiceWord | gotoWord
  | endWord | speakerWord | awaitWord
  | newline | endOfFile
  deriving DecidableEq, Repr

/-- The name of a mark in messages. -/
def Mark.name : Mark → String
  | .openParen => "OpenParen" | .closeParen => "CloseParen"
  | .openBrace => "OpenBrace" | .closeBrace => "CloseBrace"
  | .openBracket => "OpenBracket" | .closeBracket => "CloseBracket"
  | .comma => "Comma" | .colon => "Colon"
  | .minus => "Minus" | .plus => "Plus" | .slash => "Slash" | .star => "Star"
  | .percent => "Percent" | .bang => "Bang" | .bangEqual => "BangEqual"
  | .equal => "Equal" | .equalEqual => "EqualEqual"
  | .greater => "Greater" | .greaterEqual => "GreaterEqual"
  | .less => "Less" | .lessEqual => "LessEqual"
  | .plusEqual => "PlusEqual" | .minusEqual => "MinusEqual"
  | .starEqual => "StarEqual" | .slashEqual => "SlashEqual"
  | .arrow => "Arrow" | .tilde => "Tilde"
  | .hashOpen => "HashOpen" | .directiveOpen => "DirectiveOpen"
  | .directiveClose => "DirectiveClose" | .sectionMarker => "SectionMarker"
  | .andWord => "And" | .orWord => "Or" | .trueWord => "True" | .falseWord => "False"
  | .ifWord => "If" | .elseWord => "Else" | .choiceWord => "Choice" | .gotoWord => "Goto"
  | .endWord => "End" | .speakerWord => "Speaker" | .awaitWord => "Await"
  | .newline => "Newline" | .endOfFile => "Eof"

/-- What a token is and what it carries. -/
inductive Lexeme where
  | mark (mark : Mark)
  | identifier (name : String)
  | string (value : String)
  | number (value : Float)
  | text (value : String)
  deriving DecidableEq, Repr

/-- What a token is, whatever it carries. -/
inductive LexemeKind where
  | mark (mark : Mark)
  | identifier
  | string
  | number
  | text
  deriving DecidableEq, Repr

/-- What a lexeme is. -/
def Lexeme.kind : Lexeme → LexemeKind
  | .mark m => .mark m
  | .identifier _ => .identifier
  | .string _ => .string
  | .number _ => .number
  | .text _ => .text

/-- The name of a kind of lexeme in messages. -/
def LexemeKind.name : LexemeKind → String
  | .mark m => m.name
  | .identifier => "Identifier"
  | .string => "String"
  | .number => "Number"
  | .text => "Text"

/-- A lexeme at the span it was written at. -/
structure Token where
  lexeme : Lexeme
  span : Span
  deriving DecidableEq, Repr

/-- Whether a token is a mark. -/
def Token.is (t : Token) (m : Mark) : Bool := t.lexeme = .mark m

/-- What a scan refuses. -/
inductive ScanError where
  | unexpectedCharacter (character : Char) (offset : Nat)
  | unterminatedString (span : Span)
  | unknownEscape (character : Char) (span : Span)
  deriving DecidableEq, Repr

/-- A scan error in a sentence. -/
def ScanError.message : ScanError → String
  | .unexpectedCharacter c _ => "Unexpected character: " ++ Text.quotedSingle c
  | .unterminatedString _ => "Unterminated string"
  | .unknownEscape c _ => "Unknown escape character " ++ Text.quotedSingle c

end Colloquy
