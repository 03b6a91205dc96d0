import Colloquy.Number.Printed
import Colloquy.Story.Basic
import Colloquy.Text.Quoted

/-!
# Stories as text

A story with all of its structure made visible: every node between parentheses with its operator in
front, lists between brackets.  Grouping leaves no trace, since the structure shows it.
-/

namespace Colloquy

/-- Join texts with a separator between them. -/
def joined (separator : String) (parts : List String) : String := separator.intercalate parts

/-- A text between braces. -/
def braced (s : String) : String := "\x7b" ++ s ++ "\x7d"

/-- A text between brackets. -/
def bracketed (s : String) : String := "[" ++ s ++ "]"

/-- A truth value as text. -/
def boolText (b : Bool) : String := if b then "true" else "false"

/-- A literal as text. -/
def Literal.render : Literal → String
  | .float x => Number.plain x
  | .string s => Text.quoted s
  | .bool b => boolText b

mutual

/-- An expression as text. -/
def Expr.render : Expr → String
  | .literal v _ => v.render
  | .variable x => x.name
  | .unary op e => "(" ++ op.val.symbol ++ " " ++ e.render ++ ")"
  | .binary op l r => "(" ++ op.val.symbol ++ " " ++ l.render ++ " " ++ r.render ++ ")"
  | .assign x op e => "(" ++ op.val.symbol ++ " " ++ x.name ++ " " ++ e.render ++ ")"
  | .group e => e.render
  | .call f args awaited _ =>
    let call := "(call " ++ f.name ++ Expr.renderArgs args ++ ")"
    if awaited.isSome then "(await " ++ call ++ ")" else call

/-- Arguments as text, each after a blank. -/
def Expr.renderArgs : List Expr → String
  | [] => ""
  | e :: es => " " ++ e.render ++ Expr.renderArgs es

end

/-- A speaker as text. -/
def SpeakerRef.render : SpeakerRef → String
  | .named x => x.name
  | .variable x => braced x.name

/-- A stretch of text. -/
def Segment.render : Segment → String
  | .text t => Text.quoted t.val
  | .placeholder e => braced e.render

/-- Stretches of text, between brackets. -/
def renderSegments (segments : List Segment) : String :=
  bracketed (joined " " (segments.map Segment.render))

/-- A directive as text. -/
def Directive.render : Directive → String
  | .auto => "auto"
  | .speed e => "(speed " ++ e.render ++ ")"
  | .pause e => "(pause " ++ e.render ++ ")"
  | .goto x => "(goto " ++ x.name ++ ")"

/-- A key and its values as text. -/
def HashEntry.render (e : HashEntry) : String :=
  if e.values.isEmpty then e.key.name
  else e.key.name ++ ": " ++ joined " " (e.values.map Expr.render)

/-- Hash data as text. -/
def HashBlock.render (h : HashBlock) : String :=
  "#" ++ braced (joined ", " (h.entries.map HashEntry.render))

/-- A line as text. -/
def Line.render (l : Line) : String :=
  let directives :=
    if l.directives.isEmpty then ""
    else " <<" ++ joined " " (l.directives.map fun d => d.val.render) ++ ">>"
  let hash := match l.hash with
    | some h => " " ++ h.render
    | none => ""
  "(line " ++ bracketed (joined " " (l.speakers.map SpeakerRef.render)) ++ " "
    ++ renderSegments l.text ++ directives ++ hash ++ ")"

mutual

/-- A statement as text. -/
def Stmt.render : Stmt → String
  | .line l => l.render
  | .instruction e => "(~ " ++ e.render ++ ")"
  | .goto x => "(goto " ++ x.name ++ ")"
  | .finish _ => "(end)"
  | .conditional branches otherwise _ =>
    "(if" ++ Stmt.renderBranches branches ++ Stmt.renderElse otherwise ++ ")"
  | .choice items _ => "(choice " ++ joined " " (ChoiceItem.renderAll items) ++ ")"
  | .hash h => h.render
  | .speaker x h _ => "(speaker " ++ x.name ++ " " ++ h.render ++ ")"

/-- Statements as texts. -/
def Stmt.renderAll : List Stmt → List String
  | [] => []
  | s :: ss => s.render :: Stmt.renderAll ss

/-- Branches as text, each after a blank. -/
def Stmt.renderBranches : List (Expr × List Stmt) → String
  | [] => ""
  | (e, body) :: rest =>
    " " ++ e.render ++ " " ++ bracketed (joined " " (Stmt.renderAll body))
      ++ Stmt.renderBranches rest

/-- The last branch as text. -/
def Stmt.renderElse : Option (List Stmt) → String
  | none => ""
  | some body => " else " ++ bracketed (joined " " (Stmt.renderAll body))

/-- An item of a choice as text. -/
def ChoiceItem.render : ChoiceItem → String
  | .option guard text target body _ =>
    let guard := match guard with
      | some e => " " ++ bracketed e.render
      | none => ""
    let target := match target with
      | some x => " -> " ++ x.name
      | none => ""
    "(*" ++ guard ++ " " ++ renderSegments text ++ target ++ ChoiceItem.renderBody body ++ ")"
  | .filter branches otherwise _ =>
    "(filter" ++ ChoiceItem.renderBranches branches ++ ChoiceItem.renderElse otherwise ++ ")"

/-- The body of an option as text. -/
def ChoiceItem.renderBody : Option (List Stmt) → String
  | none => ""
  | some body => " " ++ bracketed (joined " " (Stmt.renderAll body))

/-- Items as texts. -/
def ChoiceItem.renderAll : List ChoiceItem → List String
  | [] => []
  | i :: is => i.render :: ChoiceItem.renderAll is

/-- Branches of a filter as text, each after a blank. -/
def ChoiceItem.renderBranches : List (Expr × List ChoiceItem) → String
  | [] => ""
  | (e, items) :: rest =>
    " " ++ e.render ++ " " ++ bracketed (joined " " (ChoiceItem.renderAll items))
      ++ ChoiceItem.renderBranches rest

/-- The last branch of a filter as text. -/
def ChoiceItem.renderElse : Option (List ChoiceItem) → String
  | none => ""
  | some items => " else " ++ bracketed (joined " " (ChoiceItem.renderAll items))

end

/-- A block as text. -/
def Block.render (b : Block) : String := bracketed (joined " " (Stmt.renderAll b))

/-- A section as text. -/
def Section.render (s : Section) : String :=
  "(section " ++ s.name.name ++ " " ++ Block.render s.body ++ ")"

/-- A story as text, one section to a line. -/
def Story.render (s : Story) : String := String.join (s.map fun sec => sec.render ++ "\n")

end Colloquy
