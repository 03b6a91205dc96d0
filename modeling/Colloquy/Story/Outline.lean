import Colloquy.Story.Basic

/-!
# Outlines

The spans of a story in the order of a walk through it: what stands where, from the sections down to
the operators.  A block closes with the number of its statements that control does not go on from.
-/

namespace Colloquy

/-- A row of an outline. -/
inductive OutlineRow where
  | part (what : String) (span : Span)
  /-- The end of a block, with the number of its terminal statements. -/
  | blockEnd (terminals : Nat)
  deriving DecidableEq, Repr

namespace Outline

/-- The name of an expression's form. -/
def exprName : Expr → String
  | .literal .. => "literal"
  | .variable _ => "variable"
  | .unary .. => "unary"
  | .binary .. => "binary"
  | .assign .. => "assignment"
  | .group _ => "grouping"
  | .call .. => "call"

mutual

/-- The rows of an expression. -/
def ofExpr (e : Expr) : List OutlineRow :=
  .part (exprName e) e.span :: match e with
    | .literal .. | .variable _ => []
    | .unary op e => .part "operator" op.span :: ofExpr e
    | .binary op l r => ofExpr l ++ .part "operator" op.span :: ofExpr r
    | .assign _ op e => .part "operator" op.span :: ofExpr e
    | .group e => ofExpr e
    | .call f args _ _ => .part "callee" f.span :: ofExprs args

/-- The rows of expressions. -/
def ofExprs : List Expr → List OutlineRow
  | [] => []
  | e :: es => ofExpr e ++ ofExprs es

end

/-- The rows of a stretch of text. -/
def ofSegment : Segment → List OutlineRow
  | .text t => [.part "text" t.span]
  | .placeholder e => ofExpr e

/-- The rows inside hash data. -/
def ofHash (h : HashBlock) : List OutlineRow :=
  h.entries.flatMap fun e => .part "key" e.key.span :: ofExprs e.values

/-- The rows of a directive. -/
def ofDirective (d : Spanned Directive) : List OutlineRow :=
  .part "directive" d.span :: match d.val with
    | .auto => []
    | .speed e | .pause e => ofExpr e
    | .goto x => [.part "target" x.span]

/-- The rows inside a line. -/
def ofLine (l : Line) : List OutlineRow :=
  l.speakers.map (fun s => .part "speaker" s.ident.span)
    ++ l.text.flatMap ofSegment
    ++ l.directives.flatMap ofDirective
    ++ match l.hash with
      | none => []
      | some h => .part "hash" h.span :: ofHash h

/-- The end of a block. -/
def blockEnd (b : Block) : OutlineRow := .blockEnd (b.filter Stmt.isTerminal).length

/-- The rows of an optional target. -/
def ofTarget (target : Option Ident) : List OutlineRow :=
  target.toList.map fun x => .part "target" x.span

mutual

/-- The rows of a statement. -/
def ofStmt : Stmt → List OutlineRow
  | .line l => .part "line" l.span :: ofLine l
  | .instruction e => .part "instruction" e.span :: ofExpr e
  | .goto x => [.part "goto" x.span]
  | .finish s => [.part "end" s]
  | .conditional branches otherwise s =>
    .part "if" s :: (ofBranches branches ++ ofBody otherwise)
  | .choice items s => .part "choice" s :: ofItems items
  | .hash h => .part "hash" h.span :: ofHash h
  | .speaker x h s => .part "speaker" s :: .part "name" x.span :: ofHash h

/-- The rows of statements. -/
def ofStmts : List Stmt → List OutlineRow
  | [] => []
  | s :: ss => ofStmt s ++ ofStmts ss

/-- The rows of branches. -/
def ofBranches : List (Expr × List Stmt) → List OutlineRow
  | [] => []
  | (e, body) :: rest => ofExpr e ++ (ofStmts body ++ blockEnd body :: ofBranches rest)

/-- The rows of a body that may be missing. -/
def ofBody : Option (List Stmt) → List OutlineRow
  | none => []
  | some body => ofStmts body ++ [blockEnd body]

/-- The rows of an item. -/
def ofItem : ChoiceItem → List OutlineRow
  | .option guard text target body s =>
    .part "option" s ::
      (guard.toList.flatMap ofExpr ++ text.flatMap ofSegment ++ ofTarget target ++ ofBody body)
  | .filter branches otherwise s =>
    .part "filter" s :: (ofFilter branches ++ ofOtherwise otherwise)

/-- The rows of items. -/
def ofItems : List ChoiceItem → List OutlineRow
  | [] => []
  | i :: is => ofItem i ++ ofItems is

/-- The rows of the branches of a filter. -/
def ofFilter : List (Expr × List ChoiceItem) → List OutlineRow
  | [] => []
  | (e, items) :: rest => ofExpr e ++ (ofItems items ++ ofFilter rest)

/-- The rows of the last branch of a filter. -/
def ofOtherwise : Option (List ChoiceItem) → List OutlineRow
  | none => []
  | some items => ofItems items

end

/-- The rows of a section. -/
def ofSection (s : Section) : List OutlineRow :=
  .part "section" s.name.span :: .part "header" s.header :: ofBody (some s.body)

end Outline

/-- The outline of a story. -/
def Story.outline (s : Story) : List OutlineRow := s.flatMap Outline.ofSection

end Colloquy
