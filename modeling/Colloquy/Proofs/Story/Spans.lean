import Colloquy.Proofs.Source.Column
import Colloquy.Story.Basic

/-!
# The spans of a story

`On P` says that the spans in a part of a story start and stop at offsets with `P`, as far as anything is
ever reported at them.  The span of an expression or a statement is put together from spans in it, so it
is among them.
-/

namespace Colloquy

variable (P : Nat → Prop)

/-- Of an expression and all expressions in it. -/
inductive Expr.On : Expr → Prop where
  | literal {v : Literal} {s : Span} : s.On P → On (.literal v s)
  | «variable» {x : Ident} : x.span.On P → On (.variable x)
  | unary {op : Spanned UnaryOp} {e : Expr} : op.span.On P → On e → On (.unary op e)
  | binary {op : Spanned BinaryOp} {left right : Expr} : On left → On right → On (.binary op left right)
  | assign {x : Ident} {op : Spanned AssignOp} {e : Expr} : x.span.On P → On e → On (.assign x op e)
  | group {e : Expr} : On e → On (.group e)
  | call {f : Ident} {args : List Expr} {awaited : Option Span} {close : Span} :
      f.span.On P → (∀ e ∈ args, On e) → (∀ s, awaited = some s → s.On P) → close.On P →
      On (.call f args awaited close)

/-- Of a stretch of text. -/
def Segment.On : Segment → Prop
  | .text t => t.span.On P
  | .placeholder e => e.On P

/-- Of a directive. -/
def Directive.On : Directive → Prop
  | .auto => True
  | .speed e => e.On P
  | .pause e => e.On P
  | .goto x => x.span.On P

/-- Of a key of hash data and its values. -/
structure HashEntry.On (e : HashEntry) : Prop where
  key : e.key.span.On P
  values : ∀ v ∈ e.values, v.On P

/-- Of hash data. -/
structure HashBlock.On (h : HashBlock) : Prop where
  entries : ∀ e ∈ h.entries, e.On P
  span : h.span.On P

/-- Of a line. -/
structure Line.On (l : Line) : Prop where
  speakers : ∀ s ∈ l.speakers, s.ident.span.On P
  text : ∀ s ∈ l.text, s.On P
  directives : ∀ d ∈ l.directives, d.val.On P
  hash : ∀ h, l.hash = some h → h.On P
  span : l.span.On P

mutual

/-- Of a statement and all that it holds. -/
inductive Stmt.On : Stmt → Prop where
  | line {l : Line} : l.On P → Stmt.On (.line l)
  | instruction {e : Expr} : e.On P → Stmt.On (.instruction e)
  | goto {x : Ident} : x.span.On P → Stmt.On (.goto x)
  | finish {s : Span} : s.On P → Stmt.On (.finish s)
  | conditional {branches : List (Expr × List Stmt)} {otherwise : Option (List Stmt)} {s : Span} :
      (∀ b ∈ branches, b.1.On P) → (∀ b ∈ branches, ∀ x ∈ b.2, Stmt.On x) →
      (∀ b, otherwise = some b → ∀ x ∈ b, Stmt.On x) → s.On P →
      Stmt.On (.conditional branches otherwise s)
  | choice {items : List ChoiceItem} {s : Span} :
      (∀ i ∈ items, ChoiceItem.On i) → s.On P → Stmt.On (.choice items s)
  | hash {h : HashBlock} : h.On P → Stmt.On (.hash h)
  | speaker {x : Ident} {h : HashBlock} {s : Span} : h.On P → s.On P → Stmt.On (.speaker x h s)

/-- Of an item of a choice and all that it holds. -/
inductive ChoiceItem.On : ChoiceItem → Prop where
  | option {guard : Option Expr} {text : List Segment} {target : Option Ident}
      {body : Option (List Stmt)} {s : Span} :
      (∀ e, guard = some e → e.On P) → (∀ x ∈ text, x.On P) → (∀ x, target = some x → x.span.On P) →
      (∀ b, body = some b → ∀ x ∈ b, Stmt.On x) → ChoiceItem.On (.option guard text target body s)
  | filter {branches : List (Expr × List ChoiceItem)} {otherwise : Option (List ChoiceItem)} {s : Span} :
      (∀ b ∈ branches, b.1.On P) → (∀ b ∈ branches, ∀ i ∈ b.2, ChoiceItem.On i) →
      (∀ is, otherwise = some is → ∀ i ∈ is, ChoiceItem.On i) →
      ChoiceItem.On (.filter branches otherwise s)

end

/-- Of a section. -/
structure Section.On (s : Section) : Prop where
  name : s.name.span.On P
  body : ∀ x ∈ s.body, x.On P

/-- Of a story. -/
def Story.On (s : Story) : Prop := ∀ x ∈ s, x.On P

variable {P}

/-- The span of an expression is put together from spans in it. -/
theorem Expr.On.span {e : Expr} (h : e.On P) : e.span.On P := by
  induction h with
  | literal hs => rwa [Expr.span]
  | «variable» hx => rwa [Expr.span]
  | unary hop _ ih => exact hop.range ih
  | binary _ _ ihl ihr => exact ihl.range ihr
  | assign hx _ ih => exact hx.range ih
  | group _ ih => rwa [Expr.span]
  | @call f args awaited close hf _ hawaited hclose _ =>
    cases awaited with
    | none => exact hf.range hclose
    | some s => exact (hawaited s rfl).range hclose

/-- So is the span of a statement. -/
theorem Stmt.On.span {s : Stmt} (h : s.On P) : s.span.On P := by
  cases h with
  | line hl => exact hl.span
  | instruction he => exact he.span
  | goto hx => exact hx
  | finish hs => exact hs
  | conditional _ _ _ hs => exact hs
  | choice _ hs => exact hs
  | hash hh => exact hh.span
  | speaker _ hs => exact hs

end Colloquy
