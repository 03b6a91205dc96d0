import Colloquy.Diagnostic
import Colloquy.Parser.Expr
import Colloquy.Proofs.Story.Spans

/-!
# Parsers stay among the spans of their tokens

All spans a parser makes are spans of tokens, or cover spans from the start of one to the end of another.
So offsets where tokens start and stop are the only ones where anything it makes starts and stops.
`Stays P p Q` says this of a parser: from tokens that start and stop at offsets with `P`, its result has `Q`,
and the errors that it stops with or records point at such offsets.  There is one rule for each way to put
parsers together, and one lemma for each parser of an expression.
-/

namespace Colloquy

/-- A parse error points at offsets with a property. -/
def ParseError.On (P : Nat → Prop) (e : ParseError) : Prop := (Diagnostic.parse e).span.On P

/-- Of all that a cursor has. -/
structure Cursor.On (P : Nat → Prop) (c : Cursor) : Prop where
  rest : ∀ t ∈ c.rest, t.span.On P
  last : c.last.span.On P
  errors : ∀ e ∈ c.errors, e.On P

namespace Cursor.On

variable {P : Nat → Prop} {c : Cursor}

/-- The token before a cursor starts and stops at offsets with the property. -/
theorem next (h : c.On P) : c.next.span.On P := by
  unfold Cursor.next
  cases hrest : c.rest with
  | nil => exact h.last
  | cons t ts => exact h.rest t (by rw [hrest]; exact List.mem_cons_self ..)

/-- A token may be taken. -/
theorem advance (h : c.On P) : c.advance.On P := by
  unfold Cursor.advance
  split
  · exact h
  · next t ts heq =>
    have hrest := h.rest
    rw [heq, List.forall_mem_cons] at hrest
    exact ⟨hrest.2, hrest.1, h.errors⟩

/-- An error at such offsets may be recorded. -/
theorem report {e : ParseError} (h : c.On P) (he : e.On P) : (c.report e).On P where
  rest := h.rest
  last := h.last
  errors f hf := by
    rcases List.mem_append.mp hf with hf | hf
    · exact h.errors f hf
    · rwa [List.mem_singleton.mp hf]

/-- Line breaks may be skipped. -/
theorem skipBreaks {errors : List ParseError} {last : Token} {ts : List Token}
    (h : (⟨ts, last, errors⟩ : Cursor).On P) : (Cursor.skipBreaks errors last ts).On P := by
  induction ts generalizing last with
  | nil => exact h
  | cons t ts ih =>
    rw [Cursor.skipBreaks]
    split
    · exact ih h.advance
    · exact h

/-- The rest of a line may be skipped. -/
theorem skipLine {errors : List ParseError} {last : Token} {ts : List Token}
    (h : (⟨ts, last, errors⟩ : Cursor).On P) : (Cursor.skipLine errors last ts).On P := by
  induction ts generalizing last with
  | nil => exact h
  | cons t ts ih =>
    rw [Cursor.skipLine]
    split
    · exact h
    · split
      · exact h.advance
      · exact ih h.advance

end Cursor.On

namespace Parse

variable {α β : Type} {P : Nat → Prop}

/-- How a parser ended. -/
inductive Stayed (P : Nat → Prop) (Q : α → Prop) : EStateM.Result Halt Cursor α → Prop where
  | ok {a : α} {c : Cursor} : Q a → c.On P → Stayed P Q (.ok a c)
  | error {e : ParseError} {c : Cursor} : e.On P → c.On P → Stayed P Q (.error (.error e) c)
  | exhausted {c : Cursor} : c.On P → Stayed P Q (.error .exhausted c)

/-- A parser makes spans of those it is given. -/
def Stays (P : Nat → Prop) (p : Parse α) (Q : α → Prop) : Prop := ∀ c : Cursor, c.On P → Stayed P Q (p c)

namespace Stays

variable {p : Parse α} {Q : α → Prop} {R : β → Prop}

theorem pure {a : α} (h : Q a) : Stays P (Pure.pure a : Parse α) Q := fun _ hc => .ok h hc

theorem fail {e : ParseError} (h : e.On P) : Stays P (Parse.fail e : Parse α) Q := fun _ hc => .error h hc

theorem exhausted : Stays P (Parse.exhausted : Parse α) Q := fun _ hc => .exhausted hc

/-- A parser and what is done with its result stay among the offsets if both do. -/
theorem bind {f : α → Parse β} (h : Stays P p Q) (hf : ∀ a, Q a → Stays P (f a) R) :
    Stays P (p >>= f) R := by
  intro c hc
  have hp := h c hc
  show Stayed P R (EStateM.bind p f c)
  rw [EStateM.bind]
  generalize p c = x at hp ⊢
  cases hp with
  | ok ha hc => exact hf _ ha _ hc
  | error he hc => exact .error he hc
  | exhausted hc => exact .exhausted hc

end Stays

/-! ## Small parsers -/

theorem peek_on : Stays P peek fun t => t.span.On P := fun _ hc => .ok hc.next hc

theorem lastSpan_on : Stays P lastSpan (Span.On P) := fun _ hc => .ok hc.last hc

theorem advance_on : Stays P advance fun _ => True := fun _ hc => .ok trivial hc.advance

theorem skipBreaks_on : Stays P skipBreaks fun _ => True := fun _ hc => .ok trivial (.skipBreaks hc)

theorem report_on {e : ParseError} (h : e.On P) : Stays P (report e) fun _ => True :=
  fun _ hc => .ok trivial (hc.report h)

/-- Something is made of the next token or nothing. -/
theorem accept?_on {f : Token → Option α} {Q : α → Prop} (hf : ∀ t a, t.span.On P → f t = some a → Q a) :
    Stays P (accept? f) fun o => ∀ a, o = some a → Q a := by
  intro c hc
  unfold accept?
  split
  · next a heq =>
    obtain ⟨t, ht, ha⟩ := Option.bind_eq_some_iff.mp heq
    refine .ok ?_ hc.advance
    rintro _ ⟨⟩
    exact hf t a (hc.rest t (List.mem_of_mem_head? ht)) ha
  · exact .ok (by simp) hc

/-- A mark that is accepted stands at such offsets. -/
theorem accept_on (m : Mark) : Stays P (accept m) fun o => ∀ s, o = some s → s.On P := by
  refine accept?_on fun t s ht hs => ?_
  split at hs
  · cases hs
    exact ht
  · cases hs

/-- So does an operator that is accepted. -/
theorem operator_on (f : Mark → Option α) :
    Stays P (operator f) fun o => ∀ op, o = some op → op.span.On P := by
  refine accept?_on fun t op ht hop => ?_
  split at hop
  · obtain ⟨a, -, rfl⟩ := Option.map_eq_some_iff.mp hop
    exact ht
  · cases hop

/-- So does a mark that is expected, and the error if it is missing. -/
theorem expect_on (m : Mark) {error : Token → ParseError} (herror : ∀ t, t.span.On P → (error t).On P) :
    Stays P (expect m error) (Span.On P) := by
  refine (accept_on m).bind fun o ho => ?_
  cases o with
  | some span => exact .pure (ho span rfl)
  | none => exact peek_on.bind fun t ht => .fail (herror t ht)

theorem require_on (m : Mark) : Stays P (require m) (Span.On P) := expect_on m fun _ ht => ht

theorem closeBrace_on {opener : Span} (h : opener.On P) : Stays P (closeBrace opener) (Span.On P) :=
  expect_on .closeBrace fun _ _ => h

theorem closeParen_on {opener : Span} (h : opener.On P) : Stays P (closeParen opener) (Span.On P) :=
  expect_on .closeParen fun _ _ => h

/-- So does the end of a line, and the error if it is missing. -/
theorem lineEnd_on : Stays P lineEnd fun _ => True := by
  refine peek_on.bind fun t ht => ?_
  split
  · exact .pure trivial
  · split
    · exact advance_on
    · exact .fail ht

/-- So does a name. -/
theorem ident_on : Stays P ident fun x => x.span.On P := by
  refine peek_on.bind fun t ht => ?_
  split
  · exact advance_on.bind fun _ _ => .pure ht
  · exact .fail ht

/-- So does the name of a section. -/
theorem sectionName_on : Stays P sectionName fun x => x.span.On P := by
  refine (accept?_on (Q := fun x : Ident => x.span.On P) fun t x ht hx => ?_).bind fun o ho => ?_
  · split at hx
    · obtain ⟨word, -, rfl⟩ := Option.map_eq_some_iff.mp hx
      exact ht
    · cases hx
  · cases o with
    | some x => exact .pure (ho x rfl)
    | none => exact ident_on

/-- A parser that is recovered from gives its result or nothing, and why it stopped is recorded. -/
theorem recover_on {p : Parse α} {Q : α → Prop} (h : Stays P p Q) :
    Stays P (recover p) fun o => ∀ a, o = some a → Q a := by
  intro c hc
  have hp := h c hc
  unfold recover
  generalize p c = x at hp ⊢
  cases hp with
  | ok ha hc =>
    refine .ok ?_ hc
    rintro _ ⟨⟩
    exact ha
  | error he hc => exact .ok (by simp) (.skipLine (hc.report he))
  | exhausted hc => exact .exhausted hc

/-! ## Expressions -/

section

variable {operand expr : Parse Expr}

/-- The operators of one level and their operands stay among the offsets. -/
theorem chainRest_on (level : Level) (h : Stays P operand (Expr.On P)) (fuel : Nat) {left : Expr}
    (hleft : left.On P) : Stays P (chainRest level operand fuel left) (Expr.On P) := by
  induction fuel generalizing left with
  | zero => exact .exhausted
  | succ fuel ih =>
    refine (operator_on level).bind fun o _ => ?_
    cases o with
    | none => exact .pure hleft
    | some op => exact h.bind fun right hright => ih (.binary hleft hright)

/-- So do the levels above each other. -/
theorem climb_on (fuel : Nat) (levels : List Level) (h : Stays P operand (Expr.On P)) :
    Stays P (climb fuel levels operand) (Expr.On P) := by
  induction levels with
  | nil => exact h
  | cons level levels ih => exact ih.bind fun left hleft => chainRest_on level ih fuel hleft

/-- So do operators of one operand. -/
theorem unary_on (h : Stays P operand (Expr.On P)) (fuel : Nat) :
    Stays P (unary operand fuel) (Expr.On P) := by
  induction fuel with
  | zero => exact .exhausted
  | succ fuel ih =>
    refine (operator_on unaryOp?).bind fun o ho => ?_
    cases o with
    | none => exact h
    | some op => exact ih.bind fun e he => .pure (.unary (ho op rfl) he)

theorem literal?_on {t : Token} {e : Expr} (ht : t.span.On P) (he : literal? t = some e) : e.On P := by
  unfold literal? at he
  split at he <;> cases he <;> exact .literal ht

theorem ident?_on {t : Token} {x : Ident} (ht : t.span.On P) (hx : ident? t = some x) : x.span.On P := by
  unfold ident? at hx
  split at hx <;> cases hx
  exact ht

/-- So do arguments. -/
theorem arguments_on (h : Stays P expr (Expr.On P)) (fuel : Nat) :
    Stays P (arguments expr fuel) fun args => ∀ e ∈ args, e.On P := by
  induction fuel with
  | zero => exact .exhausted
  | succ fuel ih =>
    refine h.bind fun e he => (accept_on .comma).bind fun o _ => ?_
    cases o with
    | none => exact .pure (by simpa using he)
    | some _ => exact ih.bind fun es hes => .pure (List.forall_mem_cons.mpr ⟨he, hes⟩)

/-- So does a call, which covers its name, its arguments and the word that awaits it. -/
theorem call_on (fuel : Nat) (h : Stays P expr (Expr.On P)) {callee : Ident} {awaited : Option Span}
    (hcallee : callee.span.On P) (hawaited : ∀ s, awaited = some s → s.On P) :
    Stays P (call fuel expr callee awaited) (Expr.On P) := by
  refine lastSpan_on.bind fun opener hopener => (accept_on .closeParen).bind fun o ho => ?_
  cases o with
  | some close => exact .pure (.call hcallee (by simp) hawaited (ho close rfl))
  | none =>
    refine (arguments_on h fuel).bind fun args hargs => (closeParen_on hopener).bind fun close hclose => ?_
    exact .pure (.call hcallee hargs hawaited hclose)

/-- So does an operand without operators. -/
theorem primary_on (fuel : Nat) (h : Stays P expr (Expr.On P)) :
    Stays P (primary fuel expr) (Expr.On P) := by
  unfold primary
  refine (accept?_on (Q := Expr.On P) fun _ _ => literal?_on).bind fun o ho => ?_
  cases o with
  | some e => exact .pure (ho e rfl)
  | none =>
    refine (accept_on .awaitWord).bind fun o ho => ?_
    cases o with
    | some awaited =>
      have hawaited := ho awaited rfl
      refine ident_on.bind fun callee hcallee => (accept_on .openParen).bind fun o _ => ?_
      cases o with
      | none => exact .fail (hawaited.cover hcallee)
      | some _ => exact call_on fuel h hcallee (by simpa using hawaited)
    | none =>
      refine (accept?_on (Q := fun x : Ident => x.span.On P) fun _ _ => ident?_on).bind fun o ho => ?_
      cases o with
      | some x =>
        refine (accept_on .openParen).bind fun o _ => ?_
        cases o with
        | some _ => exact call_on fuel h (ho x rfl) (by simp)
        | none => exact .pure (.variable (ho x rfl))
      | none =>
        refine (accept_on .openParen).bind fun o ho => ?_
        cases o with
        | some opener =>
          exact h.bind fun e he => (closeParen_on (ho opener rfl)).bind fun _ _ => .pure (.group he)
        | none => exact peek_on.bind fun t ht => .fail ht

theorem expr_on (fuel : Nat) : Stays P (Parse.expr fuel) (Expr.On P) := by
  induction fuel with
  | zero => exact .exhausted
  | succ fuel ih => exact climb_on fuel levels (unary_on (primary_on fuel ih) _)

/-- So does an instruction. -/
theorem instruction_on (fuel : Nat) : Stays P (instruction fuel) (Expr.On P) := by
  refine (expr_on fuel).bind fun left hleft => (operator_on assignOp?).bind fun o _ => ?_
  cases o with
  | none => exact .pure hleft
  | some op =>
    refine (expr_on fuel).bind fun value hvalue => ?_
    split
    · cases hleft with
      | «variable» hx => exact .pure (.assign hx hvalue)
    · exact .fail hleft.span

end

end Parse

end Colloquy
