import Colloquy.Parser.Line
import Colloquy.Proofs.Story.Meets
import Colloquy.Proofs.Token.Unsigned

/-!
# What parsers give

Numbers come into a story from tokens and from nowhere else.  `Gives P p Q` says that a parser which
finds only numbers with `P` leaves only such numbers behind, and that its result has `Q`.  One rule for
each way to put parsers together, then the parsers of expressions.

Expressions are put together in a few ways only.  `Inherited P E` says that all of them keep `E`, and
then every expression that is parsed has it.  An assignment is not among them: it is made by an
instruction alone.
-/

namespace Colloquy

/-- Of the numbers a cursor has before it. -/
def Cursor.Floats (P : Float → Prop) (c : Cursor) : Prop := ∀ t ∈ c.rest, t.lexeme.Floats P

namespace Parse

variable {α β : Type} {P : Float → Prop}

/-- How a parser ended. -/
inductive Gave (P : Float → Prop) (Q : α → Prop) : EStateM.Result Halt Cursor α → Prop where
  | ok {a : α} {c : Cursor} : Q a → c.Floats P → Gave P Q (.ok a c)
  | error {e : Halt} {c : Cursor} : c.Floats P → Gave P Q (.error e c)

/-- What a parser gives. -/
def Gives (P : Float → Prop) (p : Parse α) (Q : α → Prop) : Prop :=
  ∀ c : Cursor, c.Floats P → Gave P Q (p c)

namespace Gives

variable {p : Parse α} {Q : α → Prop} {R : β → Prop}

theorem pure {a : α} (h : Q a) : Gives P (Pure.pure a : Parse α) Q := fun _ hc => .ok h hc

theorem fail (e : ParseError) : Gives P (Parse.fail e : Parse α) Q := fun _ hc => .error hc

theorem exhausted : Gives P (Parse.exhausted : Parse α) Q := fun _ hc => .error hc

/-- A parser and what is done with its result give what the second one gives, if the first one gives what
the second one asks for. -/
theorem bind {f : α → Parse β} (h : Gives P p Q) (hf : ∀ a, Q a → Gives P (f a) R) :
    Gives P (p >>= f) R := by
  intro c hc
  have hp := h c hc
  show Gave P R (EStateM.bind p f c)
  rw [EStateM.bind]
  generalize p c = x at hp ⊢
  cases hp with
  | ok ha hc => exact hf _ ha _ hc
  | error hc => exact .error hc

/-- What is known of a result may be weakened. -/
theorem mono {Q' : α → Prop} (h : Gives P p Q) (hQ : ∀ a, Q a → Q' a) : Gives P p Q' := by
  intro c hc
  have hp := h c hc
  generalize p c = x at hp ⊢
  cases hp with
  | ok ha hc => exact .ok (hQ _ ha) hc
  | error hc => exact .error hc

end Gives

/-! ## Cursors -/

/-- Tokens that are left hold no other floats when one is taken. -/
theorem advance_floats {c : Cursor} (h : c.Floats P) : c.advance.Floats P := by
  unfold Cursor.advance
  split
  · exact h
  · next t ts heq => exact fun u hu => h u (heq ▸ List.mem_cons_of_mem _ hu)

/-- Nor when line breaks are skipped. -/
theorem skipBreaks_floats (errors : List ParseError) (last : Token) (ts : List Token)
    (h : ∀ t ∈ ts, t.lexeme.Floats P) : (Cursor.skipBreaks errors last ts).Floats P := by
  induction ts generalizing last with
  | nil => exact h
  | cons t ts ih =>
    rw [Cursor.skipBreaks]
    split
    · exact ih t fun u hu => h u (List.mem_cons_of_mem _ hu)
    · exact h

/-- Nor when the rest of a line is skipped. -/
theorem skipLine_floats (errors : List ParseError) (last : Token) (ts : List Token)
    (h : ∀ t ∈ ts, t.lexeme.Floats P) : (Cursor.skipLine errors last ts).Floats P := by
  induction ts generalizing last with
  | nil => exact h
  | cons t ts ih =>
    have hts : ∀ u ∈ ts, u.lexeme.Floats P := fun u hu => h u (List.mem_cons_of_mem _ hu)
    rw [Cursor.skipLine]
    split
    · exact h
    · split
      · exact hts
      · exact ih t hts

/-! ## Small parsers -/

theorem peek_gives : Gives P peek fun _ => True := fun _ hc => .ok trivial hc

theorem lastSpan_gives : Gives P lastSpan fun _ => True := fun _ hc => .ok trivial hc

theorem advance_gives : Gives P advance fun _ => True := fun _ hc => .ok trivial (advance_floats hc)

theorem skipBreaks_gives : Gives P skipBreaks fun _ => True :=
  fun _ hc => .ok trivial (skipBreaks_floats _ _ _ hc)

theorem report_gives (e : ParseError) : Gives P (report e) fun _ => True := fun _ hc => .ok trivial hc

/-- Something is made of the next token or nothing. -/
theorem accept?_gives {f : Token → Option α} {Q : α → Prop}
    (hf : ∀ t a, t.lexeme.Floats P → f t = some a → Q a) :
    Gives P (accept? f) fun o => ∀ a, o = some a → Q a := by
  intro c hc
  unfold accept?
  split
  · next a heq =>
    obtain ⟨t, ht, ha⟩ := Option.bind_eq_some_iff.mp heq
    refine .ok ?_ (advance_floats hc)
    rintro _ ⟨⟩
    exact hf t a (hc t (List.mem_of_mem_head? ht)) ha
  · exact .ok (by simp) hc

theorem accept_gives (m : Mark) : Gives P (accept m) fun _ => True :=
  (accept?_gives (Q := fun _ => True) fun _ _ _ _ => trivial).mono fun _ _ => trivial

theorem operator_gives (f : Mark → Option α) : Gives P (operator f) fun _ => True :=
  (accept?_gives (Q := fun _ => True) fun _ _ _ _ => trivial).mono fun _ _ => trivial

/-- A mark that is expected brings no float. -/
theorem expect_gives (m : Mark) (error : Token → ParseError) : Gives P (expect m error) fun _ => True := by
  refine (accept_gives m).bind fun o _ => ?_
  cases o with
  | some span => exact .pure trivial
  | none => exact peek_gives.bind fun t _ => .fail _

/-- The end of a line brings no float. -/
theorem lineEnd_gives : Gives P lineEnd fun _ => True := by
  refine peek_gives.bind fun t _ => ?_
  split
  · exact .pure trivial
  · split
    · exact advance_gives
    · exact .fail _

/-- A name brings no float. -/
theorem ident_gives : Gives P ident fun _ => True := by
  refine peek_gives.bind fun t _ => ?_
  split
  · exact advance_gives.bind fun _ _ => .pure trivial
  · exact .fail _

/-- The name of a section brings no float. -/
theorem sectionName_gives : Gives P sectionName fun _ => True := by
  refine (accept?_gives (Q := fun _ => True) fun _ _ _ _ => trivial).bind fun o _ => ?_
  cases o with
  | some x => exact .pure trivial
  | none => exact ident_gives

/-- A parser that is recovered from gives its result or nothing. -/
theorem recover_gives {p : Parse α} {Q : α → Prop} (h : Gives P p Q) :
    Gives P (recover p) fun o => ∀ a, o = some a → Q a := by
  intro c hc
  have hp := h c hc
  unfold recover
  generalize p c = x at hp ⊢
  cases hp with
  | ok ha hc =>
    refine .ok ?_ hc
    rintro _ ⟨⟩
    exact ha
  | @error e _ hc =>
    cases e with
    | error e => exact .ok (by simp) (skipLine_floats _ _ _ hc)
    | exhausted => exact .error hc

/-! ## Expressions -/

/-- A property of expressions that passes from the parts of an expression to the whole, if numbers are
with `P`. -/
structure Inherited (P : Float → Prop) (E : Expr → Prop) : Prop where
  literal {v : Literal} {span : Span} : v.Floats P → E (.literal v span)
  name {x : Ident} : E (.variable x)
  group {e : Expr} : E e → E (.group e)
  unary {op : Spanned UnaryOp} {e : Expr} : E e → E (.unary op e)
  binary {op : Spanned BinaryOp} {left right : Expr} : E left → E right → E (.binary op left right)
  call {f : Ident} {args : List Expr} {awaited : Option Span} {close : Span} :
    (∀ e ∈ args, E e) → E (.call f args awaited close)
  /-- The value of an assignment has it if the assignment does. -/
  value {x : Ident} {op : Spanned AssignOp} {e : Expr} : E (.assign x op e) → E e

/-- What holds of every float in an expression is inherited. -/
theorem Inherited.floats (P : Float → Prop) : Inherited P (Expr.Floats P) where
  literal h := by rwa [Expr.Floats]
  name := by simp [Expr.Floats]
  group h := by rwa [Expr.Floats]
  unary h := by rwa [Expr.Floats]
  binary hl hr := by
    rw [Expr.Floats]
    exact ⟨hl, hr⟩
  call h := by rwa [Expr.Floats, Expr.allFloats_iff]
  value h := by rwa [Expr.Floats] at h

/-- What is inherited holds of an instruction, and of the value if it assigns one. -/
theorem Inherited.instructs {E : Expr → Prop} (hE : Inherited P E) {e : Expr} (h : E e) :
    e.Instructs E := by
  cases e with
  | assign x op value => exact hE.value h
  | _ => exact h

section

variable {E : Expr → Prop} {operand expr : Parse Expr}

/-- The operators of one level give what their operands give, if it is inherited. -/
theorem chainRest_gives (hE : Inherited P E) (level : Level) (h : Gives P operand E) (fuel : Nat)
    {left : Expr} (hleft : E left) : Gives P (chainRest level operand fuel left) E := by
  induction fuel generalizing left with
  | zero => exact .exhausted
  | succ fuel ih =>
    refine (operator_gives level).bind fun o _ => ?_
    cases o with
    | none => exact .pure hleft
    | some op => exact h.bind fun right hright => ih (hE.binary hleft hright)

/-- So do the levels above each other. -/
theorem climb_gives (hE : Inherited P E) (fuel : Nat) (levels : List Level) (h : Gives P operand E) :
    Gives P (climb fuel levels operand) E := by
  induction levels with
  | nil => exact h
  | cons level levels ih => exact ih.bind fun left hleft => chainRest_gives hE level ih fuel hleft

/-- So do operators of one operand. -/
theorem unary_gives (hE : Inherited P E) (h : Gives P operand E) (fuel : Nat) :
    Gives P (unary operand fuel) E := by
  induction fuel with
  | zero => exact .exhausted
  | succ fuel ih =>
    refine (operator_gives unaryOp?).bind fun o _ => ?_
    cases o with
    | none => exact h
    | some op => exact ih.bind fun e he => .pure (hE.unary he)

/-- A literal gives what is inherited from the float of its token. -/
theorem literal?_inherits (hE : Inherited P E) {t : Token} {e : Expr} (ht : t.lexeme.Floats P)
    (he : literal? t = some e) : E e := by
  unfold literal? at he
  split at he
  · cases he
    exact hE.literal trivial
  · cases he
    exact hE.literal trivial
  · next x heq =>
    cases he
    rw [heq] at ht
    exact hE.literal ht
  · cases he
    exact hE.literal trivial
  · cases he

/-- Each of the arguments gives what an expression gives. -/
theorem arguments_gives (h : Gives P expr E) (fuel : Nat) :
    Gives P (arguments expr fuel) fun args => ∀ e ∈ args, E e := by
  induction fuel with
  | zero => exact .exhausted
  | succ fuel ih =>
    refine h.bind fun e he => (accept_gives .comma).bind fun o _ => ?_
    cases o with
    | none => exact .pure (by simpa using he)
    | some _ => exact ih.bind fun es hes => .pure (List.forall_mem_cons.mpr ⟨he, hes⟩)

/-- A call gives what its arguments give, if it is inherited. -/
theorem call_gives (hE : Inherited P E) (fuel : Nat) (h : Gives P expr E) (callee : Ident)
    (awaited : Option Span) : Gives P (call fuel expr callee awaited) E := by
  refine lastSpan_gives.bind fun _ _ => (accept_gives .closeParen).bind fun o _ => ?_
  cases o with
  | some close => exact .pure (hE.call (by simp))
  | none =>
    refine (arguments_gives h fuel).bind fun args hargs => (expect_gives _ _).bind fun close _ => ?_
    exact .pure (hE.call hargs)

/-- An operand without operators gives what is inherited: a literal, a name, a call, or an expression in
parentheses. -/
theorem primary_gives (hE : Inherited P E) (fuel : Nat) (h : Gives P expr E) :
    Gives P (primary fuel expr) E := by
  unfold primary
  refine (accept?_gives (Q := E) fun _ _ => literal?_inherits hE).bind fun o ho => ?_
  cases o with
  | some e => exact .pure (ho e rfl)
  | none =>
    refine (accept_gives .awaitWord).bind fun o _ => ?_
    cases o with
    | some awaited =>
      refine ident_gives.bind fun callee _ => (accept_gives .openParen).bind fun o _ => ?_
      cases o with
      | none => exact .fail _
      | some _ => exact call_gives hE fuel h callee _
    | none =>
      refine (accept?_gives (Q := fun _ => True) fun _ _ _ _ => trivial).bind fun o _ => ?_
      cases o with
      | some x =>
        refine (accept_gives .openParen).bind fun o _ => ?_
        cases o with
        | some _ => exact call_gives hE fuel h x none
        | none => exact .pure hE.name
      | none =>
        refine (accept_gives .openParen).bind fun o _ => ?_
        cases o with
        | some opener =>
          exact h.bind fun e he => (expect_gives _ _).bind fun _ _ => .pure (hE.group he)
        | none => exact peek_gives.bind fun t _ => .fail _

theorem expr_gives (hE : Inherited P E) (fuel : Nat) : Gives P (Parse.expr fuel) E := by
  induction fuel with
  | zero => exact .exhausted
  | succ fuel ih => exact climb_gives hE fuel levels (unary_gives hE (primary_gives hE fuel ih) _)

/-- An instruction gives what is inherited, as an expression or as the value that is assigned. -/
theorem instruction_gives (hE : Inherited P E) (fuel : Nat) :
    Gives P (instruction fuel) (Expr.Instructs E) := by
  refine (expr_gives hE fuel).bind fun left hleft => (operator_gives assignOp?).bind fun o _ => ?_
  cases o with
  | none => exact .pure (hE.instructs hleft)
  | some op =>
    refine (expr_gives hE fuel).bind fun value hvalue => ?_
    split
    · exact .pure hvalue
    · exact .fail _

end

end Parse

end Colloquy
