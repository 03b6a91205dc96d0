import Colloquy.Proofs.Parser.Strata

/-!
# What an expression is parsed from

`Took Q p` says that the parser `p` takes tokens from the front of a cursor and that its result and their
words have `Q`.  There is one rule for each way to put parsers together.  An expression is parsed from its
own words, and is stratified (`expr_took`): each level adds its operators to expressions that are at least
as tight as it (`climb_took`).
-/

namespace Colloquy.Parse

variable {α β : Type}

/-- From a cursor with `A`, a parser takes tokens in front, and what it makes of them has `Q` with their
words. -/
def TookFrom (A : Cursor → Prop) (Q : α → List Lexeme → Prop) (p : Parse α) : Prop :=
  ∀ c a c', A c → p c = .ok a c' → ∃ ts, c.rest = ts ++ c'.rest ∧ Q a (ts.map Token.lexeme)

/-- From any cursor. -/
abbrev Took (Q : α → List Lexeme → Prop) (p : Parse α) : Prop := TookFrom (fun _ => True) Q p

theorem TookFrom.weaken {A B : Cursor → Prop} {p : Parse α} {Q : α → List Lexeme → Prop}
    (h : TookFrom A Q p) (hA : ∀ c, B c → A c) : TookFrom B Q p :=
  fun c a c' hB hp => h c a c' (hA c hB) hp

/-- What follows takes the tokens behind those taken first. -/
theorem TookFrom.bind {A : Cursor → Prop} {p : Parse α} {f : α → Parse β} {P : α → List Lexeme → Prop}
    {R : β → List Lexeme → Prop} (h : TookFrom A P p)
    (hf : ∀ a xs, P a xs → Took (fun b ys => R b (xs ++ ys)) (f a)) : TookFrom A R (p >>= f) := by
  intro c b c' hA hp
  change EStateM.bind p f c = .ok b c' at hp
  rw [EStateM.bind] at hp
  split at hp
  · next a mid heq =>
    obtain ⟨ts, hrest, hP⟩ := h c a mid hA heq
    obtain ⟨us, hmid, hR⟩ := hf a _ hP mid b c' trivial hp
    refine ⟨ts ++ us, by rw [hrest, hmid, List.append_assoc], ?_⟩
    rwa [List.map_append]
  · cases hp

namespace Took

variable {p : Parse α} {P Q : α → List Lexeme → Prop} {R : β → List Lexeme → Prop}

theorem starting {A : Cursor → Prop} (h : Took Q p) : TookFrom A Q p := h.weaken fun _ _ => trivial

theorem pure {a : α} (h : Q a []) : Took Q (Pure.pure a : Parse α) := by
  intro c a' c' _ hp
  cases hp
  exact ⟨[], rfl, h⟩

theorem fail (e : ParseError) : Took Q (Parse.fail e : Parse α) := fun _ _ _ _ hp => nomatch hp

/-- A parser out of steps takes nothing, for it does not succeed. -/
theorem exhausted : Took Q (Parse.exhausted : Parse α) := fun _ _ _ _ hp => nomatch hp

/-- What is taken may be said with less. -/
theorem mono (h : Took P p) (hPQ : ∀ a xs, P a xs → Q a xs) : Took Q p := by
  intro c a c' _ hp
  obtain ⟨ts, hrest, hP⟩ := h c a c' trivial hp
  exact ⟨ts, hrest, hPQ a _ hP⟩

theorem peek {f : Token → Parse β} (hf : ∀ t, Took R (f t)) : Took R (Parse.peek >>= f) :=
  TookFrom.bind (P := fun _ xs => xs = []) (fun _ _ _ _ hp => by cases hp; exact ⟨[], rfl, rfl⟩)
    fun t _ hxs => hxs ▸ hf t

theorem lastSpan {f : Span → Parse β} (hf : ∀ span, Took R (f span)) : Took R (Parse.lastSpan >>= f) :=
  TookFrom.bind (P := fun _ xs => xs = []) (fun _ _ _ _ hp => by cases hp; exact ⟨[], rfl, rfl⟩)
    fun span _ hxs => hxs ▸ hf span

/-- If something is made of the next token, its word comes first and it is the last one taken; else
nothing is taken. -/
theorem accept? {g : Token → Option α} {f : Option α → Parse β}
    (hsome : ∀ t a, g t = some a →
      TookFrom (fun c => c.last = t) (fun b ys => R b (t.lexeme :: ys)) (f (some a)))
    (hnone : Took R (f none)) : Took R (Parse.accept? g >>= f) := by
  intro c b c' _ hp
  change EStateM.bind (Parse.accept? g) f c = .ok b c' at hp
  rw [EStateM.bind, Parse.accept?] at hp
  cases hhead : c.rest.head?.bind g with
  | none =>
    rw [hhead] at hp
    exact hnone c b c' trivial hp
  | some a =>
    rw [hhead] at hp
    obtain ⟨t, ht, ha⟩ := Option.bind_eq_some_iff.mp hhead
    obtain ⟨ts, hrest⟩ := List.head?_eq_some_iff.mp ht
    have hadvance : c.advance = ⟨ts, t, c.errors⟩ := by rw [Cursor.advance, hrest]
    rw [hadvance] at hp
    obtain ⟨us, hus, hR⟩ := hsome t a ha ⟨ts, t, c.errors⟩ b c' rfl hp
    refine ⟨t :: us, ?_, hR⟩
    rw [hrest, List.cons_append, ← hus]

/-- The mark that was accepted is the word of its token. -/
theorem lexeme_of_is {m : Mark} {t : Token} {span : Span}
    (h : (if t.is m then some t.span else none) = some span) : t.lexeme = .mark m := by
  split at h
  · next hm => exact of_decide_eq_true hm
  · cases h

/-- If a mark is accepted its word comes first; else nothing is taken. -/
theorem accept {m : Mark} {f : Option Span → Parse β}
    (hsome : ∀ span, Took (fun b ys => R b (.mark m :: ys)) (f (some span)))
    (hnone : Took R (f none)) : Took R (Parse.accept m >>= f) := by
  refine accept? (fun t span hspan => ?_) hnone
  rw [lexeme_of_is hspan]
  exact (hsome span).starting

/-- If an operator is read its mark comes first; else nothing is taken. -/
theorem operator {g : Mark → Option α} {f : Option (Spanned α) → Parse β}
    (hsome : ∀ m op, g m = some op.val → Took (fun b ys => R b (.mark m :: ys)) (f (some op)))
    (hnone : Took R (f none)) : Took R (Parse.operator g >>= f) := by
  refine accept? (fun t op hop => ?_) hnone
  split at hop
  · next m heq =>
    obtain ⟨a, ha, rfl⟩ := Option.map_eq_some_iff.mp hop
    rw [heq]
    exact (hsome m _ ha).starting
  · cases hop

/-- A mark that is expected is the one word taken. -/
theorem expect (m : Mark) (error : Token → ParseError) :
    Took (fun _ xs => xs = [.mark m]) (Parse.expect m error) :=
  accept (fun _ => pure rfl) (peek fun _ => fail _)

end Took

/-- A name is taken from a token, if the token taken last is none: without tokens left, that one would be
looked at again. -/
theorem ident_took : TookFrom (fun c => ∀ name, c.last.lexeme ≠ .identifier name)
    (fun x xs => xs = [.identifier x.name]) ident := by
  intro c x c' hlast hp
  unfold ident at hp
  change EStateM.bind peek _ c = .ok x c' at hp
  rw [EStateM.bind, peek] at hp
  simp only at hp
  cases hname : c.next.lexeme with
  | identifier name =>
    rw [hname] at hp
    cases hp
    cases hrest : c.rest with
    | nil =>
      rw [Cursor.next, hrest] at hname
      exact absurd hname (hlast name)
    | cons t ts =>
      rw [Cursor.next, hrest] at hname
      refine ⟨[t], ?_, congrArg (fun word => [word]) hname⟩
      rw [Cursor.advance, hrest]
      rfl
  | _ =>
    rw [hname] at hp
    cases hp

/-! ## Levels -/

/-- A parser takes the words of an expression that is as tight as a rank. -/
abbrev TookExpr (n : Nat) (p : Parse Expr) : Prop := Took (fun e xs => e.yield = xs ∧ e.Tight n) p

variable {n : Nat} {operand expr : Parse Expr}

/-- Operators of a level that follow an expression, with their operands, are put around it. -/
theorem chainRest_took {level : Level} (hlevel : ∀ m op, level m = some op ↔ m = op.mark ∧ op.rank = n)
    (h : TookExpr (n + 1) operand) (fuel : Nat) {left : Expr} (hleft : left.Tight n) :
    Took (fun e xs => e.yield = left.yield ++ xs ∧ e.Tight n) (chainRest level operand fuel left) := by
  induction fuel generalizing left with
  | zero => exact .exhausted
  | succ fuel ih =>
    rw [chainRest]
    refine .operator (fun m op hop => ?_) (.pure ⟨(List.append_nil _).symm, hleft⟩)
    obtain ⟨rfl, hrank⟩ := (hlevel m op.val).mp hop
    refine h.bind fun right xs hright => ?_
    -- the left side may have the rank of the level, the right one is tighter
    obtain ⟨rfl, hright⟩ := hright
    have hbinary : (Expr.binary op left right).Tight n := by
      refine ⟨Nat.le_of_eq hrank.symm, ?_⟩
      rw [Expr.Stratified, hrank]
      exact ⟨⟨hleft.rank_le, hleft.stratified⟩, hright.rank_le, hright.stratified⟩
    refine (ih hbinary).mono fun e ys he => ⟨?_, he.2⟩
    rw [he.1, Expr.yield, List.append_assoc, List.cons_append]

/-- Each level adds its operators to expressions of the tighter levels, and what comes is as tight as the
loosest level. -/
theorem climb_took {fuel : Nat} {levels : List Level} (hlevels : Ranked n levels)
    (h : TookExpr UnaryOp.rank operand) : TookExpr n (climb fuel levels operand) := by
  induction levels generalizing n with
  | nil =>
    rw [Ranked] at hlevels
    exact hlevels ▸ h
  | cons level levels ih =>
    have ih := ih hlevels.2
    refine ih.bind fun first xs hfirst => ?_
    obtain ⟨rfl, hfirst⟩ := hfirst
    exact chainRest_took hlevels.1 ih fuel ⟨Nat.le_of_succ_le hfirst.rank_le, hfirst.stratified⟩

/-! ## Operands -/

/-- Unary operators stand in front of a primary expression, the outermost one first. -/
theorem unary_took (h : TookExpr (UnaryOp.rank + 1) operand) (fuel : Nat) :
    TookExpr UnaryOp.rank (unary operand fuel) := by
  induction fuel with
  | zero => exact .exhausted
  | succ fuel ih =>
    refine .operator (fun m op hop => ?_) ?_
    · rw [unaryOp?_eq_some] at hop
      subst hop
      refine ih.bind fun e xs he => .pure ?_
      obtain ⟨rfl, he⟩ := he
      refine ⟨by rw [Expr.yield, List.append_nil], Nat.le_refl _, ?_⟩
      rw [Expr.Stratified]
      exact ⟨he.rank_le, he.stratified⟩
    · exact h.mono fun e xs he => ⟨he.1, Nat.le_of_succ_le he.2.rank_le, he.2.stratified⟩

/-- One argument or more, with commas between them. -/
theorem arguments_took (h : TookExpr 0 expr) (fuel : Nat) :
    Took (fun es xs => Expr.yields es = xs ∧ Expr.AllStratified es ∧ es ≠ []) (arguments expr fuel) := by
  induction fuel with
  | zero => exact .exhausted
  | succ fuel ih =>
    refine h.bind fun e xs he => ?_
    obtain ⟨rfl, he⟩ := he
    refine .accept (fun _ => ih.bind fun es ys hes => .pure ?_) (.pure ?_)
    · obtain ⟨rfl, hes, hne⟩ := hes
      obtain ⟨e', es, rfl⟩ := List.exists_cons_of_ne_nil hne
      refine ⟨by rw [Expr.yields, Expr.yieldsMore, Expr.yields, List.append_nil], ?_, List.cons_ne_nil _ _⟩
      rw [Expr.AllStratified]
      exact ⟨he.stratified, hes⟩
    · refine ⟨by rw [Expr.yields, Expr.yieldsMore], ?_, List.cons_ne_nil _ _⟩
      rw [Expr.AllStratified]
      exact ⟨he.stratified, trivial⟩

/-- The words of a call behind its opening parenthesis. -/
theorem call_took (h : TookExpr 0 expr) (fuel : Nat) (callee : Ident) (awaited : Option Span) :
    Took (fun e xs => e.Tight (UnaryOp.rank + 1) ∧
      e.yield = (awaited.map fun _ => .mark .awaitWord).toList ++
        .identifier callee.name :: .mark .openParen :: xs) (call fuel expr callee awaited) := by
  have htight : ∀ args close, Expr.AllStratified args →
      (Expr.call callee args awaited close).Tight (UnaryOp.rank + 1) :=
    fun args close hargs => ⟨Nat.le_refl _, by rwa [Expr.Stratified]⟩
  refine .lastSpan fun opener => .accept (fun close => .pure ⟨htight [] close trivial, ?_⟩) ?_
  · rw [Expr.yield, Expr.yields, List.nil_append]
  · refine (arguments_took h fuel).bind fun args xs hargs => ?_
    obtain ⟨rfl, hargs, _⟩ := hargs
    refine (Took.expect _ _).bind fun close ys hclose => .pure ⟨htight args close hargs, ?_⟩
    rw [hclose, Expr.yield, List.append_nil]

/-- A literal has the one word of its token and is as tight as can be. -/
theorem literal?_yield {t : Token} {e : Expr} (h : literal? t = some e) :
    e.yield = [t.lexeme] ∧ e.Tight (UnaryOp.rank + 1) := by
  unfold literal? at h
  split at h
  all_goals cases h
  all_goals
    next heq =>
    exact ⟨by rw [Expr.yield, heq]; rfl, Nat.le_refl _, by rw [Expr.Stratified]; trivial⟩

/-- A name is made of an identifier only. -/
theorem ident?_lexeme {t : Token} {x : Ident} (h : ident? t = some x) : t.lexeme = .identifier x.name := by
  unfold ident? at h
  split at h
  · next heq =>
    cases h
    exact heq
  · cases h

/-- A primary expression is a literal, a name, a call or an expression between parentheses, each with its
own words. -/
theorem primary_took (h : TookExpr 0 expr) (fuel : Nat) :
    TookExpr (UnaryOp.rank + 1) (primary fuel expr) := by
  unfold primary
  refine .accept? (fun t e he => ?_) (.accept? (fun t awaited hawaited => ?_) ?_)
  · exact (Took.pure (literal?_yield he)).starting
  · -- the word that awaits a call is no name, so the name is the next token
    have ht := Took.lexeme_of_is hawaited
    refine TookFrom.weaken (ident_took.bind fun callee xs hcallee => ?_) fun c hc name => ?_
    · subst hcallee
      refine .accept (fun _ => ?_) (.fail _)
      refine (call_took h fuel callee (some awaited)).mono fun e ys he => ⟨?_, he.1⟩
      rw [he.2, ht]
      rfl
    · rw [hc, ht]
      exact Lexeme.noConfusion
  · refine .accept? (fun t x hx => ?_) (.accept (fun opener => ?_) (.peek fun t => .fail _))
    · rw [ident?_lexeme hx]
      refine Took.starting (.accept (fun _ => ?_) (.pure ?_))
      · exact (call_took h fuel x none).mono fun e ys he => ⟨he.2, he.1⟩
      · exact ⟨by rw [Expr.yield], Nat.le_refl _, by rw [Expr.Stratified]; trivial⟩
    · refine h.bind fun e xs he => ?_
      obtain ⟨rfl, he⟩ := he
      refine (Took.expect _ _).bind fun close ys hclose => .pure ⟨?_, Nat.le_refl _, ?_⟩
      · rw [hclose, Expr.yield, List.append_nil]
      · rw [Expr.Stratified]
        exact he.stratified

/-- An expression is parsed from its own words, and is stratified. -/
theorem expr_took (fuel : Nat) : TookExpr 0 (Parse.expr fuel) := by
  induction fuel with
  | zero => exact .exhausted
  | succ fuel ih => exact climb_took ranked_levels (unary_took (primary_took ih fuel) _)

end Colloquy.Parse
