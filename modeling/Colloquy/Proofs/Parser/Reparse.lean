import Colloquy.Proofs.Parser.Yield

/-!
# Expressions are parsed exactly

`Accepts p xs F Q` says that the parser `p` takes the words `xs` in front of anything with `F`, and that
its result has `Q`.  There is one rule for each way to put parsers together.  A stratified expression is
parsed again from its words in front of anything that does not go on with it (`expr_accepts`): the operators
of a level are taken one after the other with their operands (`spine_accepts`), and nothing else is taken.

With what an expression is parsed from, that makes the parser the parser of the stratified grammar
(`expr_exact`).
-/

namespace Colloquy

/-- What may stand behind an expression that is parsed with the operators from a rank on. -/
structure Expr.EndsBefore (n : Nat) (e : Expr) (zs : List Lexeme) : Prop where
  operator : ∀ op : BinaryOp, zs.head? = some (.mark op.mark) → op.rank < n
  paren : e.endsInVariable = true → zs.head? ≠ some (.mark .openParen)

namespace Expr.EndsBefore

variable {n : Nat} {e : Expr} {zs : List Lexeme}

theorem mono {m : Nat} (h : e.EndsBefore n zs) (hnm : n ≤ m) : e.EndsBefore m zs :=
  ⟨fun op hop => Nat.lt_of_lt_of_le (h.operator op hop) hnm, h.paren⟩

/-- A mark that is no operator and opens nothing. -/
theorem mark {m : Mark} (hm : ∀ op : BinaryOp, m ≠ op.mark) (hparen : m ≠ .openParen) (n : Nat) (e : Expr)
    (zs : List Lexeme) : e.EndsBefore n (.mark m :: zs) :=
  ⟨fun op hop => absurd (Lexeme.mark.inj (Option.some.inj hop)) (hm op),
    fun _ hopen => hparen (Lexeme.mark.inj (Option.some.inj hopen))⟩

end Expr.EndsBefore

namespace Parse

variable {α β : Type}

/-- A parser takes these words in front of anything with `F`, and its result has `Q`. -/
def Accepts (p : Parse α) (xs : List Lexeme) (F : List Lexeme → Prop) (Q : α → Prop) : Prop :=
  ∀ c ts rest, c.rest = ts ++ rest → ts.map Token.lexeme = xs → F (rest.map Token.lexeme) →
    ∃ a c', p c = .ok a c' ∧ c'.rest = rest ∧ Q a

namespace Accepts

variable {p : Parse α} {xs ys : List Lexeme} {F G : List Lexeme → Prop} {P Q : α → Prop} {R : β → Prop}

theorem pure {a : α} (h : Q a) : Accepts (Pure.pure a : Parse α) [] F Q := by
  intro c ts rest hrest hts _
  rw [List.map_eq_nil_iff.mp hts, List.nil_append] at hrest
  exact ⟨a, c, rfl, hrest, h⟩

theorem before (h : Accepts p xs F Q) (hF : ∀ zs, G zs → F zs) : Accepts p xs G Q :=
  fun c ts rest hrest hts hG => h c ts rest hrest hts (hF _ hG)

theorem mono (h : Accepts p xs F P) (hPQ : ∀ a, P a → Q a) : Accepts p xs F Q := by
  intro c ts rest hrest hts hF
  obtain ⟨a, c', hp, hrest', ha⟩ := h c ts rest hrest hts hF
  exact ⟨a, c', hp, hrest', hPQ a ha⟩

/-- Parsers one after another accept the words of both, if the second one's may follow the first one's. -/
theorem bind {f : α → Parse β} (h : Accepts p xs F P) (hF : ∀ zs, G zs → F (ys ++ zs))
    (hf : ∀ a, P a → Accepts (f a) ys G R) : Accepts (p >>= f) (xs ++ ys) G R := by
  intro c ts rest hrest hts hG
  obtain ⟨us, vs, rfl, hus, hvs⟩ := List.map_eq_append_iff.mp hts
  rw [List.append_assoc] at hrest
  obtain ⟨a, mid, hp, hmid, ha⟩ := h c us (vs ++ rest) hrest hus (by rw [List.map_append, hvs]; exact hF _ hG)
  obtain ⟨b, c', hfa, hrest', hb⟩ := hf a ha mid vs rest hmid hvs hG
  refine ⟨b, c', ?_, hrest', hb⟩
  show EStateM.bind p f c = _
  rw [EStateM.bind, hp]
  exact hfa

/-- The last parser takes nothing more. -/
theorem bind_pure {f : α → β} (h : Accepts p xs F P) (hf : ∀ a, P a → R (f a)) :
    Accepts (p >>= fun a => Pure.pure (f a)) xs F R := by
  have hall : Accepts (p >>= fun a => Pure.pure (f a)) (xs ++ []) F R :=
    h.bind (fun _ hz => hz) fun a ha => Accepts.pure (hf a ha)
  rwa [List.append_nil] at hall

theorem lastSpan {f : Span → Parse β} (hf : ∀ span, Accepts (f span) xs F R) :
    Accepts (Parse.lastSpan >>= f) xs F R :=
  fun c ts rest hrest hts hF => hf c.last.span c ts rest hrest hts hF

/-- A word of which something is made is taken. -/
theorem accept?_some {g : Token → Option α} {f : Option α → Parse β} {x : Lexeme}
    (hf : ∀ t, t.lexeme = x → ∃ a, g t = some a ∧ Accepts (f (some a)) xs F R) :
    Accepts (Parse.accept? g >>= f) (x :: xs) F R := by
  intro c ts rest hrest hts hF
  obtain ⟨t, us, rfl, ht, hus⟩ := List.map_eq_cons_iff.mp hts
  obtain ⟨a, ha, hfa⟩ := hf t ht
  have hadvance : c.advance = ⟨us ++ rest, t, c.errors⟩ := by rw [Cursor.advance, hrest]; rfl
  obtain ⟨b, c', hp, hrest', hb⟩ := hfa c.advance us rest (by rw [hadvance]) hus hF
  refine ⟨b, c', ?_, hrest', hb⟩
  show EStateM.bind (Parse.accept? g) f c = _
  rw [EStateM.bind, Parse.accept?, hrest]
  simp only [List.cons_append, List.head?_cons, Option.bind_some, ha]
  exact hp

/-- A word of which nothing is made is left. -/
theorem accept?_none {g : Token → Option α} {f : Option α → Parse β}
    (hg : ∀ zs, F zs → ∀ t, (xs ++ zs).head? = some t.lexeme → g t = none)
    (hf : Accepts (f none) xs F R) : Accepts (Parse.accept? g >>= f) xs F R := by
  intro c ts rest hrest hts hF
  have hhead : c.rest.head?.bind g = none := by
    rw [Option.bind_eq_none_iff]
    intro t ht
    refine hg _ hF t ?_
    rw [← hts, ← List.map_append, ← hrest, List.head?_map, ht]
    rfl
  obtain ⟨b, c', hp, hrest', hb⟩ := hf c ts rest hrest hts hF
  refine ⟨b, c', ?_, hrest', hb⟩
  show EStateM.bind (Parse.accept? g) f c = _
  rw [EStateM.bind, Parse.accept?, hhead]
  exact hp

/-- A first word of which nothing is made is left with all others. -/
theorem accept?_other {g : Token → Option α} {f : Option α → Parse β} {x : Lexeme}
    (hg : ∀ t, t.lexeme = x → g t = none) (hf : Accepts (f none) (x :: xs) F R) :
    Accepts (Parse.accept? g >>= f) (x :: xs) F R :=
  accept?_none (fun _ _ t ht => hg t (Option.some.inj ht).symm) hf

theorem accept_some {m : Mark} {f : Option Span → Parse β} (hf : ∀ span, Accepts (f (some span)) xs F R) :
    Accepts (Parse.accept m >>= f) (.mark m :: xs) F R :=
  accept?_some fun t ht => ⟨t.span, if_pos (decide_eq_true ht), hf _⟩

/-- A mark that is not there is not accepted, and what follows goes on from the same words. -/
theorem accept_none {m : Mark} {f : Option Span → Parse β}
    (hm : ∀ zs, F zs → (xs ++ zs).head? ≠ some (.mark m)) (hf : Accepts (f none) xs F R) :
    Accepts (Parse.accept m >>= f) xs F R := by
  refine accept?_none (fun zs hF t ht => if_neg fun his => hm zs hF ?_) hf
  rw [ht, of_decide_eq_true his]

theorem accept_other {m : Mark} {f : Option Span → Parse β} {x : Lexeme} (hx : x ≠ .mark m)
    (hf : Accepts (f none) (x :: xs) F R) : Accepts (Parse.accept m >>= f) (x :: xs) F R :=
  accept_none (fun _ _ hm => hx (Option.some.inj hm)) hf

theorem operator_some {g : Mark → Option α} {f : Option (Spanned α) → Parse β} {m : Mark} {op : α}
    (hop : g m = some op) (hf : ∀ span, Accepts (f (some ⟨op, span⟩)) xs F R) :
    Accepts (Parse.operator g >>= f) (.mark m :: xs) F R :=
  accept?_some fun t ht => ⟨⟨op, t.span⟩, by rw [ht]; simp [hop], hf _⟩

/-- So it is with an operator. -/
theorem operator_none {g : Mark → Option α} {f : Option (Spanned α) → Parse β}
    (hg : ∀ zs, F zs → ∀ m, (xs ++ zs).head? = some (.mark m) → g m = none)
    (hf : Accepts (f none) xs F R) : Accepts (Parse.operator g >>= f) xs F R := by
  refine accept?_none (fun zs hF t ht => ?_) hf
  split
  · next m heq =>
    rw [hg zs hF m (by rw [ht, heq])]
    rfl
  · rfl

theorem expect (m : Mark) (error : Token → ParseError) :
    Accepts (Parse.expect m error) [.mark m] F fun _ => True :=
  accept_some fun _ => pure trivial

/-- A name accepts itself. -/
theorem ident (name : String) : Accepts Parse.ident [.identifier name] F fun x => x.name = name := by
  intro c ts rest hrest hts _
  obtain ⟨t, us, rfl, ht, hus⟩ := List.map_eq_cons_iff.mp hts
  rw [List.map_eq_nil_iff.mp hus] at hrest
  refine ⟨⟨name, t.span⟩, ⟨rest, t, c.errors⟩, ?_, rfl, rfl⟩
  have hnext : c.next = t := by rw [Cursor.next, hrest]; rfl
  have hadvance : c.advance = ⟨rest, t, c.errors⟩ := by rw [Cursor.advance, hrest]; rfl
  unfold Parse.ident
  show EStateM.bind peek _ c = _
  rw [EStateM.bind, peek, hnext]
  simp only [ht]
  show EStateM.bind Parse.advance _ c = _
  rw [EStateM.bind, Parse.advance, hadvance]
  rfl

end Accepts

/-! ## Levels -/

/-- A parser parses again every expression of at most so many words that is as tight as a rank. -/
def Reparses (n limit : Nat) (p : Parse Expr) : Prop :=
  ∀ e : Expr, e.Tight n → e.yield.length < limit →
    Accepts p e.yield (e.EndsBefore n) fun e' => e'.unplaced = e.unplaced

section

variable {n limit fuel : Nat} {operand expr : Parse Expr} {level : Level}

/-- The operands of a level are taken with the operators between them, and what the level does next is done
behind them.  Each operator and each operand counts one word at least, so there are steps left. -/
theorem spine_accepts {F : List Lexeme → Prop} {Q : Expr → Prop} (hn : n < UnaryOp.rank)
    (hlevel : ∀ m op, level m = some op ↔ m = op.mark ∧ op.rank = n) (h : Reparses (n + 1) limit operand)
    {e : Expr} {ys : List Lexeme} (he : e.Tight n) (hlimit : e.yield.length < limit)
    (hfuel : e.yield.length ≤ fuel) (hF : ∀ zs, F zs → e.EndsBefore (n + 1) (ys ++ zs))
    (hrest : ∀ k e', fuel < k + e.yield.length → e'.unplaced = e.unplaced →
      Accepts (chainRest level operand k e') ys F Q) :
    Accepts (chain fuel level operand) (e.yield ++ ys) F Q := by
  induction hsize : e.yield.length using Nat.strongRecOn generalizing e ys with
  | _ size ih =>
    rcases he.binary_or hn with ⟨op, l, r, rfl, hrank, hl, hr⟩ | htight
    · have hyield : (Expr.binary op l r).yield ++ ys = l.yield ++ (.mark op.val.mark :: (r.yield ++ ys)) := by
        rw [Expr.yield, List.append_assoc, List.cons_append]
      have hlength : (Expr.binary op l r).yield.length = l.yield.length + (r.yield.length + 1) := by
        rw [Expr.yield, List.length_append, List.length_cons]
      rw [hyield]
      -- the operands on the left come first, then this operator and what is on its right
      refine ih l.yield.length (by omega) hl (by omega) (by omega) ?_ ?_ rfl
      · intro zs _
        refine ⟨fun op' hop => ?_, fun _ hopen => ?_⟩
        · rw [← BinaryOp.mark_injective (Lexeme.mark.inj (Option.some.inj hop)), hrank]
          exact Nat.lt_succ_self n
        · have hne : ∀ op : BinaryOp, op.mark ≠ .openParen := by decide
          exact hne op.val (Lexeme.mark.inj (Option.some.inj hopen))
      · intro k l' hk hl'
        obtain ⟨k, rfl⟩ : ∃ j, k = j + 1 := ⟨k - 1, by omega⟩
        rw [chainRest]
        refine .operator_some ((hlevel _ _).mpr ⟨rfl, hrank⟩) fun span => ?_
        refine (h r hr (by omega)).bind (fun zs hz => ?_) fun r' hr' => ?_
        · exact ⟨(hF zs hz).operator, (hF zs hz).paren⟩
        · refine hrest k _ (by omega) ?_
          rw [Expr.unplaced, Expr.unplaced, hl', hr']
    · have hpos := e.length_yield_pos
      exact (h e htight hlimit).bind hF fun e' he' => hrest fuel e' (by omega) he'

/-- The levels above each other accept what the levels of the grammar are, from the loosest one on. -/
theorem climb_accepts {levels : List Level} (hlevels : Ranked n levels)
    (h : Reparses UnaryOp.rank limit operand) (hfuel : limit ≤ fuel + 1) :
    Reparses n limit (climb fuel levels operand) := by
  induction levels generalizing n with
  | nil =>
    rw [Ranked] at hlevels
    exact hlevels ▸ h
  | cons level levels ih =>
    intro e he hlimit
    rw [← List.append_nil e.yield]
    refine spine_accepts hlevels.2.le_unary hlevels.1 (ih hlevels.2) he hlimit (by omega)
      (fun zs hz => hz.mono (Nat.le_succ n)) fun k e' hk he' => ?_
    obtain ⟨k, rfl⟩ : ∃ j, k = j + 1 := ⟨k - 1, by omega⟩
    rw [chainRest]
    refine .operator_none (fun zs hz m hm => ?_) (.pure he')
    -- an operator of this level would not be behind the expression
    cases hop : level m with
    | none => rfl
    | some op =>
      obtain ⟨rfl, hrank⟩ := (hlevels.1 m op).mp hop
      have hlt := hz.operator op hm
      omega

/-! ## Operands -/

/-- Operators of one operand accept the operand with the operators in front of it. -/
theorem unary_accepts (h : Reparses (UnaryOp.rank + 1) limit operand) (hfuel : fuel ≤ limit) :
    Reparses UnaryOp.rank fuel (unary operand fuel) := by
  induction fuel with
  | zero => exact fun e _ hlt => absurd hlt (Nat.not_lt_zero _)
  | succ fuel ih =>
    intro e he hlt
    rcases he.unary_or with ⟨op, inner, rfl, hinner⟩ | htight
    · rw [Expr.yield, List.length_cons] at hlt
      rw [Expr.yield]
      refine .operator_some (unaryOp?_eq_some.mpr rfl) fun span => ?_
      have hrest := ih (by omega) inner hinner (by omega)
      refine Accepts.bind_pure (hrest.before fun zs hz => ⟨hz.operator, hz.paren⟩) fun e' he' => ?_
      rw [Expr.unplaced, Expr.unplaced, he']
    · refine .operator_none (fun zs _ m hm => ?_) ?_
      · obtain ⟨x, xs, hyield, hx⟩ := htight.exists_yield
        rw [hyield] at hm
        cases hop : unaryOp? m with
        | none => rfl
        | some op => exact absurd (unaryOp?_eq_some.mp hop ▸ Option.some.inj hm) (hx op)
      · exact (h e htight (by omega)).before fun zs hz => hz.mono (Nat.le_succ _)

/-- The token of a literal is read as the literal. -/
theorem literal?_eq {v : Literal} {t : Token} (h : t.lexeme = v.lexeme) :
    literal? t = some (.literal v t.span) := by
  unfold literal?
  rw [h]
  cases v with
  | bool b => cases b <;> rfl
  | _ => rfl

/-- One argument or more, in front of the parenthesis that closes them. -/
theorem arguments_accepts (h : Reparses 0 limit expr) {es : List Expr} (hne : es ≠ [])
    (hes : Expr.AllStratified es) (hlimit : (Expr.yields es).length < limit) (hfuel : es.length ≤ fuel) :
    Accepts (arguments expr fuel) (Expr.yields es) (fun zs => zs.head? = some (.mark .closeParen))
      fun es' => Expr.allUnplaced es' = Expr.allUnplaced es := by
  induction fuel generalizing es with
  | zero => exact absurd (List.eq_nil_of_length_eq_zero (Nat.le_zero.mp hfuel)) hne
  | succ fuel ih =>
    obtain ⟨e, more, rfl⟩ := List.exists_cons_of_ne_nil hne
    rw [Expr.AllStratified] at hes
    rw [Expr.yields, List.length_append] at hlimit
    rw [Expr.yields]
    have hfirst := h e ⟨Nat.zero_le _, hes.1⟩ (by omega)
    cases more with
    | nil =>
      rw [Expr.yieldsMore]
      refine hfirst.bind (fun zs hz => ?_) fun e' he' => ?_
      · obtain ⟨rest, rfl⟩ := List.head?_eq_some_iff.mp hz
        exact .mark (by decide) (by decide) 0 e rest
      · refine .accept_none (fun zs hz => ?_) (.pure ?_)
        · rw [List.nil_append, hz]
          decide
        · simp only [Expr.allUnplaced, he']
    | cons second more =>
      rw [Expr.yieldsMore]
      refine hfirst.bind (fun zs _ => .mark (by decide) (by decide) 0 e _) fun e' he' => ?_
      refine .accept_some fun _ => ?_
      have hrest := ih (List.cons_ne_nil second more) hes.2
        (by rw [Expr.yields]; rw [Expr.yieldsMore, List.length_cons] at hlimit; omega)
        (Nat.le_of_succ_le_succ hfuel)
      rw [Expr.yields] at hrest
      refine hrest.bind_pure fun es' hes' => ?_
      rw [Expr.allUnplaced, he', hes']
      rfl

/-- A call behind its opening parenthesis. -/
theorem call_accepts (h : Reparses 0 limit expr) {args : List Expr} (hargs : Expr.AllStratified args)
    (hlimit : (Expr.yields args).length < limit) (hfuel : limit ≤ fuel + 1) (callee : Ident)
    (awaited : Option Span) {F : List Lexeme → Prop} :
    Accepts (call fuel expr callee awaited) (Expr.yields args ++ [.mark .closeParen]) F fun e =>
      ∃ args' close, e = .call callee args' awaited close ∧
        Expr.allUnplaced args' = Expr.allUnplaced args := by
  refine .lastSpan fun opener => ?_
  cases args with
  | nil => exact .accept_some fun close => .pure ⟨[], close, rfl, rfl⟩
  | cons e more =>
    refine .accept_none (fun zs _ => ?_) ?_
    · obtain ⟨x, xs, hyield, hx⟩ := e.exists_yield
      rw [Expr.yields, hyield]
      exact fun hclose => hx (Option.some.inj hclose)
    · have hlength := Expr.length_le_length_yields (e :: more)
      have hcount : (e :: more).length ≤ fuel := by omega
      have harguments := arguments_accepts h (List.cons_ne_nil e more) hargs hlimit hcount
      refine harguments.bind (fun _ _ => rfl) fun args' hargs' => ?_
      exact (Accepts.expect _ _).bind_pure fun close _ => ⟨args', close, rfl, hargs'⟩

/-- An operand without operators is accepted from its words, form by form: a literal, a name, a call with
its arguments, or an expression in parentheses. -/
theorem primary_accepts (h : Reparses 0 limit expr) (hfuel : limit ≤ fuel + 1) :
    Reparses (UnaryOp.rank + 1) (limit + 1) (primary fuel expr) := by
  intro e he hlimit
  obtain ⟨hrank, hstratified⟩ := he
  unfold primary
  cases e with
  | literal v span =>
    rw [Expr.yield]
    refine .accept?_some fun t ht => ⟨_, literal?_eq ht, .pure ?_⟩
    rw [Expr.unplaced, Expr.unplaced]
  | «variable» x =>
    rw [Expr.yield]
    refine .accept?_other (fun t ht => by rw [literal?, ht]) (.accept_other Lexeme.noConfusion ?_)
    refine .accept?_some fun t ht => ⟨⟨x.name, t.span⟩, by rw [ident?, ht], ?_⟩
    -- a parenthesis would go on with the name
    refine .accept_none (fun zs hz => hz.paren rfl) (.pure ?_)
    rw [Expr.unplaced, Expr.unplaced]
  | group inner =>
    rw [Expr.Stratified] at hstratified
    rw [Expr.yield, List.length_cons, List.length_append, List.length_singleton] at hlimit
    rw [Expr.yield]
    refine .accept?_other (fun t ht => by rw [literal?, ht]) (.accept_other (by decide) ?_)
    refine .accept?_other (fun t ht => by rw [ident?, ht]) (.accept_some fun opener => ?_)
    have hinner := h inner ⟨Nat.zero_le _, hstratified⟩ (by omega)
    refine hinner.bind (fun zs _ => .mark (by decide) (by decide) 0 inner zs) fun inner' he' => ?_
    refine (Accepts.expect _ _).bind_pure fun _ _ => ?_
    rw [Expr.unplaced, Expr.unplaced, he']
  | call f args awaited close =>
    rw [Expr.Stratified] at hstratified
    rw [Expr.yield, List.length_append, List.length_cons, List.length_cons, List.length_append,
      List.length_singleton] at hlimit
    rw [Expr.yield]
    have hcall : ∀ callee : Ident, callee.name = f.name → ∀ awaited' : Option Span,
        (awaited'.map fun _ => (default : Span)) = awaited.map (fun _ => default) →
        Accepts (call fuel expr callee awaited') (Expr.yields args ++ [.mark .closeParen])
          ((Expr.call f args awaited close).EndsBefore (UnaryOp.rank + 1))
          fun e' => e'.unplaced = (Expr.call f args awaited close).unplaced := by
      intro callee hcallee awaited' hawaited
      refine (call_accepts h hstratified (by omega) hfuel callee awaited').mono ?_
      rintro _ ⟨args', close', rfl, hargs⟩
      rw [Expr.unplaced, Expr.unplaced, hcallee, hargs, hawaited]
    cases awaited with
    | some span =>
      refine .accept?_other (fun t ht => by rw [literal?, ht]) (.accept_some fun awaited => ?_)
      refine (Accepts.ident (F := fun _ => True) f.name).bind (fun _ _ => trivial) fun callee hname => ?_
      exact .accept_some fun _ => hcall callee hname (some awaited) rfl
    | none =>
      refine .accept?_other (fun t ht => by rw [literal?, ht]) (.accept_other Lexeme.noConfusion ?_)
      refine .accept?_some fun t ht => ⟨⟨f.name, t.span⟩, by rw [ident?, ht], ?_⟩
      exact .accept_some fun _ => hcall ⟨f.name, t.span⟩ rfl none rfl
  | unary op inner => exact absurd hrank (Nat.not_succ_le_self _)
  | binary op l r =>
    rw [Expr.rank] at hrank
    cases hop : op.val <;> rw [hop] at hrank <;> exact absurd hrank (by decide)
  | assign x op e => exact absurd hrank (Nat.not_succ_le_zero _)

/-- A stratified expression is parsed again from its words, with more steps than there are words. -/
theorem expr_accepts (fuel : Nat) : Reparses 0 fuel (Parse.expr fuel) := by
  induction fuel with
  | zero => exact fun e _ hlt => absurd hlt (Nat.not_lt_zero _)
  | succ fuel ih =>
    have hprimary : Reparses _ _ (primary fuel (Parse.expr fuel)) := primary_accepts ih (Nat.le_succ fuel)
    exact climb_accepts ranked_levels (unary_accepts hprimary (Nat.le_refl _)) (Nat.le_refl _)

end

/-- Expressions are parsed by the stratified grammar and nothing else.  An expression that is parsed is
stratified, and the tokens taken for it are its words.  Every stratified expression is parsed from its words,
and only its places may differ, in front of anything that starts neither with a binary operator nor, behind a
variable, with a parenthesis; just its words are taken. -/
theorem expr_exact (fuel : Nat) :
    (∀ c e c', expr fuel c = .ok e c' →
      ∃ ts, c.rest = ts ++ c'.rest ∧ ts.map Token.lexeme = e.yield ∧ e.Stratified) ∧
    ∀ (e : Expr) (c : Cursor) (ts rest : List Token), e.Stratified → ts.map Token.lexeme = e.yield →
      c.rest = ts ++ rest → ts.length < fuel →
      (∀ op : BinaryOp, ∀ t ∈ rest.head?, t.lexeme ≠ .mark op.mark) →
      (e.endsInVariable = true → ∀ t ∈ rest.head?, t.lexeme ≠ .mark .openParen) →
      ∃ e' c', expr fuel c = .ok e' c' ∧ e'.unplaced = e.unplaced ∧ c'.rest = rest := by
  refine ⟨fun c e c' hp => ?_, fun e c ts rest hstratified hts hrest hfuel hoperator hparen => ?_⟩
  · obtain ⟨ts, hts, hyield, htight⟩ := expr_took fuel c e c' trivial hp
    exact ⟨ts, hts, hyield.symm, htight.stratified⟩
  · have hhead : ∀ x, (∀ t ∈ rest.head?, t.lexeme ≠ x) → (rest.map Token.lexeme).head? ≠ some x := by
      intro x hx hhead
      rw [List.head?_map] at hhead
      obtain ⟨t, ht, rfl⟩ := Option.map_eq_some_iff.mp hhead
      exact hx t ht rfl
    have hends : e.EndsBefore 0 (rest.map Token.lexeme) :=
      ⟨fun op hop => absurd hop (hhead _ (hoperator op)), fun hvar => hhead _ (hparen hvar)⟩
    have hlength : e.yield.length < fuel := by rwa [← hts, List.length_map]
    obtain ⟨e', c', hp, hrest', he'⟩ :=
      expr_accepts fuel e ⟨Nat.zero_le _, hstratified⟩ hlength c ts rest hrest hts hends
    exact ⟨e', c', hp, he', hrest'⟩

/-- The words of `a - -b * f("s")`, in front of a parenthesis that closes another one. -/
theorem expr_exact_difference :
    let e : Expr := .binary ⟨.sub, default⟩ (.variable ⟨"a", default⟩)
      (.binary ⟨.mul, default⟩ (.unary ⟨.negate, default⟩ (.variable ⟨"b", default⟩))
        (.call ⟨"f", default⟩ [.literal (.string "s") default] none default))
    let words := e.yield.map (Token.mk · (.single 7))
    ∃ e' c', expr 10 (.start (words ++ [⟨.mark .closeParen, .single 8⟩])) = .ok e' c' ∧
      e'.unplaced = e.unplaced ∧ c'.rest = [⟨.mark .closeParen, .single 8⟩] := by
  intro e words
  refine (expr_exact 10).2 e (.start (words ++ _)) words [⟨.mark .closeParen, .single 8⟩] ?_ ?_ rfl ?_ ?_ ?_
  · simp [e, Expr.Stratified, Expr.AllStratified, Expr.rank, BinaryOp.rank, UnaryOp.rank]
  · rw [List.map_map]
    exact List.map_id _
  · decide
  · rintro op t ⟨⟩
    cases op <;> decide
  · rintro _ t ⟨⟩
    decide

end Parse

end Colloquy
