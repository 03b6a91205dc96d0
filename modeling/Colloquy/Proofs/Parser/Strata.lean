import Colloquy.Parser.Expr

/-!
# The stratified grammar of expressions

An expression is written as its words in order (`Expr.yield`).  Each operator has a rank, the looser the
lower, and an expression has the rank of its outermost operator (`Expr.rank`).  In a stratified expression
(`Expr.Stratified`) nothing looser than an operator stands beside it without parentheses, and what stands
on the right of a binary operator is even tighter than it, so operators of one rank associate to the left.

The parser has the ranks as a list of levels (`ranked_levels`).
-/

namespace Colloquy

/-! ## Words -/

/-- The mark of an operator. -/
def UnaryOp.mark : UnaryOp → Mark
  | .not => .bang
  | .negate => .minus

/-- The mark of an operator. -/
def BinaryOp.mark : BinaryOp → Mark
  | .add => .plus | .sub => .minus | .mul => .star | .div => .slash | .mod => .percent
  | .equal => .equalEqual | .notEqual => .bangEqual
  | .less => .less | .lessEqual => .lessEqual | .greater => .greater | .greaterEqual => .greaterEqual
  | .and => .andWord | .or => .orWord

theorem BinaryOp.mark_injective {op op' : BinaryOp} (h : op.mark = op'.mark) : op = op' := by
  cases op <;> cases op' <;> first | rfl | cases h

/-- All binary operators. -/
def BinaryOp.all : List BinaryOp :=
  [.add, .sub, .mul, .div, .mod, .equal, .notEqual, .less, .lessEqual, .greater, .greaterEqual, .and, .or]

theorem BinaryOp.mem_all (op : BinaryOp) : op ∈ all := by
  cases op <;> decide

instance (p : BinaryOp → Prop) [DecidablePred p] : Decidable (∀ op, p op) :=
  decidable_of_iff (∀ op ∈ BinaryOp.all, p op) ⟨fun h op => h op op.mem_all, fun h op _ => h op⟩

/-- The mark of an assignment. -/
def AssignOp.mark : AssignOp → Mark
  | .set => .equal | .add => .plusEqual | .sub => .minusEqual | .mul => .starEqual | .div => .slashEqual

/-- The word of a literal. -/
def Literal.lexeme : Literal → Lexeme
  | .float x => .number x
  | .string s => .string s
  | .bool true => .mark .trueWord
  | .bool false => .mark .falseWord

namespace Expr

mutual

/-- The words of an expression in order. -/
def yield : Expr → List Lexeme
  | .literal v _ => [v.lexeme]
  | .variable x => [.identifier x.name]
  | .unary op e => .mark op.val.mark :: e.yield
  | .binary op l r => l.yield ++ .mark op.val.mark :: r.yield
  | .assign x op e => .identifier x.name :: .mark op.val.mark :: e.yield
  | .group e => .mark .openParen :: (e.yield ++ [.mark .closeParen])
  | .call f args awaited _ =>
    (awaited.map fun _ => .mark .awaitWord).toList ++
      .identifier f.name :: .mark .openParen :: (yields args ++ [.mark .closeParen])

/-- The words of arguments, with commas between them. -/
def yields : List Expr → List Lexeme
  | [] => []
  | e :: es => e.yield ++ yieldsMore es

/-- The words of further arguments, with a comma in front of each. -/
def yieldsMore : List Expr → List Lexeme
  | [] => []
  | e :: es => .mark .comma :: (e.yield ++ yieldsMore es)

end

mutual

/-- An expression without its places. -/
def unplaced : Expr → Expr
  | .literal v _ => .literal v default
  | .variable x => .variable ⟨x.name, default⟩
  | .unary op e => .unary ⟨op.val, default⟩ e.unplaced
  | .binary op l r => .binary ⟨op.val, default⟩ l.unplaced r.unplaced
  | .assign x op e => .assign ⟨x.name, default⟩ ⟨op.val, default⟩ e.unplaced
  | .group e => .group e.unplaced
  | .call f args awaited _ =>
    .call ⟨f.name, default⟩ (allUnplaced args) (awaited.map fun _ => default) default

/-- Expressions without their places. -/
def allUnplaced : List Expr → List Expr
  | [] => []
  | e :: es => e.unplaced :: allUnplaced es

end

end Expr

/-! ## Ranks -/

/-- How tight a binary operator is. -/
def BinaryOp.rank : BinaryOp → Nat
  | .or => 0
  | .and => 1
  | .equal | .notEqual => 2
  | .less | .lessEqual | .greater | .greaterEqual => 3
  | .add | .sub => 4
  | .mul | .div | .mod => 5

/-- How tight unary operators are. -/
def UnaryOp.rank : Nat := 6

namespace Expr

/-- How tight the outermost operator of an expression is.  Without operators it is tightest. -/
def rank : Expr → Nat
  | .binary op _ _ => op.val.rank
  | .unary _ _ => UnaryOp.rank
  | .assign _ _ _ => 0
  | _ => UnaryOp.rank + 1

mutual

/-- An expression of the stratified grammar. -/
def Stratified : Expr → Prop
  | .literal _ _ => True
  | .variable _ => True
  | .unary _ e => UnaryOp.rank ≤ e.rank ∧ e.Stratified
  | .binary op l r => (op.val.rank ≤ l.rank ∧ l.Stratified) ∧ op.val.rank < r.rank ∧ r.Stratified
  | .assign _ _ _ => False
  | .group e => e.Stratified
  | .call _ args _ _ => AllStratified args

/-- Expressions of the stratified grammar. -/
def AllStratified : List Expr → Prop
  | [] => True
  | e :: es => e.Stratified ∧ AllStratified es

end

/-- An expression of the stratified grammar that is as tight as a rank. -/
structure Tight (rank : Nat) (e : Expr) : Prop where
  rank_le : rank ≤ e.rank
  stratified : e.Stratified

/-- Whether the last word of an expression is a variable, which a parenthesis would turn into a call. -/
def endsInVariable : Expr → Bool
  | .variable _ => true
  | .unary _ e => e.endsInVariable
  | .binary _ _ r => r.endsInVariable
  | .assign _ _ e => e.endsInVariable
  | _ => false

/-! ## Words in front and numbers of words -/

/-- An expression has a first word, which closes nothing. -/
theorem exists_yield : (e : Expr) → ∃ x xs, e.yield = x :: xs ∧ x ≠ .mark .closeParen
  | .literal v _ => by
    rw [yield]
    refine ⟨_, _, rfl, ?_⟩
    cases v with
    | bool b => cases b <;> decide
    | _ => exact Lexeme.noConfusion
  | .variable x => ⟨_, _, by rw [yield], Lexeme.noConfusion⟩
  | .unary op e => by
    rw [yield]
    refine ⟨_, _, rfl, ?_⟩
    cases op.val <;> decide
  | .binary op l r => by
    obtain ⟨x, xs, hl, hx⟩ := l.exists_yield
    exact ⟨x, _, by rw [yield, hl, List.cons_append], hx⟩
  | .assign x op e => ⟨_, _, by rw [yield], Lexeme.noConfusion⟩
  | .group e => ⟨_, _, by rw [yield], by decide⟩
  | .call f args awaited _ => by
    rw [yield]
    cases awaited with
    | none => exact ⟨_, _, rfl, Lexeme.noConfusion⟩
    | some _ => exact ⟨.mark .awaitWord, _, rfl, by decide⟩

theorem length_yield_pos (e : Expr) : 0 < e.yield.length := by
  obtain ⟨x, xs, hyield, _⟩ := e.exists_yield
  rw [hyield]
  exact Nat.succ_pos _

/-- Each further argument of a call has words, a comma at least. -/
theorem length_le_length_yieldsMore (es : List Expr) : es.length ≤ (yieldsMore es).length := by
  induction es with
  | nil => exact Nat.le_refl 0
  | cons e es ih =>
    rw [yieldsMore, List.length_cons, List.length_cons, List.length_append]
    omega

/-- Each argument of a call has words. -/
theorem length_le_length_yields (es : List Expr) : es.length ≤ (yields es).length := by
  cases es with
  | nil => exact Nat.le_refl 0
  | cons e es =>
    have hfirst := e.length_yield_pos
    have hmore := length_le_length_yieldsMore es
    rw [yields, List.length_cons, List.length_append]
    omega

/-- An expression without operators in front starts with a word that is no unary operator. -/
theorem Tight.exists_yield {e : Expr} (h : e.Tight (UnaryOp.rank + 1)) :
    ∃ x xs, e.yield = x :: xs ∧ ∀ op : UnaryOp, x ≠ .mark op.mark := by
  have hrank := h.rank_le
  cases e with
  | literal v s =>
    rw [yield]
    refine ⟨_, _, rfl, fun op => ?_⟩
    cases v with
    | bool b => cases b <;> cases op <;> decide
    | _ => exact Lexeme.noConfusion
  | «variable» x =>
    rw [yield]
    exact ⟨_, _, rfl, fun op => Lexeme.noConfusion⟩
  | group e =>
    rw [yield]
    refine ⟨_, _, rfl, fun op => ?_⟩
    cases op <;> decide
  | call f args awaited close =>
    rw [yield]
    cases awaited with
    | none => exact ⟨_, _, rfl, fun op => Lexeme.noConfusion⟩
    | some s =>
      refine ⟨.mark .awaitWord, _, rfl, fun op => ?_⟩
      cases op <;> decide
  | unary op e => exact absurd hrank (Nat.not_succ_le_self _)
  | binary op l r =>
    rw [rank] at hrank
    cases hop : op.val <;> rw [hop] at hrank <;> exact absurd hrank (by decide)
  | assign x op e => exact absurd hrank (Nat.not_succ_le_zero _)

/-- An expression as tight as unary operators is one of them or has no operator in front. -/
theorem Tight.unary_or {e : Expr} (h : e.Tight UnaryOp.rank) :
    (∃ op inner, e = .unary op inner ∧ inner.Tight UnaryOp.rank) ∨ e.Tight (UnaryOp.rank + 1) := by
  obtain ⟨hrank, hstratified⟩ := h
  cases e with
  | unary op inner =>
    rw [Stratified] at hstratified
    exact .inl ⟨op, inner, rfl, hstratified.1, hstratified.2⟩
  | binary op l r =>
    rw [rank] at hrank
    cases hop : op.val <;> rw [hop] at hrank <;> exact absurd hrank (by decide)
  | assign x op e => exact absurd hrank (Nat.not_succ_le_zero _)
  | _ => exact .inr ⟨Nat.le_refl _, hstratified⟩

/-- An expression as tight as a rank of binary operators is tighter, or it is one of them with an operand
of its rank on the left and a tighter one on the right. -/
theorem Tight.binary_or {n : Nat} {e : Expr} (h : e.Tight n) (hn : n < UnaryOp.rank) :
    (∃ op l r, e = .binary op l r ∧ op.val.rank = n ∧ l.Tight n ∧ r.Tight (n + 1)) ∨ e.Tight (n + 1) := by
  obtain ⟨hle, hstratified⟩ := h
  rcases Nat.lt_or_eq_of_le hle with hlt | heq
  · exact .inr ⟨hlt, hstratified⟩
  · cases e with
    | binary op l r =>
      rw [rank] at heq
      rw [Stratified, ← heq] at hstratified
      exact .inl ⟨op, l, r, rfl, heq.symm, ⟨hstratified.1.1, hstratified.1.2⟩,
        ⟨hstratified.2.1, hstratified.2.2⟩⟩
    | assign x op e =>
      rw [Stratified] at hstratified
      exact hstratified.elim
    | _ =>
      simp only [rank] at heq
      omega

end Expr

namespace Parse

/-! ## Levels -/

/-- Levels have the operators of one rank after the other, from a rank up to the unary operators. -/
def Ranked : Nat → List Level → Prop
  | n, [] => n = UnaryOp.rank
  | n, level :: levels =>
    (∀ m op, level m = some op ↔ m = op.mark ∧ op.rank = n) ∧ Ranked (n + 1) levels

/-- The levels of the parser have the ranks of their operators, from the loosest on. -/
theorem ranked_levels : Ranked 0 levels := by
  refine ⟨?_, ?_, ?_, ?_, ?_, ?_, rfl⟩
  all_goals
    intro m op
    cases op <;> cases m <;> decide

/-- No level is tighter than the unary operators. -/
theorem Ranked.le_unary {n : Nat} {levels : List Level} (h : Ranked n levels) : n ≤ UnaryOp.rank := by
  induction levels generalizing n with
  | nil =>
    rw [Ranked] at h
    exact Nat.le_of_eq h
  | cons level levels ih => exact Nat.le_of_succ_le (ih h.2)

theorem unaryOp?_eq_some {m : Mark} {op : UnaryOp} : unaryOp? m = some op ↔ m = op.mark := by
  cases op <;> cases m <;> decide

end Parse

end Colloquy
