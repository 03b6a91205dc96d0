import Colloquy.Parser.Line
import Colloquy.Proofs.Token.Ended

/-!
# Parsers go on

A parser that reads the tokens of a source must neither take the token that ends them nor go round in
circles.  `Goes E p c Q` says what this means from a cursor `c` on: the parser comes to a result with `Q`,
or, if `E`, to an error, but it does not stop for want of steps, and the end of the source is still before
it afterwards.

How many steps a parser needs depends on the tokens it has left.  `Runs E A k n p` says that `p` goes on from
every cursor with `A` and at most `n` tokens left, and that it takes `k` of them or more when it has a
result.  There is one rule for each way to put parsers together, then come the parsers of expressions.
-/

namespace Colloquy

/-! ## Cursors -/

namespace Cursor

/-- The cursor has the end of the source before it, and not more than `n` tokens with that one. -/
structure Ready (n : Nat) (c : Cursor) : Prop where
  ended : Ended c.rest
  left : c.rest.length ≤ n

/-- A cursor moved on to another one and left the end of the source before it. -/
structure Moves (c c' : Cursor) : Prop where
  ended : Ended c'.rest
  suffix : c'.rest <:+ c.rest

/-- The next token is `t`. -/
def Before (t : Token) (c : Cursor) : Prop := c.rest.head? = some t

variable {c c' c'' : Cursor} {n : Nat} {t : Token}

theorem Ready.pos (h : c.Ready n) : 0 < n :=
  Nat.lt_of_lt_of_le (List.length_pos_iff.mpr h.ended.ne_nil) h.left

theorem Moves.refl (h : Ended c.rest) : c.Moves c := ⟨h, List.suffix_refl _⟩

theorem Moves.trans (h : c.Moves c') (h' : c'.Moves c'') : c.Moves c'' :=
  ⟨h'.ended, h'.suffix.trans h.suffix⟩

theorem Moves.length_le (h : c.Moves c') : c'.rest.length ≤ c.rest.length := h.suffix.length_le

theorem Ready.before_next (h : c.Ready n) : c.Before c.next := by
  obtain ⟨t, ts, hrest⟩ := List.exists_cons_of_ne_nil h.ended.ne_nil
  rw [Before, Cursor.next, hrest]
  rfl

/-- The next token is taken, if it is not the end of the source. -/
theorem moves_advance (hc : Ended c.rest) (ht : c.Before t) (hnot : t.is .endOfFile = false) :
    c.Moves c.advance ∧ c.advance.rest.length + 1 = c.rest.length := by
  obtain ⟨u, ts, hrest⟩ := List.exists_cons_of_ne_nil hc.ne_nil
  rw [Before, hrest] at ht
  cases ht
  rw [hrest] at hc
  rw [Cursor.advance, hrest]
  refine ⟨⟨hc.tail hnot, ?_⟩, rfl⟩
  rw [hrest]
  exact List.suffix_cons _ _

/-- A cursor that came to another token has taken something. -/
theorem Moves.length_lt {u : Token} (h : c.Moves c') (ht : c.Before t) (hu : c'.Before u) (hne : t ≠ u) :
    c'.rest.length < c.rest.length := by
  refine Nat.lt_of_le_of_ne h.length_le fun hlength => hne ?_
  rw [Before, ← h.suffix.eq_of_length hlength, hu] at ht
  exact (Option.some.inj ht).symm

end Cursor

namespace Parse

variable {α β : Type} {E : Prop} {c : Cursor} {p : Parse α} {f : α → Parse β}

/-- How a parser ended that started at a cursor. -/
inductive Went (E : Prop) (c : Cursor) (Q : α → Cursor → Prop) :
    EStateM.Result Halt Cursor α → Prop where
  | ok {a : α} {c' : Cursor} : c.Moves c' → Q a c' → Went E c Q (.ok a c')
  | error {e : ParseError} {c' : Cursor} : E → c.Moves c' → Went E c Q (.error (.error e) c')

/-- A parser goes on from a cursor. -/
def Goes (E : Prop) (p : Parse α) (c : Cursor) (Q : α → Cursor → Prop) : Prop := Went E c Q (p c)

namespace Goes

variable {Q : α → Cursor → Prop} {R : β → Cursor → Prop}

theorem pure {a : α} (hc : Ended c.rest) (h : Q a c) : Goes E (Pure.pure a : Parse α) c Q :=
  .ok (.refl hc) h

/-- Parsers one after another go on, the second one from where the first one stopped. -/
theorem bind (h : Goes E p c Q) (hf : ∀ a c', c.Moves c' → Q a c' → Goes E (f a) c' R) :
    Goes E (p >>= f) c R := by
  show Went E c R (EStateM.bind p f c)
  rw [Goes] at h
  rw [EStateM.bind]
  generalize p c = x at h ⊢
  cases h with
  | @ok a c' hmoves hQ =>
    have hrest := hf a c' hmoves hQ
    rw [Goes] at hrest
    show Went E c R (f a c')
    generalize f a c' = y at hrest ⊢
    cases hrest with
    | ok hmoves' hR => exact .ok (hmoves.trans hmoves') hR
    | error hE hmoves' => exact .error hE (hmoves.trans hmoves')
  | error hE hmoves => exact .error hE hmoves

/-- Errors may be allowed, and what is known of a result may be weakened. -/
theorem mono {E' : Prop} {Q' : α → Cursor → Prop} (h : Goes E p c Q) (hE : E → E')
    (hQ : ∀ a c', c.Moves c' → Q a c' → Q' a c') : Goes E' p c Q' := by
  rw [Goes] at h ⊢
  generalize p c = x at h ⊢
  cases h with
  | ok hmoves ha => exact .ok hmoves (hQ _ _ hmoves ha)
  | error he hmoves => exact .error (hE he) hmoves

end Goes

theorem peek_goes {n : Nat} (hc : c.Ready n) :
    Goes E Parse.peek c fun t c' => c'.Before t ∧ c' = c :=
  .ok (.refl hc.ended) ⟨hc.before_next, rfl⟩

/-- A parser goes on from every cursor with `A` and at most `n` tokens left, and takes at least `k` of
them if it has a result.  It may stop with an error if `E`. -/
def Runs (E : Prop) (A : Cursor → Prop) (k n : Nat) (p : Parse α) : Prop :=
  ∀ c : Cursor, c.Ready n → A c → Goes E p c fun _ c' => c'.rest.length + k ≤ c.rest.length

/-- A parser goes on from every cursor with at most `n` tokens left. -/
abbrev Passes (n : Nat) (p : Parse α) : Prop := Runs True (fun _ => True) 0 n p

/-- A parser goes on in the same way, and takes a token or more if it has a result. -/
abbrev Takes (n : Nat) (p : Parse α) : Prop := Runs True (fun _ => True) 1 n p

namespace Runs

variable {A : Cursor → Prop} {k n : Nat} {t : Token}

/-- Without a token left there is nothing to go on from. -/
theorem zero : Runs E A k 0 p := fun _ hc _ => absurd hc.pos (Nat.lt_irrefl 0)

theorem pure (a : α) : Runs E A 0 n (Pure.pure a : Parse α) := fun _ hc _ => .pure hc.ended (Nat.le_refl _)

theorem fail (e : ParseError) : Runs True A k n (Parse.fail e : Parse α) :=
  fun _ hc _ => .error trivial (.refl hc.ended)

theorem mono {m : Nat} (h : Runs E A k n p) (hm : m ≤ n) : Runs E A k m p :=
  fun c hc => h c ⟨hc.ended, Nat.le_trans hc.left hm⟩

theorem any (h : Runs E (fun _ => True) k n p) : Runs E A k n p := fun c hc _ => h c hc trivial

theorem passes (h : Runs E A 1 n p) : Runs E A 0 n p :=
  fun c hc hA => (h c hc hA).mono id fun _ _ _ => Nat.le_of_succ_le

/-- What follows something may start from wherever that leads. -/
theorem before (h : Runs E A 0 n p) (hf : ∀ a, Runs E (fun _ => True) k n (f a)) :
    Runs E A k n (p >>= f) := by
  intro c hc hA
  refine (h c hc hA).bind fun a c' hmoves hle => ?_
  refine (hf a c' ⟨hmoves.ended, by have := hc.left; omega⟩ trivial).mono id fun _ _ _ hle' => ?_
  omega

/-- What follows a token has one token less. -/
theorem after (h : Runs E A 1 n p) (hf : ∀ a, Runs E (fun _ => True) 0 (n - 1) (f a)) :
    Runs E A 1 n (p >>= f) := by
  intro c hc hA
  refine (h c hc hA).bind fun a c' hmoves hle => ?_
  refine (hf a c' ⟨hmoves.ended, by have := hc.left; omega⟩ trivial).mono id fun _ _ _ hle' => ?_
  omega

/-- A parser may look at the next token. -/
theorem peek {f : Token → Parse β} (hf : ∀ t, Runs E (Cursor.Before t) k n (f t)) :
    Runs E A k n (Parse.peek >>= f) := by
  intro c hc _
  refine (peek_goes hc).bind fun t c' _ h => ?_
  obtain ⟨ht, rfl⟩ := h
  exact hf t c' hc ht

theorem lastSpan {f : Span → Parse β} (hf : ∀ span, Runs E (fun _ => True) k n (f span)) :
    Runs E A k n (Parse.lastSpan >>= f) :=
  before (fun _ hc _ => .ok (.refl hc.ended) (Nat.le_refl _)) hf

/-- A token that is not the end of the source may be taken. -/
theorem advance (ht : t.is .endOfFile = false) : Runs E (Cursor.Before t) 1 n Parse.advance := by
  intro c hc hbefore
  obtain ⟨hmoves, hlength⟩ := Cursor.moves_advance hc.ended hbefore ht
  exact .ok hmoves (Nat.le_of_eq hlength)

/-- If something is made of the next token, it is taken. -/
theorem accept? {g : Token → Option α} {f : Option α → Parse β}
    (hg : ∀ span, g ⟨.mark .endOfFile, span⟩ = none)
    (hsome : ∀ a, Runs E (fun _ => True) 0 (n - 1) (f (some a)))
    (hnone : Runs E (fun _ => True) k n (f none)) (hk : k ≤ 1) : Runs E A k n (Parse.accept? g >>= f) := by
  intro c hc _
  have haccept : Goes E (Parse.accept? g) c fun o c' =>
      c'.rest.length + (if o.isSome then 1 else 0) ≤ c.rest.length := by
    rw [Goes, Parse.accept?]
    split
    · next a heq =>
      obtain ⟨t, ht, ha⟩ := Option.bind_eq_some_iff.mp heq
      have hnot : t.is .endOfFile = false := by
        rw [Token.is, decide_eq_false_iff_not]
        intro hend
        have hnone := hg t.span
        rw [← hend, ha] at hnone
        cases hnone
      obtain ⟨hmoves, hlength⟩ := Cursor.moves_advance hc.ended ht hnot
      exact .ok hmoves (Nat.le_of_eq hlength)
    · exact .ok (.refl hc.ended) (Nat.le_refl _)
  refine haccept.bind fun o c' hmoves hle => ?_
  cases o with
  | some a =>
    simp only [Option.isSome_some, if_true] at hle
    refine (hsome a c' ⟨hmoves.ended, by have := hc.left; omega⟩ trivial).mono id
      fun _ _ _ hle' => ?_
    omega
  | none =>
    simp only [Option.isSome_none, Bool.false_eq_true, if_false] at hle
    refine (hnone c' ⟨hmoves.ended, by have := hc.left; omega⟩ trivial).mono id
      fun _ _ _ hle' => ?_
    omega

/-- If a mark is there, one token less is left; if not, what follows must take the tokens that are asked
for. -/
theorem accept {m : Mark} {f : Option Span → Parse β} (hm : m ≠ .endOfFile)
    (hsome : ∀ span, Runs E (fun _ => True) 0 (n - 1) (f (some span)))
    (hnone : Runs E (fun _ => True) k n (f none)) (hk : k ≤ 1) :
    Runs E A k n (Parse.accept m >>= f) := by
  refine accept? (fun _ => if_neg fun hmark => hm ?_) hsome hnone hk
  exact (Lexeme.mark.inj (of_decide_eq_true hmark)).symm

/-- So it is for an operator. -/
theorem operator {g : Mark → Option α} {f : Option (Spanned α) → Parse β} (hg : g .endOfFile = none)
    (hsome : ∀ op, Runs E (fun _ => True) 0 (n - 1) (f (some op)))
    (hnone : Runs E (fun _ => True) k n (f none)) (hk : k ≤ 1) :
    Runs E A k n (Parse.operator g >>= f) :=
  accept? (fun _ => by simp [hg]) hsome hnone hk

end Runs

/-! ## Small parsers -/

section

variable {n : Nat} {A : Cursor → Prop}

theorem expect_takes {m : Mark} (hm : m ≠ .endOfFile) (error : Token → ParseError) :
    Runs True A 1 n (expect m error) :=
  .accept hm (fun _ => .pure _) (.peek fun _ => .fail _) (Nat.le_refl 1)

/-- A name takes a token. -/
theorem ident_takes : Runs True A 1 n ident := by
  refine .peek fun t => ?_
  split
  · next heq => exact (Runs.advance (by simp [Token.is, heq])).after fun _ => .pure _
  · exact .fail _

theorem sectionName_takes : Runs True A 1 n sectionName :=
  .accept? (fun _ => rfl) (fun _ => .pure _) ident_takes (Nat.le_refl 1)

/-- The end of a line is taken, or the end of the source stays before the cursor. -/
theorem lineEnd_goes {c : Cursor} (hc : c.Ready n) : Goes True lineEnd c fun _ c' =>
    c'.rest.length < c.rest.length ∨ ∃ t, c'.Before t ∧ t.is .endOfFile = true := by
  refine (peek_goes hc).bind fun t c' _ h => ?_
  obtain ⟨ht, rfl⟩ := h
  split
  · next hend => exact .pure hc.ended (.inr ⟨t, ht, hend⟩)
  · next hnot =>
    split
    · obtain ⟨hmoves, hlength⟩ := Cursor.moves_advance hc.ended ht (by simpa using hnot)
      exact .ok hmoves (.inl (by omega))
    · exact .error trivial (.refl hc.ended)

theorem lineEnd_passes : Passes n lineEnd :=
  fun _ hc _ => (lineEnd_goes hc).mono id fun _ _ hmoves _ => hmoves.length_le

end

/-! ## Expressions -/

section

variable {n : Nat} {operand expr : Parse Expr}

/-- The operators of one level need no more steps than there are tokens: each round takes one. -/
theorem chainRest_passes {level : Level} (hlevel : level .endOfFile = none) (h : Takes n operand)
    {fuel : Nat} (hfuel : fuel ≤ n) (left : Expr) : Passes fuel (chainRest level operand fuel left) := by
  induction fuel generalizing left with
  | zero => exact .zero
  | succ fuel ih =>
    have hle : fuel ≤ n := Nat.le_of_succ_le hfuel
    refine .operator hlevel (fun op => ?_) (.pure left) (Nat.zero_le 1)
    exact (h.mono hle).passes.before fun right => ih hle _

theorem levels_endOfFile : ∀ level ∈ levels, level .endOfFile = none := by
  simp [levels]

/-- The levels above each other take a token, if an operand does. -/
theorem climb_takes {fuel : Nat} {levels : List Level}
    (hlevels : ∀ level ∈ levels, level .endOfFile = none) (h : Takes (fuel + 1) operand) :
    Takes (fuel + 1) (climb fuel levels operand) := by
  induction levels with
  | nil => exact h
  | cons level levels ih =>
    rw [List.forall_mem_cons] at hlevels
    have ih := ih hlevels.2
    exact ih.after fun left => chainRest_passes hlevels.1 ih (Nat.le_succ fuel) left

/-- Operators of one operand need no more steps than there are tokens. -/
theorem unary_takes (h : Takes n operand) {fuel : Nat} (hfuel : fuel ≤ n) :
    Takes fuel (unary operand fuel) := by
  induction fuel with
  | zero => exact .zero
  | succ fuel ih =>
    refine .operator rfl (fun op => ?_) (h.mono hfuel) (Nat.le_refl 1)
    exact (ih (Nat.le_of_succ_le hfuel)).passes.before fun e => .pure _

/-- So do arguments: each of them takes a token. -/
theorem arguments_takes (h : Takes n expr) {fuel : Nat} (hfuel : fuel ≤ n) :
    Takes fuel (arguments expr fuel) := by
  induction fuel with
  | zero => exact .zero
  | succ fuel ih =>
    have ih := (ih (Nat.le_of_succ_le hfuel)).passes
    refine (h.mono hfuel).after fun e => .accept (by decide) (fun _ => ?_) (.pure _) (Nat.zero_le 1)
    exact (ih.mono (Nat.sub_le _ _)).before fun es => .pure _

/-- A call needs no more steps than there are tokens behind its name. -/
theorem call_passes {fuel : Nat} (h : Takes fuel expr) (callee : Ident) (awaited : Option Span) :
    Passes fuel (call fuel expr callee awaited) := by
  refine .lastSpan fun opener => .accept (by decide) (fun close => .pure _) ?_ (Nat.zero_le 1)
  refine (arguments_takes h (Nat.le_refl fuel)).passes.before fun args => ?_
  exact (expect_takes (by decide) _).passes.before fun close => .pure _

/-- An operand without operators takes a token, and what is in it has one token less to take. -/
theorem primary_takes {fuel : Nat} (h : Takes fuel expr) : Takes (fuel + 1) (primary fuel expr) := by
  have hcall : ∀ callee awaited, Passes (fuel - 1) (call fuel expr callee awaited) :=
    fun callee awaited => (call_passes h callee awaited).mono (Nat.sub_le _ _)
  unfold primary
  refine .accept? (fun _ => rfl) (fun e => .pure e) ?_ (Nat.le_refl 1)
  refine .accept (by decide) (fun awaited => ?_) ?_ (Nat.le_refl 1)
  · refine ident_takes.passes.before fun callee => ?_
    exact .accept (by decide) (fun _ => hcall callee _) (.fail _) (Nat.zero_le 1)
  refine .accept? (fun _ => rfl) (fun x => ?_) ?_ (Nat.le_refl 1)
  · exact .accept (by decide) (fun _ => hcall x none) (.pure _) (Nat.zero_le 1)
  refine .accept (by decide) (fun opener => ?_) (.peek fun t => .fail _) (Nat.le_refl 1)
  exact h.passes.before fun e => (expect_takes (by decide) _).passes.before fun _ => .pure _

/-- An expression takes a token or more, and needs no more steps than there are tokens. -/
theorem expr_takes (fuel : Nat) : Takes fuel (Parse.expr fuel) := by
  induction fuel with
  | zero => exact .zero
  | succ fuel ih => exact climb_takes levels_endOfFile (unary_takes (primary_takes ih) (Nat.le_refl _))

/-- An instruction takes a token. -/
theorem instruction_takes (fuel : Nat) : Takes fuel (instruction fuel) := by
  refine (expr_takes fuel).after fun left => .operator rfl (fun op => ?_) (.pure left) (Nat.zero_le 1)
  refine ((expr_takes fuel).mono (Nat.le_trans (Nat.sub_le _ _) (Nat.sub_le _ _))).passes.before
    fun value => ?_
  split
  · exact .pure _
  · exact .fail _

end

end Parse

end Colloquy
