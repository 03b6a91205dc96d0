import Colloquy.Parser.Story
import Colloquy.Proofs.Parser.Abreast

/-!
# Parsers do not look at the errors recorded

Errors are only recorded behind those there are, and no parser asks what they are.  `Blindly M p rest last` says
this of a parser in front of given tokens: whatever errors were recorded before, it takes the same tokens, comes
to the same outcome and records the same errors behind them.  None of these is about a statement outside of all
sections, and unless `M`, none of the tokens is a section marker.  There is one rule for each way to put parsers
together, and one lemma for each parser up to the sections.
-/

namespace Colloquy

/-- An error is not about a statement that stands outside of all sections. -/
def ParseError.Inside (e : ParseError) : Prop := ∀ span, e ≠ .statementOutsideSection span

namespace Parse

/-- Tokens in front were taken, none of them a section marker unless `M`. -/
def Passed (M : Prop) (rest rest' : List Token) : Prop :=
  ∃ taken, rest = taken ++ rest' ∧ ∀ t ∈ taken, t.is .sectionMarker = true → M

/-- The next token is `t`, if there is one. -/
def Next (t : Token) (rest : List Token) : Prop := ∀ u ∈ rest.head?, u = t

/-- A parser goes the same way in front of some tokens whatever errors were recorded before. -/
inductive Blindly {α : Type} (M : Prop) (p : Parse α) (rest : List Token) (last : Token) : Prop where
  | ok (a : α) (rest' : List Token) (last' : Token) (more : List ParseError) :
      Passed M rest rest' → (∀ e ∈ more, e.Inside) →
      (∀ errors, p ⟨rest, last, errors⟩ = .ok a ⟨rest', last', errors ++ more⟩) → Blindly M p rest last
  | stop (halt : Halt) (rest' : List Token) (last' : Token) (more : List ParseError) :
      Passed M rest rest' → (∀ e ∈ more, e.Inside) → (∀ e, halt = .error e → e.Inside) →
      (∀ errors, p ⟨rest, last, errors⟩ = .error halt ⟨rest', last', errors ++ more⟩) → Blindly M p rest last

/-- In front of all tokens with `A`. -/
def BlindFrom {α : Type} (A : List Token → Prop) (M : Prop) (p : Parse α) : Prop :=
  ∀ rest last, A rest → Blindly M p rest last

/-- In front of any tokens. -/
abbrev Blind {α : Type} (M : Prop) (p : Parse α) : Prop := BlindFrom (fun _ => True) M p

variable {α β : Type} {M : Prop} {A : List Token → Prop} {p : Parse α} {t : Token}
  {rest rest' rest'' : List Token} {last : Token}

namespace Passed

theorem refl (M : Prop) (rest : List Token) : Passed M rest rest := ⟨[], rfl, by simp⟩

/-- What was passed in two steps was passed. -/
theorem trans (h : Passed M rest rest') (h' : Passed M rest' rest'') : Passed M rest rest'' := by
  obtain ⟨taken, rfl, htaken⟩ := h
  obtain ⟨more, rfl, hmore⟩ := h'
  refine ⟨taken ++ more, by rw [List.append_assoc], fun t ht => ?_⟩
  exact (List.mem_append.mp ht).elim (htaken t) (hmore t)

theorem cons (ht : t.is .sectionMarker = true → M) (h : Passed M rest rest') : Passed M (t :: rest) rest' := by
  obtain ⟨taken, rfl, htaken⟩ := h
  exact ⟨t :: taken, rfl, List.forall_mem_cons.mpr ⟨ht, htaken⟩⟩

end Passed

theorem next_headD (rest : List Token) (last : Token) : Next (rest.headD last) rest := by
  intro u hu
  rw [List.headD_eq_head?_getD, Option.mem_def.mp hu]
  rfl

/-- Line breaks are passed, and the errors are handed on. -/
theorem skipBreaks_eq (M : Prop) (last : Token) (ts : List Token) :
    Passed M ts (ts.dropWhile fun t => t.is .newline) ∧ ∃ last', ∀ errors,
      Cursor.skipBreaks errors last ts = ⟨ts.dropWhile fun t => t.is .newline, last', errors⟩ := by
  induction ts generalizing last with
  | nil => exact ⟨.refl M [], last, fun _ => rfl⟩
  | cons t ts ih =>
    by_cases hline : t.is .newline = true
    · obtain ⟨hpassed, last', heq⟩ := ih t
      rw [List.dropWhile_cons, if_pos hline]
      refine ⟨hpassed.cons fun hmarker => ?_, last', fun errors => ?_⟩
      · rw [Token.is, decide_eq_true_eq] at hline
        simp [Token.is, hline] at hmarker
      · rw [Cursor.skipBreaks, if_pos hline, heq]
    · rw [List.dropWhile_cons, if_neg hline]
      exact ⟨.refl M _, last, fun errors => by rw [Cursor.skipBreaks, if_neg hline]⟩

/-- The rest of a line is passed up to a section marker, and the errors are handed on. -/
theorem skipLine_eq (M : Prop) (last : Token) (ts : List Token) :
    ∃ rest' last', Passed M ts rest' ∧ ∀ errors, Cursor.skipLine errors last ts = ⟨rest', last', errors⟩ := by
  induction ts generalizing last with
  | nil => exact ⟨[], last, .refl M [], fun _ => rfl⟩
  | cons t ts ih =>
    by_cases hstop : (t.is .endOfFile || t.is .sectionMarker) = true
    · exact ⟨t :: ts, last, .refl M _, fun errors => by rw [Cursor.skipLine, if_pos hstop]⟩
    · have hmarker : t.is .sectionMarker = true → M := fun h => absurd hstop (by simp [h])
      by_cases hline : t.is .newline = true
      · exact ⟨ts, t, (Passed.refl M ts).cons hmarker,
          fun errors => by rw [Cursor.skipLine, if_neg hstop, if_pos hline]⟩
      · obtain ⟨rest', last', hpassed, heq⟩ := ih t
        exact ⟨rest', last', hpassed.cons hmarker,
          fun errors => by rw [Cursor.skipLine, if_neg hstop, if_neg hline, heq]⟩

namespace BlindFrom

theorem any (h : Blind M p) : BlindFrom A M p := fun rest last _ => h rest last trivial

/-- A parser that takes some tokens and records nothing. -/
theorem quiet {a : α} {last' : Token} (hpassed : Passed M rest rest')
    (heq : ∀ errors, p ⟨rest, last, errors⟩ = .ok a ⟨rest', last', errors⟩) : Blindly M p rest last :=
  .ok a rest' last' [] hpassed (by simp) fun errors => by rw [List.append_nil, heq]

theorem pure (a : α) : BlindFrom A M (Pure.pure a : Parse α) :=
  fun rest _ _ => quiet (.refl M rest) fun _ => rfl

/-- A parser that stops with an error of its own is blind, if the error is none of statements outside of
sections. -/
theorem fail {e : ParseError} (he : e.Inside) : BlindFrom A M (Parse.fail e : Parse α) := by
  refine fun rest last _ => .stop (.error e) rest last [] (.refl M rest) (by simp) ?_ fun errors => ?_
  · rintro _ ⟨⟩
    exact he
  · rw [List.append_nil]
    rfl

theorem exhausted : BlindFrom A M (Parse.exhausted : Parse α) := by
  refine fun rest last _ => .stop .exhausted rest last [] (.refl M rest) (by simp) (by simp) fun errors => ?_
  rw [List.append_nil]
  rfl

/-- Parsers one after another are blind if both are: the second one starts where the first one stopped,
and records its errors behind the first one's. -/
theorem bind {f : α → Parse β} (h : BlindFrom A M p) (hf : ∀ a, Blind M (f a)) : BlindFrom A M (p >>= f) := by
  intro rest last hA
  have hstep : ∀ errors, (p >>= f) ⟨rest, last, errors⟩ = EStateM.bind p f ⟨rest, last, errors⟩ := fun _ => rfl
  cases h rest last hA with
  | ok a rest' last' more hpassed hmore heq =>
    -- what follows starts behind the errors recorded first
    have hthen : ∀ errors, (p >>= f) ⟨rest, last, errors⟩ = f a ⟨rest', last', errors ++ more⟩ := by
      intro errors
      rw [hstep, EStateM.bind, heq]
    cases hf a rest' last' trivial with
    | ok b rest'' last'' more' hpassed' hmore' heq' =>
      refine .ok b rest'' last'' (more ++ more') (hpassed.trans hpassed')
        (List.forall_mem_append.mpr ⟨hmore, hmore'⟩) fun errors => ?_
      rw [hthen, heq', List.append_assoc]
    | stop halt rest'' last'' more' hpassed' hmore' hhalt heq' =>
      refine .stop halt rest'' last'' (more ++ more') (hpassed.trans hpassed')
        (List.forall_mem_append.mpr ⟨hmore, hmore'⟩) hhalt fun errors => ?_
      rw [hthen, heq', List.append_assoc]
  | stop halt rest' last' more hpassed hmore hhalt heq =>
    refine .stop halt rest' last' more hpassed hmore hhalt fun errors => ?_
    rw [hstep, EStateM.bind, heq]

end BlindFrom

/-- A parser that does the same is blind as well. -/
theorem Blindly.congr {q : Parse α} (h : Blindly M q rest last)
    (heq : ∀ errors, p ⟨rest, last, errors⟩ = q ⟨rest, last, errors⟩) : Blindly M p rest last := by
  cases h with
  | ok a rest' last' more hpassed hmore hq =>
    exact .ok a rest' last' more hpassed hmore fun errors => (heq errors).trans (hq errors)
  | stop halt rest' last' more hpassed hmore hhalt hq =>
    exact .stop halt rest' last' more hpassed hmore hhalt fun errors => (heq errors).trans (hq errors)

namespace BlindFrom

theorem peek {f : Token → Parse β} (hf : ∀ t, BlindFrom (Next t) M (f t)) :
    BlindFrom A M (Parse.peek >>= f) :=
  fun rest last _ => (hf _ rest last (next_headD rest last)).congr fun _ => rfl

theorem lastSpan {f : Span → Parse β} (hf : ∀ span, Blind M (f span)) :
    BlindFrom A M (Parse.lastSpan >>= f) :=
  fun rest last _ => (hf last.span rest last trivial).congr fun _ => rfl

/-- The next token is taken blindly, if it is no section marker or section markers may be taken. -/
theorem advance (ht : t.is .sectionMarker = true → M) : BlindFrom (Next t) M Parse.advance := by
  intro rest last hnext
  cases rest with
  | nil => exact quiet (.refl M []) fun _ => rfl
  | cons u ts =>
    obtain rfl : u = t := hnext u rfl
    exact quiet ((Passed.refl M ts).cons ht) fun _ => rfl

/-- If something is made of the next token, it is taken. -/
theorem accept? {g : Token → Option α} {f : Option α → Parse β}
    (hg : ∀ t a, g t = some a → t.is .sectionMarker = true → M) (hsome : ∀ a, Blind M (f (some a)))
    (hnone : Blind M (f none)) : BlindFrom A M (Parse.accept? g >>= f) := by
  have haccept : BlindFrom A M (Parse.accept? g) := by
    intro rest last _
    cases hmade : rest.head?.bind g with
    | none =>
      exact quiet (a := none) (.refl M rest) fun errors => by rw [Parse.accept?, hmade]
    | some a =>
      obtain ⟨t, ht, ha⟩ := Option.bind_eq_some_iff.mp hmade
      obtain ⟨ts, rfl⟩ := List.head?_eq_some_iff.mp ht
      have htake : ∀ errors, Parse.accept? g ⟨t :: ts, last, errors⟩ = .ok (some a) ⟨ts, t, errors⟩ := by
        intro errors
        rw [Parse.accept?, hmade]
        rfl
      exact quiet ((Passed.refl M ts).cons (hg t a ha)) htake
  refine haccept.bind fun o => ?_
  cases o with
  | some a => exact hsome a
  | none => exact hnone

/-- A mark is accepted blindly, and what follows may depend on whether it was there. -/
theorem accept {m : Mark} {f : Option Span → Parse β} (hm : m = .sectionMarker → M)
    (hsome : ∀ span, Blind M (f (some span))) (hnone : Blind M (f none)) :
    BlindFrom A M (Parse.accept m >>= f) := by
  refine accept? (fun t span hspan hmarker => hm ?_) hsome hnone
  split at hspan
  · next hmark =>
    rw [Token.is, decide_eq_true_eq] at hmark hmarker
    exact Lexeme.mark.inj (hmark.symm.trans hmarker)
  · cases hspan

/-- An operator is accepted blindly: a section marker is none. -/
theorem operator {g : Mark → Option α} {f : Option (Spanned α) → Parse β} (hg : g .sectionMarker = none)
    (hsome : ∀ op, Blind M (f (some op))) (hnone : Blind M (f none)) :
    BlindFrom A M (Parse.operator g >>= f) := by
  refine accept? (fun t op hop hmarker => ?_) hsome hnone
  rw [Token.is, decide_eq_true_eq] at hmarker
  simp [hmarker, hg] at hop

/-- An error that a parser stops with is recorded, and what is left of its line is skipped. -/
theorem recover (h : BlindFrom A M p) : BlindFrom A M (Parse.recover p) := by
  intro rest last hA
  cases h rest last hA with
  | ok a rest' last' more hpassed hmore heq =>
    exact .ok (some a) rest' last' more hpassed hmore fun errors => by rw [Parse.recover, heq]
  | stop halt rest' last' more hpassed hmore hhalt heq =>
    cases halt with
    | error e =>
      obtain ⟨rest'', last'', hpassed', hskip⟩ := skipLine_eq M last' rest'
      refine .ok none rest'' last'' (more ++ [e]) (hpassed.trans hpassed') ?_ fun errors => ?_
      · exact List.forall_mem_append.mpr ⟨hmore, by simpa using hhalt e rfl⟩
      · rw [Parse.recover, heq]
        simp only [hskip, List.append_assoc]
    | exhausted =>
      exact .stop .exhausted rest' last' more hpassed hmore hhalt fun errors => by rw [Parse.recover, heq]

end BlindFrom

/-! ## Small parsers -/

theorem skipBreaks_blind : Blind M skipBreaks := by
  intro rest last _
  obtain ⟨hpassed, last', heq⟩ := skipBreaks_eq M last rest
  exact BlindFrom.quiet (a := ()) hpassed fun errors => congrArg _ (heq errors)

theorem expect_blind {m : Mark} (hm : m ≠ .sectionMarker) {error : Token → ParseError}
    (herror : ∀ t, (error t).Inside) : Blind M (expect m error) :=
  .accept (fun h => absurd h hm) (fun span => .pure span) (.peek fun t => .fail (herror t))

theorem require_blind {m : Mark} (hm : m ≠ .sectionMarker) : Blind M (require m) := expect_blind hm fun _ => nofun

theorem closeBrace_blind (opener : Span) : Blind M (closeBrace opener) := expect_blind (by decide) fun _ => nofun

theorem closeParen_blind (opener : Span) : Blind M (closeParen opener) := expect_blind (by decide) fun _ => nofun

/-- A token that is looked at and has another lexeme than a section marker may be taken. -/
theorem advance_blind {l : Lexeme} (hl : t.lexeme = l) (hnot : l ≠ .mark .sectionMarker) :
    BlindFrom (Next t) M advance :=
  .advance fun hmarker => absurd (of_decide_eq_true hmarker) (by rw [hl]; exact hnot)

/-- A name is read blindly. -/
theorem ident_blind : Blind M ident := by
  refine .peek fun t => ?_
  split
  · next heq => exact (advance_blind heq (by simp)).bind fun _ => .pure _
  · exact .fail nofun

theorem sectionName_blind : Blind M sectionName := by
  refine .accept? (fun t x hx hmarker => ?_) (fun x => .pure x) ident_blind
  rw [Token.is, decide_eq_true_eq] at hmarker
  simp [hmarker, keywordText?] at hx

/-- The end of a line is read blindly. -/
theorem lineEnd_blind : Blind M lineEnd := by
  refine .peek fun t => ?_
  split
  · exact .pure _
  · split
    · next hline => exact advance_blind (of_decide_eq_true hline) (by decide)
    · exact .fail nofun

/-! ## Expressions -/

section

variable {operand expr : Parse Expr}

/-- The operators of one level and their operands are read blindly, if an operand is. -/
theorem chainRest_blind {level : Level} (hlevel : level .sectionMarker = none) (h : Blind M operand) (fuel : Nat)
    (left : Expr) : Blind M (chainRest level operand fuel left) := by
  induction fuel generalizing left with
  | zero => exact .exhausted
  | succ fuel ih => exact .operator hlevel (fun op => h.bind fun right => ih _) (.pure left)

theorem levels_sectionMarker : ∀ level ∈ levels, level .sectionMarker = none := by
  simp [levels]

/-- So are the levels above each other. -/
theorem climb_blind (fuel : Nat) {levels : List Level} (hlevels : ∀ level ∈ levels, level .sectionMarker = none)
    (h : Blind M operand) : Blind M (climb fuel levels operand) := by
  induction levels with
  | nil => exact h
  | cons level levels ih =>
    rw [List.forall_mem_cons] at hlevels
    have ih := ih hlevels.2
    exact ih.bind fun left => chainRest_blind hlevels.1 ih fuel left

theorem unary_blind (h : Blind M operand) (fuel : Nat) : Blind M (unary operand fuel) := by
  induction fuel with
  | zero => exact .exhausted
  | succ fuel ih => exact .operator rfl (fun op => ih.bind fun e => .pure _) h

/-- Arguments are read blindly, if an expression is. -/
theorem arguments_blind (h : Blind M expr) (fuel : Nat) : Blind M (arguments expr fuel) := by
  induction fuel with
  | zero => exact .exhausted
  | succ fuel ih =>
    exact h.bind fun e => .accept (by simp) (fun _ => ih.bind fun es => .pure _) (.pure _)

theorem call_blind (fuel : Nat) (h : Blind M expr) (callee : Ident) (awaited : Option Span) :
    Blind M (call fuel expr callee awaited) := by
  refine .lastSpan fun opener => .accept (by simp) (fun close => .pure _) ?_
  exact (arguments_blind h fuel).bind fun args => (closeParen_blind opener).bind fun close => .pure _

/-- Something is made of the words of a token, and nothing of those of a section marker. -/
theorem not_marker {g : Token → Option α} (hg : ∀ span, g ⟨.mark .sectionMarker, span⟩ = none) (t : Token) (a : α)
    (ha : g t = some a) (hmarker : t.is .sectionMarker = true) : M := by
  have hnone := hg t.span
  rw [← of_decide_eq_true hmarker, ha] at hnone
  cases hnone

/-- An operand without operators is read blindly, if an expression in parentheses is. -/
theorem primary_blind (fuel : Nat) (h : Blind M expr) : Blind M (primary fuel expr) := by
  unfold primary
  refine .accept? (not_marker fun _ => rfl) (fun e => .pure e) ?_
  refine .accept (by simp) (fun awaited => ?_) ?_
  · refine ident_blind.bind fun callee => ?_
    exact .accept (by simp) (fun _ => call_blind fuel h callee _) (.fail nofun)
  refine .accept? (not_marker fun _ => rfl) (fun x => ?_) ?_
  · exact .accept (by simp) (fun _ => call_blind fuel h x none) (.pure _)
  refine .accept (by simp) (fun opener => ?_) (.peek fun t => .fail nofun)
  exact h.bind fun e => (closeParen_blind opener).bind fun _ => .pure _

theorem expr_blind (fuel : Nat) : Blind M (Parse.expr fuel) := by
  induction fuel with
  | zero => exact .exhausted
  | succ fuel ih => exact climb_blind fuel levels_sectionMarker (unary_blind (primary_blind fuel ih) _)

/-- An instruction is read blindly, an assignment or an expression. -/
theorem instruction_blind (fuel : Nat) : Blind M (instruction fuel) := by
  refine (expr_blind fuel).bind fun left => .operator rfl (fun op => ?_) (.pure left)
  refine (expr_blind fuel).bind fun value => ?_
  split
  · exact .pure _
  · exact .fail nofun

/-! ## Lines -/

/-- The segments of a text are read blindly. -/
theorem segments_blind (h : Blind M expr) (fuel : Nat) (acc : List Segment) :
    Blind M (segments expr fuel acc) := by
  induction fuel generalizing acc with
  | zero => exact .exhausted
  | succ fuel ih =>
    refine .accept? (not_marker fun _ => rfl) (fun t => ih _) ?_
    refine .accept (by simp) (fun opener => .peek fun next => ?_) (.pure _)
    split
    · exact .pure _
    · exact BlindFrom.any (h.bind fun e => (closeBrace_blind opener).bind fun _ => ih _)

theorem hashKey_blind : Blind M hashKey := .accept? (not_marker fun _ => rfl) (fun x => .pure x) ident_blind

/-- The values of a key are read blindly. -/
theorem hashValues_blind (h : Blind M expr) (fuel : Nat) : Blind M (hashValues expr fuel) := by
  induction fuel with
  | zero => exact .exhausted
  | succ fuel ih =>
    refine h.bind fun e => .peek fun t => ?_
    split
    · exact .pure _
    · exact BlindFrom.any (ih.bind fun es => .pure _)

/-- Keys with their values are read blindly. -/
theorem hashEntries_blind (fuel : Nat) (h : Blind M expr) (bound : Nat) :
    Blind M (hashEntries fuel expr bound) := by
  induction bound with
  | zero => exact .exhausted
  | succ bound ih =>
    refine hashKey_blind.bind fun key => .accept (by simp) (fun _ => ?_) ?_
    · refine (hashValues_blind h fuel).bind fun values => ?_
      exact .accept (by simp) (fun _ => ih.bind fun es => .pure _) (.pure _)
    · refine (BlindFrom.pure _).bind fun values => ?_
      exact .accept (by simp) (fun _ => ih.bind fun es => .pure _) (.pure _)

/-- Hash data are read blindly up to their closing brace. -/
theorem hashBody_blind (fuel : Nat) (opener : Span) : Blind M (hashBody fuel opener) := by
  have hclose : ∀ entries, Blind M (do
      let close ← closeBrace opener
      return (⟨entries, opener.cover close⟩ : HashBlock)) :=
    fun entries => (closeBrace_blind opener).bind fun _ => .pure _
  refine .peek fun t => ?_
  split
  · exact (BlindFrom.pure _).bind hclose
  · exact BlindFrom.any ((hashEntries_blind fuel (expr_blind fuel) fuel).bind hclose)

/-- A directive is read blindly. -/
theorem directive_blind (fuel : Nat) : Blind M (directive fuel) := by
  refine .peek fun t => ?_
  have hend : ∀ kind : Directive, Blind M (do
      return (⟨kind, t.span.cover (← lastSpan)⟩ : Spanned Directive)) := fun kind => .lastSpan fun _ => .pure _
  split
  · next heq =>
    exact (advance_blind heq (by simp)).bind fun _ => sectionName_blind.bind fun _ => .pure _
  · next heq =>
    refine (advance_blind heq (by simp)).bind fun _ => ?_
    dsimp only
    split
    · exact (BlindFrom.pure _).bind hend
    · exact (expr_blind fuel).bind fun _ => (BlindFrom.pure _).bind hend
    · exact (expr_blind fuel).bind fun _ => (BlindFrom.pure _).bind hend
    · refine BlindFrom.bind (.fail ?_) hend
      exact nofun
  · exact .fail nofun

/-- Directives are read blindly, one behind another. -/
theorem directives_blind (fuel bound : Nat) : Blind M (directives fuel bound) := by
  induction bound with
  | zero => exact .exhausted
  | succ bound ih =>
    exact (directive_blind fuel).bind fun d => .accept (by simp) (fun _ => ih.bind fun ds => .pure _) (.pure _)

/-- What a line may open with is read blindly: a speaker, or its text. -/
theorem opener_blind (h : Blind M expr) (isFirst : Bool) : Blind M (opener expr isFirst) := by
  refine .peek fun t => ?_
  split
  · next heq => exact (advance_blind heq (by simp)).bind fun _ => .pure _
  · next heq =>
    refine (advance_blind heq (by simp)).bind fun _ => h.bind fun e => ?_
    refine (closeBrace_blind _).bind fun _ => .peek fun next => ?_
    split
    · exact .pure _
    · split
      · exact .pure _
      · exact .fail nofun
  · exact .pure _

/-- The speakers of a line are read blindly up to their colon. -/
theorem opening_blind (h : Blind M expr) (fuel : Nat) (acc : List SpeakerRef) :
    Blind M (opening expr fuel acc) := by
  induction fuel generalizing acc with
  | zero => exact .exhausted
  | succ fuel ih =>
    refine (opener_blind h _).bind fun o => ?_
    cases o with
    | nothing => exact .pure _
    | placeholder e => exact .pure _
    | speaker s => exact .accept (by simp) (fun _ => ih _) (.pure _)

/-- What may stand behind the text of a line is read blindly. -/
theorem trailer_blind (fuel bound : Nat) (acc : Trailer) : Blind M (trailer fuel bound acc) := by
  induction bound generalizing acc with
  | zero => exact .exhausted
  | succ bound ih =>
    refine .accept (by simp) (fun opener => ?_) (.accept (by simp) (fun opener => ?_) ?_)
    · refine (directives_blind fuel fuel).bind fun ds => (expect_blind (by decide) ?_).bind fun _ => ih _
      exact fun _ => nofun
    · exact (hashBody_blind fuel opener).bind fun h => ih _
    · exact .accept (by simp) (fun arrow => sectionName_blind.bind fun x => ih _) (.pure acc)

/-- A line is read blindly. -/
theorem line_blind (fuel : Nat) : Blind M (line fuel) := by
  rw [line_eq]
  refine .peek fun t => BlindFrom.any ((opening_blind (expr_blind fuel) fuel []).bind fun opened => ?_)
  have htext : Blind M (lineText fuel t.span opened) := by
    refine (segments_blind (expr_blind fuel) fuel _).bind fun p => ?_
    obtain ⟨text, block⟩ := p
    cases block with
    | some opener => exact .peek fun _ => .fail nofun
    | none => exact (trailer_blind fuel fuel _).bind fun r => .lastSpan fun _ => .pure _
  unfold lineSpoken
  split
  · split
    · exact .accept (by simp) (fun _ => htext) htext
    · exact (require_blind (by decide)).bind fun _ => htext
  · exact htext

end

/-! ## Statements -/

section

variable {expr : Parse Expr}

/-- Parts are read blindly up to where they stop, if each part is. -/
theorem many_blind (stop : Token → Bool) (h : Blind M p) (fuel : Nat) : Blind M (many stop p fuel) := by
  induction fuel with
  | zero => exact .exhausted
  | succ fuel ih =>
    refine skipBreaks_blind.bind fun _ => .peek fun t => ?_
    split
    · exact .pure _
    · exact BlindFrom.any (h.recover.bind fun o => ih.bind fun as => .pure _)

theorem braces_blind (h : Blind M p) : Blind M (braces p) := by
  refine (require_blind (by decide)).bind fun opener => lineEnd_blind.bind fun _ => ?_
  exact h.bind fun a => (closeBrace_blind opener).bind fun _ => .pure _

/-- The branches of an if are read blindly, if their conditions and their parts are. -/
theorem branches_blind (hexpr : Blind M expr) (h : Blind M p) (fuel : Nat) : Blind M (branches expr p fuel) := by
  unfold branches
  refine hexpr.bind fun e => (braces_blind h).bind fun a => .accept (by simp) (fun _ => ?_) (.pure _)
  refine .accept (by simp) (fun _ => ?_) ((braces_blind h).bind fun b => .pure _)
  cases fuel with
  | zero => exact .exhausted
  | succ fuel => exact (branches_blind hexpr h fuel).bind fun _ => .pure _

theorem optionGuard_blind (h : Blind M expr) : Blind M (optionGuard expr) :=
  .accept (by simp) (fun _ => h.bind fun e => (require_blind (by decide)).bind fun _ => .pure _) (.pure _)

/-- The target of an option is read blindly; it has none if it has a block. -/
theorem optionTarget_blind (block : Option Span) : Blind M (optionTarget block) := by
  cases block with
  | some opener => exact .pure _
  | none =>
    refine .accept (by simp) (fun _ => sectionName_blind.bind fun x => ?_) (.pure _)
    exact .accept (by simp) (fun _ => .pure _) (.pure _)

/-- The block of an option is read blindly. -/
theorem optionBody_blind (h : Blind M p) (block : Option Span) : Blind M (optionBody p block) := by
  cases block with
  | none => exact .pure _
  | some opener =>
    exact lineEnd_blind.bind fun _ => h.bind fun a => (closeBrace_blind opener).bind fun _ => .pure _

end

mutual

/-- A statement is read blindly, by induction on the steps it is given. -/
theorem stmt_blind (M : Prop) (fuel : Nat) : Blind M (stmt fuel) := by
  cases fuel with
  | zero => exact .exhausted
  | succ fuel =>
    have hrest : ∀ x : Stmt, Blind M (do
        lineEnd
        return x) := fun x => lineEnd_blind.bind fun _ => .pure x
    have hline : Blind M (do
        let l ← line (fuel + 1)
        lineEnd
        return Stmt.line l) := (line_blind (fuel + 1)).bind fun l => hrest _
    have hblock := many_blind endsBraces (stmt_blind M fuel) fuel
    unfold stmt
    refine .peek fun t => ?_
    split
    -- an instruction
    · next heq => exact (advance_blind heq (by simp)).bind fun _ => (instruction_blind fuel).bind fun e => hrest _
    -- a goto, by its word or by an arrow
    · next heq => exact (advance_blind heq (by simp)).bind fun _ => sectionName_blind.bind fun x => hrest _
    · next heq => exact (advance_blind heq (by simp)).bind fun _ => sectionName_blind.bind fun x => hrest _
    -- an end
    · next heq => exact (advance_blind heq (by simp)).bind fun _ => hrest _
    -- a conditional
    · next heq =>
      refine (advance_blind heq (by simp)).bind fun _ => ?_
      exact (branches_blind (expr_blind fuel) hblock fuel).bind fun _ => .lastSpan fun _ => hrest _
    -- a choice
    · next heq =>
      refine (advance_blind heq (by simp)).bind fun _ => (require_blind (by decide)).bind fun opener => ?_
      refine lineEnd_blind.bind fun _ => (many_blind endsBraces (item_blind M fuel) fuel).bind fun items => ?_
      exact (closeBrace_blind opener).bind fun _ => hrest _
    -- hash data
    · next heq => exact (advance_blind heq (by simp)).bind fun _ => (hashBody_blind fuel _).bind fun h => hrest _
    -- hash data of a speaker
    · next heq =>
      refine (advance_blind heq (by simp)).bind fun _ => ident_blind.bind fun x => ?_
      exact (require_blind (by decide)).bind fun _ => (hashBody_blind fuel _).bind fun h => hrest _
    -- an option outside of a choice
    · exact .fail nofun
    -- a line
    · exact hline.any
    · exact hline.any
    · exact hline.any
    · exact hline.any
    -- anything else starts no statement
    · exact .fail nofun

/-- So is an item of a choice. -/
theorem item_blind (M : Prop) (fuel : Nat) : Blind M (item fuel) := by
  cases fuel with
  | zero => exact .exhausted
  | succ fuel =>
    have hblock := many_blind endsBraces (stmt_blind M fuel) fuel
    unfold item
    refine .accept (by simp) (fun star => ?_) (.accept (by simp) (fun word => ?_) (.peek fun t => .fail nofun))
    · refine (optionGuard_blind (expr_blind fuel)).bind fun guard => ?_
      refine (segments_blind (expr_blind fuel) fuel []).bind fun p => (optionTarget_blind p.2).bind fun q => ?_
      refine (optionBody_blind hblock q.2).bind fun body => .lastSpan fun _ => ?_
      exact lineEnd_blind.bind fun _ => .pure _
    · refine (branches_blind (expr_blind fuel) (many_blind endsBraces (item_blind M fuel) fuel) fuel).bind
        fun p => .lastSpan fun _ => ?_
      exact lineEnd_blind.bind fun _ => .pure _

end

theorem sectionBody_blind (M : Prop) (fuel : Nat) : Blind M (sectionBody fuel) :=
  many_blind endsSection (stmt_blind M fuel) fuel

/-- The header of a section is read blindly, if section markers may be taken. -/
theorem headerFrom_blind (marker : Span) : Blind True (headerFrom marker) := by
  have hheader : Blind True header := by
    refine sectionName_blind.bind fun x => ?_
    exact .accept (fun _ => trivial) (fun _ => lineEnd_blind.bind fun _ => .pure _)
      (lineEnd_blind.bind fun _ => .pure _)
  exact hheader.bind fun x => .lastSpan fun _ => .pure _

/-- A section takes its marker. -/
theorem sectionPart_blind (fuel : Nat) : Blind True (sectionPart fuel) := by
  have hadvance : Blind True advance :=
    fun rest last _ => BlindFrom.advance (fun _ => trivial) rest last (next_headD rest last)
  refine hadvance.bind fun _ => .lastSpan fun marker => ?_
  refine (BlindFrom.recover (headerFrom_blind marker)).bind fun o => ?_
  cases o with
  | none => exact (sectionBody_blind True fuel).bind fun _ => .pure _
  | some p => exact (sectionBody_blind True fuel).bind fun _ => .pure _

end Parse

end Colloquy
