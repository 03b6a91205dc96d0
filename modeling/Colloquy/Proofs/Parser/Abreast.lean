import Colloquy.Proofs.Parser.Total

/-!
# Parsers side by side

A line of tokens means the same wherever it stands.  Two parsers run over the same line, each in front of
its own rest of the source and with its own bounds, and stay `Abreast` as long as they are in it: neither
sees what stands behind the line break.  So they come to the same result or to the same error, unless a
bound stops one of them (`Agree`).  There is one rule for each way to put parsers together, and one lemma
for each parser of a line.

In front of the line the two may have taken different tokens last.  A parser that asks for the one taken
last has taken one of the line.
-/

namespace Colloquy.Parse

/-- The line break at the end of a line, with what stands behind it and the errors that were recorded before
it on either side. -/
structure Sides where
  newline : Token
  ends : newline.is .newline = true
  left : List Token
  right : List Token
  errorsLeft : List ParseError
  errorsRight : List ParseError

/-- Tokens of one line: none of them ends a line or a section. -/
def OnLine (ts : List Token) : Prop :=
  ∀ t ∈ ts, t.is .newline = false ∧ t.is .endOfFile = false ∧ t.is .sectionMarker = false

/-- Two cursors in front of the same rest of a line.  If `b`, they took the same token last. -/
structure Abreast (s : Sides) (b : Prop) (c c' : Cursor) : Prop where
  ahead : ∃ ts, OnLine ts ∧
    c.rest = ts ++ s.newline :: s.left ∧ c'.rest = ts ++ s.newline :: s.right
  errorsLeft : c.errors = s.errorsLeft
  errorsRight : c'.errors = s.errorsRight
  last : b → c.last = c'.last

/-- Two parsers came to the same result at cursors with `Q`, or to the same error while they were abreast,
unless a bound stopped one of them. -/
inductive Same {α : Type} (s : Sides) (Q : Cursor → Cursor → Prop) :
    EStateM.Result Halt Cursor α → EStateM.Result Halt Cursor α → Prop where
  | ok {a : α} {c c' : Cursor} : Q c c' → Same s Q (.ok a c) (.ok a c')
  | error {e : ParseError} {c c' : Cursor} : Abreast s False c c' →
      Same s Q (.error (.error e) c) (.error (.error e) c')
  | left {c : Cursor} {x : EStateM.Result Halt Cursor α} : Same s Q (.error .exhausted c) x
  | right {c : Cursor} {x : EStateM.Result Halt Cursor α} : Same s Q x (.error .exhausted c)

variable {s : Sides} {b b' : Prop} {Q : Cursor → Cursor → Prop} {A : Cursor → Prop} {c c' : Cursor}
  {t : Token} {α β : Type}

/-- From two cursors abreast, the first of them with `A`, two parsers come to the same result at cursors
with `Q`, or to the same error. -/
def Alike (s : Sides) (A : Cursor → Prop) (b : Prop) (Q : Cursor → Cursor → Prop) (p p' : Parse α) : Prop :=
  ∀ c c', Abreast s b c c' → A c → Same s Q (p c) (p' c')

/-- Two parsers stay abreast.  If `b'`, they took the same token last then. -/
abbrev Agree (s : Sides) (A : Cursor → Prop) (b b' : Prop) (p p' : Parse α) : Prop :=
  Alike s A b (Abreast s b') p p'

namespace Abreast

theorem weaken (h : Abreast s b c c') (hb : b' → b) : Abreast s b' c c' :=
  ⟨h.ahead, h.errorsLeft, h.errorsRight, fun hb' => h.last (hb hb')⟩

/-- The next token is the same. -/
theorem head? (h : Abreast s b c c') : ∃ t, c.rest.head? = some t ∧ c'.rest.head? = some t := by
  obtain ⟨ts, -, hrest, hrest'⟩ := h.ahead
  rw [hrest, hrest']
  cases ts with
  | nil => exact ⟨_, rfl, rfl⟩
  | cons t ts => exact ⟨_, rfl, rfl⟩

/-- Parsers abreast are in front of the same token. -/
theorem next (h : Abreast s b c c') : c.next = c'.next ∧ c.Before c.next := by
  obtain ⟨t, ht, ht'⟩ := h.head?
  have hnext : ∀ d : Cursor, d.rest.head? = some t → d.next = t := by
    intro d hd
    rw [Cursor.next, List.headD_eq_head?_getD, hd]
    rfl
  rw [Cursor.Before, hnext c ht, hnext c' ht']
  exact ⟨rfl, ht⟩

/-- A token of the line is taken on both sides. -/
theorem advance (h : Abreast s b c c') (hbefore : c.Before t) (ht : t.is .newline = false) :
    Abreast s True c.advance c'.advance := by
  obtain ⟨ts, hts, hrest, hrest'⟩ := h.ahead
  rw [Cursor.Before, hrest] at hbefore
  cases ts with
  | nil =>
    cases hbefore
    rw [s.ends] at ht
    cases ht
  | cons u ts =>
    cases hbefore
    rw [Cursor.advance, hrest, Cursor.advance, hrest']
    exact ⟨⟨ts, fun v hv => hts v (List.mem_cons_of_mem _ hv), rfl, rfl⟩, h.errorsLeft, h.errorsRight,
      fun _ => rfl⟩

end Abreast

namespace Alike

variable {p p' : Parse α} {f f' : α → Parse β}

theorem pure (a : α) : Agree s A b b (Pure.pure a : Parse α) (Pure.pure a) := fun _ _ h _ => .ok h

theorem fail (e : ParseError) : Alike s A b Q (Parse.fail e : Parse α) (Parse.fail e) :=
  fun _ _ h _ => .error (h.weaken False.elim)

theorem left : Alike s A b Q (exhausted : Parse α) p' := fun _ _ _ _ => .left

theorem right : Alike s A b Q p (exhausted : Parse α) := fun _ _ _ _ => .right

/-- Parsers one after another agree if both pairs do, the second pair from where the first one stopped. -/
theorem bind (h : Agree s A b b' p p') (hf : ∀ a, Alike s (fun _ => True) b' Q (f a) (f' a)) :
    Alike s A b Q (p >>= f) (p' >>= f') := by
  intro c c' hc hA
  have hsame := h c c' hc hA
  show Same s Q (EStateM.bind p f c) (EStateM.bind p' f' c')
  rw [EStateM.bind, EStateM.bind]
  generalize p c = x at hsame ⊢
  generalize p' c' = x' at hsame ⊢
  cases hsame with
  | ok hcs => exact hf _ _ _ hcs trivial
  | error hcs => exact .error hcs
  | left => exact .left
  | right =>
    cases x with
    | ok a c => exact .right
    | error e c => exact .right

end Alike

/-- Two parsers come to the same, and take a token of the line if they have a result. -/
abbrev TakeAlike (s : Sides) (p p' : Parse α) : Prop := Agree s (fun _ => True) False True p p'

theorem TakeAlike.agree {p p' : Parse α} (h : TakeAlike s p p') : Agree s A b True p p' :=
  fun c c' hc _ => h c c' (hc.weaken False.elim) trivial

namespace Alike

/-- Both parsers look at the same token. -/
theorem peek {f f' : Token → Parse β} (hf : ∀ t, Alike s (fun c => A c ∧ c.Before t) b Q (f t) (f' t)) :
    Alike s A b Q (Parse.peek >>= f) (Parse.peek >>= f') := by
  intro c c' hc hA
  obtain ⟨hnext, hbefore⟩ := hc.next
  show Same s Q (f c.next c) (f' c'.next c')
  rw [← hnext]
  exact hf c.next c c' hc ⟨hA, hbefore⟩

/-- Parsers that have taken a token of the line know the same last one. -/
theorem lastSpan {f f' : Span → Parse β}
    (hf : ∀ span, Alike s (fun _ => True) True Q (f span) (f' span)) :
    Alike s A True Q (Parse.lastSpan >>= f) (Parse.lastSpan >>= f') := by
  intro c c' hc _
  show Same s Q (f c.last.span c) (f' c'.last.span c')
  rw [← hc.last trivial]
  exact hf _ c c' hc trivial

/-- A token of the line that is next is taken on both sides. -/
theorem advance {f f' : Unit → Parse β} {A : Cursor → Prop} (ht : t.is .newline = false)
    (hA : ∀ c, A c → c.Before t) (hf : Alike s (fun _ => True) True Q (f ()) (f' ())) :
    Alike s A b Q (Parse.advance >>= f) (Parse.advance >>= f') :=
  fun c _ hc hc' => hf _ _ (hc.advance (hA c hc') ht) trivial

/-- If something is made of the next token, both sides take it. -/
theorem accept? {g : Token → Option α} {f f' : Option α → Parse β}
    (hg : ∀ span, g ⟨.mark .newline, span⟩ = none)
    (hsome : ∀ a, Alike s (fun _ => True) True Q (f (some a)) (f' (some a)))
    (hnone : Alike s (fun c => A c ∧ ∀ t, c.Before t → g t = none) b Q (f none) (f' none)) :
    Alike s A b Q (Parse.accept? g >>= f) (Parse.accept? g >>= f') := by
  intro c c' hc hA
  obtain ⟨t, ht, ht'⟩ := hc.head?
  show Same s Q (EStateM.bind (Parse.accept? g) f c) (EStateM.bind (Parse.accept? g) f' c')
  rw [EStateM.bind, EStateM.bind, Parse.accept?, Parse.accept?, ht, ht', Option.bind_some]
  cases hmade : g t with
  | none =>
    refine hnone c c' hc ⟨hA, fun u hu => ?_⟩
    rw [Cursor.Before, ht] at hu
    cases hu
    exact hmade
  | some a =>
    refine hsome a _ _ (hc.advance ht (decide_eq_false fun hline => ?_)) trivial
    have hnone := hg t.span
    rw [← hline, hmade] at hnone
    cases hnone

/-- A mark is accepted on both sides or on neither: what follows may depend on which. -/
theorem accept {m : Mark} {f f' : Option Span → Parse β} (hm : m ≠ .newline)
    (hsome : ∀ span, Alike s (fun _ => True) True Q (f (some span)) (f' (some span)))
    (hnone : Alike s (fun c => A c ∧ ∀ t, c.Before t → t.is m = false) b Q (f none) (f' none)) :
    Alike s A b Q (Parse.accept m >>= f) (Parse.accept m >>= f') := by
  refine accept? (fun _ => if_neg fun hmark => hm ?_) hsome fun c c' hc hA => ?_
  · exact (Lexeme.mark.inj (of_decide_eq_true hmark)).symm
  · refine hnone c c' hc ⟨hA.1, fun t ht => ?_⟩
    refine Bool.eq_false_iff.mpr fun hmark => ?_
    have hnone := hA.2 t ht
    rw [if_pos hmark] at hnone
    cases hnone

/-- An operator is accepted on both sides or on neither. -/
theorem operator {g : Mark → Option α} {f f' : Option (Spanned α) → Parse β} (hg : g .newline = none)
    (hsome : ∀ op, Alike s (fun _ => True) True Q (f (some op)) (f' (some op)))
    (hnone : Alike s (fun _ => True) b Q (f none) (f' none)) :
    Alike s A b Q (Parse.operator g >>= f) (Parse.operator g >>= f') :=
  accept? (fun _ => by simp [hg]) hsome fun c c' hc _ => hnone c c' hc trivial

end Alike

/-! ## Small parsers -/

theorem expect_agree {m : Mark} (hm : m ≠ .newline) (error : Token → ParseError) :
    Agree s A b True (expect m error) (expect m error) :=
  .accept hm (fun span => .pure span) (.peek fun _ => .fail _)

/-- A name is read alike. -/
theorem ident_agree : Agree s A b True ident ident := by
  refine .peek fun t => ?_
  split
  · next heq => exact .advance (by simp [Token.is, heq]) (fun _ h => h.2) (.pure _)
  · exact .fail _

theorem sectionName_agree : Agree s A b True sectionName sectionName :=
  .accept? (fun _ => rfl) (fun x => .pure x) ident_agree

/-! ## Expressions -/

section

variable {operand operand' expr expr' : Parse Expr}

/-- The operators of one level and their operands are read alike, if an operand is. -/
theorem chainRest_agree {level : Level} (hlevel : level .newline = none) (h : TakeAlike s operand operand')
    (fuel fuel' : Nat) (left : Expr) : Agree s (fun _ => True) True True
      (chainRest level operand fuel left) (chainRest level operand' fuel' left) := by
  induction fuel generalizing fuel' left with
  | zero => exact .left
  | succ fuel ih =>
    cases fuel' with
    | zero => exact .right
    | succ fuel' => exact .operator hlevel (fun op => h.agree.bind fun right => ih fuel' _) (.pure left)

theorem levels_newline : ∀ level ∈ levels, level .newline = none := by
  simp [levels]

/-- So are the levels above each other. -/
theorem climb_agree (fuel fuel' : Nat) {levels : List Level}
    (hlevels : ∀ level ∈ levels, level .newline = none) (h : TakeAlike s operand operand') :
    TakeAlike s (climb fuel levels operand) (climb fuel' levels operand') := by
  induction levels with
  | nil => exact h
  | cons level levels ih =>
    rw [List.forall_mem_cons] at hlevels
    have ih := ih hlevels.2
    exact ih.bind fun left => chainRest_agree hlevels.1 ih fuel fuel' left

/-- So are operators of one operand. -/
theorem unary_agree (h : TakeAlike s operand operand') (fuel fuel' : Nat) :
    TakeAlike s (unary operand fuel) (unary operand' fuel') := by
  induction fuel generalizing fuel' with
  | zero => exact .left
  | succ fuel ih =>
    cases fuel' with
    | zero => exact .right
    | succ fuel' => exact .operator rfl (fun op => (ih fuel').agree.bind fun e => .pure _) h

/-- So are arguments. -/
theorem arguments_agree (h : TakeAlike s expr expr') (fuel fuel' : Nat) :
    TakeAlike s (arguments expr fuel) (arguments expr' fuel') := by
  induction fuel generalizing fuel' with
  | zero => exact .left
  | succ fuel ih =>
    cases fuel' with
    | zero => exact .right
    | succ fuel' =>
      exact h.bind fun e => .accept (by decide) (fun _ => (ih fuel').agree.bind fun es => .pure _) (.pure _)

/-- So is a call. -/
theorem call_agree (h : TakeAlike s expr expr') (fuel fuel' : Nat) (callee : Ident) (awaited : Option Span) :
    Agree s (fun _ => True) True True (call fuel expr callee awaited) (call fuel' expr' callee awaited) := by
  refine .lastSpan fun opener => .accept (by decide) (fun close => .pure _) ?_
  refine (arguments_agree h fuel fuel').agree.bind fun args => ?_
  exact (expect_agree (by decide) _).bind fun close => .pure _

/-- So is an operand without operators. -/
theorem primary_agree (h : TakeAlike s expr expr') (fuel fuel' : Nat) :
    TakeAlike s (primary fuel expr) (primary fuel' expr') := by
  have hcall := call_agree h fuel fuel'
  unfold primary
  refine .accept? (fun _ => rfl) (fun e => .pure e) ?_
  refine .accept (by decide) (fun awaited => ?_) ?_
  · exact ident_agree.bind fun callee => .accept (by decide) (fun _ => hcall callee _) (.fail _)
  refine .accept? (fun _ => rfl) (fun x => ?_) ?_
  · exact .accept (by decide) (fun _ => hcall x none) (.pure _)
  refine .accept (by decide) (fun opener => ?_) (.peek fun t => .fail _)
  exact h.agree.bind fun e => (expect_agree (by decide) _).bind fun _ => .pure _

/-- An expression of a line is the same whatever stands behind the line. -/
theorem expr_agree (fuel fuel' : Nat) : TakeAlike s (Parse.expr fuel) (Parse.expr fuel') := by
  induction fuel generalizing fuel' with
  | zero => exact .left
  | succ fuel ih =>
    cases fuel' with
    | zero => exact .right
    | succ fuel' => exact climb_agree _ _ levels_newline (unary_agree (primary_agree (ih fuel') _ _) _ _)

/-- An instruction is read alike. -/
theorem instruction_agree (fuel fuel' : Nat) : TakeAlike s (instruction fuel) (instruction fuel') := by
  refine (expr_agree fuel fuel').bind fun left => .operator rfl (fun op => ?_) (.pure left)
  refine (expr_agree fuel fuel').agree.bind fun value => ?_
  split
  · exact .pure _
  · exact .fail _

end

/-! ## Lines -/

section

variable {e e' : Parse Expr}

/-- Text and placeholders take a token, unless the two knew the same last one before. -/
theorem segments_agree (h : TakeAlike s e e') (fuel fuel' : Nat) (acc : List Segment)
    (hA : ∀ c t, A c → c.Before t → text? t = none → b) :
    Agree s A b True (segments e fuel acc) (segments e' fuel' acc) := by
  induction fuel generalizing fuel' acc A b with
  | zero => exact .left
  | succ fuel ih =>
    cases fuel' with
    | zero => exact .right
    | succ fuel' =>
      have ih (acc : List Segment) : Agree s (fun _ => True) True True (segments e fuel acc)
        (segments e' fuel' acc) := ih fuel' acc fun _ _ _ _ _ => trivial
      refine .accept? (fun _ => rfl) (fun t => ih _) ?_
      refine .accept (by decide) (fun opener => .peek fun next => ?_) ?_
      · split
        · exact .pure _
        · exact h.agree.bind fun _ => (expect_agree (by decide) _).bind fun _ => ih _
      · intro c c' hc hbefore
        obtain ⟨hAc, hnone⟩ := hbefore.1
        exact .ok (hc.weaken fun _ => hA c _ hAc hc.next.2 (hnone _ hc.next.2))

theorem hashKey_agree : Agree s A b True hashKey hashKey :=
  .accept? (fun _ => rfl) (fun x => .pure x) ident_agree

/-- The values of a key are read alike. -/
theorem hashValues_agree (h : TakeAlike s e e') (fuel fuel' : Nat) :
    TakeAlike s (hashValues e fuel) (hashValues e' fuel') := by
  induction fuel generalizing fuel' with
  | zero => exact .left
  | succ fuel ih =>
    cases fuel' with
    | zero => exact .right
    | succ fuel' =>
      refine h.bind fun first => .peek fun next => ?_
      split
      · exact .pure _
      · exact (ih fuel').agree.bind fun rest => .pure _

/-- Keys with their values are read alike. -/
theorem hashEntries_agree (h : TakeAlike s e e') (fuel fuel' bound bound' : Nat) :
    TakeAlike s (hashEntries fuel e bound) (hashEntries fuel' e' bound') := by
  induction bound generalizing bound' with
  | zero => exact .left
  | succ bound ih =>
    cases bound' with
    | zero => exact .right
    | succ bound' =>
      refine hashKey_agree.bind fun key => .accept (by decide) (fun _ => ?_) ?_
      · refine (hashValues_agree h fuel fuel').agree.bind fun values => ?_
        exact .accept (by decide) (fun _ => (ih bound').agree.bind fun rest => .pure _) (.pure _)
      · refine (Alike.pure _).bind fun values => ?_
        exact .accept (by decide) (fun _ => (ih bound').agree.bind fun rest => .pure _) (.pure _)

/-- Hash data are read alike up to their closing brace. -/
theorem hashBody_agree (fuel fuel' : Nat) (opener : Span) :
    Agree s A b True (hashBody fuel opener) (hashBody fuel' opener) := by
  have hclose : ∀ {b} entries, Agree s (fun _ => True) b True (do
      let close ← closeBrace opener
      return (⟨entries, opener.cover close⟩ : HashBlock)) (do
      let close ← closeBrace opener
      return (⟨entries, opener.cover close⟩ : HashBlock)) :=
    fun entries => (expect_agree (by decide) _).bind fun _ => .pure _
  refine .peek fun next => ?_
  split
  · exact (Alike.pure _).bind hclose
  · exact (hashEntries_agree (expr_agree fuel fuel') fuel fuel' fuel fuel').agree.bind hclose

/-- A directive is read alike. -/
theorem directive_agree (fuel fuel' : Nat) : Agree s A b True (directive fuel) (directive fuel') := by
  refine .peek fun t => ?_
  have hend : ∀ kind : Directive, Agree s (fun _ => True) True True (do
      return (⟨kind, t.span.cover (← lastSpan)⟩ : Spanned Directive)) (do
      return (⟨kind, t.span.cover (← lastSpan)⟩ : Spanned Directive)) :=
    fun kind => .lastSpan fun _ => .pure _
  have hexpr := expr_agree (s := s) fuel fuel'
  split
  · next heq =>
    refine .advance (by simp [Token.is, heq]) (fun _ h => h.2) ?_
    exact sectionName_agree.bind fun _ => .pure _
  · next name heq =>
    refine .advance (by simp [Token.is, heq]) (fun _ h => h.2) ?_
    dsimp only
    split
    · exact (Alike.pure _).bind hend
    · exact hexpr.agree.bind fun _ => (Alike.pure _).bind hend
    · exact hexpr.agree.bind fun _ => (Alike.pure _).bind hend
    · exact (Alike.fail _).bind hend
  · exact .fail _

/-- Directives are read alike, one behind another. -/
theorem directives_agree (fuel fuel' bound bound' : Nat) :
    Agree s A b True (directives fuel bound) (directives fuel' bound') := by
  induction bound generalizing bound' A b with
  | zero => exact .left
  | succ bound ih =>
    cases bound' with
    | zero => exact .right
    | succ bound' =>
      refine (directive_agree fuel fuel').bind fun d => ?_
      exact .accept (by decide) (fun _ => (ih bound').bind fun ds => .pure _) (.pure _)

/-- What may stand behind the text of a line is read alike. -/
theorem trailer_agree (fuel fuel' bound bound' : Nat) (acc : Trailer) :
    Agree s A True True (trailer fuel bound acc) (trailer fuel' bound' acc) := by
  induction bound generalizing bound' acc A with
  | zero => exact .left
  | succ bound ih =>
    cases bound' with
    | zero => exact .right
    | succ bound' =>
      refine .accept (by decide) (fun opener => ?_) ?_
      · refine (directives_agree fuel fuel' fuel fuel').bind fun ds => ?_
        exact (expect_agree (by decide) _).bind fun _ => ih bound' _
      refine .accept (by decide) (fun opener => ?_) ?_
      · exact (hashBody_agree fuel fuel' opener).bind fun h => ih bound' _
      refine .accept (by decide) (fun arrow => ?_) (.pure acc)
      exact sectionName_agree.bind fun target => ih bound' _

/-- One speaker takes a token, unless the two knew the same last one before. -/
theorem opener_agree (h : TakeAlike s e e') (isFirst : Bool)
    (hA : ∀ c t, A c → c.Before t → t.is .openBrace = false → ident? t = none → b) :
    Agree s A b True (opener e isFirst) (opener e' isFirst) := by
  refine .peek fun t => ?_
  split
  · next heq => exact .advance (by simp [Token.is, heq]) (fun _ h => h.2) (.pure _)
  · next heq =>
    refine .advance (by simp [Token.is, heq]) (fun _ h => h.2) ?_
    refine h.agree.bind fun e => (expect_agree (by decide) _).bind fun _ => .peek fun next => ?_
    split
    · exact .pure _
    · split
      · exact .pure _
      · exact .fail _
  · next hname hbrace =>
    intro c c' hc hbefore
    refine .ok (hc.weaken fun _ => hA c t hbefore.1 hbefore.2 (decide_eq_false hbrace) ?_)
    unfold ident?
    split
    · next name heq => exact absurd heq (hname name)
    · rfl

/-- The speakers of a line are read alike.  If the line may open with its text, a token must have been
taken before. -/
theorem opening_agree (h : TakeAlike s e e') (fuel fuel' : Nat) (acc : List SpeakerRef)
    (hA : ∀ c t, A c → c.Before t → t.is .openBrace = false → ident? t = none → b) :
    Agree s A b True (opening e fuel acc) (opening e' fuel' acc) := by
  induction fuel generalizing fuel' acc A b with
  | zero => exact .left
  | succ fuel ih =>
    cases fuel' with
    | zero => exact .right
    | succ fuel' =>
      refine (opener_agree h _ hA).bind fun o => ?_
      cases o with
      | nothing => exact .pure _
      | placeholder e => exact .pure _
      | speaker speaker =>
        exact .accept (by decide) (fun _ => ih fuel' _ fun _ _ _ _ _ _ => trivial) (.pure _)

/-- What follows the speakers of a line and their colon. -/
def lineText (fuel : Nat) (start : Span) (opened : Opening) : Parse Line := do
  let (text, block) ← segments (Parse.expr fuel) fuel opened.text
  match block with
  | some opener => Parse.fail (.unexpectedExpressionToken (← Parse.peek).lexeme.kind opener)
  | none =>
    let t ← trailer fuel fuel ⟨[], none⟩
    return ⟨opened.speakers, trimText text, t.directives, t.hash, start.cover (← Parse.lastSpan)⟩

/-- What follows the speakers of a line. -/
def lineSpoken (fuel : Nat) (start : Span) (opened : Opening) : Parse Line :=
  if opened.text.isEmpty then
    if opened.speakers.isEmpty then Parse.accept .colon >>= fun _ => lineText fuel start opened
    else require .colon >>= fun _ => lineText fuel start opened
  else lineText fuel start opened

theorem line_eq (fuel : Nat) : line fuel = Parse.peek >>= fun t =>
    opening (Parse.expr fuel) fuel [] >>= lineSpoken fuel t.span := rfl

/-- The text of a line and what stands behind it are read alike. -/
theorem lineText_agree (fuel fuel' : Nat) (start : Span) (opened : Opening)
    (hA : ∀ c t, A c → c.Before t → text? t = none → b) :
    Agree s A b True (lineText fuel start opened) (lineText fuel' start opened) := by
  refine (segments_agree (expr_agree fuel fuel') fuel fuel' _ hA).bind fun x => ?_
  obtain ⟨text, block⟩ := x
  cases block with
  | some opener => exact .peek fun _ => .fail _
  | none => exact (trailer_agree fuel fuel' fuel fuel' _).bind fun t => .lastSpan fun _ => .pure _

/-- A line is read alike behind its speakers. -/
theorem lineSpoken_agree (fuel fuel' : Nat) (start : Span) (opened : Opening) :
    Agree s (fun _ => True) True True (lineSpoken fuel start opened) (lineSpoken fuel' start opened) := by
  have htext (A : Cursor → Prop) : Agree s A True True (lineText fuel start opened)
    (lineText fuel' start opened) := lineText_agree fuel fuel' start opened fun _ _ _ _ _ => trivial
  unfold lineSpoken
  split
  · split
    · exact .accept (by decide) (fun _ => htext _) (htext _)
    · exact (expect_agree (by decide) _).bind fun _ => htext _
  · exact htext _

/-- In front of a token that opens no speaker there are none, and nothing is taken. -/
theorem opening_nothing {fuel : Nat} (hbefore : c.Before t) (hbrace : t.is .openBrace = false)
    (hname : ident? t = none) : opening e (fuel + 1) [] c = .ok ⟨[], []⟩ c := by
  have hnext : c.next = t := by
    rw [Cursor.next, List.headD_eq_head?_getD, hbefore]
    rfl
  have hopener : opener e true c = .ok .nothing c := by
    have hpeek : ∀ f : Token → Parse Opener, (Parse.peek >>= f) c = f c.next c := fun _ => rfl
    rw [opener, hpeek, hnext]
    obtain ⟨lexeme, span⟩ := t
    cases lexeme with
    | identifier name => cases hname
    | mark m =>
      cases m with
      | openBrace => cases hbrace
      | _ => rfl
    | _ => rfl
  show EStateM.bind (opener e true) _ c = _
  rw [EStateM.bind, hopener]
  rfl

/-- What opens a line: a name, a brace, text or a colon. -/
def Opens (t : Token) : Prop :=
  t.is .openBrace = true ∨ (∃ x, ident? t = some x) ∨ t.is .colon = true ∨ ∃ x, text? t = some x

/-- A dialog line takes a token, since it starts with one of its own. -/
theorem line_agree (fuel fuel' : Nat) (ht : Opens t) :
    Agree s (Cursor.Before t) False True (line (fuel + 1)) (line (fuel' + 1)) := by
  rw [line_eq, line_eq]
  refine .peek fun u => ?_
  by_cases hopens : t.is .openBrace = false ∧ ident? t = none
  · intro c c' hc hbefore
    have hopening (d : Cursor) (fuel : Nat) (hd : d.Before t) :
        (opening (Parse.expr (fuel + 1)) (fuel + 1) [] >>= lineSpoken (fuel + 1) u.span) d =
          lineSpoken (fuel + 1) u.span ⟨[], []⟩ d := by
      show EStateM.bind _ _ d = _
      rw [EStateM.bind, opening_nothing hd hopens.1 hopens.2]
    have hbefore' : c'.Before t := by
      obtain ⟨v, hv, hv'⟩ := hc.head?
      exact hv'.trans (hv.symm.trans hbefore.1)
    rw [hopening c fuel hbefore.1, hopening c' fuel' hbefore']
    refine Alike.accept (A := Cursor.Before t) (by decide) (fun _ => ?_) ?_ c c' hc hbefore.1
    · exact lineText_agree _ _ _ _ fun _ _ _ _ _ => trivial
    · refine lineText_agree _ _ _ _ fun d v hd hv hnone => ?_
      obtain rfl : t = v := Option.some.inj (hd.1.symm.trans hv)
      rcases ht with hbrace | ⟨x, hname⟩ | hcolon | ⟨x, htext⟩
      · exact absurd hopens.1 (by simp [hbrace])
      · exact absurd hopens.2 (by simp [hname])
      · exact absurd (hd.2 t hv) (by simp [hcolon])
      · exact absurd hnone (by simp [htext])
  · refine (opening_agree (expr_agree _ _) _ _ [] fun c v hc hv hbrace hname => ?_).bind
      fun opened => lineSpoken_agree _ _ _ opened
    obtain rfl : t = v := Option.some.inj (hc.1.symm.trans hv)
    exact absurd ⟨hbrace, hname⟩ hopens

end

end Colloquy.Parse
