import Colloquy.Proofs.Parser.Progress
import Colloquy.Proofs.Story.Nested

/-!
# Parsers lay out spans in order

The tokens of a source stand one behind the other (`Ordered`).  What a parser makes lies behind the token taken
last before it, and not beyond the one taken last then: so what is parsed later lies behind what was parsed
earlier, and rows of spans go on from cursor to cursor.  `Lays p c Q` says that a parser comes from a cursor to a
result with `Q`, or stops, with its cursor further on in the order of the tokens either way.  There is one rule
for each way to put parsers together, then come the parsers of expressions (`expr_places`).
-/

namespace Colloquy

/-! ## Cursors -/

namespace Cursor

/-- Where the token taken last stops. -/
def here (c : Cursor) : Nat := c.last.span.stop

/-- The end of the source is before the cursor, and the tokens from the one taken last on stand one behind the
other. -/
structure Ordered (c : Cursor) : Prop where
  ended : Ended c.rest
  apart : (c.last :: c.rest).Pairwise fun t u => t.span.stop ≤ u.span.start

/-- A cursor is as far as another one or further on. -/
structure Onto (c c' : Cursor) : Prop where
  ordered : c'.Ordered
  start : c.last.span.start ≤ c'.last.span.start
  here : c.here ≤ c'.here

/-- A token of the given span was taken. -/
structure Takes (c : Cursor) (s : Span) (c' : Cursor) : Prop where
  onto : c.Onto c'
  before : ∃ t, c.Before t ∧ t.span = s
  start : c.here ≤ s.start
  last : c'.last.span = s

/-- What is next does not start before an offset. -/
def Clear (lo : Nat) (c : Cursor) : Prop := ∀ t, c.Before t → lo ≤ t.span.start

/-- A span is not beyond the token taken last. -/
structure Past (s : Span) (c : Cursor) : Prop where
  start : s.start ≤ c.last.span.start
  stop : s.stop ≤ c.here

variable {c c' c'' : Cursor} {s : Span} {t : Token}

theorem Onto.refl (h : c.Ordered) : c.Onto c := ⟨h, Nat.le_refl _, Nat.le_refl _⟩

theorem Onto.trans (h : c.Onto c') (h' : c'.Onto c'') : c.Onto c'' :=
  ⟨h'.ordered, Nat.le_trans h.start h'.start, Nat.le_trans h.here h'.here⟩

/-- The errors recorded do not count. -/
theorem Onto.withErrors (h : c.Onto c') (errors : List ParseError) : c.Onto ⟨c'.rest, c'.last, errors⟩ :=
  ⟨⟨h.ordered.ended, h.ordered.apart⟩, h.start, h.here⟩

theorem Past.onto (h : c.Past s) (hon : c.Onto c') : c'.Past s :=
  ⟨Nat.le_trans h.start hon.start, Nat.le_trans h.stop hon.here⟩

/-- A span that goes up to the token taken last. -/
theorem Past.cover (h : c.Past s) :
    (s.cover c.last.span).start = s.start ∧ (s.cover c.last.span).stop = c.here :=
  Span.cover_of_le h.start h.stop

theorem Takes.past (h : c.Takes s c') : c'.Past s := by
  rw [← h.last]
  exact ⟨Nat.le_refl _, Nat.le_refl _⟩

theorem Takes.stop (h : c.Takes s c') : c'.here = s.stop := by rw [here, h.last]

theorem Takes.single (h : c.Takes s c') : Lined s.start c'.here [s] :=
  .single (Nat.le_refl _) (Nat.le_of_eq h.stop.symm)

theorem Takes.lined (h : c.Takes s c') : Lined c.here c'.here [s] := h.single.mono h.start (Nat.le_refl _)

/-- The span from a token to one that stops no earlier contains what lies behind the token. -/
theorem Takes.cover {u : Span} {parts : List Span} (h : c.Takes s c') (hstart : s.start ≤ u.start)
    (hstop : s.stop ≤ u.stop) (hparts : Lined c'.here u.stop parts) :
    (s.cover u).Row parts ∧ Lined c.here u.stop [s.cover u] := by
  obtain ⟨hstart, hstop⟩ := Span.cover_of_le hstart hstop
  have hle : s.start ≤ c'.here := h.stop ▸ s.start_le_stop
  rw [Span.Row, hstart, hstop]
  exact ⟨hparts.mono hle (Nat.le_refl _), .single (hstart ▸ h.start) (Nat.le_of_eq hstop)⟩

/-- The span from a token up to the one taken last. -/
theorem Takes.coverLast {parts : List Span} (h : c.Takes s c') (hon : c'.Onto c'')
    (hparts : Lined c'.here c''.here parts) :
    (s.cover c''.last.span).Row parts ∧ Lined c.here c''.here [s.cover c''.last.span] :=
  h.cover (h.past.onto hon).start (h.past.onto hon).stop hparts

theorem Takes.clear {lo : Nat} (h : c.Takes s c') (hlo : c.Clear lo) : lo ≤ s.start := by
  obtain ⟨t, ht, rfl⟩ := h.before
  exact hlo t ht

theorem Ordered.exists_before (h : c.Ordered) : ∃ t, c.Before t := by
  obtain ⟨t, ts, hrest⟩ := List.exists_cons_of_ne_nil h.ended.ne_nil
  exact ⟨t, by rw [Before, hrest]; rfl⟩

/-- The next token stands behind the one taken last. -/
theorem Ordered.here_le (h : c.Ordered) (ht : c.Before t) : c.here ≤ t.span.start :=
  (List.pairwise_cons.mp h.apart).1 t (List.mem_of_mem_head? ht)

theorem Ordered.clear {lo : Nat} (h : c.Ordered) (hlo : lo ≤ c.here) : c.Clear lo :=
  fun _ ht => Nat.le_trans hlo (h.here_le ht)

/-- The token before a cursor is taken in order, if it is not the end of the source. -/
theorem Ordered.takes (h : c.Ordered) (ht : c.Before t) (hnot : t.is .endOfFile = false) :
    c.Takes t.span c.advance := by
  have hle := h.here_le ht
  have hbetween := t.span.start_le_stop
  have hlast := c.last.span.start_le_stop
  obtain ⟨ts, hrest⟩ := List.head?_eq_some_iff.mp ht
  have hended := h.ended
  have hapart := h.apart
  rw [hrest] at hended hapart
  have hadvance : c.advance = ⟨ts, t, c.errors⟩ := by rw [Cursor.advance, hrest]
  rw [hadvance]
  refine ⟨⟨⟨hended.tail hnot, (List.pairwise_cons.mp hapart).2⟩, ?_, ?_⟩, ⟨t, ht, rfl⟩, hle, rfl⟩
  · show c.last.span.start ≤ t.span.start
    rw [here] at hle
    omega
  · show c.here ≤ t.span.stop
    omega

/-- A line break is not the end of the source. -/
theorem not_endOfFile_of_newline (h : t.is .newline = true) : t.is .endOfFile = false := by
  rw [Token.is, decide_eq_true_eq] at h
  simp [Token.is, h]

/-- Line breaks are skipped in order. -/
theorem Ordered.skipBreaks {errors : List ParseError} {last : Token} {ts : List Token}
    (h : (⟨ts, last, errors⟩ : Cursor).Ordered) :
    (⟨ts, last, errors⟩ : Cursor).Onto (Cursor.skipBreaks errors last ts) := by
  induction ts generalizing last with
  | nil => exact .refl h
  | cons t ts ih =>
    rw [Cursor.skipBreaks]
    split
    · next hline =>
      have hon := (h.takes rfl (not_endOfFile_of_newline hline)).onto
      exact hon.trans (ih hon.ordered)
    · exact .refl h

/-- The rest of a line is skipped in order. -/
theorem Ordered.skipLine {errors : List ParseError} {last : Token} {ts : List Token}
    (h : (⟨ts, last, errors⟩ : Cursor).Ordered) :
    (⟨ts, last, errors⟩ : Cursor).Onto (Cursor.skipLine errors last ts) := by
  induction ts generalizing last with
  | nil => exact .refl h
  | cons t ts ih =>
    rw [Cursor.skipLine]
    by_cases hstop : (t.is .endOfFile || t.is .sectionMarker) = true
    · rw [if_pos hstop]
      exact .refl h
    · rw [if_neg hstop]
      have hnot : t.is .endOfFile = false := by
        simp only [Bool.or_eq_true, not_or, Bool.not_eq_true] at hstop
        exact hstop.1
      have hon := (h.takes rfl hnot).onto
      split
      · exact hon
      · exact hon.trans (ih hon.ordered)

end Cursor

namespace Parse

variable {α β : Type} {c c' : Cursor} {t : Token} {p : Parse α} {Q : α → Cursor → Prop} {R : β → Cursor → Prop}

/-- How a parser ended that started at a cursor. -/
inductive Laid (c : Cursor) (Q : α → Cursor → Prop) : EStateM.Result Halt Cursor α → Prop where
  | ok {a : α} {c' : Cursor} : c.Onto c' → Q a c' → Laid c Q (.ok a c')
  | stop {halt : Halt} {c' : Cursor} : c.Onto c' → Laid c Q (.error halt c')

/-- From a cursor on, a parser goes on in the order of the tokens and has a result with `Q` or stops. -/
def Lays (p : Parse α) (c : Cursor) (Q : α → Cursor → Prop) : Prop := Laid c Q (p c)

theorem Laid.since {x : EStateM.Result Halt Cursor α} (h : Laid c' Q x) (hon : c.Onto c') : Laid c Q x := by
  cases h with
  | ok hon' hQ => exact .ok (hon.trans hon') hQ
  | stop hon' => exact .stop (hon.trans hon')

namespace Lays

theorem pure {a : α} (hc : c.Ordered) (h : Q a c) : Lays (Pure.pure a : Parse α) c Q := .ok (.refl hc) h

theorem fail {e : ParseError} (hc : c.Ordered) : Lays (Parse.fail e : Parse α) c Q := .stop (.refl hc)

theorem exhausted (hc : c.Ordered) : Lays (Parse.exhausted : Parse α) c Q := .stop (.refl hc)

/-- A parser and what is done with its result are laid out if both are, the second from where the first
one stopped. -/
theorem bind {f : α → Parse β} (h : Lays p c Q) (hf : ∀ a c', c.Onto c' → Q a c' → Lays (f a) c' R) :
    Lays (p >>= f) c R := by
  show Laid c R (EStateM.bind p f c)
  rw [Lays] at h
  rw [EStateM.bind]
  generalize p c = x at h ⊢
  cases h with
  | ok hon hQ => exact (hf _ _ hon hQ).since hon
  | stop hon => exact .stop hon

/-- What is known of a result may be weakened, with what is known of the cursor it comes with. -/
theorem mono {Q' : α → Cursor → Prop} (h : Lays p c Q) (hQ : ∀ a c', c.Onto c' → Q a c' → Q' a c') :
    Lays p c Q' := by
  rw [Lays] at h ⊢
  generalize p c = x at h ⊢
  cases h with
  | ok hon ha => exact .ok hon (hQ _ _ hon ha)
  | stop hon => exact .stop hon

/-- A parser that looks at a token goes on with the one that is there. -/
theorem peekAt {f : Token → Parse β} (ht : c.Before t) (hf : Lays (f t) c R) :
    Lays (Parse.peek >>= f) c R := by
  have hnext : c.next = t := by
    rw [Cursor.next, List.headD_eq_head?_getD, ht]
    rfl
  show Laid c R (f c.next c)
  rwa [hnext]

theorem peek {f : Token → Parse β} (hc : c.Ordered) (hf : ∀ t, c.Before t → Lays (f t) c R) :
    Lays (Parse.peek >>= f) c R := by
  obtain ⟨t, ht⟩ := hc.exists_before
  exact peekAt ht (hf t ht)

theorem lastSpan {f : Span → Parse β} (hf : Lays (f c.last.span) c R) : Lays (Parse.lastSpan >>= f) c R := hf

theorem advance {f : Unit → Parse β} (hc : c.Ordered) (ht : c.Before t) (hnot : t.is .endOfFile = false)
    (hf : ∀ c', c.Takes t.span c' → Lays (f ()) c' R) : Lays (Parse.advance >>= f) c R := by
  have htakes := hc.takes ht hnot
  exact (hf _ htakes).since htakes.onto

/-- If something is made of the next token, it is taken. -/
theorem accept? {g : Token → Option α} {f : Option α → Parse β} (hc : c.Ordered)
    (hg : ∀ span, g ⟨.mark .endOfFile, span⟩ = none)
    (hsome : ∀ t a c', c.Before t → g t = some a → c.Takes t.span c' → Lays (f (some a)) c' R)
    (hnone : (∀ t, c.Before t → g t = none) → Lays (f none) c R) : Lays (Parse.accept? g >>= f) c R := by
  obtain ⟨t, ht⟩ := hc.exists_before
  show Laid c R (EStateM.bind (Parse.accept? g) f c)
  rw [EStateM.bind, Parse.accept?, ht, Option.bind_some]
  cases hmade : g t with
  | none =>
    refine hnone fun u hu => ?_
    rw [Cursor.Before, ht] at hu
    cases hu
    exact hmade
  | some a =>
    have hnot : t.is .endOfFile = false := by
      rw [Token.is, decide_eq_false_iff_not]
      intro hend
      have hnone := hg t.span
      rw [← hend, hmade] at hnone
      cases hnone
    have htakes := hc.takes ht hnot
    exact (hsome t a _ ht hmade htakes).since htakes.onto

/-- A mark is taken in order if it is there, and else the cursor stays. -/
theorem accept {m : Mark} {f : Option Span → Parse β} (hc : c.Ordered) (hm : m ≠ .endOfFile)
    (hsome : ∀ s c', c.Takes s c' → Lays (f (some s)) c' R)
    (hnone : (∀ t, c.Before t → t.is m = false) → Lays (f none) c R) : Lays (Parse.accept m >>= f) c R := by
  refine accept? hc (fun _ => if_neg fun hmark => hm ?_) (fun t s c' ht hs htakes => ?_) fun hnot => ?_
  · exact (Lexeme.mark.inj (of_decide_eq_true hmark)).symm
  · split at hs
    · cases hs
      exact hsome _ c' htakes
    · cases hs
  · refine hnone fun t ht => Bool.eq_false_iff.mpr fun hmark => ?_
    have hnone := hnot t ht
    rw [if_pos hmark] at hnone
    cases hnone

/-- An operator is taken in order if it is there, and else the cursor stays. -/
theorem operator {g : Mark → Option α} {f : Option (Spanned α) → Parse β} (hc : c.Ordered)
    (hg : g .endOfFile = none) (hsome : ∀ op c', c.Takes op.span c' → Lays (f (some op)) c' R)
    (hnone : Lays (f none) c R) : Lays (Parse.operator g >>= f) c R := by
  refine accept? hc (fun _ => by simp [hg]) (fun t op c' _ hop htakes => ?_) fun _ => hnone
  split at hop
  · obtain ⟨a, -, rfl⟩ := Option.map_eq_some_iff.mp hop
    exact hsome _ c' htakes
  · cases hop

end Lays

/-- A parser makes something that lies behind where it started and is nested. -/
def Places (span : α → Span) (N : α → Prop) (p : Parse α) : Prop :=
  ∀ c : Cursor, c.Ordered → Lays p c fun a c' => Fits span N c.here c'.here [a]

/-- A parser makes a row of them. -/
def PlacesAll (span : α → Span) (N : α → Prop) (p : Parse (List α)) : Prop :=
  ∀ c : Cursor, c.Ordered → Lays p c fun as c' => Fits span N c.here c'.here as

/-! ## Small parsers -/

section

variable (hc : c.Ordered)

include hc

theorem expect_lays {m : Mark} (hm : m ≠ .endOfFile) (error : Token → ParseError) :
    Lays (expect m error) c fun s c' => c.Takes s c' :=
  .accept hc hm (fun _ _ htakes => .pure htakes.onto.ordered htakes) fun _ => .peek hc fun _ _ => .fail hc

/-- A name is the token it was taken from. -/
theorem ident_lays : Lays ident c fun x c' => c.Takes x.span c' := by
  refine .peek hc fun t ht => ?_
  split
  · next heq =>
    exact .advance hc ht (by simp [Token.is, heq]) fun c' htakes => .pure htakes.onto.ordered htakes
  · exact .fail hc

/-- So is the name of a section. -/
theorem sectionName_lays : Lays sectionName c fun x c' => c.Takes x.span c' := by
  refine .accept? hc (fun _ => rfl) (fun t x c' _ hx htakes => ?_) fun _ => ident_lays hc
  split at hx
  · obtain ⟨word, -, rfl⟩ := Option.map_eq_some_iff.mp hx
    exact .pure htakes.onto.ordered htakes
  · cases hx

/-- The end of a line is taken in order. -/
theorem lineEnd_lays : Lays lineEnd c fun _ _ => True := by
  refine .peek hc fun t ht => ?_
  split
  · exact .pure hc trivial
  · next hnot =>
    split
    · exact .ok (hc.takes ht (by simpa using hnot)).onto trivial
    · exact .fail hc

theorem skipBreaks_lays : Lays skipBreaks c fun _ _ => True := .ok hc.skipBreaks trivial

theorem report_lays (e : ParseError) : Lays (report e) c fun _ _ => True :=
  .ok ((Cursor.Onto.refl hc).withErrors _) trivial

omit hc in
/-- A parser that is recovered from goes on behind the line it stopped in. -/
theorem recover_lays (h : Lays p c Q) : Lays (recover p) c fun o c' => ∀ a, o = some a → Q a c' := by
  rw [Lays] at h ⊢
  rw [recover]
  generalize p c = x at h
  cases h with
  | ok hon ha => exact .ok hon (by simpa using ha)
  | @stop halt c' hon =>
    cases halt with
    | error e =>
      have hon := hon.withErrors (c'.errors ++ [e])
      exact .ok (hon.trans hon.ordered.skipLine) (by simp)
    | exhausted => exact .stop hon

end

/-! ## Expressions -/

/-- A parser makes expressions that lie behind where it started. -/
abbrev PlacesExpr (p : Parse Expr) : Prop := Places Expr.span Expr.Nested p

section

variable {operand expr : Parse Expr} {lo : Nat}

/-- The operators of one level and their operands lie behind the operand in front, in order. -/
theorem chainRest_lays {level : Level} (hlevel : level .endOfFile = none) (h : PlacesExpr operand) (fuel : Nat)
    {left : Expr} (hc : c.Ordered) (hleft : Exprs lo c.here [left]) :
    Lays (chainRest level operand fuel left) c fun e c' => Exprs lo c'.here [e] := by
  induction fuel generalizing c left with
  | zero => exact .exhausted hc
  | succ fuel ih =>
    refine .operator hc hlevel (fun op c₁ hop => ?_) (.pure hc hleft)
    refine (h c₁ hop.onto.ordered).bind fun right c₂ hon hright => ?_
    have hbehind := hop.lined.join hright.lined hop.onto.here hon.here
    have hlined := hleft.lined.join hbehind (hleft.lined.le (List.mem_singleton_self _)) (hop.onto.trans hon).here
    -- what is made so far is the left operand of the next operator
    exact ih hon.ordered (.binary hleft.head hright.head hlined)

/-- So do the levels above each other. -/
theorem climb_places (fuel : Nat) {levels : List Level} (hlevels : ∀ level ∈ levels, level .endOfFile = none)
    (h : PlacesExpr operand) : PlacesExpr (climb fuel levels operand) := by
  induction levels with
  | nil => exact h
  | cons level levels ih =>
    rw [List.forall_mem_cons] at hlevels
    have ih := ih hlevels.2
    exact fun c hc => (ih c hc).bind fun left c' hon hleft => chainRest_lays hlevels.1 ih fuel hon.ordered hleft

/-- Operators of one operand lie in front of it, in order. -/
theorem unary_places (h : PlacesExpr operand) (fuel : Nat) : PlacesExpr (unary operand fuel) := by
  induction fuel with
  | zero => exact fun c hc => .exhausted hc
  | succ fuel ih =>
    refine fun c hc => .operator hc rfl (fun op c₁ hop => ?_) (h c hc)
    refine (ih c₁ hop.onto.ordered).bind fun e c₂ hon he => .pure hon.ordered ?_
    exact Exprs.unary he.head (hop.lined.join he.lined hop.onto.here hon.here)

theorem literal?_nested {t : Token} {e : Expr} (he : literal? t = some e) : e.span = t.span ∧ e.Nested := by
  unfold literal? at he
  split at he <;> cases he <;> exact ⟨rfl, .literal⟩

theorem ident?_span {t : Token} {x : Ident} (hx : ident? t = some x) : x.span = t.span := by
  unfold ident? at hx
  split at hx <;> cases hx
  rfl

/-- Arguments lie one behind the other, with their commas between them. -/
theorem arguments_places (h : PlacesExpr expr) (fuel : Nat) :
    PlacesAll Expr.span Expr.Nested (arguments expr fuel) := by
  induction fuel with
  | zero => exact fun c hc => .exhausted hc
  | succ fuel ih =>
    refine fun c hc => (h c hc).bind fun e c₁ hon he => ?_
    refine .accept hon.ordered (by decide) (fun comma c₂ hcomma => ?_) fun _ => .pure hon.ordered he
    refine (ih c₂ hcomma.onto.ordered).bind fun es c₃ hon' hes => .pure hon'.ordered ?_
    exact he.append hes hcomma.onto.here (hon.trans hcomma.onto).here (hcomma.onto.trans hon').here

/-- A call lies from its first token to its closing parenthesis, with its arguments inside. -/
theorem call_lays (fuel : Nat) (h : PlacesExpr expr) {callee : Ident} {awaited : Option Span} (hc : c.Ordered)
    (hfront : Lined lo c.here (awaited.toList ++ [callee.span])) :
    Lays (call fuel expr callee awaited) c fun e c' => Exprs lo c'.here [e] := by
  have hle : lo ≤ c.here := hfront.le (List.mem_append_right _ (List.mem_singleton_self callee.span))
  refine .lastSpan (.accept hc (by decide) (fun close c₁ hclose => ?_) fun _ => ?_)
  · have hlined := hfront.join hclose.lined hle hclose.onto.here
    exact .pure hclose.onto.ordered (.call (by simp) (by simpa using hlined))
  · refine (arguments_places h fuel c hc).bind fun args c₁ hon hargs => ?_
    refine (expect_lays hon.ordered (by decide) _).bind fun close c₂ _ hclose => .pure hclose.onto.ordered ?_
    have hbehind := hargs.lined.join hclose.lined hon.here hclose.onto.here
    have hlined := hfront.join hbehind hle (hon.trans hclose.onto).here
    exact .call hargs.nested (by simpa using hlined)

/-- An operand without operators lies where its tokens do; one in parentheses lies between them. -/
theorem primary_places (fuel : Nat) (h : PlacesExpr expr) : PlacesExpr (primary fuel expr) := by
  intro c hc
  unfold primary
  refine .accept? hc (fun _ => rfl) (fun t e c₁ _ he htakes => ?_) fun _ => ?_
  · obtain ⟨hspan, hnested⟩ := literal?_nested he
    exact .pure htakes.onto.ordered (.single (by rw [hspan]; exact htakes.lined) hnested)
  refine .accept hc (by decide) (fun awaited c₁ hawaited => ?_) fun _ => ?_
  · refine (ident_lays hawaited.onto.ordered).bind fun callee c₂ _ hcallee => ?_
    refine .accept hcallee.onto.ordered (by decide) (fun opener c₃ hopener => ?_) fun _ => .fail hcallee.onto.ordered
    refine (call_lays fuel h hopener.onto.ordered ?_).mono fun _ _ _ he => he
    have hfront := hawaited.lined.join hcallee.lined hawaited.onto.here hcallee.onto.here
    exact hfront.mono (Nat.le_refl _) hopener.onto.here
  refine .accept? hc (fun _ => rfl) (fun t x c₁ _ hx htakes => ?_) fun _ => ?_
  · rw [← ident?_span hx] at htakes
    refine .accept htakes.onto.ordered (by decide) (fun opener c₂ hopener => ?_) fun _ => ?_
    · exact call_lays fuel h hopener.onto.ordered (htakes.lined.mono (Nat.le_refl _) hopener.onto.here)
    · exact .pure htakes.onto.ordered (.single htakes.lined .variable)
  refine .accept hc (by decide) (fun opener c₁ hopener => ?_) fun _ => .peek hc fun _ _ => .fail hc
  refine (h c₁ hopener.onto.ordered).bind fun e c₂ hon he => ?_
  refine (expect_lays hon.ordered (by decide) _).bind fun close c₃ _ hclose => .pure hclose.onto.ordered ?_
  -- the parentheses are left out of the span
  exact .single (he.lined.mono hopener.onto.here hclose.onto.here) (.group he.head)

theorem expr_places (fuel : Nat) : PlacesExpr (Parse.expr fuel) := by
  induction fuel with
  | zero => exact fun c hc => .exhausted hc
  | succ fuel ih => exact climb_places fuel levels_endOfFile (unary_places (primary_places fuel ih) _)

/-- An instruction lies where its tokens do: the variable in front, then the operator and the value. -/
theorem instruction_places (fuel : Nat) : PlacesExpr (instruction fuel) := by
  intro c hc
  refine (expr_places fuel c hc).bind fun left c₁ hon hleft => ?_
  refine .operator hon.ordered rfl (fun op c₂ hop => ?_) (.pure hon.ordered hleft)
  refine (expr_places fuel c₂ hop.onto.ordered).bind fun value c₃ hon' hvalue => ?_
  have hbehind := hop.lined.join hvalue.lined hop.onto.here hon'.here
  have hlined := hleft.lined.join hbehind hon.here (hop.onto.trans hon').here
  split
  · exact .pure hon'.ordered (Exprs.assign hvalue.head hlined)
  · exact .fail hon'.ordered

end

end Parse

end Colloquy
