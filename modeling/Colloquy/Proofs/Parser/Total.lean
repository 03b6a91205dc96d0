import Colloquy.Parser.Story
import Colloquy.Proofs.Parser.Progress

/-!
# Parsing reads the whole source

Lines, statements and sections go on as expressions do, so the number of tokens is a bound that no parser
reaches.  A list of statements does not even stop with an error: a broken statement has taken a token, or
stopped before one that does not end a block, which then goes with the rest of its line.  So `sections`
comes to the end of every source, with all tokens taken but the one that ends it (`parse_reads_all`).
-/

namespace Colloquy.Parse

/-! ## Lines -/

section

variable {n fuel : Nat} {e : Parse Expr}

/-- The segments of a text need no more steps than there are tokens: each of them takes one. -/
theorem segments_passes (h : Takes n e) (hfuel : fuel ≤ n) (acc : List Segment) :
    Passes fuel (segments e fuel acc) := by
  induction fuel generalizing acc with
  | zero => exact .zero
  | succ fuel ih =>
    have ih := ih (Nat.le_of_succ_le hfuel)
    refine .accept? (fun _ => rfl) (fun t => ih _) ?_ (Nat.zero_le 1)
    refine .accept (by decide) (fun opener => .peek fun next => ?_) (.pure _) (Nat.zero_le 1)
    split
    · exact .pure _
    · refine (h.mono (Nat.le_of_succ_le hfuel)).passes.any.before fun _ => ?_
      exact (expect_takes (by decide) _).passes.before fun _ => ih _

theorem hashKey_takes : Takes n hashKey :=
  .accept? (fun _ => rfl) (fun _ => .pure _) ident_takes (Nat.le_refl 1)

/-- So do the values of a key. -/
theorem hashValues_takes (h : Takes n e) (hfuel : fuel ≤ n) : Takes fuel (hashValues e fuel) := by
  induction fuel with
  | zero => exact .zero
  | succ fuel ih =>
    refine (h.mono hfuel).after fun _ => .peek fun next => ?_
    split
    · exact .pure _
    · exact (ih (Nat.le_of_succ_le hfuel)).passes.any.before fun _ => .pure _

/-- So do keys with their values. -/
theorem hashEntries_takes (h : Takes fuel e) {bound : Nat} (hbound : bound ≤ fuel) :
    Takes bound (hashEntries fuel e bound) := by
  induction bound with
  | zero => exact .zero
  | succ bound ih =>
    have hle : bound ≤ fuel := Nat.le_of_succ_le hbound
    have hvalues := (hashValues_takes h (Nat.le_refl fuel)).passes.mono hle
    have ih := (ih hle).passes
    refine hashKey_takes.after fun key => .accept (by decide) (fun _ => ?_) ?_ (Nat.zero_le 1)
    · refine (hvalues.mono (Nat.sub_le _ _)).before fun values => ?_
      refine .accept (by decide) (fun _ => ?_) (.pure _) (Nat.zero_le 1)
      exact (ih.mono (Nat.le_trans (Nat.sub_le _ _) (Nat.sub_le _ _))).before fun _ => .pure _
    · refine (Runs.pure _).before fun values => .accept (by decide) (fun _ => ?_) (.pure _) (Nat.zero_le 1)
      exact (ih.mono (Nat.sub_le _ _)).before fun _ => .pure _

/-- Hash data come to their closing brace or to an error. -/
theorem hashBody_passes (opener : Span) : Passes fuel (hashBody fuel opener) := by
  refine .peek fun next => ?_
  have hclose : ∀ entries, Passes fuel (do
      let close ← closeBrace opener
      return (⟨entries, opener.cover close⟩ : HashBlock)) :=
    fun entries => (expect_takes (by decide) _).passes.before fun _ => .pure _
  split
  · exact (Runs.pure _).before hclose
  · exact (hashEntries_takes (expr_takes fuel) (Nat.le_refl fuel)).passes.any.before hclose

/-- A directive takes a token. -/
theorem directive_takes (h : n ≤ fuel) : Takes n (directive fuel) := by
  have hexpr : Passes (n - 1) (Parse.expr fuel) :=
    (expr_takes fuel).passes.mono (Nat.le_trans (Nat.sub_le _ _) h)
  refine .peek fun t => ?_
  have hend : ∀ kind : Directive, Passes (n - 1) (do
      return (⟨kind, t.span.cover (← lastSpan)⟩ : Spanned Directive)) :=
    fun kind => .lastSpan fun _ => .pure _
  split
  · next heq =>
    refine (Runs.advance (by simp [Token.is, heq])).after fun _ => ?_
    exact sectionName_takes.passes.before fun _ => .pure _
  · next name heq =>
    refine (Runs.advance (by simp [Token.is, heq])).after fun _ => ?_
    dsimp only
    split
    · exact (Runs.pure _).before hend
    · exact hexpr.before fun _ => (Runs.pure _).before hend
    · exact hexpr.before fun _ => (Runs.pure _).before hend
    · exact (Runs.fail _).before hend
  · exact .fail _

/-- Directives need no more steps than there are tokens. -/
theorem directives_takes {bound : Nat} (hbound : bound ≤ fuel) : Takes bound (directives fuel bound) := by
  induction bound with
  | zero => exact .zero
  | succ bound ih =>
    have ih := (ih (Nat.le_of_succ_le hbound)).passes
    refine (directive_takes hbound).after fun d => ?_
    refine .accept (by decide) (fun _ => ?_) (.pure _) (Nat.zero_le 1)
    exact (ih.mono (Nat.sub_le _ _)).before fun _ => .pure _

/-- What a line may open with comes to a result or to an error. -/
theorem opener_passes (h : Takes n e) (isFirst : Bool) : Passes n (opener e isFirst) := by
  refine .peek fun t => ?_
  split
  · next heq =>
    exact ((Runs.advance (by simp [Token.is, heq])).after fun _ => .pure _).passes
  · next heq =>
    refine ((Runs.advance (by simp [Token.is, heq])).after fun _ => ?_).passes
    refine (h.mono (Nat.sub_le _ _)).passes.before fun e => ?_
    refine (expect_takes (by decide) _).passes.before fun _ => .peek fun next => ?_
    split
    · exact .pure _
    · split
      · exact .pure _
      · exact .fail _
  · exact .pure _

/-- The speakers of a line need no more steps than there are tokens: each takes its name, and a comma if
another follows. -/
theorem opening_passes (h : Takes n e) (hfuel : fuel ≤ n) (acc : List SpeakerRef) :
    Passes fuel (opening e fuel acc) := by
  induction fuel generalizing acc with
  | zero => exact .zero
  | succ fuel ih =>
    refine (opener_passes (h.mono hfuel) _).before fun o => ?_
    cases o with
    | nothing => exact .pure _
    | placeholder e => exact .pure _
    | speaker s =>
      exact .accept (by decide) (fun _ => ih (Nat.le_of_succ_le hfuel) _) (.pure _) (Nat.zero_le 1)

/-- What may stand behind the text of a line needs no more steps than there are tokens. -/
theorem trailer_passes {bound : Nat} (hbound : bound ≤ fuel) (acc : Trailer) :
    Passes bound (trailer fuel bound acc) := by
  induction bound generalizing acc with
  | zero => exact .zero
  | succ bound ih =>
    have hle : bound ≤ fuel := Nat.le_of_succ_le hbound
    refine .accept (by decide) (fun opener => ?_) ?_ (Nat.zero_le 1)
    · refine ((directives_takes (Nat.le_refl fuel)).passes.mono hle).before fun ds => ?_
      exact (expect_takes (by decide) _).passes.before fun _ => ih hle _
    refine .accept (by decide) (fun opener => ?_) ?_ (Nat.zero_le 1)
    · exact ((hashBody_passes opener).mono hle).before fun h => ih hle _
    refine .accept (by decide) (fun arrow => ?_) (.pure _) (Nat.zero_le 1)
    exact sectionName_takes.passes.before fun target => ih hle _

/-- A line comes to a result or to an error. -/
theorem line_passes : Passes fuel (line fuel) := by
  refine .peek fun t => ?_
  refine (opening_passes (expr_takes fuel) (Nat.le_refl fuel) []).any.before fun opened => ?_
  have hcolon : ∀ rest : Parse Line, Passes fuel rest → Passes fuel
      (if opened.text.isEmpty then
        if opened.speakers.isEmpty then accept .colon >>= fun _ => rest
        else require .colon >>= fun _ => rest
      else rest) := by
    intro rest hrest
    split
    · split
      · exact .accept (by decide) (fun _ => hrest.mono (Nat.sub_le _ _)) hrest (Nat.zero_le 1)
      · exact (expect_takes (by decide) _).passes.before fun _ => hrest
    · exact hrest
  refine hcolon _ ((segments_passes (expr_takes fuel) (Nat.le_refl fuel) _).before fun x => ?_)
  obtain ⟨text, block⟩ := x
  cases block with
  | some opener => exact .peek fun _ => .fail _
  | none => exact (trailer_passes (Nat.le_refl fuel) _).before fun _ => .lastSpan fun _ => .pure _

end

/-! ## Lists of statements -/

section

variable {c : Cursor} {t : Token} {ts : List Token} {last : Token} {errors : List ParseError}

/-- Line breaks are skipped without taking the end of the source. -/
theorem skipBreaks_moves (h : Ended ts) :
    Cursor.Moves ⟨ts, last, errors⟩ (.skipBreaks errors last ts) := by
  induction ts generalizing last with
  | nil => exact .refl h
  | cons t ts ih =>
    rw [Cursor.skipBreaks]
    split
    · next hbreak =>
      have hmoves := @ih t (h.tail (by simp_all [Token.is]))
      exact ⟨hmoves.ended, hmoves.suffix.trans (List.suffix_cons t ts)⟩
    · exact .refl h

/-- The rest of a line is skipped without taking the end of the source. -/
theorem skipLine_moves (h : Ended ts) :
    Cursor.Moves ⟨ts, last, errors⟩ (.skipLine errors last ts) := by
  induction ts generalizing last with
  | nil => exact .refl h
  | cons t ts ih =>
    rw [Cursor.skipLine]
    split
    · exact .refl h
    · next hends =>
      have hrest : Ended ts := h.tail (by simp_all)
      split
      · exact ⟨hrest, List.suffix_cons t ts⟩
      · have hmoves := @ih t hrest
        exact ⟨hmoves.ended, hmoves.suffix.trans (List.suffix_cons t ts)⟩

/-- To skip a line takes a token, unless it starts with one that ends every block. -/
theorem skipLine_length_lt (h : Ended (t :: ts)) (ht : endsSection t = false) :
    (Cursor.skipLine errors last (t :: ts)).rest.length < ts.length + 1 := by
  rw [Cursor.skipLine]
  rw [endsSection] at ht
  rw [ht]
  simp only [Bool.false_eq_true, if_false]
  split
  · exact Nat.lt_succ_self _
  · have hrest : Ended ts := h.tail (by simp_all)
    exact Nat.lt_succ_of_le (skipLine_moves hrest).length_le

end

section

variable {α : Type} {n fuel : Nat} {p : Parse α} {c : Cursor}

theorem lastSpan_goes {E : Prop} (hc : c.Ready n) : Goes E lastSpan c fun _ c' => c'.Ready n :=
  .ok (.refl hc.ended) hc

theorem report_goes {E : Prop} (e : ParseError) (hc : c.Ready n) :
    Goes E (report e) c fun _ c' => c'.Ready n :=
  .ok ⟨hc.ended, List.suffix_refl _⟩ ⟨hc.ended, hc.left⟩

theorem skipBreaks_goes {E : Prop} (hc : Ended c.rest) : Goes E skipBreaks c fun _ _ => True :=
  .ok (skipBreaks_moves hc) trivial

/-- A parser that is recovered from has no error, and a token is gone if the first one does not end every
block. -/
theorem recover_goes (h : Takes n p) (hc : c.Ready n) : Goes False (recover p) c fun _ c' =>
    ∀ t, c.Before t → endsSection t = false → c'.rest.length < c.rest.length := by
  have hgoes := h c hc trivial
  rw [Goes] at hgoes ⊢
  rw [recover]
  generalize p c = x at hgoes ⊢
  cases hgoes with
  | ok hmoves hle => exact .ok hmoves fun _ _ _ => hle
  | @error e c' _ hmoves =>
    have hskip := @skipLine_moves c'.rest c'.last (c'.errors ++ [e]) hmoves.ended
    refine .ok ⟨hskip.ended, hskip.suffix.trans hmoves.suffix⟩ fun t ht hends => ?_
    -- The error may stand at the first token.
    rcases Nat.lt_or_ge c'.rest.length c.rest.length with hlt | hge
    · exact Nat.lt_of_le_of_lt hskip.length_le hlt
    · have hsame := hmoves.suffix.eq_of_length (Nat.le_antisymm hmoves.length_le hge)
      rw [hsame]
      obtain ⟨u, us, hrest⟩ := List.exists_cons_of_ne_nil hc.ended.ne_nil
      have hu : u = t := by
        rw [Cursor.Before, hrest] at ht
        exact Option.some.inj ht
      have hended := hc.ended
      rw [hrest] at hended ⊢
      exact skipLine_length_lt hended (hu ▸ hends)

/-- A list of statements comes to a token that ends it, and never stops with an error. -/
theorem many_goes {stop : Token → Bool} (hstop : ∀ t, stop t = false → endsSection t = false)
    (h : Takes n p) (hfuel : fuel ≤ n) (hc : c.Ready fuel) :
    Goes False (many stop p fuel) c fun _ c' => ∃ t, c'.Before t ∧ stop t = true := by
  induction fuel generalizing c with
  | zero => exact absurd hc.pos (Nat.lt_irrefl 0)
  | succ fuel ih =>
    refine (skipBreaks_goes hc.ended).bind fun _ c₁ hmoves₁ _ => ?_
    have hc₁ : c₁.Ready (fuel + 1) := ⟨hmoves₁.ended, Nat.le_trans hmoves₁.length_le hc.left⟩
    refine (peek_goes hc₁).bind fun t c₂ _ ht => ?_
    obtain ⟨ht, rfl⟩ := ht
    split
    · next hends => exact .pure hc₁.ended ⟨t, ht, hends⟩
    · next hgoes =>
      have hrecover := recover_goes (h.mono hfuel) hc₁
      refine hrecover.bind fun a c₃ hmoves₃ hlt => ?_
      have hlt := hlt t ht (hstop t (by simpa using hgoes))
      have hc₃ : c₃.Ready fuel := ⟨hmoves₃.ended, by have := hc₁.left; omega⟩
      refine (ih (Nat.le_of_succ_le hfuel) hc₃).bind fun as c₄ hmoves₄ hends => ?_
      exact .pure hmoves₄.ended hends

theorem many_passes {stop : Token → Bool} (hstop : ∀ t, stop t = false → endsSection t = false)
    (h : Takes n p) (hfuel : fuel ≤ n) : Passes fuel (many stop p fuel) :=
  fun _ hc _ => (many_goes hstop h hfuel hc).mono False.elim fun _ _ hmoves _ => hmoves.length_le

end

/-! ## Statements -/

section

variable {α β : Type} {n fuel : Nat} {t : Token} {p : Parse α}

/-- A line that starts with a token is not empty: either it has taken one, or the line break behind it is
one. -/
theorem lineEnd_takes {f : α → β} (h : Runs True (Cursor.Before t) 0 n p) (ht : t.is .endOfFile = false) :
    Runs True (Cursor.Before t) 1 n (do
      let a ← p
      lineEnd
      return f a) := by
  intro c hc hbefore
  refine (h c hc hbefore).bind fun a c₁ hmoves₁ hle => ?_
  have hc₁ : c₁.Ready n := ⟨hmoves₁.ended, Nat.le_trans hle hc.left⟩
  refine (lineEnd_goes hc₁).bind fun _ c₂ hmoves₂ hend => .pure hmoves₂.ended ?_
  rcases hend with hlt | ⟨u, hu, hlast⟩
  · exact Nat.lt_of_lt_of_le hlt hle
  · refine (hmoves₁.trans hmoves₂).length_lt hbefore hu fun htu => ?_
    rw [htu, hlast] at ht
    cases ht

theorem braces_passes (h : Passes n p) : Passes n (braces p) := by
  refine (expect_takes (by decide) _).passes.before fun opener => lineEnd_passes.before fun _ => ?_
  exact h.before fun a => (expect_takes (by decide) _).passes.before fun _ => .pure _

/-- The branches of an if need no more steps than there are tokens: each condition takes one. -/
theorem branches_passes {condition : Parse Expr} {body : Parse α} (hcondition : Takes n condition)
    (hbody : Passes n body) (hfuel : fuel ≤ n) : Passes fuel (branches condition body fuel) := by
  induction fuel with
  | zero => exact .zero
  | succ fuel ih =>
    have hbraces := (braces_passes hbody).mono hfuel
    have ih := ih (Nat.le_of_succ_le hfuel)
    rw [branches]
    refine (hcondition.mono hfuel).passes.before fun e => hbraces.before fun a => ?_
    refine .accept (by decide) (fun _ => ?_) (.pure _) (Nat.zero_le 1)
    refine .accept (by decide) (fun _ => ?_) ?_ (Nat.zero_le 1)
    · exact (ih.mono (Nat.sub_le _ _)).before fun _ => .pure _
    · exact (hbraces.mono (Nat.sub_le _ _)).before fun _ => .pure _

theorem optionGuard_passes {e : Parse Expr} (h : Takes n e) : Passes n (optionGuard e) := by
  refine .accept (by decide) (fun _ => ?_) (.pure _) (Nat.zero_le 1)
  refine (h.mono (Nat.sub_le _ _)).passes.before fun _ => ?_
  exact (expect_takes (by decide) _).passes.before fun _ => .pure _

/-- The target of an option comes to a result or to an error. -/
theorem optionTarget_passes (block : Option Span) : Passes n (optionTarget block) := by
  cases block with
  | some opener => exact .pure _
  | none =>
    refine .accept (by decide) (fun _ => ?_) (.pure _) (Nat.zero_le 1)
    refine sectionName_takes.passes.before fun target => ?_
    exact .accept (by decide) (fun _ => .pure _) (.pure _) (Nat.zero_le 1)

/-- So does its block. -/
theorem optionBody_passes (h : Passes n p) (block : Option Span) : Passes n (optionBody p block) := by
  cases block with
  | none => exact .pure _
  | some opener =>
    refine lineEnd_passes.before fun _ => h.before fun _ => ?_
    exact (expect_takes (by decide) _).passes.before fun _ => .pure _

theorem endsBraces_covers (t : Token) (h : endsBraces t = false) : endsSection t = false := by
  rw [endsBraces, Bool.or_eq_false_iff] at h
  exact h.1

/-- An item of a choice takes a token, if the statements and items in it go on with one step less. -/
theorem item_step (hstmt : Takes fuel (stmt fuel)) (hitem : Takes fuel (item fuel)) :
    Takes (fuel + 1) (item (fuel + 1)) := by
  have hexpr := expr_takes fuel
  have hle := Nat.le_refl fuel
  rw [item]
  refine .accept (by decide) (fun star => ?_) ?_ (Nat.le_refl 1)
  · refine (optionGuard_passes hexpr).before fun guard => ?_
    refine (segments_passes hexpr hle []).before fun x => ?_
    obtain ⟨text, block⟩ := x
    refine (optionTarget_passes block).before fun y => ?_
    obtain ⟨target, block⟩ := y
    refine (optionBody_passes (many_passes endsBraces_covers hstmt hle) block).before fun body => ?_
    exact .lastSpan fun _ => lineEnd_passes.before fun _ => .pure _
  refine .accept (by decide) (fun word => ?_) (.peek fun t => .fail _) (Nat.le_refl 1)
  have hbody := many_passes endsBraces_covers hitem hle
  refine (branches_passes hexpr hbody hle).before fun x => ?_
  exact .lastSpan fun _ => lineEnd_passes.before fun _ => .pure _

/-- A statement takes a token, if the statements and items in it go on with one step less. -/
theorem stmt_step (hstmt : Takes fuel (stmt fuel)) (hitem : Takes fuel (item fuel)) :
    Takes (fuel + 1) (stmt (fuel + 1)) := by
  have hexpr := expr_takes fuel
  have hle := Nat.le_refl fuel
  have hend : ∀ s : Stmt, Passes fuel (do
      lineEnd
      return s) := fun s => lineEnd_passes.before fun _ => .pure _
  rw [stmt]
  refine .peek fun t => ?_
  dsimp only
  have hline (ht : t.is .endOfFile = false) : Runs True (Cursor.Before t) 1 (fuel + 1) (do
      let s ← pure (Stmt.line (← line (fuel + 1)))
      lineEnd
      return s) := lineEnd_takes line_passes.any ht
  have hadvance (f : Unit → Parse Stmt) (ht : t.is .endOfFile = false) (h : Passes fuel (f ())) :
      Runs True (Cursor.Before t) 1 (fuel + 1) (advance >>= f) := (Runs.advance ht).after fun _ => h
  split
  -- an instruction
  · next heq =>
    refine hadvance _ (by simp [Token.is, heq]) ?_
    exact (instruction_takes fuel).passes.before fun e => (Runs.pure _).before hend
  -- a goto, by its word or by an arrow
  · next heq =>
    refine hadvance _ (by simp [Token.is, heq]) ?_
    exact sectionName_takes.passes.before fun target => (Runs.pure _).before hend
  · next heq =>
    refine hadvance _ (by simp [Token.is, heq]) ?_
    exact sectionName_takes.passes.before fun target => (Runs.pure _).before hend
  -- an end
  · next heq => exact hadvance _ (by simp [Token.is, heq]) ((Runs.pure _).before hend)
  -- a conditional
  · next heq =>
    refine hadvance _ (by simp [Token.is, heq]) ?_
    refine (branches_passes hexpr (many_passes endsBraces_covers hstmt hle) hle).before fun x => ?_
    exact .lastSpan fun _ => (Runs.pure _).before hend
  -- a choice
  · next heq =>
    refine hadvance _ (by simp [Token.is, heq]) ?_
    refine (expect_takes (by decide) _).passes.before fun opener => lineEnd_passes.before fun _ => ?_
    refine (many_passes endsBraces_covers hitem hle).before fun items => ?_
    exact (expect_takes (by decide) _).passes.before fun close => (Runs.pure _).before hend
  -- hash data
  · next heq =>
    refine hadvance _ (by simp [Token.is, heq]) ?_
    exact (hashBody_passes _).before fun h => (Runs.pure _).before hend
  -- hash data of a speaker
  · next heq =>
    refine hadvance _ (by simp [Token.is, heq]) ?_
    refine ident_takes.passes.before fun name => (expect_takes (by decide) _).passes.before fun opener => ?_
    exact (hashBody_passes _).before fun h => (Runs.pure _).before hend
  -- an option outside of a choice
  · exact (Runs.fail _).after hend
  -- a line
  · next heq => exact hline (by simp [Token.is, heq])
  · next heq => exact hline (by simp [Token.is, heq])
  · next heq => exact hline (by simp [Token.is, heq])
  · next heq => exact hline (by simp [Token.is, heq])
  -- anything else starts no statement
  · exact (Runs.fail _).after hend

/-- Statements and items take a token or more, and blocks nest no deeper than there are tokens. -/
theorem stmt_takes (fuel : Nat) : Takes fuel (stmt fuel) := by
  have hboth : Takes fuel (stmt fuel) ∧ Takes fuel (item fuel) := by
    induction fuel with
    | zero => exact ⟨.zero, .zero⟩
    | succ fuel ih => exact ⟨stmt_step ih.1 ih.2, item_step ih.1 ih.2⟩
  exact hboth.1

end

/-! ## Sections -/

section

variable {fuel : Nat} {c : Cursor}

/-- The header of a section takes a token. -/
theorem headerFrom_takes (marker : Span) : Takes fuel (headerFrom marker) := by
  refine Runs.after (p := header) ?_ fun name => .lastSpan fun _ => .pure _
  refine sectionName_takes.after fun name => .accept (by decide) (fun _ => ?_) ?_ (Nat.zero_le 1)
  · exact lineEnd_passes.before fun _ => .pure _
  · exact lineEnd_passes.before fun _ => .pure _

/-- The statements of a section come to the next section or to the end of the source. -/
theorem sectionBody_goes (hc : c.Ready fuel) : Goes False (sectionBody fuel) c fun _ c' =>
    ∃ t, c'.Before t ∧ endsSection t = true :=
  many_goes (fun _ h => h) (stmt_takes fuel) (Nat.le_refl fuel) hc

theorem sectionBody_passes : Runs False (fun _ => True) 0 fuel (sectionBody fuel) :=
  fun _ hc _ => (sectionBody_goes hc).mono id fun _ _ hmoves _ => hmoves.length_le

/-- A section takes its marker. -/
theorem sectionPart_takes {t : Token} (ht : t.is .endOfFile = false) :
    Runs False (Cursor.Before t) 1 fuel (sectionPart fuel) := by
  have hbody := (@sectionBody_passes fuel).mono (Nat.sub_le fuel 1)
  refine (Runs.advance ht).after fun _ => .lastSpan fun marker => ?_
  have hheader : Runs False (fun _ => True) 0 (fuel - 1) (recover (headerFrom marker)) :=
    fun c hc _ => (recover_goes (headerFrom_takes marker) hc).mono id fun _ _ hmoves _ => hmoves.length_le
  refine hheader.before fun x => ?_
  cases x with
  | none => exact hbody.before fun _ => .pure _
  | some x => exact hbody.before fun _ => .pure _

/-- Sections come to the end of the source, and never stop with an error. -/
theorem sections_goes (implicit : Option String) {bound : Nat} (hbound : bound ≤ fuel)
    (acc : List Section) (hc : c.Ready bound) : Goes False (sections implicit fuel bound acc) c
      fun _ c' => ∃ t, c'.Before t ∧ t.is .endOfFile = true := by
  induction bound generalizing c acc with
  | zero => exact absurd hc.pos (Nat.lt_irrefl 0)
  | succ bound ih =>
    have hle : bound ≤ fuel := Nat.le_of_succ_le hbound
    refine (skipBreaks_goes hc.ended).bind fun _ c₁ hmoves₁ _ => ?_
    have hc₁ : c₁.Ready (bound + 1) := ⟨hmoves₁.ended, Nat.le_trans hmoves₁.length_le hc.left⟩
    have hfuel : c₁.Ready fuel := ⟨hc₁.ended, Nat.le_trans hc₁.left hbound⟩
    refine (peek_goes hc₁).bind fun t c₂ _ ht => ?_
    obtain ⟨ht, rfl⟩ := ht
    split
    · next hend => exact .pure hc₁.ended ⟨t, ht, hend⟩
    next hnot =>
    have hnot : t.is .endOfFile = false := by simpa using hnot
    split
    · refine (sectionPart_takes hnot _ hfuel ht).bind fun s c₃ hmoves₃ hlt => ?_
      exact ih hle _ ⟨hmoves₃.ended, by have := hc₁.left; omega⟩
    next hmarker =>
    have hgoes : endsSection t = false := by rw [endsSection, hnot]; simpa using hmarker
    refine (sectionBody_goes hfuel).bind fun body c₃ hmoves₃ hends => ?_
    obtain ⟨u, hu, hends⟩ := hends
    -- The body stopped before a token that ends it, which the first one is not.
    have hlt : c₃.rest.length < c₂.rest.length := hmoves₃.length_lt ht hu fun htu => by
      rw [htu, hends] at hgoes
      cases hgoes
    have hc₃ : c₃.Ready bound := ⟨hmoves₃.ended, by have := hc₁.left; omega⟩
    split
    · exact ih hle _ hc₃
    · refine (lastSpan_goes hc₃).bind fun span c₄ _ hc₄ => ?_
      refine (report_goes _ hc₄).bind fun _ c₅ _ hc₅ => ?_
      exact ih hle _ hc₅

end

end Colloquy.Parse

namespace Colloquy

/-- Every source is parsed to its end, whatever is wrong with it.  No parser stops for want of steps and
none takes the token that ends the source; all tokens before that one are taken. -/
theorem parse_reads_all (implicit : Option String) (source : String) :
    ∃ (before : List Token) (last : Token) (story : Story) (c : Cursor),
      tokensOf (scan source) = before ++ [last] ∧ last.is .endOfFile = true ∧
      (∀ t ∈ before, t.is .endOfFile = false) ∧
      Parse.sections implicit (before.length + 1) (before.length + 1) []
        (.start (before ++ [last])) = .ok story c ∧
      c.rest = [last] ∧ parse implicit source = (story, c.errors) := by
  have hended := ended_scan source
  obtain ⟨before, last, htokens, hlast, hbefore⟩ := hended.exists_eq_append
  have hlength : (before ++ [last]).length = before.length + 1 := by simp
  rw [htokens] at hended
  have hready : (Cursor.start (before ++ [last])).Ready (before.length + 1) :=
    ⟨hended, Nat.le_of_eq hlength⟩
  have hgoes := Parse.sections_goes implicit (Nat.le_refl _) [] hready
  rw [Parse.Goes] at hgoes
  generalize hresult : Parse.sections implicit _ _ [] (.start (before ++ [last])) = x at hgoes
  cases hgoes with
  | error hE => exact hE.elim
  | @ok story c hmoves hend =>
    refine ⟨before, last, story, c, htokens, hlast, hbefore, hresult, ?_, ?_⟩
    · obtain ⟨t, ht, hend⟩ := hend
      have hrest : c.rest = [t] := hmoves.ended.eq_singleton ht hend
      have hsuffix : [t] <:+ before ++ [last] := hrest ▸ hmoves.suffix
      have hlast : t = last := by simpa using hsuffix.getLast (List.cons_ne_nil t [])
      rw [hrest, hlast]
    · rw [parse, htokens, parseTokens, hlength, hresult]

end Colloquy
