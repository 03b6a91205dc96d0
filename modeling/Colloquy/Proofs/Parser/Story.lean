import Colloquy.Parser.Story
import Colloquy.Proofs.Parser.Expr

/-!
# What the parser makes of a source

The statements of a parsed story meet what the compiler's theorems ask of them (`parse_meets`): no
float is negative zero, since no token is, and a filter starts with an `if`, so it has a branch.  More
generally, what passes from the parts of an expression to the whole holds everywhere in a parsed story
(`parse_inherits`).
-/

namespace Colloquy

namespace Parse

variable {α : Type} {P : Float → Prop} {E : Expr → Prop} {expr : Parse Expr}

/-! ## Parts of lines -/

/-- The segments of a text hold expressions as they are read, with those that were read before. -/
theorem segments_gives (h : Gives P expr E) (fuel : Nat) {acc : List Segment}
    (hacc : ∀ s ∈ acc, s.Meets E) :
    Gives P (segments expr fuel acc) fun p => ∀ s ∈ p.1, s.Meets E := by
  induction fuel generalizing acc with
  | zero => exact .exhausted
  | succ fuel ih =>
    unfold segments
    refine (accept?_gives (Q := fun _ => True) fun _ _ _ _ => trivial).bind fun o _ => ?_
    cases o with
    | some t =>
      refine ih ?_
      simpa [or_imp, forall_and, Segment.Meets] using hacc
    | none =>
      refine (accept_gives .openBrace).bind fun o _ => ?_
      cases o with
      | none => exact .pure hacc
      | some opener =>
        refine peek_gives.bind fun next _ => ?_
        split
        · exact .pure hacc
        · refine h.bind fun e he => (expect_gives _ _).bind fun _ _ => ih ?_
          simpa [or_imp, forall_and, Segment.Meets] using ⟨hacc, he⟩

/-- A segment that loses its blanks keeps its expression. -/
theorem trimSegment_meets {first last : Bool} {s s' : Segment} (h : s.Meets E)
    (hs : trimSegment first last s = some s') : s'.Meets E := by
  cases s with
  | text t =>
    obtain ⟨cs, hcs⟩ : ∃ cs : List Char, trimSegment first last (.text t) =
        if cs.isEmpty then none else some (.text ⟨String.ofList cs, t.span⟩) := ⟨_, rfl⟩
    rw [hcs] at hs
    split at hs
    · cases hs
    · cases hs
      trivial
  | placeholder e =>
    cases hs
    exact h

/-- So do the segments behind the first one. -/
theorem trimRest_meets {ss : List Segment} (h : ∀ s ∈ ss, s.Meets E) :
    ∀ s ∈ trimRest ss, s.Meets E := by
  induction ss with
  | nil => exact h
  | cons s ss ih =>
    have hs := h s (List.mem_cons_self ..)
    have ih := ih fun s hs => h s (List.mem_cons_of_mem _ hs)
    intro s' hs'
    cases ss with
    | nil => exact trimSegment_meets hs (Option.mem_toList.mp hs')
    | cons _ _ =>
      rcases List.mem_append.mp hs' with hs' | hs'
      · exact trimSegment_meets hs (Option.mem_toList.mp hs')
      · exact ih s' hs'

/-- So do all segments of a text. -/
theorem trimText_meets {ss : List Segment} (h : ∀ s ∈ ss, s.Meets E) :
    ∀ s ∈ trimText ss, s.Meets E := by
  intro s' hs'
  unfold trimText at hs'
  split at hs'
  · cases hs'
  · exact trimSegment_meets (h _ (List.mem_cons_self ..)) (Option.mem_toList.mp hs')
  · rcases List.mem_append.mp hs' with hs' | hs'
    · exact trimSegment_meets (h _ (List.mem_cons_self ..)) (Option.mem_toList.mp hs')
    · exact trimRest_meets (fun s hs => h s (List.mem_cons_of_mem _ hs)) s' hs'

/-- A key brings no expression. -/
theorem hashKey_gives : Gives P hashKey fun _ => True := by
  refine (accept?_gives (Q := fun _ => True) fun _ _ _ _ => trivial).bind fun o _ => ?_
  cases o with
  | some x => exact .pure trivial
  | none => exact ident_gives

/-- The values of a key are expressions as they are read. -/
theorem hashValues_gives (h : Gives P expr E) (fuel : Nat) :
    Gives P (hashValues expr fuel) fun es => ∀ e ∈ es, E e := by
  induction fuel with
  | zero => exact .exhausted
  | succ fuel ih =>
    refine h.bind fun e he => peek_gives.bind fun t _ => ?_
    split
    · exact .pure (by simpa using he)
    · exact ih.bind fun es hes => .pure (List.forall_mem_cons.mpr ⟨he, hes⟩)

/-- Of the values of hash data. -/
def EntriesMeet (E : Expr → Prop) (es : List HashEntry) : Prop := ∀ e ∈ es, ∀ v ∈ e.values, E v

/-- So are the values of all keys. -/
theorem hashEntries_gives (fuel : Nat) (h : Gives P expr E) (bound : Nat) :
    Gives P (hashEntries fuel expr bound) (EntriesMeet E) := by
  induction bound with
  | zero => exact .exhausted
  | succ bound ih =>
    unfold hashEntries
    refine hashKey_gives.bind fun key _ => (accept_gives .colon).bind fun o _ => ?_
    cases o
    case' some => refine (hashValues_gives h fuel).bind fun values hvalues => ?_
    case' none => have hvalues : ∀ v ∈ ([] : List Expr), E v := by simp
    -- with values or without, a comma leads to the next key
    all_goals
      refine (accept_gives .comma).bind fun o _ => ?_
      cases o with
      | none => exact .pure (List.forall_mem_singleton.mpr hvalues)
      | some _ => exact ih.bind fun es hes => .pure (List.forall_mem_cons.mpr ⟨hvalues, hes⟩)

/-- So are those in hash data. -/
theorem hashBody_gives (hE : Inherited P E) (fuel : Nat) (opener : Span) :
    Gives P (hashBody fuel opener) (HashBlock.Meets E) := by
  have hrest : ∀ entries, EntriesMeet E entries → Gives P (do
      let close ← closeBrace opener
      return (⟨entries, opener.cover close⟩ : HashBlock)) (HashBlock.Meets E) :=
    fun entries hentries => (expect_gives _ _).bind fun close _ => .pure hentries
  refine peek_gives.bind fun t _ => ?_
  split
  · exact hrest [] (by simp [EntriesMeet])
  · exact (hashEntries_gives fuel (expr_gives hE fuel) fuel).bind fun entries h => hrest entries h

/-- The number of a directive is an expression as it is read. -/
theorem directive_gives (hE : Inherited P E) (fuel : Nat) :
    Gives P (directive fuel) fun d => d.val.Meets E := by
  unfold directive
  refine peek_gives.bind fun t _ => ?_
  split
  · exact advance_gives.bind fun _ _ => sectionName_gives.bind fun _ _ => .pure trivial
  · have hrest : ∀ d : Directive, d.Meets E → Gives P (do
        return (⟨d, t.span.cover (← lastSpan)⟩ : Spanned Directive)) fun d => d.val.Meets E :=
      fun d hd => lastSpan_gives.bind fun _ _ => .pure hd
    refine advance_gives.bind fun _ _ => ?_
    split
    · exact hrest .auto trivial
    · exact (expr_gives hE fuel).bind fun e he => hrest (.speed e) he
    · exact (expr_gives hE fuel).bind fun e he => hrest (.pause e) he
    · exact .fail _
  · exact .fail _

/-- So are the numbers of directives, one behind another. -/
theorem directives_gives (hE : Inherited P E) (fuel bound : Nat) :
    Gives P (directives fuel bound) fun ds => ∀ d ∈ ds, d.val.Meets E := by
  induction bound with
  | zero => exact .exhausted
  | succ bound ih =>
    refine (directive_gives hE fuel).bind fun d hd => (accept_gives .comma).bind fun o _ => ?_
    cases o with
    | none => exact .pure (by simpa using hd)
    | some _ => exact ih.bind fun ds hds => .pure (List.forall_mem_cons.mpr ⟨hd, hds⟩)

/-! ## Lines -/

/-- Of the placeholder that may open a line. -/
def Opener.Meets (E : Expr → Prop) : Opener → Prop
  | .placeholder e => E e
  | _ => True

/-- What a line opens with holds an expression as it is read, if it holds one. -/
theorem opener_gives (h : Gives P expr E) (isFirst : Bool) :
    Gives P (opener expr isFirst) (Opener.Meets E) := by
  unfold opener
  refine peek_gives.bind fun t _ => ?_
  split
  · exact advance_gives.bind fun _ _ => .pure trivial
  · refine advance_gives.bind fun _ _ => h.bind fun e he => (expect_gives _ _).bind fun _ _ => ?_
    refine peek_gives.bind fun next _ => ?_
    split
    · exact .pure trivial
    · split
      · exact .pure he
      · exact .fail _
  · exact .pure trivial

/-- So does the text that may come with the speakers of a line. -/
theorem opening_gives (h : Gives P expr E) (fuel : Nat) (acc : List SpeakerRef) :
    Gives P (opening expr fuel acc) fun o => ∀ s ∈ o.text, s.Meets E := by
  induction fuel generalizing acc with
  | zero => exact .exhausted
  | succ fuel ih =>
    refine (opener_gives h _).bind fun o ho => ?_
    cases o with
    | nothing => exact .pure (by simp)
    | placeholder e => exact .pure (by simpa [Segment.Meets, Opener.Meets] using ho)
    | speaker s =>
      refine (accept_gives .comma).bind fun o _ => ?_
      cases o with
      | none => exact .pure (by simp)
      | some _ => exact ih _

/-- Of what follows the text of a line. -/
structure Trailer.Meets (E : Expr → Prop) (t : Trailer) : Prop where
  directives : ∀ d ∈ t.directives, d.val.Meets E
  hash : ∀ h, t.hash = some h → h.Meets E

/-- Hash data that are joined hold the values of both. -/
theorem joinHash_meets {g : Option HashBlock} {h : HashBlock} (hg : ∀ b, g = some b → b.Meets E)
    (hh : h.Meets E) : (joinHash g h).Meets E := by
  cases g with
  | none => exact hh
  | some b =>
    intro e he
    rcases List.mem_append.mp he with he | he
    · exact hg b rfl e he
    · exact hh e he

/-- What stands behind the text of a line holds expressions as they are read, as does the line so far. -/
theorem trailer_gives (hE : Inherited P E) (fuel bound : Nat) {acc : Trailer} (hacc : acc.Meets E) :
    Gives P (trailer fuel bound acc) (Trailer.Meets E) := by
  induction bound generalizing acc with
  | zero => exact .exhausted
  | succ bound ih =>
    unfold trailer
    refine (accept_gives .directiveOpen).bind fun o _ => ?_
    cases o with
    | some opener =>
      refine (directives_gives hE fuel fuel).bind fun ds hds => (expect_gives _ _).bind fun _ _ => ih ?_
      refine ⟨fun d hd => ?_, hacc.hash⟩
      exact (List.mem_append.mp hd).elim (hacc.directives d) (hds d)
    | none =>
      refine (accept_gives .hashOpen).bind fun o _ => ?_
      cases o with
      | some opener =>
        refine (hashBody_gives hE fuel opener).bind fun b hb => ih ⟨hacc.directives, ?_⟩
        rintro _ ⟨⟩
        exact joinHash_meets hacc.hash hb
      | none =>
        refine (accept_gives .arrow).bind fun o _ => ?_
        cases o with
        | none => exact .pure hacc
        | some arrow =>
          refine sectionName_gives.bind fun target _ => ih ⟨fun d hd => ?_, hacc.hash⟩
          rcases List.mem_append.mp hd with hd | hd
          · exact hacc.directives d hd
          · obtain rfl := List.mem_singleton.mp hd
            trivial

/-- A line holds expressions as they are read. -/
theorem line_gives (hE : Inherited P E) (fuel : Nat) : Gives P (line fuel) (Line.Meets E) := by
  have hnone : (⟨[], none⟩ : Trailer).Meets E := ⟨by simp, by simp⟩
  unfold line
  refine peek_gives.bind fun t _ => (opening_gives (expr_gives hE fuel) fuel []).bind fun opened h => ?_
  split
  on_goal 1 => split
  on_goal 1 => refine (accept_gives .colon).bind fun _ _ => ?_
  on_goal 2 => refine (expect_gives _ _).bind fun _ _ => ?_
  -- behind their openings all lines are read alike
  all_goals
    refine (segments_gives (expr_gives hE fuel) fuel h).bind fun p hp => ?_
    obtain ⟨text, block⟩ := p
    cases block with
    | some opener => exact peek_gives.bind fun _ _ => .fail _
    | none =>
      refine (trailer_gives hE fuel fuel hnone).bind fun t ht => lastSpan_gives.bind fun _ _ => ?_
      exact .pure ⟨trimText_meets hp, ht.directives, ht.hash⟩

/-! ## Statements and items -/

/-- All parts are as each of them is read. -/
theorem many_gives (stop : Token → Bool) {p : Parse α} {Q : α → Prop} (h : Gives P p Q) (fuel : Nat) :
    Gives P (many stop p fuel) fun as => ∀ a ∈ as, Q a := by
  induction fuel with
  | zero => exact .exhausted
  | succ fuel ih =>
    refine skipBreaks_gives.bind fun _ _ => peek_gives.bind fun t _ => ?_
    split
    · exact .pure (by simp)
    · refine (recover_gives h).bind fun o ho => ih.bind fun as has => .pure fun a ha => ?_
      rcases List.mem_append.mp ha with ha | ha
      · exact ho a (Option.mem_toList.mp ha)
      · exact has a ha

theorem braces_gives {p : Parse α} {Q : α → Prop} (h : Gives P p Q) : Gives P (braces p) Q := by
  refine (expect_gives _ _).bind fun _ _ => lineEnd_gives.bind fun _ _ => h.bind fun a ha => ?_
  exact (expect_gives _ _).bind fun _ _ => .pure ha

/-- Branches, of which there is at least one. -/
theorem branches_gives {body : Parse α} {Q : α → Prop} (hexpr : Gives P expr E)
    (hbody : Gives P body Q) (fuel : Nat) :
    Gives P (branches expr body fuel) fun p => 0 < p.1.length ∧
      (∀ b ∈ p.1, E b.1 ∧ Q b.2) ∧ ∀ a, p.2 = some a → Q a := by
  unfold branches
  refine hexpr.bind fun e he => (braces_gives hbody).bind fun a ha => ?_
  have hone : 0 < [(e, a)].length ∧ ∀ b ∈ [(e, a)], E b.1 ∧ Q b.2 :=
    ⟨Nat.one_pos, by simpa using ⟨he, ha⟩⟩
  refine (accept_gives .elseWord).bind fun o _ => ?_
  cases o with
  | none => exact .pure ⟨hone.1, hone.2, by simp⟩
  | some _ =>
    refine (accept_gives .ifWord).bind fun o _ => ?_
    cases o with
    | none =>
      refine (braces_gives hbody).bind fun b hb => .pure ⟨hone.1, hone.2, ?_⟩
      rintro _ ⟨⟩
      exact hb
    | some _ =>
      match fuel with
      | 0 => exact .exhausted
      | fuel + 1 =>
        refine (branches_gives hexpr hbody fuel).bind fun p hp => .pure ⟨Nat.succ_pos _, ?_, hp.2.2⟩
        exact List.forall_mem_cons.mpr ⟨⟨he, ha⟩, hp.2.1⟩

/-- The guard of an option is an expression as it is read. -/
theorem optionGuard_gives (h : Gives P expr E) :
    Gives P (optionGuard expr) fun g => ∀ e, g = some e → E e := by
  refine (accept_gives .openBracket).bind fun o _ => ?_
  cases o with
  | none => exact .pure (by simp)
  | some _ =>
    refine h.bind fun e he => (expect_gives _ _).bind fun _ _ => .pure ?_
    rintro _ ⟨⟩
    exact he

/-- The target of an option brings no expression. -/
theorem optionTarget_gives (block : Option Span) : Gives P (optionTarget block) fun _ => True := by
  cases block with
  | some opener => exact .pure trivial
  | none =>
    refine (accept_gives .arrow).bind fun o _ => ?_
    cases o with
    | none => exact .pure trivial
    | some _ =>
      exact sectionName_gives.bind fun _ _ => (accept_gives .openBrace).bind fun _ _ => .pure trivial

/-- The block of an option is as its parts are read. -/
theorem optionBody_gives {body : Parse α} {Q : α → Prop} (h : Gives P body Q) (block : Option Span) :
    Gives P (optionBody body block) fun o => ∀ a, o = some a → Q a := by
  cases block with
  | none => exact .pure (by simp)
  | some opener =>
    refine lineEnd_gives.bind fun _ _ => h.bind fun a ha => (expect_gives _ _).bind fun _ _ => .pure ?_
    rintro _ ⟨⟩
    exact ha

mutual

/-- A statement holds expressions as they are read, and filters with a branch at least, by induction on
the steps it is given. -/
theorem stmt_gives (hE : Inherited P E) (fuel : Nat) :
    Gives P (stmt fuel) fun x => x.Meets E (0 < ·) := by
  match fuel with
  | 0 => exact .exhausted
  | fuel + 1 =>
    have hrest : ∀ x : Stmt, x.Meets E (0 < ·) → Gives P (do
        lineEnd
        return x) fun x => x.Meets E (0 < ·) :=
      fun x hx => lineEnd_gives.bind fun _ _ => .pure hx
    have hline : Gives P (do
        let l ← line (fuel + 1)
        lineEnd
        return Stmt.line l) fun x => x.Meets E (0 < ·) := by
      refine (line_gives hE (fuel + 1)).bind fun l hl => hrest _ ?_
      rw [Stmt.Meets]
      exact hl
    unfold stmt
    refine peek_gives.bind fun t _ => ?_
    split
    -- an instruction
    · refine advance_gives.bind fun _ _ => (instruction_gives hE fuel).bind fun e he => hrest _ ?_
      rw [Stmt.Meets]
      exact he
    -- a goto, by its word or by an arrow
    · refine advance_gives.bind fun _ _ => sectionName_gives.bind fun x _ => hrest _ ?_
      rw [Stmt.Meets]
      trivial
    · refine advance_gives.bind fun _ _ => sectionName_gives.bind fun x _ => hrest _ ?_
      rw [Stmt.Meets]
      trivial
    -- an end
    · refine advance_gives.bind fun _ _ => hrest _ ?_
      rw [Stmt.Meets]
      trivial
    -- a conditional
    · refine advance_gives.bind fun _ _ => ?_
      refine (branches_gives (expr_gives hE fuel) (many_gives endsBraces (stmt_gives hE fuel) fuel)
        fuel).bind fun p hp => lastSpan_gives.bind fun _ _ => hrest _ ?_
      rw [Stmt.Meets, Stmt.branchesMeet_iff]
      refine ⟨fun b hb => ⟨(hp.2.1 b hb).1, Stmt.allMeet_iff.mpr (hp.2.1 b hb).2⟩, ?_⟩
      cases hotherwise : p.2 with
      | none =>
        rw [Stmt.OtherwiseMeets]
        trivial
      | some b =>
        rw [Stmt.OtherwiseMeets]
        exact Stmt.allMeet_iff.mpr (hp.2.2 b hotherwise)
    -- a choice
    · refine advance_gives.bind fun _ _ => (expect_gives _ _).bind fun _ _ => ?_
      refine lineEnd_gives.bind fun _ _ => ?_
      refine (many_gives endsBraces (item_gives hE fuel) fuel).bind fun items hitems => ?_
      refine (expect_gives _ _).bind fun _ _ => hrest _ ?_
      rw [Stmt.Meets]
      exact ChoiceItem.allMeet_iff.mpr hitems
    -- hash data
    · refine advance_gives.bind fun _ _ => (hashBody_gives hE fuel _).bind fun b hb => hrest _ ?_
      rw [Stmt.Meets]
      exact hb
    -- hash data of a speaker
    · refine advance_gives.bind fun _ _ => ident_gives.bind fun x _ => ?_
      refine (expect_gives _ _).bind fun opener _ => (hashBody_gives hE fuel _).bind fun b hb => hrest _ ?_
      rw [Stmt.Meets]
      exact hb
    -- an option outside of a choice
    · exact .fail _
    -- a line
    · exact hline
    · exact hline
    · exact hline
    · exact hline
    -- anything else starts no statement
    · exact .fail _

/-- So does an item of a choice: what opens a filter is its first branch. -/
theorem item_gives (hE : Inherited P E) (fuel : Nat) :
    Gives P (item fuel) fun i => i.Meets E (0 < ·) := by
  match fuel with
  | 0 => exact .exhausted
  | fuel + 1 =>
    unfold item
    refine (accept_gives .star).bind fun o _ => ?_
    cases o with
    | some star =>
      refine (optionGuard_gives (expr_gives hE fuel)).bind fun guard hguard => ?_
      refine (segments_gives (expr_gives hE fuel) fuel (by simp)).bind fun p hp => ?_
      refine (optionTarget_gives p.2).bind fun q _ => ?_
      refine (optionBody_gives (many_gives endsBraces (stmt_gives hE fuel) fuel) q.2).bind
        fun body hbody => ?_
      refine lastSpan_gives.bind fun _ _ => lineEnd_gives.bind fun _ _ => .pure ?_
      rw [ChoiceItem.Meets]
      refine ⟨hguard, trimText_meets hp, ?_⟩
      cases body with
      | none =>
        rw [Stmt.OtherwiseMeets]
        trivial
      | some b =>
        rw [Stmt.OtherwiseMeets]
        exact Stmt.allMeet_iff.mpr (hbody b rfl)
    | none =>
      refine (accept_gives .ifWord).bind fun o _ => ?_
      cases o with
      | some word =>
        refine (branches_gives (expr_gives hE fuel) (many_gives endsBraces (item_gives hE fuel) fuel)
          fuel).bind fun p hp => lastSpan_gives.bind fun _ _ => lineEnd_gives.bind fun _ _ => .pure ?_
        rw [ChoiceItem.Meets, ChoiceItem.branchesMeet_iff]
        refine ⟨hp.1, fun b hb => ⟨(hp.2.1 b hb).1, ChoiceItem.allMeet_iff.mpr (hp.2.1 b hb).2⟩, ?_⟩
        cases hotherwise : p.2 with
        | none =>
          rw [ChoiceItem.OtherwiseMeets]
          trivial
        | some b =>
          rw [ChoiceItem.OtherwiseMeets]
          exact ChoiceItem.allMeet_iff.mpr (hp.2.2 b hotherwise)
      | none => exact peek_gives.bind fun t _ => .fail _

end

/-! ## Sections -/

theorem sectionBody_gives (hE : Inherited P E) (fuel : Nat) :
    Gives P (sectionBody fuel) fun b => Stmt.AllMeet E (0 < ·) b :=
  (many_gives endsSection (stmt_gives hE fuel) fuel).mono fun _ h => Stmt.allMeet_iff.mpr h

/-- The header of a section brings no expression. -/
theorem headerFrom_gives (marker : Span) : Gives P (headerFrom marker) fun _ => True := by
  have hheader : Gives P header fun _ => True :=
    sectionName_gives.bind fun _ _ => (accept_gives .sectionMarker).bind fun _ _ =>
      lineEnd_gives.bind fun _ _ => .pure trivial
  exact hheader.bind fun _ _ => lastSpan_gives.bind fun _ _ => .pure trivial

/-- A section holds what its statements hold. -/
theorem sectionPart_gives (hE : Inherited P E) (fuel : Nat) :
    Gives P (sectionPart fuel) fun o => ∀ s, o = some s → Stmt.AllMeet E (0 < ·) s.body := by
  refine advance_gives.bind fun _ _ => lastSpan_gives.bind fun marker _ => ?_
  refine (recover_gives (headerFrom_gives marker)).bind fun o _ => ?_
  cases o with
  | some p =>
    refine (sectionBody_gives hE fuel).bind fun b hb => .pure ?_
    rintro _ ⟨⟩
    exact hb
  | none => exact (sectionBody_gives hE fuel).bind fun b hb => .pure (by simp)

/-- So do sections, with those that were read before. -/
theorem sections_gives (hE : Inherited P E) (implicit : Option String) (fuel bound : Nat)
    {acc : List Section} (hacc : ∀ s ∈ acc, Stmt.AllMeet E (0 < ·) s.body) :
    Gives P (sections implicit fuel bound acc) (Story.Meets E (0 < ·)) := by
  induction bound generalizing acc with
  | zero => exact .exhausted
  | succ bound ih =>
    refine skipBreaks_gives.bind fun _ _ => peek_gives.bind fun t _ => ?_
    split
    · exact .pure hacc
    · split
      · refine (sectionPart_gives hE fuel).bind fun o ho => ih fun s hs => ?_
        rcases List.mem_append.mp hs with hs | hs
        · exact hacc s hs
        · exact ho s (Option.mem_toList.mp hs)
      · refine (sectionBody_gives hE fuel).bind fun b hb => ?_
        split
        · exact ih (by simpa using hb)
        · exact lastSpan_gives.bind fun _ _ => (report_gives _).bind fun _ _ => ih hacc

end Parse

/-- What passes from the parts of an expression to the whole holds of all expressions that are parsed from
tokens, and their filters have branches. -/
theorem parseTokens_inherits {P : Float → Prop} {E : Expr → Prop} (hE : Parse.Inherited P E)
    (implicit : Option String) {tokens : List Token} (htokens : ∀ t ∈ tokens, t.lexeme.Floats P) :
    (parseTokens implicit tokens).1.Meets E (0 < ·) := by
  have hnil : ∀ s ∈ ([] : List Section), Stmt.AllMeet E (0 < ·) s.body := by simp
  have hgives := Parse.sections_gives hE implicit tokens.length tokens.length hnil (.start tokens) htokens
  unfold parseTokens
  simp only
  generalize Parse.sections implicit _ _ [] _ = x at hgives ⊢
  cases hgives with
  | ok hstory _ => exact hstory
  | @error e _ _ => cases e <;> exact fun x hx => by cases hx

/-- What passes from the parts of an expression to the whole holds of all expressions of a parsed source,
and its filters have branches. -/
theorem parse_inherits {E : Expr → Prop} (hE : Parse.Inherited Number.Unsigned E)
    (implicit : Option String) (source : String) : (parse implicit source).1.Meets E (0 < ·) :=
  parseTokens_inherits hE implicit (tokensOf_scan_floats source)

/-- The floats of a parsed source are not negative zero. -/
theorem parse_meets (implicit : Option String) (source : String) :
    (parse implicit source).1.Meets (Expr.Floats Number.Unsigned) (0 < ·) :=
  parse_inherits (.floats _) implicit source

end Colloquy
