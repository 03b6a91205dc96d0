import Colloquy.Parser.Story
import Colloquy.Proofs.Diagnostic.Stays

/-!
# Where a parsed story and its parse errors stand

The parsers of lines, statements and sections stay among the spans of their tokens, so a story that is
parsed from tokens, and all that is reported on the way, starts and stops where tokens do
(`parseTokens_on`).
-/

namespace Colloquy

namespace Parse

variable {α : Type} {P : Nat → Prop} {expr : Parse Expr}

/-! ## Parts of lines -/

/-- Of text, and of the brace behind it that opens a block. -/
structure TextOn (P : Nat → Prop) (p : List Segment × Option Span) : Prop where
  text : ∀ s ∈ p.1, s.On P
  block : ∀ s, p.2 = some s → s.On P

/-- The segments of a text start and stop where tokens do, with those that were read before. -/
theorem segments_on (h : Stays P expr (Expr.On P)) (fuel : Nat) {acc : List Segment}
    (hacc : ∀ s ∈ acc, s.On P) : Stays P (segments expr fuel acc) (TextOn P) := by
  induction fuel generalizing acc with
  | zero => exact .exhausted
  | succ fuel ih =>
    have hnext : ∀ x : Segment, x.On P → Stays P (segments expr fuel (acc ++ [x])) (TextOn P) := by
      refine fun x hx => ih fun s hs => ?_
      rcases List.mem_append.mp hs with hs | hs
      · exact hacc s hs
      · rwa [List.mem_singleton.mp hs]
    have htext : ∀ (t : Token) (x : Spanned String), t.span.On P → text? t = some x → x.span.On P := by
      intro t x ht hx
      unfold text? at hx
      split at hx <;> cases hx
      exact ht
    unfold segments
    refine (accept?_on htext).bind fun o ho => ?_
    cases o with
    | some t => exact hnext (.text t) (ho t rfl)
    | none =>
      refine (accept_on .openBrace).bind fun o ho => ?_
      cases o with
      | none => exact .pure ⟨hacc, by simp⟩
      | some opener =>
        refine peek_on.bind fun next _ => ?_
        split
        · exact .pure ⟨hacc, ho⟩
        · exact h.bind fun e he => (closeBrace_on (ho opener rfl)).bind fun _ _ => hnext (.placeholder e) he

/-- A segment that loses its blanks keeps its span. -/
theorem trimSegment_on {first last : Bool} {s s' : Segment} (h : s.On P)
    (hs : trimSegment first last s = some s') : s'.On P := by
  cases s with
  | text t =>
    obtain ⟨cs, hcs⟩ : ∃ cs : List Char, trimSegment first last (.text t) =
        if cs.isEmpty then none else some (.text ⟨String.ofList cs, t.span⟩) := ⟨_, rfl⟩
    rw [hcs] at hs
    split at hs <;> cases hs
    exact h
  | placeholder e =>
    cases hs
    exact h

/-- So do the segments behind the first one. -/
theorem trimRest_on {ss : List Segment} (h : ∀ s ∈ ss, s.On P) : ∀ s ∈ trimRest ss, s.On P := by
  induction ss with
  | nil => exact h
  | cons s ss ih =>
    rw [List.forall_mem_cons] at h
    intro s' hs'
    cases ss with
    | nil => exact trimSegment_on h.1 (Option.mem_toList.mp hs')
    | cons _ _ =>
      rcases List.mem_append.mp hs' with hs' | hs'
      · exact trimSegment_on h.1 (Option.mem_toList.mp hs')
      · exact ih h.2 s' hs'

/-- So do all segments of a text. -/
theorem trimText_on {ss : List Segment} (h : ∀ s ∈ ss, s.On P) : ∀ s ∈ trimText ss, s.On P := by
  intro s' hs'
  unfold trimText at hs'
  split at hs'
  · cases hs'
  · exact trimSegment_on (h _ (List.mem_cons_self ..)) (Option.mem_toList.mp hs')
  · rcases List.mem_append.mp hs' with hs' | hs'
    · exact trimSegment_on (h _ (List.mem_cons_self ..)) (Option.mem_toList.mp hs')
    · exact trimRest_on (fun s hs => h s (List.mem_cons_of_mem _ hs)) s' hs'

/-- A key stands where its token does. -/
theorem hashKey_on : Stays P hashKey fun x => x.span.On P := by
  refine (accept?_on (Q := fun x : Ident => x.span.On P) fun t x ht hx => ?_).bind fun o ho => ?_
  · unfold stringKey? at hx
    split at hx <;> cases hx
    exact ht
  · cases o with
    | some x => exact .pure (ho x rfl)
    | none => exact ident_on

/-- The values of a key stand where their tokens do. -/
theorem hashValues_on (h : Stays P expr (Expr.On P)) (fuel : Nat) :
    Stays P (hashValues expr fuel) fun es => ∀ e ∈ es, e.On P := by
  induction fuel with
  | zero => exact .exhausted
  | succ fuel ih =>
    refine h.bind fun e he => peek_on.bind fun t _ => ?_
    split
    · exact .pure (by simpa using he)
    · exact ih.bind fun es hes => .pure (List.forall_mem_cons.mpr ⟨he, hes⟩)

/-- So do keys with their values. -/
theorem hashEntries_on (fuel : Nat) (h : Stays P expr (Expr.On P)) (bound : Nat) :
    Stays P (hashEntries fuel expr bound) fun es => ∀ e ∈ es, e.On P := by
  induction bound with
  | zero => exact .exhausted
  | succ bound ih =>
    unfold hashEntries
    refine hashKey_on.bind fun key hkey => (accept_on .colon).bind fun o _ => ?_
    cases o
    case' some => refine (hashValues_on h fuel).bind fun values hvalues => ?_
    case' none => have hvalues : ∀ v ∈ ([] : List Expr), v.On P := by simp
    -- with values or without, a comma leads to the next key
    all_goals
      refine (accept_on .comma).bind fun o _ => ?_
      cases o with
      | none => exact .pure (List.forall_mem_singleton.mpr ⟨hkey, hvalues⟩)
      | some _ => exact ih.bind fun es hes => .pure (List.forall_mem_cons.mpr ⟨⟨hkey, hvalues⟩, hes⟩)

/-- Hash data start with their opener and stop with their closing brace. -/
theorem hashBody_on (fuel : Nat) {opener : Span} (h : opener.On P) :
    Stays P (hashBody fuel opener) (HashBlock.On P) := by
  have hrest : ∀ entries : List HashEntry, (∀ e ∈ entries, e.On P) → Stays P (do
      let close ← closeBrace opener
      return (⟨entries, opener.cover close⟩ : HashBlock)) (HashBlock.On P) :=
    fun entries hentries => (closeBrace_on h).bind fun close hclose => .pure ⟨hentries, h.cover hclose⟩
  refine peek_on.bind fun t _ => ?_
  split
  · exact hrest [] (by simp)
  · exact (hashEntries_on fuel (expr_on fuel) fuel).bind fun entries hentries => hrest entries hentries

/-- What a directive holds stands where its tokens do. -/
theorem directive_on (fuel : Nat) : Stays P (directive fuel) fun d => d.val.On P := by
  unfold directive
  refine peek_on.bind fun t ht => ?_
  split
  · exact advance_on.bind fun _ _ => sectionName_on.bind fun _ hx => .pure hx
  · have hrest : ∀ d : Directive, d.On P → Stays P (do
        return (⟨d, t.span.cover (← lastSpan)⟩ : Spanned Directive)) fun d => d.val.On P :=
      fun d hd => lastSpan_on.bind fun _ _ => .pure hd
    refine advance_on.bind fun _ _ => ?_
    split
    · exact hrest .auto trivial
    · exact (expr_on fuel).bind fun e he => hrest (.speed e) he
    · exact (expr_on fuel).bind fun e he => hrest (.pause e) he
    · exact .fail ht
  · exact .fail ht

/-- So does what directives hold, one behind another. -/
theorem directives_on (fuel bound : Nat) :
    Stays P (directives fuel bound) fun ds => ∀ d ∈ ds, d.val.On P := by
  induction bound with
  | zero => exact .exhausted
  | succ bound ih =>
    refine (directive_on fuel).bind fun d hd => (accept_on .comma).bind fun o _ => ?_
    cases o with
    | none => exact .pure (by simpa using hd)
    | some _ => exact ih.bind fun ds hds => .pure (List.forall_mem_cons.mpr ⟨hd, hds⟩)

/-! ## Lines -/

/-- Of one step of the opening of a line. -/
def Opener.On (P : Nat → Prop) : Opener → Prop
  | .speaker s => s.ident.span.On P
  | .placeholder e => e.On P
  | .nothing => True

/-- What a line opens with stands where its tokens do. -/
theorem opener_on (h : Stays P expr (Expr.On P)) (isFirst : Bool) :
    Stays P (opener expr isFirst) (Opener.On P) := by
  unfold opener
  refine peek_on.bind fun t ht => ?_
  split
  · exact advance_on.bind fun _ _ => .pure ht
  · refine advance_on.bind fun _ _ => h.bind fun e he => (closeBrace_on ht).bind fun _ _ => ?_
    refine peek_on.bind fun next hnext => ?_
    split
    · exact .pure he.span
    · split
      · exact .pure he
      · exact .fail hnext
  · exact .pure trivial

/-- Of the opening of a line. -/
structure Opening.On (P : Nat → Prop) (o : Opening) : Prop where
  speakers : ∀ s ∈ o.speakers, s.ident.span.On P
  text : ∀ s ∈ o.text, s.On P

/-- So do the speakers of a line, with those that were read before. -/
theorem opening_on (h : Stays P expr (Expr.On P)) (fuel : Nat) {acc : List SpeakerRef}
    (hacc : ∀ s ∈ acc, s.ident.span.On P) : Stays P (opening expr fuel acc) (Opening.On P) := by
  induction fuel generalizing acc with
  | zero => exact .exhausted
  | succ fuel ih =>
    refine (opener_on h _).bind fun o ho => ?_
    cases o with
    | nothing => exact .pure ⟨hacc, by simp⟩
    | placeholder e => exact .pure ⟨by simp, List.forall_mem_singleton.mpr ho⟩
    | speaker s =>
      have hspeakers : ∀ x ∈ acc ++ [s], x.ident.span.On P := by
        intro x hx
        rcases List.mem_append.mp hx with hx | hx
        · exact hacc x hx
        · rwa [List.mem_singleton.mp hx]
      refine (accept_on .comma).bind fun o _ => ?_
      cases o with
      | none => exact .pure ⟨hspeakers, by simp⟩
      | some _ => exact ih hspeakers

/-- Of what follows the text of a line. -/
structure Trailer.On (P : Nat → Prop) (t : Trailer) : Prop where
  directives : ∀ d ∈ t.directives, d.val.On P
  hash : ∀ h, t.hash = some h → h.On P

/-- Hash data that are joined cover the spans of both. -/
theorem joinHash_on {g : Option HashBlock} {h : HashBlock} (hg : ∀ b, g = some b → b.On P)
    (hh : h.On P) : (joinHash g h).On P := by
  cases g with
  | none => exact hh
  | some b =>
    have hb := hg b rfl
    refine ⟨fun e he => ?_, hb.span.cover hh.span⟩
    exact (List.mem_append.mp he).elim (hb.entries e) (hh.entries e)

/-- What stands behind the text of a line stands where its tokens do, with what was read before. -/
theorem trailer_on (fuel bound : Nat) {acc : Trailer} (hacc : acc.On P) :
    Stays P (trailer fuel bound acc) (Trailer.On P) := by
  induction bound generalizing acc with
  | zero => exact .exhausted
  | succ bound ih =>
    unfold trailer
    refine (accept_on .directiveOpen).bind fun o ho => ?_
    cases o with
    | some opener =>
      have herror : ∀ t : Token, t.span.On P → ParseError.On P
          (.unexpectedToken t.lexeme.kind (.mark .directiveClose) (opener.cover t.span)) :=
        fun t ht => (ho opener rfl).cover ht
      refine (directives_on fuel fuel).bind fun ds hds => (expect_on _ herror).bind fun _ _ => ih ?_
      refine ⟨fun d hd => ?_, hacc.hash⟩
      exact (List.mem_append.mp hd).elim (hacc.directives d) (hds d)
    | none =>
      refine (accept_on .hashOpen).bind fun o ho => ?_
      cases o with
      | some opener =>
        refine (hashBody_on fuel (ho opener rfl)).bind fun b hb => ih ⟨hacc.directives, ?_⟩
        rintro _ ⟨⟩
        exact joinHash_on hacc.hash hb
      | none =>
        refine (accept_on .arrow).bind fun o _ => ?_
        cases o with
        | none => exact .pure hacc
        | some arrow =>
          refine sectionName_on.bind fun target htarget => ih ⟨fun d hd => ?_, hacc.hash⟩
          rcases List.mem_append.mp hd with hd | hd
          · exact hacc.directives d hd
          · obtain rfl := List.mem_singleton.mp hd
            exact htarget

/-- A line starts and stops where tokens do. -/
theorem line_on (fuel : Nat) : Stays P (line fuel) (Line.On P) := by
  have hnone : (⟨[], none⟩ : Trailer).On P := ⟨by simp, by simp⟩
  unfold line
  refine peek_on.bind fun t ht => ?_
  refine (opening_on (expr_on fuel) fuel (by simp)).bind fun opened h => ?_
  split
  on_goal 1 => split
  on_goal 1 => refine (accept_on .colon).bind fun _ _ => ?_
  on_goal 2 => refine (require_on .colon).bind fun _ _ => ?_
  -- behind their openings all lines are read alike
  all_goals
    refine (segments_on (expr_on fuel) fuel h.text).bind fun p hp => ?_
    obtain ⟨text, block⟩ := p
    cases block with
    | some opener => exact peek_on.bind fun _ _ => .fail (hp.block opener rfl)
    | none =>
      refine (trailer_on fuel fuel hnone).bind fun t' ht' => lastSpan_on.bind fun last hlast => ?_
      exact .pure ⟨h.speakers, trimText_on hp.text, ht'.directives, ht'.hash, ht.cover hlast⟩

/-! ## Statements and items -/

/-- All parts are as each of them is read. -/
theorem many_on (stop : Token → Bool) {p : Parse α} {Q : α → Prop} (h : Stays P p Q) (fuel : Nat) :
    Stays P (many stop p fuel) fun as => ∀ a ∈ as, Q a := by
  induction fuel with
  | zero => exact .exhausted
  | succ fuel ih =>
    refine skipBreaks_on.bind fun _ _ => peek_on.bind fun t _ => ?_
    split
    · exact .pure (by simp)
    · refine (recover_on h).bind fun o ho => ih.bind fun as has => .pure fun a ha => ?_
      rcases List.mem_append.mp ha with ha | ha
      · exact ho a (Option.mem_toList.mp ha)
      · exact has a ha

theorem braces_on {p : Parse α} {Q : α → Prop} (h : Stays P p Q) : Stays P (braces p) Q := by
  refine (require_on .openBrace).bind fun opener hopener => lineEnd_on.bind fun _ _ => ?_
  exact h.bind fun a ha => (closeBrace_on hopener).bind fun _ _ => .pure ha

/-- Of the branches of a conditional or a filter. -/
structure BranchesOn (P : Nat → Prop) (Q : α → Prop) (p : List (Expr × α) × Option α) : Prop where
  conditions : ∀ b ∈ p.1, b.1.On P
  bodies : ∀ b ∈ p.1, Q b.2
  otherwise : ∀ a, p.2 = some a → Q a

/-- The branches of an if stand where their tokens do, their parts as each of them is read. -/
theorem branches_on {body : Parse α} {Q : α → Prop} (hexpr : Stays P expr (Expr.On P))
    (hbody : Stays P body Q) (fuel : Nat) : Stays P (branches expr body fuel) (BranchesOn P Q) := by
  unfold branches
  refine hexpr.bind fun e he => (braces_on hbody).bind fun a ha => (accept_on .elseWord).bind fun o _ => ?_
  cases o with
  | none => exact .pure ⟨by simpa using he, by simpa using ha, by simp⟩
  | some _ =>
    refine (accept_on .ifWord).bind fun o _ => ?_
    cases o with
    | none =>
      exact (braces_on hbody).bind fun b hb => .pure ⟨by simpa using he, by simpa using ha, by simpa using hb⟩
    | some _ =>
      cases fuel with
      | zero => exact .exhausted
      | succ fuel =>
        refine (branches_on hexpr hbody fuel).bind fun p hp => .pure ⟨?_, ?_, hp.otherwise⟩
        · exact List.forall_mem_cons.mpr ⟨he, hp.conditions⟩
        · exact List.forall_mem_cons.mpr ⟨ha, hp.bodies⟩

/-- The guard of an option stands where its tokens do. -/
theorem optionGuard_on (h : Stays P expr (Expr.On P)) :
    Stays P (optionGuard expr) fun g => ∀ e, g = some e → e.On P := by
  refine (accept_on .openBracket).bind fun o _ => ?_
  cases o with
  | none => exact .pure (by simp)
  | some _ => exact h.bind fun e he => (require_on .closeBracket).bind fun _ _ => .pure (by simpa using he)

/-- Of the target of an option and the brace that opens its body. -/
structure TargetOn (P : Nat → Prop) (p : Option Ident × Option Span) : Prop where
  target : ∀ x, p.1 = some x → x.span.On P
  block : ∀ s, p.2 = some s → s.On P

/-- The target of an option stands where its token does, and so does the brace that opens its block. -/
theorem optionTarget_on {block : Option Span} (h : ∀ s, block = some s → s.On P) :
    Stays P (optionTarget block) (TargetOn P) := by
  cases block with
  | some opener => exact .pure ⟨by simp, h⟩
  | none =>
    refine (accept_on .arrow).bind fun o _ => ?_
    cases o with
    | none => exact .pure ⟨by simp, by simp⟩
    | some _ =>
      refine sectionName_on.bind fun x hx => (accept_on .openBrace).bind fun o ho => ?_
      exact .pure ⟨by simpa using hx, ho⟩

/-- The block of an option is as its parts are read. -/
theorem optionBody_on {body : Parse α} {Q : α → Prop} (h : Stays P body Q) {block : Option Span}
    (hblock : ∀ s, block = some s → s.On P) :
    Stays P (optionBody body block) fun o => ∀ a, o = some a → Q a := by
  cases block with
  | none => exact .pure (by simp)
  | some opener =>
    refine lineEnd_on.bind fun _ _ => h.bind fun a ha => ?_
    exact (closeBrace_on (hblock opener rfl)).bind fun _ _ => .pure (by simpa using ha)

mutual

/-- A statement starts and stops where tokens do, by induction on the steps it is given. -/
theorem stmt_on (fuel : Nat) : Stays P (stmt fuel) (Stmt.On P) := by
  cases fuel with
  | zero => exact .exhausted
  | succ fuel =>
    have hrest : ∀ x : Stmt, x.On P → Stays P (do
        lineEnd
        return x) (Stmt.On P) := fun x hx => lineEnd_on.bind fun _ _ => .pure hx
    have hline : Stays P (do
        let l ← line (fuel + 1)
        lineEnd
        return Stmt.line l) (Stmt.On P) := (line_on (fuel + 1)).bind fun l hl => hrest _ (.line hl)
    unfold stmt
    refine peek_on.bind fun t ht => ?_
    split
    · exact advance_on.bind fun _ _ => (instruction_on fuel).bind fun e he => hrest _ (.instruction he)
    · exact advance_on.bind fun _ _ => sectionName_on.bind fun x hx => hrest _ (.goto hx)
    · exact advance_on.bind fun _ _ => sectionName_on.bind fun x hx => hrest _ (.goto hx)
    · exact advance_on.bind fun _ _ => hrest _ (.finish ht)
    · refine advance_on.bind fun _ _ => (branches_on (expr_on fuel)
        (many_on endsBraces (stmt_on fuel) fuel) fuel).bind fun p hp => ?_
      refine lastSpan_on.bind fun last hlast => hrest _ ?_
      exact .conditional hp.conditions hp.bodies hp.otherwise (ht.cover hlast)
    · refine advance_on.bind fun _ _ => (require_on .openBrace).bind fun opener hopener => ?_
      refine lineEnd_on.bind fun _ _ => ?_
      refine (many_on endsBraces (item_on fuel) fuel).bind fun items hitems => ?_
      exact (closeBrace_on hopener).bind fun close hclose => hrest _ (.choice hitems (ht.cover hclose))
    · exact advance_on.bind fun _ _ => (hashBody_on fuel ht).bind fun b hb => hrest _ (.hash hb)
    · refine advance_on.bind fun _ _ => ident_on.bind fun x _ => ?_
      refine (require_on .hashOpen).bind fun opener hopener => (hashBody_on fuel hopener).bind fun b hb => ?_
      exact hrest _ (.speaker hb (ht.cover hb.span))
    · exact .fail ht
    · exact hline
    · exact hline
    · exact hline
    · exact hline
    · exact .fail ht

/-- So does an item of a choice. -/
theorem item_on (fuel : Nat) : Stays P (item fuel) (ChoiceItem.On P) := by
  cases fuel with
  | zero => exact .exhausted
  | succ fuel =>
    unfold item
    refine (accept_on .star).bind fun o _ => ?_
    cases o with
    | some star =>
      refine (optionGuard_on (expr_on fuel)).bind fun guard hguard => ?_
      refine (segments_on (expr_on fuel) fuel (by simp)).bind fun p hp => ?_
      refine (optionTarget_on hp.block).bind fun q hq => ?_
      refine (optionBody_on (many_on endsBraces (stmt_on fuel) fuel) hq.block).bind fun body hbody => ?_
      refine lastSpan_on.bind fun _ _ => lineEnd_on.bind fun _ _ => .pure ?_
      exact .option hguard (trimText_on hp.text) hq.target hbody
    | none =>
      refine (accept_on .ifWord).bind fun o _ => ?_
      cases o with
      | some word =>
        refine (branches_on (expr_on fuel) (many_on endsBraces (item_on fuel) fuel) fuel).bind fun p hp => ?_
        refine lastSpan_on.bind fun _ _ => lineEnd_on.bind fun _ _ => .pure ?_
        exact .filter hp.conditions hp.bodies hp.otherwise
      | none => exact peek_on.bind fun t ht => .fail ht

end

/-! ## Sections -/

theorem sectionBody_on (fuel : Nat) : Stays P (sectionBody fuel) fun b => ∀ x ∈ b, x.On P :=
  many_on endsSection (stmt_on fuel) fuel

/-- The name of a section stands where its token does. -/
theorem headerFrom_on (marker : Span) : Stays P (headerFrom marker) fun p => p.1.span.On P := by
  have hheader : Stays P header fun x => x.span.On P :=
    sectionName_on.bind fun _ hx => (accept_on .sectionMarker).bind fun _ _ =>
      lineEnd_on.bind fun _ _ => .pure hx
  exact hheader.bind fun _ hx => lastSpan_on.bind fun _ _ => .pure hx

/-- So does a section with its statements. -/
theorem sectionPart_on (fuel : Nat) :
    Stays P (sectionPart fuel) fun o => ∀ s, o = some s → s.On P := by
  refine advance_on.bind fun _ _ => lastSpan_on.bind fun marker _ => ?_
  refine (recover_on (headerFrom_on marker)).bind fun o ho => ?_
  cases o with
  | some p =>
    refine (sectionBody_on fuel).bind fun b hb => .pure ?_
    rintro _ ⟨⟩
    exact ⟨ho p rfl, hb⟩
  | none => exact (sectionBody_on fuel).bind fun b hb => .pure (by simp)

/-- So do sections, with those that were read before. -/
theorem sections_on (implicit : Option String) (fuel bound : Nat) {acc : List Section}
    (hacc : ∀ s ∈ acc, s.On P) : Stays P (sections implicit fuel bound acc) (Story.On P) := by
  induction bound generalizing acc with
  | zero => exact .exhausted
  | succ bound ih =>
    refine skipBreaks_on.bind fun _ _ => peek_on.bind fun t ht => ?_
    split
    · exact .pure hacc
    · split
      · refine (sectionPart_on fuel).bind fun o ho => ih fun s hs => ?_
        rcases List.mem_append.mp hs with hs | hs
        · exact hacc s hs
        · exact ho s (Option.mem_toList.mp hs)
      · refine (sectionBody_on fuel).bind fun b hb => ?_
        split
        · exact ih (List.forall_mem_singleton.mpr ⟨ht, hb⟩)
        · refine lastSpan_on.bind fun last hlast => ?_
          have herror : ParseError.On P (.statementOutsideSection (t.span.cover last)) := ht.cover hlast
          exact (report_on herror).bind fun _ _ => ih hacc

end Parse

/-- A story and its errors start and stop where the tokens do that they are parsed from. -/
theorem parseTokens_on {P : Nat → Prop} (hzero : P 0) (implicit : Option String) {tokens : List Token}
    (htokens : ∀ t ∈ tokens, t.span.On P) :
    (parseTokens implicit tokens).1.On P ∧ ∀ e ∈ (parseTokens implicit tokens).2, e.On P := by
  have hstart : (Cursor.start tokens).On P := ⟨htokens, ⟨hzero, hzero⟩, by simp [Cursor.start]⟩
  have hnil : Story.On P [] := fun s hs => absurd hs List.not_mem_nil
  have hstays := Parse.sections_on implicit tokens.length tokens.length hnil _ hstart
  unfold parseTokens
  simp only
  generalize Parse.sections implicit _ _ [] _ = x at hstays ⊢
  cases hstays with
  | ok hstory hc => exact ⟨hstory, hc.errors⟩
  | error he hc => exact ⟨hnil, (hc.report he).errors⟩
  | exhausted hc => exact ⟨hnil, hc.errors⟩

end Colloquy
