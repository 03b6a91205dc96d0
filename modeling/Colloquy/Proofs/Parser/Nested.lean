import Colloquy.Proofs.Diagnostic.Parsed
import Colloquy.Proofs.Diagnostic.Scanned
import Colloquy.Proofs.Parser.Abreast
import Colloquy.Proofs.Parser.Laid

/-!
# The spans of a parsed story nest

Lines, statements and sections are laid out in order as expressions are.  Their spans go from the first token to
the last one taken, so all that was made in between lies in them.  What a line has in front may be its first
token itself, so the parts of a line are bounded by where this one starts, which is not yet taken then (`Clear`).

Hence the statements of a parsed story lie in its source one behind the other, and the span of each of them, and
of everything in it, contains its parts in the order they are written in (`parse_nested`).
-/

namespace Colloquy

namespace Parse

variable {α : Type} {c c' : Cursor} {t : Token} {lo hi k : Nat} {expr : Parse Expr}

/-! ## Text -/

/-- What is left of segments when they are trimmed: some of them, where they were. -/
structure Trims (ss ss' : List Segment) : Prop where
  spans : (ss'.map Segment.span).Sublist (ss.map Segment.span)
  nested : (∀ s ∈ ss, s.Nested) → ∀ s ∈ ss', s.Nested

/-- Texts that are trimmed one behind the other are trimmed. -/
theorem Trims.append {ss ss' ts ts' : List Segment} (h : Trims ss ss') (h' : Trims ts ts') :
    Trims (ss ++ ts) (ss' ++ ts') := by
  constructor
  · rw [List.map_append, List.map_append]
    exact h.spans.append h'.spans
  · intro hboth s hs
    rw [List.forall_mem_append] at hboth
    exact (List.mem_append.mp hs).elim (h.nested hboth.1 s) (h'.nested hboth.2 s)

/-- A segment loses its blanks, or is left out, and else stays what it is. -/
theorem trimSegment_trims (first last : Bool) (s : Segment) : Trims [s] (trimSegment first last s).toList := by
  cases s with
  | text t =>
    obtain ⟨cs, hcs⟩ : ∃ cs : List Char, trimSegment first last (.text t) =
        if cs.isEmpty then none else some (.text ⟨String.ofList cs, t.span⟩) := ⟨_, rfl⟩
    rw [hcs]
    split
    · exact ⟨List.nil_sublist _, by simp⟩
    · exact ⟨List.Sublist.refl _, fun _ => by simp [Segment.Nested]⟩
  | placeholder e => exact ⟨List.Sublist.refl _, id⟩

/-- So do the segments behind the first one. -/
theorem trimRest_trims (ss : List Segment) : Trims ss (trimRest ss) := by
  induction ss with
  | nil => exact ⟨List.Sublist.refl _, id⟩
  | cons s ss ih =>
    cases ss with
    | nil => exact trimSegment_trims false true s
    | cons _ _ => exact (trimSegment_trims false false s).append ih

/-- So do all segments of a text. -/
theorem trimText_trims (ss : List Segment) : Trims ss (trimText ss) := by
  unfold trimText
  split
  · exact ⟨List.Sublist.refl _, id⟩
  · exact trimSegment_trims true true _
  · exact (trimSegment_trims true false _).append (trimRest_trims _)

/-- Text goes on behind what a line has in front of it. -/
theorem segments_lays (h : PlacesExpr expr) (fuel : Nat) {front : List Span} {acc : List Segment}
    (hc : c.Ordered) (hclear : c.Clear lo) (hacc : Lined lo c.here (front ++ acc.map Segment.span))
    (hnested : ∀ s ∈ acc, s.Nested) :
    Lays (segments expr fuel acc) c fun p c' => Lined lo c'.here (front ++ p.1.map Segment.span) ∧
      (∀ s ∈ p.1, s.Nested) ∧ ∀ t x, c.Before t → text? t = some x → c'.Past t.span := by
  induction fuel generalizing c acc with
  | zero => exact .exhausted hc
  | succ fuel ih =>
    -- one more stretch starts no earlier than `lo'`, behind what there is so far
    have hnext : ∀ (x : Segment) (lo' : Nat) (c₁ : Cursor), c.Onto c₁ → c.here ≤ lo' → lo ≤ lo' →
        lo' ≤ c₁.here → Lined lo' c₁.here [x.span] → x.Nested →
        Lays (segments expr fuel (acc ++ [x])) c₁ fun p c' => Lined lo c'.here (front ++ p.1.map Segment.span) ∧
          ∀ s ∈ p.1, s.Nested := by
      intro x lo' c₁ hon hk hlo hle hx hxn
      have hlined := hacc.append hx hk hlo hon.here
      refine (ih hon.ordered (hon.ordered.clear (Nat.le_trans hlo hle)) (by simpa using hlined) ?_).mono
        fun p c₂ _ hp => ⟨hp.1, hp.2.1⟩
      simpa [or_imp, forall_and] using ⟨hnested, hxn⟩
    rw [segments]
    refine .accept? hc (fun _ => rfl) (fun t x c₁ ht hx htakes => ?_) fun hnot => ?_
    · have hspan : x.span = t.span := by
        unfold text? at hx
        split at hx <;> cases hx
        rfl
      have hsingle : Lined t.span.start c₁.here [(Segment.text x).span] := by
        rw [Segment.span, hspan]
        exact htakes.single
      have hle := htakes.stop ▸ t.span.start_le_stop
      refine (hnext (.text x) _ c₁ htakes.onto htakes.start (hclear t ht) hle hsingle trivial).mono
        fun p c₂ hon hp => ⟨hp.1, hp.2, fun u y hu _ => ?_⟩
      cases Option.some.inj (ht.symm.trans hu)
      exact htakes.past.onto hon
    have hother : ∀ (c' : Cursor) (u : Token) (y : Spanned String), c.Before u → text? u = some y →
        c'.Past u.span := fun _ u y hu hy => by
      rw [hnot u hu] at hy
      cases hy
    refine .accept hc (by decide) (fun opener c₁ hopener => ?_) fun _ => .pure hc ⟨hacc, hnested, hother c⟩
    refine .peek hopener.onto.ordered fun next _ => ?_
    split
    -- a brace at the end of the line is no part of the text
    · exact .pure hopener.onto.ordered ⟨hacc.mono (Nat.le_refl _) hopener.onto.here, hnested, hother c₁⟩
    refine (h c₁ hopener.onto.ordered).bind fun e c₂ hon he => ?_
    refine (expect_lays hon.ordered (by decide) _).bind fun close c₃ hon' hclose => ?_
    have hlo : lo ≤ c₁.here := Nat.le_trans (hopener.clear hclear) (hopener.stop ▸ opener.start_le_stop)
    have hspan : Lined c₁.here c₃.here [(Segment.placeholder e).span] := he.lined.mono (Nat.le_refl _) hon'.here
    refine (hnext (.placeholder e) c₁.here c₃ ((hopener.onto.trans hon).trans hon') hopener.onto.here hlo
      (hon.trans hon').here hspan he.head).mono fun p c₄ _ hp => ⟨hp.1, hp.2, hother c₄⟩

/-! ## Hash data and directives -/

/-- A key is the token it was taken from. -/
theorem hashKey_lays (hc : c.Ordered) : Lays hashKey c fun x c' => c.Takes x.span c' := by
  refine .accept? hc (fun _ => rfl) (fun t x c₁ _ hx htakes => ?_) fun _ => ident_lays hc
  unfold stringKey? at hx
  split at hx <;> cases hx
  exact .pure htakes.onto.ordered htakes

/-- The values of a key lie one behind the other. -/
theorem hashValues_places (h : PlacesExpr expr) (fuel : Nat) :
    PlacesAll Expr.span Expr.Nested (hashValues expr fuel) := by
  induction fuel with
  | zero => exact fun c hc => .exhausted hc
  | succ fuel ih =>
    refine fun c hc => (h c hc).bind fun e c₁ hon he => .peek hon.ordered fun t _ => ?_
    split
    · exact .pure hon.ordered he
    · refine (ih c₁ hon.ordered).bind fun es c₂ hon' hes => .pure hon'.ordered ?_
      exact he.append hes (Nat.le_refl _) hon.here hon'.here

/-- Keys lie in a row with their values. -/
structure EntriesFit (lo hi : Nat) (es : List HashEntry) : Prop where
  lined : Lined lo hi (es.flatMap HashEntry.spans)
  values : ∀ e ∈ es, ∀ v ∈ e.values, v.Nested

/-- Keys that lie behind others lie with them in order. -/
theorem EntriesFit.append {es es' : List HashEntry} {k' : Nat} (h : EntriesFit lo k es)
    (h' : EntriesFit k' hi es') (hk : k ≤ k') (hlo : lo ≤ k') (hhi : k ≤ hi) :
    EntriesFit lo hi (es ++ es') := by
  refine ⟨?_, fun e he => (List.mem_append.mp he).elim (h.values e) (h'.values e)⟩
  rw [List.flatMap_append]
  exact h.lined.append h'.lined hk hlo hhi

/-- Keys lie one behind the other, each in front of its values. -/
theorem hashEntries_lays (fuel : Nat) (h : PlacesExpr expr) (bound : Nat) (hc : c.Ordered) :
    Lays (hashEntries fuel expr bound) c fun es c' => EntriesFit c.here c'.here es := by
  induction bound generalizing c with
  | zero => exact .exhausted hc
  | succ bound ih =>
    rw [hashEntries]
    refine (hashKey_lays hc).bind fun key c₁ _ hkey => ?_
    have hentry : ∀ (values : List Expr) (c₂ : Cursor), c₁.Onto c₂ → Exprs c₁.here c₂.here values →
        EntriesFit c.here c₂.here [⟨key, values⟩] := by
      refine fun values c₂ hon hvalues => ⟨?_, by simpa using hvalues.nested⟩
      simpa [HashEntry.spans] using hkey.lined.join hvalues.lined hkey.onto.here hon.here
    have hmore : ∀ (values : List Expr) (c₂ : Cursor), c₁.Onto c₂ → Exprs c₁.here c₂.here values →
        ∀ (comma : Span) (c₃ : Cursor), c₂.Takes comma c₃ → Lays (do
          return ⟨key, values⟩ :: (← hashEntries fuel expr bound)) c₃
            fun es c' => EntriesFit c.here c'.here es := by
      intro values c₂ hon hvalues comma c₃ hcomma
      refine (ih hcomma.onto.ordered).bind fun es c₄ hon' hes => .pure hon'.ordered ?_
      exact (hentry values c₂ hon hvalues).append hes hcomma.onto.here
        ((hkey.onto.trans hon).trans hcomma.onto).here (hcomma.onto.trans hon').here
    -- with values or without, a comma leads to the next key
    refine .accept hkey.onto.ordered (by decide) (fun colon c₂ hcolon => ?_) fun _ => ?_
    · refine (hashValues_places h fuel c₂ hcolon.onto.ordered).bind fun values c₃ hon hvalues => ?_
      have hon := hcolon.onto.trans hon
      have hvalues := hvalues.mono hcolon.onto.here (Nat.le_refl _)
      exact .accept hon.ordered (by decide) (hmore values c₃ hon hvalues)
        fun _ => .pure hon.ordered (hentry values c₃ hon hvalues)
    · have hon := Cursor.Onto.refl hkey.onto.ordered
      exact .accept hon.ordered (by decide) (hmore [] c₁ hon .nil)
        fun _ => .pure hon.ordered (hentry [] c₁ hon .nil)

/-- Hash data goes from its opening mark to the brace that closes it. -/
theorem hashBody_lays (fuel : Nat) {opener : Span} (hc : c.Ordered) (hpast : c.Past opener) :
    Lays (hashBody fuel opener) c fun h c' =>
      h.Nested ∧ h.span.start = opener.start ∧ h.span.stop = c'.here := by
  have hrest : ∀ (entries : List HashEntry) (c₁ : Cursor), c.Onto c₁ → EntriesFit c.here c₁.here entries →
      Lays (do
        let close ← closeBrace opener
        return (⟨entries, opener.cover close⟩ : HashBlock)) c₁ fun h c' =>
          h.Nested ∧ h.span.start = opener.start ∧ h.span.stop = c'.here := by
    intro entries c₁ hon hentries
    refine (expect_lays hon.ordered (by decide) _).bind fun close c₂ hon' hclose => .pure hon'.ordered ?_
    obtain ⟨hstart, hstop⟩ := ((hpast.onto hon).onto hon').cover
    rw [hclose.last] at hstart hstop
    have hle := Nat.le_trans opener.start_le_stop hpast.stop
    refine ⟨⟨?_, hentries.values⟩, hstart, hstop⟩
    rw [Span.Row, hstart, hstop]
    exact hentries.lined.mono hle hon'.here
  refine .peek hc fun t _ => ?_
  split
  · exact hrest [] c (.refl hc) ⟨.nil, by simp⟩
  · exact (hashEntries_lays fuel (expr_places fuel) fuel hc).bind fun entries c₁ hon h => hrest entries c₁ hon h

/-- Directives lie in a row. -/
abbrev Directives (lo hi : Nat) (ds : List (Spanned Directive)) : Prop :=
  Fits Spanned.span (fun d => d.val.Nested d.span) lo hi ds

/-- A target goes from the token in front of its name to the name. -/
theorem goto_fits {s : Span} {x : Ident} {c'' : Cursor} (h : c.Takes s c') (hx : c'.Takes x.span c'') :
    Directives c.here c''.here [⟨.goto x, s.cover x.span⟩] := by
  have hcover := h.coverLast hx.onto hx.lined
  rw [hx.last] at hcover
  exact .single hcover.2 hcover.1

/-- A directive lies where its tokens do, with its section or its number inside. -/
theorem directive_places (fuel : Nat) :
    Places Spanned.span (fun d => d.val.Nested d.span) (directive fuel) := by
  intro c hc
  unfold directive
  refine .peek hc fun t ht => ?_
  split
  · next heq =>
    refine .advance hc ht (by simp [Token.is, heq]) fun c₁ htakes => ?_
    refine (sectionName_lays htakes.onto.ordered).bind fun x c₂ _ hx => .pure hx.onto.ordered ?_
    exact goto_fits htakes hx
  · next name heq =>
    refine .advance hc ht (by simp [Token.is, heq]) fun c₁ htakes => ?_
    have hrest : ∀ (d : Directive) (c₂ : Cursor), c₁.Onto c₂ → d.Nested (t.span.cover c₂.last.span) → Lays (do
        return (⟨d, t.span.cover (← lastSpan)⟩ : Spanned Directive)) c₂
          fun d c' => Directives c.here c'.here [d] :=
      fun d c₂ hon hd => .lastSpan (.pure hon.ordered (.single (htakes.coverLast hon .nil).2 hd))
    split
    · exact hrest .auto c₁ (.refl htakes.onto.ordered) trivial
    · refine (expr_places fuel c₁ htakes.onto.ordered).bind fun e c₂ hon he => ?_
      exact hrest (.speed e) c₂ hon ⟨(htakes.coverLast hon he.lined).1, he.head⟩
    · refine (expr_places fuel c₁ htakes.onto.ordered).bind fun e c₂ hon he => ?_
      exact hrest (.pause e) c₂ hon ⟨(htakes.coverLast hon he.lined).1, he.head⟩
    · exact .fail htakes.onto.ordered
  · exact .fail hc

/-- Directives lie one behind the other. -/
theorem directives_places (fuel bound : Nat) :
    PlacesAll Spanned.span (fun d => d.val.Nested d.span) (directives fuel bound) := by
  induction bound with
  | zero => exact fun c hc => .exhausted hc
  | succ bound ih =>
    refine fun c hc => (directive_places fuel c hc).bind fun d c₁ hon hd => ?_
    refine .accept hon.ordered (by decide) (fun comma c₂ hcomma => ?_) fun _ => .pure hon.ordered hd
    refine (ih c₂ hcomma.onto.ordered).bind fun ds c₃ hon' hds => .pure hon'.ordered ?_
    exact hd.append hds hcomma.onto.here (hon.trans hcomma.onto).here (hcomma.onto.trans hon').here

/-- Directives lie in a row, and so does what was joined of hash data. -/
structure TrailerFits (lo hi : Nat) (t : Trailer) : Prop where
  directives : Directives lo hi t.directives
  hash : ∀ h, t.hash = some h → Lined lo hi [h.span] ∧ h.Nested

/-- Hash data that is joined covers all that lies between. -/
theorem joinHash_nested {g : Option HashBlock} {h : HashBlock}
    (hg : ∀ b, g = some b → Lined lo k [b.span] ∧ b.Nested) (hh : Lined k hi [h.span]) (hnested : h.Nested)
    (hlo : lo ≤ k) : Lined lo hi [(joinHash g h).span] ∧ (joinHash g h).Nested := by
  cases g with
  | none => exact ⟨hh.mono hlo (Nat.le_refl _), hnested⟩
  | some b =>
    obtain ⟨hb, hbnested⟩ := hg b rfl
    have hbefore := hb.inside b.span (List.mem_singleton_self _)
    have hbehind := hh.inside h.span (List.mem_singleton_self _)
    have hbspan := b.span.start_le_stop
    have hhspan := h.span.start_le_stop
    obtain ⟨hstart, hstop⟩ := Span.cover_of_le (s := b.span) (t := h.span) (by omega) (by omega)
    refine ⟨.single ?_ ?_, ?_, ?_⟩
    · exact hbefore.1.trans_eq hstart.symm
    · exact hstop.trans_le hbehind.2
    · show Lined (b.span.cover h.span).start (b.span.cover h.span).stop _
      rw [hstart, hstop]
      show Lined _ _ ((b.entries ++ h.entries).flatMap HashEntry.spans)
      rw [List.flatMap_append]
      exact hbnested.row.append hnested.row (by omega) (by omega) (by omega)
    · intro e he
      exact (List.mem_append.mp he).elim (hbnested.values e) (hnested.values e)

/-- What stands behind the text of a line lies there in the order it was read in, behind what was read
before. -/
theorem trailer_lays (fuel bound : Nat) {acc : Trailer} (hc : c.Ordered) (hlo : lo ≤ c.here)
    (hacc : TrailerFits lo c.here acc) :
    Lays (trailer fuel bound acc) c fun t c' => TrailerFits lo c'.here t := by
  induction bound generalizing c acc with
  | zero => exact .exhausted hc
  | succ bound ih =>
    -- directives leave the hash data as it is, which may stand on either side of them
    have hhash : ∀ c₁ : Cursor, c.Onto c₁ → ∀ h, acc.hash = some h → Lined lo c₁.here [h.span] ∧ h.Nested :=
      fun c₁ hon h hh => ⟨(hacc.hash h hh).1.mono (Nat.le_refl _) hon.here, (hacc.hash h hh).2⟩
    rw [trailer]
    refine .accept hc (by decide) (fun opener c₁ hopener => ?_) fun _ => ?_
    · refine (directives_places fuel fuel c₁ hopener.onto.ordered).bind fun ds c₂ hon hds => ?_
      refine (expect_lays hon.ordered (by decide) _).bind fun close c₃ hon' _ => ?_
      have hall := (hopener.onto.trans hon).trans hon'
      refine ih hon'.ordered (Nat.le_trans hlo hall.here) ⟨?_, hhash c₃ hall⟩
      exact hacc.directives.append (hds.mono (Nat.le_refl _) hon'.here) hopener.onto.here
        (Nat.le_trans hlo hopener.onto.here) hall.here
    refine .accept hc (by decide) (fun opener c₁ hopener => ?_) fun _ => ?_
    · refine (hashBody_lays fuel hopener.onto.ordered hopener.past).bind fun h c₂ hon hh => ?_
      obtain ⟨hnested, hstart, hstop⟩ := hh
      have hall := hopener.onto.trans hon
      have hspan : Lined c.here c₂.here [h.span] :=
        .single (hstart ▸ hopener.start) (Nat.le_of_eq hstop)
      refine ih hon.ordered (Nat.le_trans hlo hall.here)
        ⟨hacc.directives.mono (Nat.le_refl _) hall.here, ?_⟩
      rintro _ ⟨⟩
      exact joinHash_nested hacc.hash hspan hnested hlo
    refine .accept hc (by decide) (fun arrow c₁ harrow => ?_) fun _ => .pure hc hacc
    refine (sectionName_lays harrow.onto.ordered).bind fun x c₂ _ hx => ?_
    have hall := harrow.onto.trans hx.onto
    refine ih hx.onto.ordered (Nat.le_trans hlo hall.here) ⟨?_, hhash c₂ hall⟩
    exact hacc.directives.append (goto_fits harrow hx) (Nat.le_refl _) hlo hall.here

/-! ## Lines -/

/-- What one step of the opening of a line finds lies behind where its first token starts. -/
def Opener.Lies (t : Token) (c c' : Cursor) : Opener → Prop
  | .speaker s => Lined t.span.start c'.here [s.ident.span] ∧ c'.Past t.span
  | .placeholder e => Exprs t.span.start c'.here [e] ∧ c'.Past t.span
  | .nothing => c' = c ∧ t.is .openBrace = false ∧ ident? t = none

/-- What a line opens with lies where its tokens do; a placeholder is left for the text, from its brace
on. -/
theorem opener_lays (h : PlacesExpr expr) (isFirst : Bool) (hc : c.Ordered) (ht : c.Before t) :
    Lays (opener expr isFirst) c fun o c' => o.Lies t c c' := by
  unfold opener
  refine .peekAt ht ?_
  split
  · next heq =>
    refine .advance hc ht (by simp [Token.is, heq]) fun c₁ htakes => .pure htakes.onto.ordered ?_
    exact ⟨htakes.single, htakes.past⟩
  · next heq =>
    refine .advance hc ht (by simp [Token.is, heq]) fun c₁ htakes => ?_
    refine (h c₁ htakes.onto.ordered).bind fun e c₂ hon he => ?_
    refine (expect_lays hon.ordered (by decide) _).bind fun close c₃ hon' _ => .peek hon'.ordered fun next _ => ?_
    have hpast : c₃.Past t.span := (htakes.past.onto hon).onto hon'
    have hexpr : Exprs t.span.start c₃.here [e] :=
      he.mono (htakes.stop ▸ t.span.start_le_stop) hon'.here
    split
    · exact .pure hon'.ordered ⟨hexpr.lined, hpast⟩
    · split
      · exact .pure hon'.ordered ⟨hexpr, hpast⟩
      · exact .fail hon'.ordered
  · next hname hbrace =>
    refine .pure hc ⟨rfl, decide_eq_false hbrace, ?_⟩
    unfold ident?
    split
    · next name heq => exact absurd heq (hname name)
    · rfl

/-- The spans of the opening of a line. -/
def Opening.spans (o : Opening) : List Span := o.speakers.map (·.ident.span) ++ o.text.map Segment.span

/-- The opening of a line lies in it.  It takes the first token, or it is empty and this token opens none. -/
structure Opening.Lies (acc : List SpeakerRef) (t : Token) (lo : Nat) (c c' : Cursor) (o : Opening) : Prop where
  lined : Lined lo c'.here o.spans
  nested : ∀ s ∈ o.text, s.Nested
  takes : c'.Past t.span ∨ o = ⟨acc, []⟩ ∧ c' = c ∧ t.is .openBrace = false ∧ ident? t = none

/-- The speakers of a line lie one behind the other from its first token on, and the text that comes with
them lies behind. -/
theorem opening_lays (h : PlacesExpr expr) (fuel : Nat) {acc : List SpeakerRef} (hc : c.Ordered)
    (ht : c.Before t) (hlo : lo ≤ t.span.start) (hacc : Lined lo c.here (acc.map (·.ident.span))) :
    Lays (opening expr fuel acc) c fun o c' => o.Lies acc t lo c c' := by
  induction fuel generalizing c acc t with
  | zero => exact .exhausted hc
  | succ fuel ih =>
    refine (opener_lays h _ hc ht).bind fun o c₁ hon ho => ?_
    cases o with
    | nothing =>
      obtain ⟨rfl, hbrace, hname⟩ := ho
      exact .pure hc ⟨by simpa [Opening.spans] using hacc, by simp, .inr ⟨rfl, rfl, hbrace, hname⟩⟩
    | placeholder e =>
      obtain ⟨he, hpast⟩ := ho
      refine .pure hon.ordered ⟨he.lined.mono hlo (Nat.le_refl _), ?_, .inl hpast⟩
      simpa [Segment.Nested] using he.head
    | speaker s =>
      obtain ⟨hs, hpast⟩ := ho
      have hlined : Lined lo c₁.here ((acc ++ [s]).map (·.ident.span)) := by
        rw [List.map_append]
        exact hacc.append hs (hc.here_le ht) hlo hon.here
      refine .accept hon.ordered (by decide) (fun comma c₂ hcomma => ?_) fun _ => ?_
      · obtain ⟨u, hu⟩ := hcomma.onto.ordered.exists_before
        have hclear : c₂.Clear lo := hcomma.onto.ordered.clear
          (Nat.le_trans (Nat.le_trans hlo t.span.start_le_stop) (Nat.le_trans hpast.stop hcomma.onto.here))
        refine (ih hcomma.onto.ordered hu (hclear u hu) (hlined.mono (Nat.le_refl _) hcomma.onto.here)).mono
          fun o c₃ hon' ho => ⟨ho.lined, ho.nested, .inl ?_⟩
        exact (hpast.onto hcomma.onto).onto hon'
      · exact .pure hon.ordered ⟨by simpa [Opening.spans] using hlined, by simp, .inl hpast⟩

/-- What stands behind the speakers of a line lies in it, and it goes up to the token taken last. -/
theorem lineText_lays (fuel : Nat) {start : Span} {o : Opening} (hc : c.Ordered) (hclear : c.Clear start.start)
    (hopened : Lined start.start c.here o.spans) (hnested : ∀ s ∈ o.text, s.Nested)
    (hpast : c.Past start ∨ ∃ t x, c.Before t ∧ text? t = some x ∧ t.span = start) :
    Lays (lineText fuel start o) c fun l c' =>
      l.Nested ∧ l.span.start = start.start ∧ l.span.stop = c'.here := by
  refine (segments_lays (expr_places fuel) fuel hc hclear hopened hnested).bind fun p c₁ hon hp => ?_
  obtain ⟨text, block⟩ := p
  obtain ⟨htext, htextNested, htakes⟩ := hp
  have hpast : c₁.Past start := by
    rcases hpast with hpast | ⟨t, x, ht, hx, rfl⟩
    · exact hpast.onto hon
    · exact htakes t x ht hx
  cases block with
  | some opener => exact .peek hon.ordered fun _ _ => .fail hon.ordered
  | none =>
    have hnone : TrailerFits c₁.here c₁.here ⟨[], none⟩ := ⟨.nil, by simp⟩
    refine (trailer_lays fuel fuel hon.ordered (Nat.le_refl _) hnone).bind
      fun r c₂ hon' hr => .lastSpan (.pure hon'.ordered ?_)
    have htrims := trimText_trims text
    obtain ⟨hstart, hstop⟩ := (hpast.onto hon').cover
    have hle := Nat.le_trans start.start_le_stop hpast.stop
    -- the speakers and the text, and behind them whatever lies in the trailer
    have hrow : ∀ parts, Lined c₁.here c₂.here parts → (start.cover c₂.last.span).Row
        (o.speakers.map (·.ident.span) ++ (trimText text).map Segment.span ++ parts) := by
      intro parts hparts
      rw [Span.Row, hstart, hstop]
      exact (htext.sublist ((List.Sublist.refl _).append htrims.spans)).join hparts hle hon'.here
    refine ⟨⟨hrow _ hr.directives.lined, fun h hh => ?_, htrims.nested htextNested, hr.directives.nested⟩,
      hstart, hstop⟩
    exact ⟨hrow _ (hr.hash h hh).1, (hr.hash h hh).2⟩

/-- A line starts with its first token, which is one of its own. -/
theorem line_lays (fuel : Nat) (hc : c.Ordered) (ht : c.Before t) (hopens : Opens t) :
    Lays (line fuel) c fun l c' => Fits Line.span Line.Nested c.here c'.here [l] := by
  rw [line_eq]
  refine .peekAt ht ?_
  refine (opening_lays (expr_places fuel) fuel hc ht (Nat.le_refl _) .nil).bind fun o c₁ hon ho => ?_
  have htext : ∀ c₂ : Cursor, c₁.Onto c₂ →
      (c₂.Past t.span ∨ c₂ = c ∧ ∃ x, text? t = some x) → Lays (lineText fuel t.span o) c₂
        fun l c' => Fits Line.span Line.Nested c.here c'.here [l] := by
    intro c₂ hon' htakes
    have hclear : c₂.Clear t.span.start := by
      rcases htakes with hpast | ⟨rfl, -⟩
      · exact hon'.ordered.clear (Nat.le_trans t.span.start_le_stop hpast.stop)
      · intro u hu
        rw [Option.some.inj (ht.symm.trans hu)]
    refine (lineText_lays fuel hon'.ordered hclear (ho.lined.mono (Nat.le_refl _) hon'.here) ho.nested ?_).mono
      fun l c₃ _ hl => ?_
    · rcases htakes with hpast | ⟨heq, x, hx⟩
      · exact .inl hpast
      · exact .inr ⟨t, x, heq ▸ ht, hx, rfl⟩
    · obtain ⟨hnested, hstart, hstop⟩ := hl
      exact .single (.single (hstart ▸ hc.here_le ht) (Nat.le_of_eq hstop)) hnested
  rw [lineSpoken]
  rcases ho.takes with hpast | ⟨rfl, rfl, hbrace, hname⟩
  · split
    · split
      · refine .accept hon.ordered (by decide) (fun colon c₂ hcolon => ?_) fun _ => ?_
        · exact htext c₂ hcolon.onto (.inl (hpast.onto hcolon.onto))
        · exact htext c₁ (.refl hon.ordered) (.inl hpast)
      · refine (expect_lays hon.ordered (by decide) _).bind fun colon c₂ hon' _ => ?_
        exact htext c₂ hon' (.inl (hpast.onto hon'))
    · exact htext c₁ (.refl hon.ordered) (.inl hpast)
  · -- a line without an opening starts with a colon or with text
    refine .accept hc (by decide) (fun colon c₂ hcolon => ?_) fun hnot => ?_
    · obtain ⟨u, hu, hspan⟩ := hcolon.before
      cases Option.some.inj (ht.symm.trans hu)
      exact htext c₂ hcolon.onto (.inl (hspan ▸ hcolon.past))
    · rcases hopens with hopen | ⟨x, hx⟩ | hcolon | htextToken
      · exact absurd hbrace (by simp [hopen])
      · exact absurd hname (by simp [hx])
      · exact absurd (hnot t ht) (by simp [hcolon])
      · exact htext c₁ (.refl hc) (.inr ⟨rfl, htextToken⟩)

/-! ## Statements and items -/

section

variable {span : α → Span} {N : α → Prop}

/-- What is parsed one after another lies in a row, whatever is broken in between. -/
theorem many_places (stop : Token → Bool) {p : Parse α} (h : Places span N p) (fuel : Nat) :
    PlacesAll span N (many stop p fuel) := by
  induction fuel with
  | zero => exact fun c hc => .exhausted hc
  | succ fuel ih =>
    refine fun c hc => (skipBreaks_lays hc).bind fun _ c₁ hon₁ _ => .peek hon₁.ordered fun t _ => ?_
    split
    · exact .pure hon₁.ordered .nil
    · refine (recover_lays (h c₁ hon₁.ordered)).bind fun o c₂ hon₂ ho => ?_
      have ho : Fits span N c₁.here c₂.here o.toList := by
        cases o with
        | none => exact .nil
        | some a => exact ho a rfl
      refine (ih c₂ hon₂.ordered).bind fun as c₃ hon₃ has => .pure hon₃.ordered ?_
      exact (ho.mono hon₁.here (Nat.le_refl _)).append has (Nat.le_refl _) (hon₁.trans hon₂).here hon₃.here

/-- What stands between braces lies between them. -/
theorem braces_places {p : Parse (List α)} (h : PlacesAll span N p) : PlacesAll span N (braces p) := by
  refine fun c hc => (expect_lays hc (by decide) _).bind fun opener c₁ hon₁ _ => ?_
  refine (lineEnd_lays hon₁.ordered).bind fun _ c₂ hon₂ _ => (h c₂ hon₂.ordered).bind fun as c₃ hon₃ has => ?_
  refine (expect_lays hon₃.ordered (by decide) _).bind fun close c₄ hon₄ _ => .pure hon₄.ordered ?_
  exact has.mono (hon₁.trans hon₂).here hon₄.here

/-- Conditions and bodies lie in a row. -/
structure BranchesFit (span : α → Span) (N : α → Prop) (lo hi : Nat)
    (p : List (Expr × List α) × Option (List α)) : Prop where
  lined : Lined lo hi (branchSpans span p.1 p.2)
  conditions : ∀ b ∈ p.1, b.1.Nested
  bodies : ∀ b ∈ p.1, ∀ x ∈ b.2, N x
  otherwise : ∀ b, p.2 = some b → ∀ x ∈ b, N x

namespace BranchesFit

variable {e : Expr} {body : List α}

/-- Nothing more follows than a last body, if there is one. -/
theorem last (otherwise : Option (List α)) (h : Fits span N lo hi (otherwise.getD [])) :
    BranchesFit span N lo hi ([], otherwise) where
  lined := h.lined
  conditions := by simp
  bodies := by simp
  otherwise b hb := by
    have hnested := h.nested
    rwa [show otherwise = some b from hb] at hnested

/-- Branches begin with a condition and the body behind it. -/
theorem cons {k' : Nat} {p : List (Expr × List α) × Option (List α)} (he : Exprs lo k [e])
    (hbody : Fits span N k k' body) (h : BranchesFit span N k' hi p) (hk : k ≤ k') (hhi : k' ≤ hi) :
    BranchesFit span N lo hi ((e, body) :: p.1, p.2) where
  lined := by
    have hle : lo ≤ k := he.lined.le (List.mem_singleton_self _)
    have hlined := (he.lined.join hbody.lined hle hk).join h.lined (Nat.le_trans hle hk) hhi
    simpa [branchSpans] using hlined
  conditions := List.forall_mem_cons.mpr ⟨he.head, h.conditions⟩
  bodies := List.forall_mem_cons.mpr ⟨hbody.nested, h.bodies⟩
  otherwise := h.otherwise

end BranchesFit

/-- The branches of an if lie one behind the other, each condition in front of its block. -/
theorem branches_lays {body : Parse (List α)} (hexpr : PlacesExpr expr) (hbody : PlacesAll span N body)
    (fuel : Nat) {c : Cursor} (hc : c.Ordered) :
    Lays (branches expr body fuel) c fun p c' => BranchesFit span N c.here c'.here p := by
  unfold branches
  refine (hexpr c hc).bind fun e c₁ hon₁ he => ?_
  refine (braces_places hbody c₁ hon₁.ordered).bind fun as c₂ hon₂ has => ?_
  refine .accept hon₂.ordered (by decide) (fun word c₃ hword => ?_) fun _ => ?_
  · have has := has.mono (Nat.le_refl _) hword.onto.here
    have hbehind := (hon₂.trans hword.onto).here
    refine .accept hword.onto.ordered (by decide) (fun word' c₄ hword' => ?_) fun _ => ?_
    · cases fuel with
      | zero => exact .exhausted hword'.onto.ordered
      | succ fuel =>
        refine (branches_lays hexpr hbody fuel hword'.onto.ordered).bind fun p c₅ hon₅ hp => ?_
        have has := has.mono (Nat.le_refl _) hword'.onto.here
        exact .pure hon₅.ordered (.cons he has hp (Nat.le_trans hbehind hword'.onto.here) hon₅.here)
    · refine (braces_places hbody c₃ hword.onto.ordered).bind fun bs c₄ hon₄ hbs => .pure hon₄.ordered ?_
      exact .cons he has (.last (some bs) hbs) hbehind hon₄.here
  · exact .pure hon₂.ordered (.cons he has (.last none .nil) hon₂.here (Nat.le_refl _))

/-- The guard of an option lies between its brackets. -/
theorem optionGuard_lays (h : PlacesExpr expr) (hc : c.Ordered) :
    Lays (optionGuard expr) c fun g c' => Exprs c.here c'.here g.toList := by
  refine .accept hc (by decide) (fun opener c₁ hopener => ?_) fun _ => .pure hc .nil
  refine (h c₁ hopener.onto.ordered).bind fun e c₂ hon₂ he => ?_
  refine (expect_lays hon₂.ordered (by decide) _).bind fun close c₃ hon₃ _ => .pure hon₃.ordered ?_
  exact he.mono hopener.onto.here hon₃.here

/-- The target of an option lies where its token does. -/
theorem optionTarget_lays (block : Option Span) (hc : c.Ordered) :
    Lays (optionTarget block) c fun p c' => Lined c.here c'.here (p.1.toList.map Ident.span) := by
  cases block with
  | some opener => exact .pure hc .nil
  | none =>
    refine .accept hc (by decide) (fun arrow c₁ harrow => ?_) fun _ => .pure hc .nil
    refine (sectionName_lays harrow.onto.ordered).bind fun x c₂ _ hx => ?_
    have hlined : Lined c.here c₂.here [x.span] := hx.lined.mono harrow.onto.here (Nat.le_refl _)
    refine .accept hx.onto.ordered (by decide) (fun opener c₃ hopener => ?_) fun _ => .pure hx.onto.ordered hlined
    exact .pure hopener.onto.ordered (hlined.mono (Nat.le_refl _) hopener.onto.here)

/-- The block of an option lies between its braces. -/
theorem optionBody_lays {body : Parse (List α)} (h : PlacesAll span N body) (block : Option Span)
    (hc : c.Ordered) : Lays (optionBody body block) c fun o c' => Fits span N c.here c'.here (o.getD []) := by
  cases block with
  | none => exact .pure hc .nil
  | some opener =>
    refine (lineEnd_lays hc).bind fun _ c₁ hon₁ _ => (h c₁ hon₁.ordered).bind fun as c₂ hon₂ has => ?_
    refine (expect_lays hon₂.ordered (by decide) _).bind fun close c₃ hon₃ _ => .pure hon₃.ordered ?_
    exact has.mono hon₁.here hon₃.here

end

mutual

/-- A statement lies where its tokens do, and contains its parts in order, by induction on the steps it is
given: each kind of statement lines up its keyword, its names and expressions, and its blocks. -/
theorem stmt_places (fuel : Nat) : Places Stmt.span Stmt.Nested (stmt fuel) := by
  intro c hc
  cases fuel with
  | zero => exact .exhausted hc
  | succ fuel =>
    have hrest : ∀ (x : Stmt) (c₁ : Cursor), c₁.Ordered → Fits Stmt.span Stmt.Nested c.here c₁.here [x] →
        Lays (do
          lineEnd
          return x) c₁ fun x c' => Fits Stmt.span Stmt.Nested c.here c'.here [x] := by
      refine fun x c₁ hc₁ hx => (lineEnd_lays hc₁).bind fun _ c₂ hon _ => .pure hon.ordered ?_
      exact hx.mono (Nat.le_refl _) hon.here
    have hline : ∀ t, c.Before t → Opens t → Lays (do
        let l ← line (fuel + 1)
        lineEnd
        return Stmt.line l) c fun x c' => Fits Stmt.span Stmt.Nested c.here c'.here [x] :=
      fun t ht hopens => (line_lays (fuel + 1) hc ht hopens).bind fun l c₁ hon hl =>
        hrest _ c₁ hon.ordered (.single hl.lined (.line hl.head))
    unfold stmt
    refine .peek hc fun t ht => ?_
    have htake : ∀ {β : Type} {f : Unit → Parse β} {R : β → Cursor → Prop} {m : Mark}, t.lexeme = .mark m →
        m ≠ .endOfFile → (∀ c', c.Takes t.span c' → Lays (f ()) c' R) → Lays (advance >>= f) c R :=
      fun heq hm hf => .advance hc ht (by simpa [Token.is, heq] using hm) hf
    have hgoto : ∀ c₁, c.Takes t.span c₁ → Lays (do
        let x ← sectionName
        lineEnd
        return Stmt.goto x) c₁ fun x c' => Fits Stmt.span Stmt.Nested c.here c'.here [x] := by
      refine fun c₁ ht₁ => (sectionName_lays ht₁.onto.ordered).bind fun x c₂ hon₂ hx => ?_
      exact hrest _ c₂ hon₂.ordered (.single (hx.lined.mono ht₁.onto.here (Nat.le_refl _)) .goto)
    split
    -- an instruction
    · next heq =>
      refine htake heq (by decide) fun c₁ ht₁ => ?_
      refine (instruction_places fuel c₁ ht₁.onto.ordered).bind fun e c₂ hon₂ he => hrest _ c₂ hon₂.ordered ?_
      exact .single (he.lined.mono ht₁.onto.here (Nat.le_refl _)) (.instruction he.head)
    -- a goto, by its word or by an arrow
    · next heq => exact htake heq (by decide) hgoto
    · next heq => exact htake heq (by decide) hgoto
    -- an end
    · next heq =>
      exact htake heq (by decide) fun c₁ ht₁ => hrest _ c₁ ht₁.onto.ordered (.single ht₁.lined .finish)
    -- a conditional
    · next heq =>
      refine htake heq (by decide) fun c₁ ht₁ => ?_
      refine (branches_lays (expr_places fuel) (many_places endsBraces (stmt_places fuel) fuel) fuel
        ht₁.onto.ordered).bind fun p c₂ hon₂ hp => .lastSpan (hrest _ c₂ hon₂.ordered ?_)
      have hcover := ht₁.coverLast hon₂ hp.lined
      exact .single hcover.2 (.conditional hcover.1 hp.conditions hp.bodies hp.otherwise)
    -- a choice
    · next heq =>
      refine htake heq (by decide) fun c₁ ht₁ => ?_
      refine (expect_lays ht₁.onto.ordered (by decide) _).bind fun opener c₂ hon₂ _ => ?_
      refine (lineEnd_lays hon₂.ordered).bind fun _ c₃ hon₃ _ => ?_
      refine (many_places endsBraces (item_places fuel) fuel c₃ hon₃.ordered).bind fun items c₄ hon₄ hitems => ?_
      refine (expect_lays hon₄.ordered (by decide) _).bind fun close c₅ hon₅ hclose => hrest _ c₅ hon₅.ordered ?_
      have hcover := ht₁.coverLast (((hon₂.trans hon₃).trans hon₄).trans hon₅)
        (hitems.lined.mono (hon₂.trans hon₃).here hon₅.here)
      rw [hclose.last] at hcover
      exact .single hcover.2 (.choice hcover.1 hitems.nested)
    -- hash data
    · next heq =>
      refine htake heq (by decide) fun c₁ ht₁ => ?_
      refine (hashBody_lays fuel ht₁.onto.ordered ht₁.past).bind fun h c₂ hon₂ hh => hrest _ c₂ hon₂.ordered ?_
      obtain ⟨hnested, hstart, hstop⟩ := hh
      exact .single (.single (hstart ▸ ht₁.start) (Nat.le_of_eq hstop)) (.hash hnested)
    -- hash data of a speaker
    · next heq =>
      refine htake heq (by decide) fun c₁ ht₁ => ?_
      refine (ident_lays ht₁.onto.ordered).bind fun x c₂ _ hx => ?_
      refine (expect_lays hx.onto.ordered (by decide) _).bind fun opener c₃ _ hopener => ?_
      refine (hashBody_lays fuel hopener.onto.ordered hopener.past).bind fun h c₄ hon₄ hh =>
        hrest _ c₄ hon₄.ordered ?_
      obtain ⟨hnested, hstart, hstop⟩ := hh
      have hhash : Lined c₂.here c₄.here [h.span] := .single (hstart ▸ hopener.start) (Nat.le_of_eq hstop)
      -- the statement goes from its word up to the brace that closes the hash data
      have hparts := hx.lined.join hhash hx.onto.here (hopener.onto.trans hon₄).here
      have hpast := ht₁.past.onto hx.onto
      have hbefore := Nat.le_trans (Nat.le_trans t.span.start_le_stop hpast.stop) hopener.start
      have hcover := ht₁.cover (u := h.span) (hstart ▸ hbefore)
        (hstop ▸ (hpast.onto (hopener.onto.trans hon₄)).stop) (hstop ▸ hparts)
      exact .single (hstop ▸ hcover.2) (.speaker hcover.1 hnested)
    -- an option outside of a choice
    · exact .fail hc
    -- a line
    · next heq => exact hline t ht (.inr (.inl ⟨_, by rw [ident?, heq]⟩))
    · next heq => exact hline t ht (.inr (.inr (.inr ⟨_, by rw [text?, heq]⟩)))
    · next heq => exact hline t ht (.inl (by simp [Token.is, heq]))
    · next heq => exact hline t ht (.inr (.inr (.inl (by simp [Token.is, heq]))))
    -- anything else starts no statement
    · exact .fail hc

/-- So does an item of a choice: guard, text, target and block stand one behind the other. -/
theorem item_places (fuel : Nat) : Places ChoiceItem.span ChoiceItem.Nested (item fuel) := by
  intro c hc
  cases fuel with
  | zero => exact .exhausted hc
  | succ fuel =>
    unfold item
    refine .accept hc (by decide) (fun star c₁ hstar => ?_) fun _ => ?_
    · refine (optionGuard_lays (expr_places fuel) hstar.onto.ordered).bind fun guard c₂ hon₂ hguard => ?_
      have hnone : Lined c₂.here c₂.here ([] ++ ([] : List Segment).map Segment.span) := .nil
      refine (segments_lays (expr_places fuel) fuel hon₂.ordered (hon₂.ordered.clear (Nat.le_refl _)) hnone
        (by simp)).bind fun p c₃ hon₃ hp => ?_
      refine (optionTarget_lays p.2 hon₃.ordered).bind fun q c₄ hon₄ hq => ?_
      refine (optionBody_lays (many_places endsBraces (stmt_places fuel) fuel) q.2 hon₄.ordered).bind
        fun body c₅ hon₅ hbody => .lastSpan ?_
      have htrims := trimText_trims p.1
      have htext := hp.1.sublist htrims.spans
      have hlined := hguard.lined.join (htext.join (hq.join hbody.lined hon₄.here hon₅.here) hon₃.here
        (hon₄.trans hon₅).here) hon₂.here ((hon₃.trans hon₄).trans hon₅).here
      have hcover := hstar.coverLast (((hon₂.trans hon₃).trans hon₄).trans hon₅) hlined
      refine (lineEnd_lays hon₅.ordered).bind fun _ c₆ hon₆ _ => .pure hon₆.ordered ?_
      refine .single (hcover.2.mono (Nat.le_refl _) hon₆.here) (.option hcover.1 ?_ (htrims.nested hp.2.1) ?_)
      · rintro e rfl
        exact hguard.head
      · rintro b rfl
        exact hbody.nested
    · refine .accept hc (by decide) (fun word c₁ hword => ?_) fun _ => .peek hc fun _ _ => .fail hc
      refine (branches_lays (expr_places fuel) (many_places endsBraces (item_places fuel) fuel) fuel
        hword.onto.ordered).bind fun p c₂ hon₂ hp => .lastSpan ?_
      have hcover := hword.coverLast hon₂ hp.lined
      refine (lineEnd_lays hon₂.ordered).bind fun _ c₃ hon₃ _ => .pure hon₃.ordered ?_
      exact .single (hcover.2.mono (Nat.le_refl _) hon₃.here)
        (.filter hcover.1 hp.conditions hp.bodies hp.otherwise)

end

/-! ## Sections -/

/-- The header of a section is passed in order. -/
theorem headerFrom_lays (marker : Span) (hc : c.Ordered) : Lays (headerFrom marker) c fun _ _ => True := by
  have hheader : Lays header c fun _ _ => True := by
    refine (sectionName_lays hc).bind fun x c₁ _ hx => ?_
    have hend : ∀ c₂ : Cursor, c₂.Ordered → Lays (do
        lineEnd
        return x) c₂ fun _ _ => True :=
      fun c₂ hc₂ => (lineEnd_lays hc₂).bind fun _ c₃ hon _ => .pure hon.ordered trivial
    exact .accept hx.onto.ordered (by decide) (fun _ c₂ hclose => hend c₂ hclose.onto.ordered)
      fun _ => hend c₁ hx.onto.ordered
  exact hheader.bind fun _ c₁ hon _ => .lastSpan (.pure hon.ordered trivial)

/-- The statements of sections in their order. -/
abbrev Sections (lo hi : Nat) (ss : List Section) : Prop :=
  Fits Stmt.span Stmt.Nested lo hi (ss.flatMap Section.body)

/-- The statements of a section lie behind its header in order. -/
theorem sectionPart_lays (fuel : Nat) (hc : c.Ordered) (ht : c.Before t) (hnot : t.is .endOfFile = false) :
    Lays (sectionPart fuel) c fun o c' => Sections c.here c'.here o.toList := by
  refine .advance hc ht hnot fun c₁ ht₁ => .lastSpan ?_
  refine (recover_lays (headerFrom_lays _ ht₁.onto.ordered)).bind fun o c₂ hon₂ _ => ?_
  have hbody := many_places endsSection (stmt_places fuel) fuel c₂ hon₂.ordered
  cases o with
  | none => exact hbody.bind fun _ c₃ hon₃ _ => .pure hon₃.ordered .nil
  | some p =>
    refine hbody.bind fun body c₃ hon₃ hbody => .pure hon₃.ordered ?_
    simpa [Sections] using hbody.mono (ht₁.onto.trans hon₂).here (Nat.le_refl _)

/-- Sections follow one another, and what is dropped of a broken one or outside of all leaves a gap. -/
theorem sections_lays (implicit : Option String) (fuel bound : Nat) {acc : List Section} (hc : c.Ordered)
    (hacc : Sections 0 c.here acc) :
    Lays (sections implicit fuel bound acc) c fun story c' => Sections 0 c'.here story := by
  induction bound generalizing c acc with
  | zero => exact .exhausted hc
  | succ bound ih =>
    refine (skipBreaks_lays hc).bind fun _ c₁ hon₁ _ => .peek hon₁.ordered fun t ht => ?_
    have hacc := hacc.mono (Nat.le_refl 0) hon₁.here
    by_cases hend : t.is .endOfFile = true
    · rw [if_pos hend]
      exact .pure hon₁.ordered hacc
    rw [if_neg hend]
    split
    · refine (sectionPart_lays fuel hon₁.ordered ht (by simpa using hend)).bind fun o c₂ hon₂ ho => ?_
      refine ih hon₂.ordered ?_
      have hall := hacc.append ho (Nat.le_refl _) (Nat.zero_le _) hon₂.here
      simpa [Sections] using hall
    · refine (many_places endsSection (stmt_places fuel) fuel c₁ hon₁.ordered).bind fun body c₂ hon₂ hbody => ?_
      split
      -- the first statements are kept in the implicit section, or else dropped
      · exact ih hon₂.ordered (by simpa [Sections] using hbody.mono (Nat.zero_le _) (Nat.le_refl _))
      · refine .lastSpan ((report_lays hon₂.ordered _).bind fun _ c₃ hon₃ _ => ih hon₃.ordered ?_)
        exact hacc.mono (Nat.le_refl 0) (hon₂.trans hon₃).here

end Parse

/-- The spans of a parsed story nest and are ordered.  The statements of a source lie in it one behind the other,
and the span of each of them, and of everything in it down to the operands, contains the spans of its parts, in
the order they are written in and without overlap. -/
theorem parse_nested (implicit : Option String) (source : String) :
    (parse implicit source).1.Nested source.utf8ByteSize := by
  have hordered : (Cursor.start (tokensOf (scan source))).Ordered :=
    ⟨ended_scan source, List.pairwise_cons.mpr ⟨fun t _ => Nat.zero_le _, (scan_partition source).2.1⟩⟩
  have hnone : Parse.Sections 0 (Cursor.start (tokensOf (scan source))).here [] := .nil
  have hlays := Parse.sections_lays implicit (tokensOf (scan source)).length (tokensOf (scan source)).length
    hordered hnone
  have hon := (parseTokens_on (Edge.zero _) implicit (token_on source)).1
  have hlast : ∀ x ∈ (parse implicit source).1, ∀ s ∈ x.body, s.span.stop ≤ source.utf8ByteSize := by
    intro x hx s hs
    obtain ⟨rest, front, htext, hstop⟩ := ((hon x hx).body s hs).span.stop
    rw [hstop, ← byteSize_toList, htext, Text.byteSize_append]
    exact Nat.le_add_right _ _
  have hfits : ∃ hi, Parse.Sections 0 hi (parse implicit source).1 := by
    rw [Parse.Lays] at hlays
    unfold parse parseTokens
    simp only
    generalize Parse.sections implicit _ _ [] _ = x at hlays ⊢
    cases hlays with
    | ok _ hstory => exact ⟨_, hstory⟩
    | @stop halt c _ => cases halt <;> exact ⟨0, .nil⟩
  obtain ⟨hi, hlined, hnested⟩ := hfits
  refine ⟨⟨fun s hs => ⟨Nat.zero_le _, ?_⟩, hlined.ordered⟩, hnested⟩
  obtain ⟨y, hy, rfl⟩ := List.mem_map.mp hs
  obtain ⟨x, hx, hy⟩ := List.mem_flatMap.mp hy
  exact hlast x hx y hy

end Colloquy
