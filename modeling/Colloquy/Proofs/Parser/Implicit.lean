import Mathlib.Data.List.TakeWhile
import Colloquy.Proofs.Parser.Blind
import Colloquy.Proofs.Parser.Recovery

/-!
# The implicit section

Statements in front of the first section header go to a section of the implicit name, or are reported.  They are
met once: the body of a section goes up to the next marker, even if its header is broken, so behind the first
marker statements stand in sections, and the parser comes to the same whatever the name is and whatever was
parsed before (`sections_settled`).

So the implicit section only relabels (`parse_implicit`).  All but line breaks counts as a statement here, a line
that cannot be parsed as well: it is reported like any other, and without an implicit section the whole is
reported once more, as standing outside.
-/

namespace Colloquy

namespace Parse

variable {ts us rest : List Token} {t u last last' : Token} {errors : List ParseError} {fuel bound : Nat}

/-- The first token that is more than a line break, unless it starts a section or ends the source. -/
def strayStart (ts : List Token) : Option Token :=
  (ts.find? fun t => !t.is .newline).filter fun t => !endsSection t

theorem not_newline_of_endsSection (h : endsSection t = true) : t.is .newline = false := by
  rw [endsSection, Bool.or_eq_true, Token.is, Token.is, decide_eq_true_eq, decide_eq_true_eq] at h
  rcases h with hlexeme | hlexeme <;> simp [Token.is, hlexeme]

theorem find?_not_newline (ts : List Token) :
    ts.find? (fun t => !t.is .newline) = (ts.dropWhile fun t => t.is .newline).head? := by
  rw [List.find?_eq_head?_dropWhile_not]
  simp

/-! ## Sections behind a marker -/

/-- A section goes up to the next one, or to the end of the source, also if its header is broken. -/
theorem sectionPart_goes {c : Cursor} (hc : c.Ready fuel) (ht : c.Before t) (hnot : t.is .endOfFile = false) :
    Goes False (sectionPart fuel) c fun _ c' => c'.rest.length < c.rest.length ∧
      ∃ u, c'.Before u ∧ endsSection u = true := by
  obtain ⟨hmoves, hlength⟩ := Cursor.moves_advance hc.ended ht hnot
  have hadvance : Goes False advance c fun _ c' => c'.rest.length < c.rest.length := .ok hmoves (by omega)
  refine hadvance.bind fun _ c₁ hmoves₁ hlt => ?_
  have hready : ∀ c' : Cursor, c₁.Moves c' → c'.Ready fuel := fun c' hmoves' =>
    ⟨hmoves'.ended, Nat.le_trans hmoves'.length_le (Nat.le_trans hmoves₁.length_le hc.left)⟩
  refine (lastSpan_goes (hready c₁ (.refl hmoves₁.ended))).bind fun marker c₂ hmoves₂ _ => ?_
  refine (recover_goes (headerFrom_takes marker) (hready c₂ hmoves₂)).bind fun o c₃ hmoves₃ _ => ?_
  have hbody := sectionBody_goes (hready c₃ (hmoves₂.trans hmoves₃))
  have hshorter : ∀ c' : Cursor, c₃.Moves c' → c'.rest.length < c.rest.length := fun c' hmoves' =>
    Nat.lt_of_le_of_lt ((hmoves₂.trans hmoves₃).trans hmoves').length_le hlt
  cases o with
  | none => exact hbody.bind fun _ c₄ hmoves₄ hends => .pure hmoves₄.ended ⟨hshorter c₄ hmoves₄, hends⟩
  | some p => exact hbody.bind fun _ c₄ hmoves₄ hends => .pure hmoves₄.ended ⟨hshorter c₄ hmoves₄, hends⟩

/-- Sections start behind line breaks. -/
theorem sections_skip {implicit : Option String} {acc : List Section}
    (hskip : ∀ errors, Cursor.skipBreaks errors last ts = ⟨t :: us, last', errors⟩)
    (hline : t.is .newline = false) : sections implicit fuel (bound + 1) acc ⟨ts, last, errors⟩ =
      sections implicit fuel (bound + 1) acc ⟨t :: us, last', errors⟩ := by
  have hbreaks : skipBreaks ⟨ts, last, errors⟩ = .ok () ⟨t :: us, last', errors⟩ := congrArg _ (hskip errors)
  rw [sections, bind_ok hbreaks, bind_ok (skipBreaks_other hline)]

/-- The sections from some tokens on do not depend on the name of the implicit section, on the sections in front
and on the errors recorded so far, and no statement outside of them is reported. -/
def Settled (fuel bound : Nat) (rest : List Token) (last : Token) : Prop :=
  ∃ (story : Story) (rest' : List Token) (last' : Token) (more : List ParseError), (∀ e ∈ more, e.Inside) ∧
    ∀ implicit acc errors, sections implicit fuel bound acc ⟨rest, last, errors⟩ =
      .ok (acc ++ story) ⟨rest', last', errors ++ more⟩

/-- With no statement in front of the first section, there is none outside of the others. -/
theorem sections_settled (hbound : bound ≤ fuel) (hended : Ended rest) (hleft : rest.length ≤ bound)
    (hends : ∀ t ∈ (rest.dropWhile fun t => t.is .newline).head?, endsSection t = true) :
    Settled fuel bound rest last := by
  induction bound generalizing rest last with
  | zero =>
    have hpos := List.length_pos_iff.mpr hended.ne_nil
    omega
  | succ bound ih =>
    obtain ⟨-, last', hskip⟩ := skipBreaks_eq True last rest
    have hmoves : Cursor.Moves ⟨rest, last, []⟩ (.skipBreaks [] last rest) := skipBreaks_moves hended
    rw [hskip] at hmoves
    obtain ⟨t, us, hdrop⟩ := List.exists_cons_of_ne_nil hmoves.ended.ne_nil
    have hrest : (rest.dropWhile fun t => t.is .newline) = t :: us := hdrop
    simp only [hrest] at hskip hmoves hends
    have ht : endsSection t = true := hends t rfl
    have hlength : (t :: us).length ≤ bound + 1 := Nat.le_trans hmoves.length_le hleft
    have hstart : ∀ implicit acc errors, sections implicit fuel (bound + 1) acc ⟨rest, last, errors⟩ =
        sections implicit fuel (bound + 1) acc ⟨t :: us, last', errors⟩ :=
      fun _ _ _ => sections_skip hskip (not_newline_of_endsSection ht)
    by_cases hend : t.is .endOfFile = true
    · obtain rfl : us = [] := (List.cons.inj (hmoves.ended.eq_singleton rfl hend)).2
      refine ⟨[], [t], last', [], by simp, fun implicit acc errors => ?_⟩
      rw [hstart, sections_end hend, List.append_nil, List.append_nil]
    · have hend : t.is .endOfFile = false := by simpa using hend
      have hmarker : t.is .sectionMarker = true := by simpa [endsSection, hend] using ht
      have hgoes := sectionPart_goes (c := ⟨t :: us, last', []⟩)
        ⟨hmoves.ended, Nat.le_trans hlength hbound⟩ rfl hend
      rw [Goes] at hgoes
      -- the section goes up to a marker or the end of the source, so its rest is settled again
      cases sectionPart_blind fuel (t :: us) last' trivial with
      | stop halt rest' last'' more _ _ _ heq =>
        rw [heq] at hgoes
        cases hgoes with
        | error hfalse => exact hfalse.elim
      | ok o rest' last'' more _ hmore heq =>
        rw [heq] at hgoes
        cases hgoes with
        | ok hmoves' hbehind =>
          obtain ⟨hlt, u, hu, hends'⟩ := hbehind
          obtain ⟨vs, rfl⟩ := List.head?_eq_some_iff.mp hu
          have hnext : ∀ v ∈ ((u :: vs).dropWhile fun t => t.is .newline).head?, endsSection v = true := by
            rw [List.dropWhile_cons, if_neg (by simp [not_newline_of_endsSection hends'])]
            rintro v ⟨⟩
            exact hends'
          have hlt : (u :: vs).length < (t :: us).length := hlt
          have hended' : Ended (u :: vs) := hmoves'.ended
          obtain ⟨story, rest₁, last₁, more₁, hmore₁, hsections⟩ : Settled fuel bound (u :: vs) last'' :=
            ih (Nat.le_of_succ_le hbound) hended' (by omega) hnext
          refine ⟨o.toList ++ story, rest₁, last₁, more ++ more₁,
            List.forall_mem_append.mpr ⟨hmore, hmore₁⟩, fun implicit acc errors => ?_⟩
          rw [hstart, sections_marker hmarker, bind_ok (heq errors), hsections, List.append_assoc,
            List.append_assoc]

/-! ## Statements in front of all sections -/

/-- The tokens passed are those in front of the first marker. -/
theorem dropWhile_of_passed (hended : Ended ts) (hpassed : Passed False ts (u :: us))
    (hu : endsSection u = true) : ts.dropWhile (fun t => !endsSection t) = u :: us := by
  obtain ⟨taken, rfl, htaken⟩ := hpassed
  induction taken with
  | nil => rw [List.nil_append, List.dropWhile_cons, if_neg (by simp [hu])]
  | cons t taken ih =>
    rw [List.forall_mem_cons] at htaken
    rw [List.cons_append] at hended ⊢
    have hnotEnd : t.is .endOfFile = false := by
      refine Bool.eq_false_iff.mpr fun hend => ?_
      have hlast := (List.cons.inj (hended.eq_singleton rfl hend)).2
      simp at hlast
    have hnot : endsSection t = false := by simpa [endsSection, hnotEnd] using htaken.1
    rw [List.dropWhile_cons, if_pos (by simp [hnot]), ih htaken.2 (hended.tail hnotEnd)]

/-- Statements in front of all sections are read up to the first marker. -/
theorem sections_stray {implicit : Option String} {acc : List Section} (hline : t.is .newline = false)
    (ht : endsSection t = false) : sections implicit fuel (bound + 1) acc ⟨t :: us, last, errors⟩ =
      (sectionBody fuel >>= fun body =>
        match implicit, acc with
        | some name, [] => sections implicit fuel bound [⟨⟨name, t.span⟩, t.span, body⟩]
        | _, _ => do
          report (.statementOutsideSection (t.span.cover (← lastSpan)))
          sections implicit fuel bound acc) ⟨t :: us, last, errors⟩ := by
  rw [endsSection, Bool.or_eq_false_iff] at ht
  rw [sections, bind_ok (skipBreaks_other hline), bind_ok (show peek _ = .ok t _ from rfl), ht.1, ht.2]
  rfl

/-- Statements start behind line breaks. -/
theorem many_skip {α : Type} {stop : Token → Bool} {p : Parse α}
    (hskip : ∀ errors, Cursor.skipBreaks errors last ts = ⟨t :: us, last', errors⟩)
    (hline : t.is .newline = false) :
    many stop p (bound + 1) ⟨ts, last, errors⟩ = many stop p (bound + 1) ⟨t :: us, last', errors⟩ := by
  have hbreaks : skipBreaks ⟨ts, last, errors⟩ = .ok () ⟨t :: us, last', errors⟩ := congrArg _ (hskip errors)
  rw [many, bind_ok hbreaks, bind_ok (skipBreaks_other hline)]

/-- What is in front of all sections is read like the body of one, up to the first marker, and behind that
everything is settled. -/
theorem stray_settled (hended : Ended ts) (hlength : ts.length = bound + 1) (ht : strayStart ts = some t)
    (last : Token) : ∃ (us : List Token) (last₁ : Token) (body : Block) (rest : List Token) (last₂ : Token)
      (front : List ParseError), (∀ errors, Cursor.skipBreaks errors last ts = ⟨t :: us, last₁, errors⟩) ∧
        t.is .newline = false ∧ endsSection t = false ∧ (∀ e ∈ front, e.Inside) ∧
        (∀ errors, sectionBody ts.length ⟨t :: us, last₁, errors⟩ = .ok body ⟨rest, last₂, errors ++ front⟩) ∧
        rest = ts.dropWhile (fun t => !endsSection t) ∧ Settled ts.length bound rest last₂ := by
  obtain ⟨hpassed, last₁, hskip⟩ := skipBreaks_eq False last ts
  obtain ⟨hfound, hnot⟩ := Option.filter_eq_some_iff.mp ht
  have hline : t.is .newline = false := by simpa using List.find?_some hfound
  have hnot : endsSection t = false := by simpa using hnot
  rw [find?_not_newline] at hfound
  obtain ⟨us, hrest⟩ := List.head?_eq_some_iff.mp hfound
  have hmoves : Cursor.Moves ⟨ts, last, []⟩ (.skipBreaks [] last ts) := skipBreaks_moves hended
  rw [hskip] at hmoves
  simp only [hrest] at hpassed hskip hmoves
  have hready : (⟨t :: us, last₁, []⟩ : Cursor).Ready ts.length := ⟨hmoves.ended, hmoves.length_le⟩
  have hgoes := sectionBody_goes hready
  rw [Goes] at hgoes
  cases sectionBody_blind False ts.length (t :: us) last₁ trivial with
  | stop halt rest last₂ front _ _ _ heq =>
    rw [heq] at hgoes
    cases hgoes with
    | error hfalse => exact hfalse.elim
  | ok body rest last₂ front hpassed' hfront heq =>
    rw [heq] at hgoes
    cases hgoes with
    | ok hmoves' hbehind =>
      obtain ⟨u, hu, hends⟩ := hbehind
      obtain ⟨vs, rfl⟩ := List.head?_eq_some_iff.mp hu
      -- the first token ends no section, so it was taken
      have hlt : (u :: vs).length < (t :: us).length := by
        refine hmoves'.length_lt rfl hu fun htu => ?_
        rw [htu, hends] at hnot
        cases hnot
      have hle : (t :: us).length ≤ ts.length := hmoves.length_le
      have hnext : ∀ v ∈ ((u :: vs).dropWhile fun t => t.is .newline).head?, endsSection v = true := by
        rw [List.dropWhile_cons, if_neg (by simp [not_newline_of_endsSection hends])]
        rintro v ⟨⟩
        exact hends
      refine ⟨us, last₁, body, u :: vs, last₂, front, hskip, hline, hnot, hfront, heq, ?_, ?_⟩
      · exact (dropWhile_of_passed hended (hpassed.trans hpassed') hends).symm
      · exact sections_settled (by omega) hmoves'.ended (by omega) hnext

/-- What the sections are parsed to is the story, with the errors on the way. -/
theorem parseTokens_ok {implicit : Option String} {story : Story} {c : Cursor}
    (h : sections implicit ts.length ts.length [] (.start ts) = .ok story c) :
    parseTokens implicit ts = (story, c.errors) := by
  rw [parseTokens]
  simp only [h]

end Parse

/-- What the name of an implicit section changes if the token `t` starts statements in front of all sections. -/
structure Relabels (name : String) (ts : List Token) (t : Token) (body : Block) (c : Cursor)
    (back : List ParseError) (labelled plain : Story × List ParseError) : Prop where
  /-- These statements are read like the body of a section. -/
  read : Parse.sectionBody ts.length (.start ts) = .ok body c
  /-- They go up to just the first section marker. -/
  before : c.rest = ts.dropWhile fun t => !Parse.endsSection t
  /-- Their section stands in front of all others. -/
  sections : labelled.1 = ⟨⟨name, t.span⟩, t.span, body⟩ :: plain.1
  errors : labelled.2 = c.errors ++ back
  /-- Without the name there is one more error, behind those in the statements. -/
  reported : plain.2 = c.errors ++ .statementOutsideSection (t.span.cover c.last.span) :: back
  /-- No other error is about statements outside of sections. -/
  inside : ∀ e ∈ c.errors ++ back, e.Inside

/-- The implicit section only relabels.  Without statements in front of the first section header its name changes
nothing.  With some, they become a section of that name in front of the others, and the one error that reports
them as standing outside of a section is left out. -/
theorem parse_implicit (name source : String) :
    (Parse.strayStart (tokensOf (scan source)) = none → parse (some name) source = parse none source) ∧
      ∀ t, Parse.strayStart (tokensOf (scan source)) = some t → ∃ body c back,
        Relabels name (tokensOf (scan source)) t body c back (parse (some name) source) (parse none source) := by
  have hended := ended_scan source
  unfold parse
  generalize tokensOf (scan source) = ts at hended ⊢
  constructor
  · intro hnone
    have hends : ∀ t ∈ (ts.dropWhile fun t => t.is .newline).head?, Parse.endsSection t = true := by
      intro t ht
      rw [← Parse.find?_not_newline] at ht
      rw [Parse.strayStart, Option.mem_def.mp ht, Option.filter_eq_none_iff] at hnone
      simpa using hnone t rfl
    have hsettled : Parse.Settled ts.length ts.length ts (Cursor.start ts).last :=
      Parse.sections_settled (Nat.le_refl _) hended (Nat.le_refl _) hends
    obtain ⟨story, rest, last, more, -, hsections⟩ := hsettled
    rw [Parse.parseTokens_ok (hsections (some name) [] []), Parse.parseTokens_ok (hsections none [] [])]
  · intro t ht
    obtain ⟨bound, hlength⟩ := Nat.exists_eq_add_one.mpr (List.length_pos_iff.mpr hended.ne_nil)
    obtain ⟨us, last₁, body, rest, last₂, front, hskip, hline, hnot, hfront, hbody, hrest, hsettled⟩ :=
      Parse.stray_settled hended hlength ht (Cursor.start ts).last
    obtain ⟨story, rest', last', back, hback, hsections⟩ := hsettled
    have hstart : ∀ implicit, Parse.sections implicit ts.length ts.length [] (.start ts) =
        Parse.sections implicit ts.length (bound + 1) [] ⟨t :: us, last₁, []⟩ := by
      intro implicit
      conv => lhs; arg 3; rw [hlength]
      exact Parse.sections_skip hskip hline
    have hread : Parse.sectionBody ts.length (.start ts) = .ok body ⟨rest, last₂, front⟩ := by
      refine Eq.trans ?_ (hbody [])
      rw [Parse.sectionBody]
      conv => lhs; arg 3; rw [hlength]
      conv => rhs; arg 3; rw [hlength]
      exact Parse.many_skip hskip hline
    -- both runs go on behind the statements, with other sections and other errors in front
    have hlabelled := (hstart (some name)).trans ((Parse.sections_stray hline hnot).trans
      ((Parse.bind_ok (hbody [])).trans (hsections (some name) [⟨⟨name, t.span⟩, t.span, body⟩] front)))
    have hreport : ∀ p : Parse Story, (do
        Parse.report (.statementOutsideSection (t.span.cover (← Parse.lastSpan)))
        p) ⟨rest, last₂, [] ++ front⟩ =
          p ⟨rest, last₂, front ++ [.statementOutsideSection (t.span.cover last₂.span)]⟩ := fun _ => rfl
    have hplain := (hstart none).trans ((Parse.sections_stray hline hnot).trans ((Parse.bind_ok (hbody [])).trans
      ((hreport _).trans (hsections none [] _))))
    refine ⟨body, ⟨rest, last₂, front⟩, back, ?_⟩
    rw [Parse.parseTokens_ok hlabelled, Parse.parseTokens_ok hplain]
    exact
      { read := hread
        before := hrest
        sections := rfl
        errors := rfl
        reported := by simp
        inside := List.forall_mem_append.mpr ⟨hfront, hback⟩ }

/-- A line of text in front of a header, and the header alone. -/
theorem implicit_main : (∃ t body c back, Relabels "main" (tokensOf (scan "hi\n=== a\n")) t body c back
      (parse (some "main") "hi\n=== a\n") (parse none "hi\n=== a\n")) ∧
    parse (some "main") "=== a\n" = parse none "=== a\n" :=
  ⟨⟨⟨.text "hi", ⟨0, 2⟩⟩, (parse_implicit "main" "hi\n=== a\n").2 _ (by decide +kernel)⟩,
    (parse_implicit "main" "=== a\n").1 (by decide +kernel)⟩

end Colloquy
