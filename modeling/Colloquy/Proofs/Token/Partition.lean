import Mathlib.Data.List.TakeWhile
import Colloquy.Proofs.Token.Ended
import Colloquy.Proofs.Token.Spelling

/-!
# Tokens cut up their source

A source is cut into stretches from its start to its end (`Cut`): each is the text of a token, or one of the
few things that a scan leaves out, which are blanks, comments, characters it reports, and a backslash that
has nothing behind it.  A step of a scan yields what the stretches that it takes hold, in order
(`step_cuts`), and so does the whole scan.

Hence the tokens stand where their spans say, one after the other, and every character that no token covers
is accounted for (`scan_partition`).
-/

namespace Colloquy

open Text

/-- An offset lies in a span. -/
def Span.Covers (s : Span) (n : Nat) : Prop := s.start ≤ n ∧ n < s.stop

/-- A token stands in front of a text that starts at an offset, and is written there. -/
structure Token.StandsAt (t : Token) (offset : Nat) (piece : List Char) : Prop where
  span : t.span = .range offset (offset + byteSize piece)
  written : t.lexeme.WrittenAs piece

namespace Scan

/-- A comment with what follows it: it starts with two slashes and goes up to the end of its line. -/
structure IsComment (line rest : List Char) : Prop where
  slashes : ['/', '/'] <+: line
  inLine : '\n' ∉ line
  ends : rest = [] ∨ ∃ more, rest = '\n' :: more

/-- A stretch of a source with what follows it and what is yielded for it. -/
inductive Stretch (offset : Nat) : List Char → List Char → List ScanItem → Prop where
  | token {t : Token} {piece rest : List Char} :
      t.StandsAt offset piece → Stretch offset piece rest [.ok t]
  | blank {c : Char} {rest : List Char} : isBlank c = true → Stretch offset [c] rest []
  | comment {line rest : List Char} : IsComment line rest → Stretch offset line rest []
  | unexpected (c : Char) {rest : List Char} :
      Stretch offset [c] rest [.error (.unexpectedCharacter c offset)]
  /-- A backslash that ends the source has nothing to stand in front of. -/
  | backslash : Stretch offset ['\\'] [] []
  /-- Errors inside a token are yielded before it. -/
  | report (e : ScanError) {rest : List Char} : Stretch offset [] rest [.error e]

/-- A text that starts at an offset is cut into stretches, for which the items are yielded. -/
inductive Cut : Nat → List Char → List ScanItem → Prop where
  | nil (offset : Nat) : Cut offset [] []
  | cons {offset : Nat} {piece rest : List Char} {found items : List ScanItem} :
      Stretch offset piece rest found → Cut (offset + byteSize piece) rest items →
      Cut offset (piece ++ rest) (found ++ items)

variable {offset mid stop width : Nat} {cs ds piece rest : List Char} {items more : List ScanItem}

/-- Stretches from the front of a text up to an offset: whatever cuts the rest from there, together with
them it cuts the whole. -/
def Leads (offset : Nat) (cs : List Char) (items : List ScanItem) (stop : Nat) (rest : List Char) : Prop :=
  ∀ more, Cut stop rest more → Cut offset cs (items ++ more)

/-- What a step takes and yields. -/
def Cuts (offset : Nat) (cs : List Char) (x : Step) : Prop :=
  match x with
  | (items, none) => Cut offset cs items
  | (items, some next) => Leads offset cs items next.offset next.rest

namespace Leads

theorem refl (offset : Nat) (cs : List Char) : Leads offset cs [] offset cs := fun _ h => h

/-- Two pieces taken one after the other are taken together. -/
theorem trans (h : Leads offset cs items mid ds) (h' : Leads mid ds more stop rest) :
    Leads offset cs (items ++ more) stop rest := by
  intro last hlast
  rw [List.append_assoc]
  exact h _ (h' _ hlast)

/-- What a step does after something was taken already. -/
theorem cuts {x : Step} (h : Leads offset cs items mid ds) (hx : Cuts mid ds x) :
    Cuts offset cs (items ++ x.1, x.2) := by
  obtain ⟨more, next⟩ := x
  cases next with
  | none => exact h more hx
  | some next => exact h.trans hx

theorem stretch (offset : Nat) (piece : List Char) {found : List ScanItem} (h : Stretch offset piece rest found)
    (hwidth : byteSize piece = width) : Leads offset (piece ++ rest) found (offset + width) rest := by
  subst hwidth
  exact fun _ hrest => .cons h hrest

theorem token {l : Lexeme} (hl : l.WrittenAs piece) (hwidth : byteSize piece = width) :
    Leads offset (piece ++ rest) [.ok ⟨l, .range offset (offset + width)⟩] (offset + width) rest :=
  stretch offset piece (.token ⟨by rw [hwidth], hl⟩) hwidth

theorem mark (offset : Nat) (piece rest : List Char) {m : Mark} (hm : String.ofList piece ∈ m.spellings)
    (hwidth : byteSize piece = width) :
    Leads offset (piece ++ rest) [markItem m offset (offset + width)] (offset + width) rest :=
  token (l := .mark m) hm hwidth

/-- Blanks are left out, each as a stretch of its own. -/
theorem blanks (offset : Nat) (rest : List Char) (h : ∀ c ∈ piece, isBlank c = true) :
    Leads offset (piece ++ rest) [] (offset + byteSize piece) rest := by
  induction piece generalizing offset with
  | nil => exact refl _ _
  | cons c piece ih =>
    rw [List.forall_mem_cons] at h
    have hrest := ih (offset + c.utf8Size) h.2
    rw [Nat.add_assoc, ← byteSize_cons] at hrest
    exact (stretch offset [c] (.blank h.1) rfl).trans hrest

theorem reports (es : List ScanError) : Leads offset cs (es.map .error) offset cs := by
  induction es with
  | nil => exact refl _ _
  | cons e es ih => exact (stretch offset [] (.report e) rfl).trans ih

end Leads

/-! ## Blanks, comments and the ends of lines -/

/-- What is passed over inside a line is a blank. -/
theorem isBlank_of_isInlineBlank {c : Char} (h : isInlineBlank c = true) : isBlank c = true := by
  rw [isInlineBlank, decide_eq_true_eq] at h
  rcases h with rfl | rfl | rfl
  · decide
  · decide
  · decide

/-- Blanks inside a line are passed over. -/
theorem inlineBlanks_leads (offset : Nat) (cs : List Char) : Leads offset cs []
    (offset + byteSize (cs.takeWhile isInlineBlank)) (cs.dropWhile isInlineBlank) := by
  have hblank : ∀ c ∈ cs.takeWhile isInlineBlank, isBlank c = true :=
    fun c hc => isBlank_of_isInlineBlank (List.all_eq_true.mp List.all_takeWhile c hc)
  have hleads := Leads.blanks offset (cs.dropWhile isInlineBlank) hblank
  rwa [List.takeWhile_append_dropWhile] at hleads

/-- A text of which trimming leaves nothing is blank. -/
theorem isBlank_of_isEmpty_trim (h : (trim cs).isEmpty = true) : ∀ c ∈ cs, isBlank c = true := by
  rw [List.isEmpty_iff, trim, trimEnd, List.reverse_eq_nil_iff, trimStart] at h
  have hafter : ∀ c ∈ cs.dropWhile isBlank, isBlank c = true := by
    intro c hc
    exact List.dropWhile_eq_nil_iff.mp h c (List.mem_reverse.mpr hc)
  intro c hc
  rw [← List.takeWhile_append_dropWhile (p := isBlank) (l := cs), List.mem_append] at hc
  exact hc.elim (List.all_eq_true.mp List.all_takeWhile c) (hafter c)

theorem newline_notMem_lineOf (cs : List Char) : '\n' ∉ lineOf cs := by
  intro h
  have hne := List.all_eq_true.mp List.all_takeWhile _ h
  simp at hne

theorem isPrefix_of_startsWith (h : startsWith cs "//" = true) : ['/', '/'] <+: cs :=
  List.isPrefixOf_iff_prefix.mp h

/-- What follows a line starts with a line feed, if anything follows. -/
theorem afterLine_cases (cs : List Char) :
    afterLine cs = [] ∨ ∃ more, afterLine cs = '\n' :: more := by
  induction cs with
  | nil => exact .inl rfl
  | cons c cs ih =>
    by_cases hc : c = '\n'
    · exact .inr ⟨cs, by simp [afterLine, hc]⟩
    · rwa [afterLine, List.dropWhile_cons_of_pos (by simpa using hc)]

/-- A comment goes up to the end of its line. -/
theorem comment_leads (offset : Nat) (h : ['/', '/'] <+: lineOf cs) :
    Leads offset cs [] (offset + byteSize (lineOf cs)) (afterLine cs) := by
  have hleads := Leads.stretch offset (lineOf cs)
    (.comment ⟨h, newline_notMem_lineOf cs, afterLine_cases cs⟩) rfl
  rwa [lineOf, afterLine, List.takeWhile_append_dropWhile] at hleads

/-- A line ends at a line feed or at the end of the source. -/
theorem endLine_cuts (offset : Nat) (h : cs = [] ∨ ∃ more, cs = '\n' :: more) :
    Cuts offset cs (endLine offset cs) := by
  rcases h with rfl | ⟨more, rfl⟩
  · have hline := Leads.mark offset [] [] (m := .newline) (by decide) rfl
    have hfile := Leads.mark offset [] [] (m := .endOfFile) (by decide) rfl
    exact hline.trans hfile [] (.nil offset)
  · exact Leads.mark offset ['\n'] more (by decide) rfl

/-! ## The start of a line -/

/-- A line is opened by a mark or by nothing. -/
theorem openLine_cuts (offset : Nat) (cs : List Char) : Cuts offset cs (openLine offset cs) := by
  unfold openLine
  simp only
  split
  · exact Leads.refl _ _
  · split
    · next more _ =>
      have hstar := Leads.mark offset ['*'] more (m := .star) (by decide) rfl
      have hblanks := hstar.trans (inlineBlanks_leads (offset + 1) more)
      split
      · next heq =>
        -- the guard of an option opens behind its star
        rw [heq] at hblanks
        exact hblanks.trans (.mark _ ['['] _ (by decide) rfl)
      · exact hblanks
    · exact Leads.mark offset [':'] _ (by decide) rfl
    · split
      · exact Leads.refl _ _
      · exact Leads.refl _ _

/-- The start of a line is cut into blanks, a comment, marks and line feeds. -/
theorem stepLineStart_cuts (offset : Nat) (rest : List Char) :
    Cuts offset rest (stepLineStart offset rest) := by
  have hblanks := inlineBlanks_leads offset rest
  unfold stepLineStart
  simp only
  generalize offset + byteSize (rest.takeWhile isInlineBlank) = start at hblanks
  split
  · next heq =>
    rw [heq] at hblanks
    have hfile := Leads.mark start [] [] (m := .endOfFile) (by decide) rfl
    exact hblanks.trans hfile [] (.nil start)
  · next c cs heq =>
    rw [heq] at hblanks
    split
    · next hskip =>
      have hline : Leads start (c :: cs) [] (start + byteSize (lineOf (c :: cs)))
          (afterLine (c :: cs)) := by
        rcases Bool.or_eq_true _ _ ▸ hskip with hempty | hcomment
        · have hleads := Leads.blanks start (afterLine (c :: cs))
            (isBlank_of_isEmpty_trim hempty)
          rwa [lineOf, afterLine, List.takeWhile_append_dropWhile] at hleads
        · exact comment_leads start (isPrefix_of_startsWith hcomment)
      -- the line feed behind the line goes with it
      rcases afterLine_cases (c :: cs) with hafter | ⟨more, hafter⟩
      · rw [hafter] at hline ⊢
        exact hblanks.trans hline
      · rw [hafter] at hline ⊢
        exact (hblanks.trans hline).trans (.stretch _ ['\n'] (.blank (by decide)) rfl)
    · exact hblanks.cuts (openLine_cuts start (c :: cs))

/-! ## Text -/

/-- Free text that says nothing is passed over: it is carriage returns, and a backslash if it ends the
source. -/
theorem textRun_leads_of_nil (offset : Nat) (cs : List Char) (h : (textRun offset cs).text = []) :
    Leads offset cs [] (textRun offset cs).offset (textRun offset cs).rest := by
  fun_induction textRun offset cs with
  | case1 cs offset _ => exact .refl _ _
  | case2 offset _ => exact .refl _ _
  | case3 offset cs _ ih =>
    exact (Leads.stretch offset ['\r'] (.blank (by decide)) rfl).trans (ih h)
  | case4 offset _ => exact .stretch offset ['\\'] .backslash rfl
  | case5 offset c cs run _ _ _ => cases h
  | case6 offset c cs run _ _ _ => cases h
  | case7 offset c cs _ _ _ _ _ => cases h

/-- Free text is one token after its errors, or no token if it says nothing. -/
theorem textRun_leads (start : Nat) (rest : List Char) :
    Leads start rest ((textRun start rest).errors.map .error ++
      if (textRun start rest).text.isEmpty then []
      else [.ok ⟨.text (String.ofList (textRun start rest).text), .range start (textRun start rest).offset⟩])
      (textRun start rest).offset (textRun start rest).rest := by
  refine (Leads.reports _).trans ?_
  split
  · next hempty => exact textRun_leads_of_nil start rest (List.isEmpty_iff.mp hempty)
  · next hne =>
    -- what was read spells the token, and is rewritten in the place of the rest only
    obtain ⟨piece, hpiece, hstop, hsaid⟩ := textRun_reads start rest
    rw [hstop, hsaid]
    conv => arg 2; rw [hpiece]
    refine Leads.token ⟨rfl, fun hnil => hne ?_⟩ rfl
    rw [hsaid, List.isEmpty_iff, ← String.ofList_eq_empty_iff]
    exact hnil

/-- Free text is cut into the text with its escapes, and the mark behind it. -/
theorem stepText_cuts (start : Nat) (rest : List Char) : Cuts start rest (stepText start rest) := by
  have hitems := textRun_leads start rest
  have hstops := stopsText_textRun start rest
  unfold stepText
  simp only
  generalize textRun start rest = run at hitems hstops
  split
  · next heq =>
    rw [heq] at hitems
    exact hitems.trans (.mark _ ['\x7b'] _ (by decide) rfl)
  · next heq =>
    rw [heq] at hitems
    exact hitems.trans (.mark _ ['<', '<'] _ (by decide) rfl)
  · next heq =>
    rw [heq] at hitems
    exact hitems.trans (.mark _ ['#', '\x7b'] _ (by decide) rfl)
  · next heq =>
    rw [heq] at hitems
    exact hitems.trans (.mark _ ['-', '>'] _ (by decide) rfl)
  · next hbrace hdirective hhash harrow =>
    exact hitems.cuts (endLine_cuts _ (stopsText_line hstops hbrace hdirective hhash harrow))

/-! ## Code -/

/-- A lexeme is cut off with all its characters, or one character is reported. -/
theorem stepLexeme_cuts (mode : Mode) (start : Nat) (c : Char) (cs : List Char) :
    Cuts start (c :: cs) (stepLexeme mode start c cs) := by
  unfold stepLexeme
  simp only
  split
  · next heq =>
    obtain ⟨piece, hpiece, hwidth, hm⟩ := punctuation?_spells heq
    rw [hpiece]
    exact Leads.mark start piece _ hm hwidth
  · split
    · next hquote =>
      subst hquote
      obtain ⟨piece, hpiece, hstop, hsaid⟩ := stringRun_reads start (start + 1) cs
      refine (Leads.reports _).trans ?_
      rw [hstop, hsaid, Nat.add_assoc]
      conv => arg 2; rw [hpiece]
      have hwritten : (Lexeme.string (String.ofList (unquoted piece))).WrittenAs ('"' :: piece) :=
        ⟨piece, rfl, rfl⟩
      exact Leads.token hwritten rfl
    · split
      · next hdigit =>
        obtain ⟨hsplit, hdecimal⟩ := numberDigits_spells hdigit cs
        obtain ⟨x, hx⟩ := hdecimal.exists_parse?
        rw [hx]
        conv => arg 2; rw [hsplit]
        exact Leads.token ⟨hdecimal, hx⟩ hdecimal.byteSize
      · split
        · next hstart =>
          obtain ⟨hname, hwidth⟩ := word_spells hstart cs
          conv => arg 2; rw [← List.takeWhile_append_dropWhile (p := isNameChar) (l := c :: cs)]
          cases hkey : keyword? (String.ofList ((c :: cs).takeWhile isNameChar)) with
          | some m => exact Leads.mark start _ _ (keyword?_spells hkey) hwidth
          | none => exact Leads.token ⟨rfl, hname, hkey⟩ hwidth
        · exact Leads.stretch start [c] (.unexpected c) rfl

/-- Code is cut into blanks and lexemes, comments and line feeds. -/
theorem stepCode_cuts (mode : Mode) (offset : Nat) (rest : List Char) :
    Cuts offset rest (stepCode mode offset rest) := by
  have hblanks := inlineBlanks_leads offset rest
  unfold stepCode
  simp only
  generalize offset + byteSize (rest.takeWhile isInlineBlank) = start at hblanks
  split
  · next heq =>
    rw [heq] at hblanks
    exact hblanks.cuts (endLine_cuts start (.inl rfl))
  · next c cs heq =>
    rw [heq] at hblanks
    split
    · next hc =>
      subst hc
      exact hblanks.cuts (endLine_cuts start (.inr ⟨cs, rfl⟩))
    · next hc =>
      split
      · next hcomment =>
        have hprefix : ['/', '/'] <+: lineOf (c :: cs) := by
          obtain ⟨more, hmore⟩ := isPrefix_of_startsWith hcomment
          rw [← hmore]
          exact ⟨lineOf more, rfl⟩
        exact (hblanks.trans (comment_leads start hprefix)).cuts
          (endLine_cuts _ (afterLine_cases (c :: cs)))
      · exact hblanks.cuts (stepLexeme_cuts mode start c cs)

/-- What a step yields is what stands in the stretches it takes. -/
theorem step_cuts (s : Scan) : Cuts s.offset s.rest s.step := by
  unfold step
  split
  · exact stepLineStart_cuts _ _
  · exact stepText_cuts _ _
  · exact stepCode_cuts _ _ _

/-! ## Runs -/

/-- A scan that is given enough steps cuts up all that it has before it. -/
theorem run_cut {fuel : Nat} {s : Scan} (hfuel : s.size < fuel) : Cut s.offset s.rest (run fuel s) := by
  induction fuel generalizing s with
  | zero => omega
  | succ fuel ih =>
    have hsteps := step_steps s
    have hcuts := step_cuts s
    rw [run]
    generalize s.step = x at hsteps hcuts ⊢
    cases hsteps with
    | on _ hsize => exact hcuts _ (ih (by omega))
    | last _ _ => exact hcuts

/-! ## What a cut accounts for -/

/-- Why a character is in no token: what stands before it and after it decides, or an error names it. -/
inductive LeftOut (offset : Nat) (items : List ScanItem) (before : List Char) (c : Char) (after : List Char) :
    Prop where
  | blank : isBlank c = true → LeftOut offset items before c after
  /-- The character is in a comment, and no token reaches into that comment. -/
  | comment (front : List Char) {start more back : List Char} :
      before = front ++ start → after = more ++ back → IsComment (start ++ c :: more) back →
      (∀ t ∈ tokensOf items, t.span.stop ≤ offset + byteSize front ∨
        offset + byteSize (front ++ (start ++ c :: more)) ≤ t.span.start) →
      LeftOut offset items before c after
  | unexpected : .error (.unexpectedCharacter c (offset + byteSize before)) ∈ items →
      LeftOut offset items before c after
  | backslash : c = '\\' → after = [] → LeftOut offset items before c after

/-- Every token of a cut stands in front of some rest of the text. -/
theorem Cut.exists_standsAt (h : Cut offset cs items) {t : Token} (ht : t ∈ tokensOf items) :
    ∃ before piece after, cs = before ++ piece ++ after ∧ t.StandsAt (offset + byteSize before) piece := by
  induction h with
  | nil offset => cases ht
  | @cons offset first rest found items hfirst _ ih =>
    rw [tokensOf_append, List.mem_append] at ht
    rcases ht with ht | ht
    · cases hfirst with
      | token hstands =>
        cases List.mem_singleton.mp ht
        exact ⟨[], first, rest, rfl, hstands⟩
      | _ => cases ht
    · obtain ⟨before, piece, after, rfl, hstands⟩ := ih ht
      refine ⟨first ++ before, piece, after, by simp only [List.append_assoc], ?_⟩
      rwa [byteSize_append, ← Nat.add_assoc]

/-- No token of a cut starts before it. -/
theorem Cut.le_start (h : Cut offset cs items) {t : Token} (ht : t ∈ tokensOf items) :
    offset ≤ t.span.start := by
  obtain ⟨before, piece, _, _, hstands⟩ := h.exists_standsAt ht
  rw [hstands.span]
  exact Nat.le_add_right _ _

/-- A token that is yielded for a stretch stops where the stretch does. -/
theorem Stretch.stop_eq {found : List ScanItem} (h : Stretch offset piece rest found) {t : Token}
    (ht : t ∈ tokensOf found) : t.span.stop = offset + byteSize piece := by
  cases h with
  | token hstands =>
    cases List.mem_singleton.mp ht
    rw [hstands.span, Span.stop_range (Nat.le_add_right _ _)]
  | _ => cases ht

/-- The tokens of a cut stand in order, and none begins before the end of another. -/
theorem Cut.pairwise (h : Cut offset cs items) :
    (tokensOf items).Pairwise fun t u => t.span.stop ≤ u.span.start := by
  induction h with
  | nil offset => exact .nil
  | @cons offset first rest found items hfirst hrest ih =>
    rw [tokensOf_append, List.pairwise_append]
    refine ⟨?_, ih, ?_⟩
    · cases hfirst with
      | token _ => exact List.pairwise_singleton _ _
      | _ => exact .nil
    · intro t ht u hu
      rw [hfirst.stop_eq ht]
      exact hrest.le_start hu

theorem append_cons_eq_singleton {before more : List Char} {c d : Char} (h : before ++ c :: more = [d]) :
    before = [] ∧ c = d ∧ more = [] := by
  simpa [List.append_eq_singleton_iff] using h

/-- A character of two texts in a row is in the second one or in the first one. -/
theorem append_eq_append_cons {first before after : List Char} {c : Char}
    (h : first ++ rest = before ++ c :: after) :
    (∃ behind, before = first ++ behind ∧ rest = behind ++ c :: after) ∨
      ∃ more, first = before ++ c :: more ∧ after = more ++ rest := by
  rcases List.append_eq_append_iff.mp h with hbehind | ⟨inside, hfirst, hinside⟩
  · exact .inl hbehind
  · cases inside with
    | nil => exact .inl ⟨[], by simpa using hfirst.symm, hinside.symm⟩
    | cons d more =>
      cases hinside
      exact .inr ⟨more, hfirst, rfl⟩

/-- A character of a stretch is in its token or left out, if all tokens behind the stretch start there. -/
theorem Stretch.covers_or_leftOut {before more : List Char} {found : List ScanItem} {c : Char}
    (h : Stretch offset (before ++ c :: more) rest found)
    (hitems : ∀ t ∈ tokensOf items, offset + byteSize (before ++ c :: more) ≤ t.span.start) :
    (∃ t ∈ tokensOf found, t.span.Covers (offset + byteSize before)) ∨
      LeftOut offset (found ++ items) before c (more ++ rest) := by
  have hsize : 0 < c.utf8Size := c.utf8Size_pos
  generalize hpiece : before ++ c :: more = piece at h hitems
  cases h with
  | token hstands =>
    refine .inl ⟨_, List.mem_singleton_self _, ?_⟩
    rw [hstands.span, ← hpiece, byteSize_append, byteSize_cons, Span.Covers,
      Span.stop_range (Nat.le_add_right _ _)]
    exact ⟨Nat.le_add_right _ _, by omega⟩
  | blank hblank =>
    obtain ⟨rfl, rfl, rfl⟩ := append_cons_eq_singleton hpiece
    exact .inr (.blank hblank)
  | comment hcomment =>
    subst hpiece
    exact .inr (.comment [] rfl rfl hcomment fun t ht => .inr (hitems t ht))
  | unexpected d =>
    obtain ⟨rfl, rfl, rfl⟩ := append_cons_eq_singleton hpiece
    exact .inr (.unexpected (List.mem_cons_self ..))
  | backslash =>
    obtain ⟨rfl, rfl, rfl⟩ := append_cons_eq_singleton hpiece
    exact .inr (.backslash rfl rfl)
  | report e => simp at hpiece

/-- What is left out behind a stretch is left out of the whole. -/
theorem LeftOut.behind {found : List ScanItem} (hfirst : Stretch offset piece rest found)
    {before after : List Char} {c : Char} (h : LeftOut (offset + byteSize piece) items before c after) :
    LeftOut offset (found ++ items) (piece ++ before) c after := by
  cases h with
  | blank hblank => exact .blank hblank
  | @comment front start more back hbefore hafter hcomment htokens =>
    refine .comment (piece ++ front) (by rw [hbefore, List.append_assoc]) hafter hcomment ?_
    intro t ht
    rw [tokensOf_append, List.mem_append] at ht
    rw [List.append_assoc, byteSize_append, byteSize_append, ← Nat.add_assoc, ← Nat.add_assoc]
    rcases ht with ht | ht
    · -- a token of the stretch ends where the text behind it starts
      rw [hfirst.stop_eq ht]
      exact .inl (Nat.le_add_right _ _)
    · exact htokens t ht
  | unexpected hmem =>
    refine .unexpected (List.mem_append_right _ ?_)
    rwa [byteSize_append, ← Nat.add_assoc]
  | backslash hc hafter => exact .backslash hc hafter

/-- Every character of a cut is in a token or left out for a reason. -/
theorem Cut.covers_or_leftOut (h : Cut offset cs items) {before after : List Char} {c : Char}
    (hcs : cs = before ++ c :: after) :
    (∃ t ∈ tokensOf items, t.span.Covers (offset + byteSize before)) ∨
      LeftOut offset items before c after := by
  induction h generalizing before with
  | nil offset => simp at hcs
  | @cons offset first rest found items hfirst hrest ih =>
    rw [tokensOf_append]
    rcases append_eq_append_cons hcs with ⟨behind, rfl, hbehind⟩ | ⟨more, rfl, rfl⟩
    · -- the character is behind the first stretch, whose tokens end before it
      rcases ih hbehind with ⟨t, ht, hcovers⟩ | hleft
      · rw [byteSize_append, ← Nat.add_assoc]
        exact .inl ⟨t, List.mem_append_right _ ht, hcovers⟩
      · exact .inr (hleft.behind hfirst)
    · -- the character is in the first stretch
      rcases hfirst.covers_or_leftOut fun t ht => hrest.le_start ht with ⟨t, ht, hcovers⟩ | hleft
      · exact .inl ⟨t, List.mem_append_left _ ht, hcovers⟩
      · exact .inr hleft

end Scan

/-- The tokens of a source cut it up.  Each stands where its span says and is written there, they stand in
order and apart, and a character that is in none of them is blank, in a comment, reported as unexpected, or a
backslash that ends the source. -/
theorem scan_partition (source : String) :
    (∀ t ∈ tokensOf (scan source), ∃ before piece after, source.toList = before ++ piece ++ after ∧
        t.StandsAt (byteSize before) piece) ∧
      (tokensOf (scan source)).Pairwise (fun t u => t.span.stop ≤ u.span.start) ∧
      ∀ before c after, source.toList = before ++ c :: after →
        (∃ t ∈ tokensOf (scan source), t.span.Covers (byteSize before)) ∨
          Scan.LeftOut 0 (scan source) before c after := by
  have hcut : Scan.Cut 0 source.toList (scan source) :=
    Scan.run_cut (s := ⟨.lineStart, 0, source.toList⟩) (by simp [Scan.size])
  refine ⟨fun t ht => ?_, hcut.pairwise, fun before c after hcs => ?_⟩
  · simpa using hcut.exists_standsAt ht
  · simpa using hcut.covers_or_leftOut hcs

end Colloquy
