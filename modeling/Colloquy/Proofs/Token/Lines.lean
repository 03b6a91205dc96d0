import Colloquy.Proofs.Token.Partition
import Colloquy.Proofs.Token.Reach
import Colloquy.Proofs.Token.Stream

/-!
# Tokens line by line

A source is made of lines, and how one of them ends is nothing to the next.  In front of a line feed a step
of a scan goes on, or ends the line, or has swallowed the line feed with free text, and which of these it does is
decided before the line feed (`step_lined`).  So up to a line feed that was swallowed, which is reported,
no token but a line break covers one, and every line is scanned as if it were the first
(`scan_line_by_line`).
-/

namespace Colloquy

open Text

namespace Scan

variable {offset n : Nat} {a : List Char} {items found : List ScanItem}

/-! ## Steps in front of a line feed -/

/-- Apart from line breaks, tokens end before an offset. -/
def Within (n : Nat) (items : List ScanItem) : Prop :=
  ∀ t ∈ tokensOf items, t.is .newline = true ∨ t.span.stop ≤ n

namespace Within

theorem nil (n : Nat) : Within n [] := fun _ ht => absurd ht List.not_mem_nil

/-- Items that stay in a line stay in it one behind the other. -/
theorem append {more : List ScanItem} (h : Within n items) (h' : Within n more) :
    Within n (items ++ more) := by
  intro t ht
  rw [tokensOf_append, List.mem_append] at ht
  exact ht.elim (h t) (h' t)

theorem mono {n' : Nat} (h : Within n items) (hle : n ≤ n') : Within n' items :=
  fun t ht => (h t ht).imp_right fun hstop => Nat.le_trans hstop hle

/-- Errors are no tokens, so they stay in any line. -/
theorem errors (n : Nat) (es : List ScanError) : Within n (es.map .error) := by
  intro t ht
  obtain ⟨item, hitem, hok⟩ := List.mem_filterMap.mp ht
  obtain ⟨e, -, rfl⟩ := List.mem_map.mp hitem
  cases hok

theorem token {t : Token} (h : t.span.stop ≤ n) : Within n [.ok t] := by
  intro u hu
  obtain rfl := List.mem_singleton.mp hu
  exact .inr h

theorem mark (m : Mark) {start stop : Nat} (hle : start ≤ stop) (h : stop ≤ n) :
    Within n [markItem m start stop] := token ((Span.stop_range hle).trans_le h)

theorem newline (n start stop : Nat) : Within n [markItem .newline start stop] := by
  intro t ht
  obtain rfl := List.mem_singleton.mp ht
  exact .inl (decide_eq_true rfl)

end Within

/-- The line feed at an offset was taken into a token of text, as the character of an unknown escape. -/
structure Swallows (n : Nat) (items : List ScanItem) : Prop where
  reported : .error (.unknownEscape '\n' (.range (n - 1) (n + 1))) ∈ items
  taken : ∃ t ∈ tokensOf items, t.span.Covers n ∧ ∃ s, t.lexeme = .text s ∧ '\n' ∈ s.toList

/-- What steps in front of a line feed do, whatever stands behind it: they go on in front of it, or end the
line with it, or take it into text. -/
inductive Lined (offset : Nat) (a : List Char) (f : List Char → Step) : Prop where
  | on {items : List ScanItem} (mode : Mode) (piece more : List Char) : a = piece ++ more →
      Within (offset + byteSize piece) items →
      (∀ b, f b = (items, some ⟨mode, offset + byteSize piece, more ++ '\n' :: b⟩)) → Lined offset a f
  | ends {items : List ScanItem} : Within (offset + byteSize a) items →
      (∀ b, f b = (items, some ⟨.lineStart, offset + byteSize a + 1, b⟩)) → Lined offset a f
  | swallows (front : List Char) : a = front ++ ['\\'] →
      (∀ b, Swallows (offset + byteSize a) (f b).1) → Lined offset a f

/-- Blanks or a comment that are passed over first. -/
theorem Lined.behind (front : List Char) {f : List Char → Step}
    (h : Lined (offset + byteSize front) a f) : Lined offset (front ++ a) f := by
  cases h with
  | on mode piece more ha hitems hf =>
    rw [Nat.add_assoc, ← byteSize_append] at hitems
    simp only [Nat.add_assoc, ← byteSize_append] at hf
    exact .on mode (front ++ piece) more (by rw [ha, List.append_assoc]) hitems hf
  | ends hitems hf =>
    rw [Nat.add_assoc, ← byteSize_append] at hitems
    rw [Nat.add_assoc offset, ← byteSize_append] at hf
    exact .ends hitems hf
  | swallows first ha hf =>
    rw [Nat.add_assoc, ← byteSize_append] at hf
    exact .swallows (front ++ first) (by rw [ha, List.append_assoc]) hf

/-- A line ends with its line feed. -/
theorem endLine_lined (offset : Nat) (h : a = [] ∨ ∃ more, a = '\n' :: more) :
    Lined offset a fun b => endLine offset (a ++ '\n' :: b) := by
  rcases h with rfl | ⟨more, rfl⟩
  · exact .ends (.newline _ _ _) fun _ => rfl
  · exact .on .lineStart ['\n'] more rfl (.newline _ _ _) fun _ => rfl

theorem isInlineBlank_newline : isInlineBlank '\n' = false := by decide

/-- The star of an option, and the bracket of its guard. -/
theorem openOption_lined (offset : Nat) (cs : List Char) : Lined offset ('*' :: cs) fun b =>
    match (cs ++ '\n' :: b).dropWhile isInlineBlank with
    | '[' :: rest =>
      ([markItem .star offset (offset + 1),
        markItem .openBracket (offset + 1 + byteSize ((cs ++ '\n' :: b).takeWhile isInlineBlank))
          (offset + 1 + byteSize ((cs ++ '\n' :: b).takeWhile isInlineBlank) + 1)],
        some ⟨.guard 0, offset + 1 + byteSize ((cs ++ '\n' :: b).takeWhile isInlineBlank) + 1, rest⟩)
    | rest => ([markItem .star offset (offset + 1)],
        some ⟨.text, offset + 1 + byteSize ((cs ++ '\n' :: b).takeWhile isInlineBlank), rest⟩) := by
  simp only [takeWhile_newline isInlineBlank_newline, dropWhile_newline isInlineBlank_newline]
  have hsplit := List.takeWhile_append_dropWhile (p := isInlineBlank) (l := cs)
  generalize cs.takeWhile isInlineBlank = blanks at hsplit ⊢
  generalize cs.dropWhile isInlineBlank = rest at hsplit ⊢
  subst hsplit
  have hstar : ∀ n, offset + 1 ≤ n → Within n [markItem .star offset (offset + 1)] :=
    fun n => .mark .star (Nat.le_add_right _ _)
  have hsize : byteSize ('*' :: blanks) = 1 + byteSize blanks := rfl
  by_cases hguard : ∃ more, rest = '[' :: more
  · obtain ⟨more, rfl⟩ := hguard
    have hsize' : byteSize ('*' :: (blanks ++ ['['])) = 1 + byteSize blanks + 1 := by
      rw [byteSize_cons, byteSize_append, ← Nat.add_assoc]
      rfl
    have hitems : Within (offset + byteSize ('*' :: (blanks ++ ['['])))
        [markItem .star offset (offset + 1), markItem .openBracket (offset + 1 + byteSize blanks)
          (offset + 1 + byteSize blanks + 1)] := by
      refine (hstar _ (by omega)).append (.mark .openBracket (Nat.le_add_right _ _) ?_)
      rw [hsize']
      omega
    refine .on (.guard 0) ('*' :: (blanks ++ ['['])) more (by simp) hitems fun b => ?_
    rw [hsize', ← Nat.add_assoc, ← Nat.add_assoc]
    rfl
  · refine .on .text ('*' :: blanks) rest rfl (hstar _ (by omega)) fun b => ?_
    rw [hsize, ← Nat.add_assoc]
    split
    · next heq =>
      exact absurd heq (append_newline_ne (by decide) (fun ds hds => hguard ⟨ds, hds⟩) b _)
    · rfl

/-- Opening a line is decided in front of its line feed. -/
theorem openLine_lined (offset : Nat) (a : List Char) :
    Lined offset a fun b => openLine offset (a ++ '\n' :: b) := by
  simp only [openLine, lineOf_newline]
  split
  · exact .on .code [] a rfl (.nil _) fun _ => rfl
  · cases a with
    | nil => exact .on .text [] [] rfl (.nil _) fun _ => rfl
    | cons c cs =>
      by_cases hstar : c = '*'
      · subst hstar
        exact openOption_lined offset cs
      · by_cases hcolon : c = ':'
        · subst hcolon
          exact .on .text [':'] cs rfl (.mark .colon (Nat.le_add_right _ _) (Nat.le_refl _)) fun _ => rfl
        · by_cases hspeakers : hasSpeakers (lineOf (c :: cs)) = true
          · refine .on .speakers [] (c :: cs) rfl (.nil _) fun b => ?_
            simp only [List.cons_append, if_pos hspeakers]
            split
            · next heq => exact absurd (List.cons.inj heq).1 hstar
            · next heq => exact absurd (List.cons.inj heq).1 hcolon
            · rfl
          · refine .on .text [] (c :: cs) rfl (.nil _) fun b => ?_
            simp only [List.cons_append, if_neg hspeakers]
            split
            · next heq => exact absurd (List.cons.inj heq).1 hstar
            · next heq => exact absurd (List.cons.inj heq).1 hcolon
            · rfl

/-- The start of a line is: a blank line and a comment take the line feed, any other line is opened. -/
theorem stepLineStart_lined (offset : Nat) (a : List Char) :
    Lined offset a fun b => stepLineStart offset (a ++ '\n' :: b) := by
  simp only [stepLineStart, takeWhile_newline isInlineBlank_newline,
    dropWhile_newline isInlineBlank_newline]
  have hsplit := List.takeWhile_append_dropWhile (p := isInlineBlank) (l := a)
  generalize a.takeWhile isInlineBlank = blanks at hsplit ⊢
  generalize a.dropWhile isInlineBlank = rest at hsplit ⊢
  subst hsplit
  apply Lined.behind
  generalize offset + byteSize blanks = start
  cases rest with
  | nil => exact .ends (.nil _) fun _ => rfl
  | cons c cs =>
    have hline := lineOf_newline (c :: cs)
    have hafter := afterLine_newline (c :: cs)
    have hwhole : lineOf (c :: cs) ++ afterLine (c :: cs) = c :: cs := List.takeWhile_append_dropWhile
    simp only [List.cons_append] at hline hafter ⊢
    simp only [hline, hafter]
    split
    · -- the line is left out, with its line feed
      rcases afterLine_cases (c :: cs) with hnil | ⟨more, hmore⟩
      · rw [hnil, List.append_nil] at hwhole
        rw [hnil, hwhole]
        exact .ends (.nil _) fun _ => rfl
      · rw [hmore] at hwhole ⊢
        refine .on .lineStart (lineOf (c :: cs) ++ ['\n']) more (by simp [hwhole]) (.nil _) fun b => ?_
        rw [byteSize_append]
        rfl
    · exact openLine_lined start (c :: cs)

/-- What was read as text is yielded first. -/
theorem mem_stepText (start : Nat) (rest : List Char) (item : ScanItem)
    (h : item ∈ (textRun start rest).errors.map .error ++
      if (textRun start rest).text.isEmpty then []
      else [.ok ⟨.text (String.ofList (textRun start rest).text), .range start (textRun start rest).offset⟩]) :
    item ∈ (stepText start rest).1 := by
  unfold stepText
  simp only
  split
  all_goals exact List.mem_append_left _ h

/-- Free text is: it goes on, or ends the line, or a backslash in front of the line feed swallows it. -/
theorem stepText_lined (offset : Nat) (a : List Char) :
    Lined offset a fun b => stepText offset (a ++ '\n' :: b) := by
  rcases textRun_newline offset a with ⟨text, errors, piece, more, rfl, hrun⟩ | ⟨⟨front, rfl⟩, hover⟩
  · have hstops := stopsText_textRun offset (piece ++ more ++ '\n' :: [])
    rw [hrun [], stopsText_newline] at hstops
    simp only [stepText, hrun]
    have hitems : Within (offset + byteSize piece) (errors.map .error ++ if text.isEmpty then []
        else [.ok ⟨.text (String.ofList text), .range offset (offset + byteSize piece)⟩]) := by
      refine (Within.errors _ errors).append ?_
      split
      · exact .nil _
      · exact .token (Span.stop_range (Nat.le_add_right _ _)).le
    generalize (errors.map .error ++ if text.isEmpty then []
      else [.ok ⟨.text (String.ofList text), .range offset (offset + byteSize piece)⟩] : List ScanItem) =
        items at hitems ⊢
    apply Lined.behind
    generalize offset + byteSize piece = stop at hitems ⊢
    have hmark : ∀ m width, Within (stop + width) (items ++ [markItem m stop (stop + width)]) :=
      fun m width => (hitems.mono (Nat.le_add_right _ _)).append
        (.mark m (Nat.le_add_right _ _) (Nat.le_refl _))
    unfold stopsText at hstops
    split at hstops
    · exact .ends (hitems.append (.newline _ _ _)) fun _ => rfl
    · next cs => exact .on .lineStart ['\n'] cs rfl (hmark .newline 1) fun _ => rfl
    · next cs =>
      simp only [List.cons_append, lineOf_newline]
      exact .on _ ['\x7b'] cs rfl (hmark .openBrace 1) fun _ => rfl
    · next cs => exact .on .code ['<', '<'] cs rfl (hmark .directiveOpen 2) fun _ => rfl
    · next cs => exact .on .code ['#', '\x7b'] cs rfl (hmark .hashOpen 2) fun _ => rfl
    · next cs => exact .on .code ['-', '>'] cs rfl (hmark .arrow 2) fun _ => rfl
    · cases hstops
  · -- the line feed is in the text
    refine .swallows front rfl fun b => ?_
    obtain ⟨hreported, hsaid, hbeyond⟩ := hover b
    have hmem := mem_stepText offset (front ++ ['\\'] ++ '\n' :: b)
    rw [if_neg (by simpa using List.ne_nil_of_mem hsaid)] at hmem
    refine ⟨hmem _ (List.mem_append_left _ (List.mem_map_of_mem hreported)), ?_⟩
    have htoken := hmem _ (List.mem_append_right _ (List.mem_singleton_self _))
    have hstart : offset ≤ offset + byteSize (front ++ ['\\']) := Nat.le_add_right _ _
    refine ⟨_, List.mem_filterMap.mpr ⟨_, htoken, rfl⟩, ⟨hstart, ?_⟩, _, rfl, ?_⟩
    · rwa [Span.stop_range (hstart.trans hbeyond.le)]
    · rwa [String.toList_ofList]

/-- A lexeme of code is, also a string that the line feed cuts off. -/
theorem stepLexeme_lined (mode : Mode) (offset : Nat) (c : Char) (cs : List Char) :
    Lined offset (c :: cs) fun b => stepLexeme mode offset c (cs ++ '\n' :: b) := by
  simp only [stepLexeme, punctuation?_newline]
  cases hmark : punctuation? (c :: cs) with
  | some x =>
    obtain ⟨m, width, rest⟩ := x
    obtain ⟨piece, hpiece, hwidth, -⟩ := punctuation?_spells hmark
    subst hwidth
    exact .on (modeAfter m mode) piece rest hpiece
      (.mark m (Nat.le_add_right _ _) (Nat.le_refl _)) fun _ => rfl
  | none =>
    simp only [Option.map_none]
    split
    · next hquote =>
      subst hquote
      obtain ⟨value, errors, piece, more, rfl, hrun⟩ := stringRun_newline offset (offset + 1) cs
      simp only [hrun]
      have hsize : offset + 1 + byteSize piece = offset + byteSize ('"' :: piece) := by
        rw [byteSize_cons, ← Nat.add_assoc]
        rfl
      rw [hsize]
      refine .on mode ('"' :: piece) more rfl ((Within.errors _ errors).append ?_) fun _ => rfl
      exact .token (Span.stop_range (Nat.le_add_right _ _)).le
    · have hname : isNameChar '\n' = false := by decide
      simp only [← List.cons_append, numberDigits_newline, takeWhile_newline hname, dropWhile_newline hname]
      split
      · next hdigit =>
        obtain ⟨hsplit, hdecimal⟩ := numberDigits_spells hdigit cs
        rw [← hdecimal.byteSize]
        exact .on mode _ _ hsplit (.token (Span.stop_range (Nat.le_add_right _ _)).le) fun _ => rfl
      · split
        · next hstart =>
          obtain ⟨-, hwidth⟩ := word_spells hstart cs
          rw [← hwidth]
          exact .on mode _ _ List.takeWhile_append_dropWhile.symm
            (.token (Span.stop_range (Nat.le_add_right _ _)).le) fun _ => rfl
        · exact .on mode [c] cs rfl (.errors _ [_]) fun _ => rfl

/-- Code is: blanks with a lexeme, or the end of the line. -/
theorem stepCode_lined (mode : Mode) (offset : Nat) (a : List Char) :
    Lined offset a fun b => stepCode mode offset (a ++ '\n' :: b) := by
  simp only [stepCode, takeWhile_newline isInlineBlank_newline,
    dropWhile_newline isInlineBlank_newline]
  have hsplit := List.takeWhile_append_dropWhile (p := isInlineBlank) (l := a)
  generalize a.takeWhile isInlineBlank = blanks at hsplit ⊢
  generalize a.dropWhile isInlineBlank = rest at hsplit ⊢
  subst hsplit
  apply Lined.behind
  generalize offset + byteSize blanks = start
  cases rest with
  | nil => exact endLine_lined start (.inl rfl)
  | cons c cs =>
    have hslashes := startsWith_newline (s := "//") (by decide) (c :: cs)
    have hline := lineOf_newline (c :: cs)
    have hafter := afterLine_newline (c :: cs)
    simp only [List.cons_append] at hslashes hline hafter ⊢
    simp only [hslashes, hline, hafter]
    split
    · next hc =>
      subst hc
      exact endLine_lined start (.inr ⟨cs, rfl⟩)
    · split
      · have hends := (endLine_lined (start + byteSize (lineOf (c :: cs)))
          (afterLine_cases (c :: cs))).behind
        rwa [lineOf, afterLine, List.takeWhile_append_dropWhile] at hends
      · exact stepLexeme_lined mode start c cs

/-- Every step in front of a line feed is decided there, in all modes. -/
theorem step_lined (mode : Mode) (offset : Nat) (a : List Char) :
    Lined offset a fun b => step ⟨mode, offset, a ++ '\n' :: b⟩ := by
  cases mode with
  | lineStart => exact stepLineStart_lined offset a
  | text => exact stepText_lined offset a
  | code => exact stepCode_lined _ offset a
  | speakers => exact stepCode_lined _ offset a
  | placeholder depth => exact stepCode_lined _ offset a
  | guard depth => exact stepCode_lined _ offset a

/-! ## Runs over a line feed -/

/-- All that a scan yields. -/
def yields (s : Scan) : List ScanItem := s.run (s.size + 1)

/-- A scan yields what its step does, and then what is yielded from there. -/
theorem yields_of_step {s next : Scan} (h : s.step = (found, some next)) :
    s.yields = found ++ next.yields := by
  have hitems := ScanStream.items_step s
  rw [h] at hitems
  exact hitems.symm

/-- The last step of a scan yields the last of its items. -/
theorem yields_of_last {s : Scan} (h : s.step = (found, none)) : s.yields = found := by
  rw [yields, run, h]

theorem scan_eq_yields (source : String) : scan source = yields ⟨.lineStart, 0, source.toList⟩ :=
  run_congr (by simp [size]) (Nat.lt_succ_self _)

/-- What a step yields is yielded by the scan. -/
theorem mem_yields {s : Scan} {item : ScanItem} (h : item ∈ s.step.1) : item ∈ s.yields := by
  rw [yields, run]
  split
  · next heq => rwa [heq] at h
  · next heq =>
    rw [heq] at h
    exact List.mem_append_left _ h

theorem Swallows.mono (h : Swallows n items) (hsub : items ⊆ found) : Swallows n found := by
  obtain ⟨t, ht, hrest⟩ := h.taken
  obtain ⟨item, hitem, hok⟩ := List.mem_filterMap.mp ht
  exact ⟨hsub h.reported, t, List.mem_filterMap.mpr ⟨item, hsub hitem, hok⟩, hrest⟩

/-- A scan ends a line at a line feed and goes on behind it as if nothing stood in front, unless it took the
line feed into text. -/
theorem yields_lined (a : List Char) (mode : Mode) (offset : Nat) :
    (∃ xs, Within (offset + byteSize a) xs ∧ ∀ b, yields ⟨mode, offset, a ++ '\n' :: b⟩ =
      xs ++ yields ⟨.lineStart, offset + byteSize a + 1, b⟩) ∨
    (∃ front, a = front ++ ['\\']) ∧
      ∀ b, Swallows (offset + byteSize a) (yields ⟨mode, offset, a ++ '\n' :: b⟩) := by
  -- the induction is on what the scan has up to the line feed
  induction hsize : (⟨mode, offset, a ++ ['\n']⟩ : Scan).size using Nat.strong_induction_on
    generalizing a mode offset with
  | _ k ih =>
  cases step_lined mode offset a with
  | on next piece more ha hitems hstep =>
    subst ha hsize
    have hless : (⟨next, offset + byteSize piece, more ++ ['\n']⟩ : Scan).size <
        (⟨mode, offset, piece ++ more ++ ['\n']⟩ : Scan).size := by
      have hsteps := step_steps ⟨mode, offset, piece ++ more ++ ['\n']⟩
      rw [hstep []] at hsteps
      cases hsteps with
      | on _ hless => exact hless
    rw [byteSize_append, ← Nat.add_assoc]
    rcases ih _ hless more next (offset + byteSize piece) rfl with
      ⟨xs, hxs, hyields⟩ | ⟨⟨front, rfl⟩, hswallows⟩
    · refine .inl ⟨_, (hitems.mono (Nat.le_add_right _ _)).append hxs, fun b => ?_⟩
      rw [yields_of_step (hstep b), hyields b, List.append_assoc]
    · refine .inr ⟨⟨piece ++ front, (List.append_assoc _ _ _).symm⟩, fun b => ?_⟩
      rw [yields_of_step (hstep b)]
      exact (hswallows b).mono (List.subset_append_right _ _)
  | ends hitems hstep => exact .inl ⟨_, hitems, fun b => yields_of_step (hstep b)⟩
  | swallows front ha hstep =>
    exact .inr ⟨⟨front, ha⟩, fun b => (hstep b).mono fun _ => mem_yields⟩

end Scan

/-! ## Lines -/

/-- What a source yields from an offset on if a line starts there. -/
def scanLines (offset : Nat) (cs : List Char) : List ScanItem := Scan.yields ⟨.lineStart, offset, cs⟩

/-- What is scanned from the start of a source is the scan of it. -/
theorem scanLines_zero (cs : List Char) : scanLines 0 cs = scan (String.ofList cs) := by
  rw [Scan.scan_eq_yields, String.toList_ofList]
  rfl

/-- Two tokens that stand apart do not cover the same offset. -/
theorem eq_of_covers {ts : List Token} (h : ts.Pairwise fun t u => t.span.stop ≤ u.span.start)
    {t u : Token} {n : Nat} (ht : t ∈ ts) (hu : u ∈ ts) (htn : t.span.Covers n)
    (hun : u.span.Covers n) : t = u := by
  obtain ⟨htstart, htstop⟩ := htn
  obtain ⟨hustart, hustop⟩ := hun
  induction h with
  | nil => cases ht
  | cons hfirst _ ih =>
    rcases List.mem_cons.mp ht with rfl | ht'
    · rcases List.mem_cons.mp hu with rfl | hu'
      · rfl
      · have := hfirst u hu'
        omega
    · rcases List.mem_cons.mp hu with rfl | hu'
      · have := hfirst t ht'
        omega
      · exact ih ht' hu'

/-- A token on the lines behind an offset starts there or later. -/
theorem le_start_of_mem_scanLines {offset : Nat} {cs : List Char} {t : Token}
    (ht : t ∈ tokensOf (scanLines offset cs)) : offset ≤ t.span.start :=
  (Scan.run_cut (s := ⟨.lineStart, offset, cs⟩) (Nat.lt_succ_self _)).le_start ht

section

variable {source : String} {a b : List Char}

/-- A line feed ends its line, and the line behind it is scanned on its own; or text swallows it. -/
theorem scan_lined (hsource : source.toList = a ++ '\n' :: b) :
    (∀ t ∈ tokensOf (scan source), t.span.Covers (byteSize a) → t.is .newline = true) ∧
      (∃ xs, ∀ b', scan (String.ofList (a ++ '\n' :: b')) = xs ++ scanLines (byteSize a + 1) b') ∨
    (∃ front, a = front ++ ['\\']) ∧ Scan.Swallows (byteSize a) (scan source) := by
  have hlined := Scan.yields_lined a .lineStart 0
  rw [Nat.zero_add] at hlined
  rcases hlined with ⟨xs, hxs, hyields⟩ | ⟨hfront, hswallows⟩
  · refine .inl ⟨fun t ht hcovers => ?_, xs, fun b' => ?_⟩
    · rw [Scan.scan_eq_yields, hsource, hyields, Scan.tokensOf_append, List.mem_append] at ht
      obtain ⟨hstart, hstop⟩ := hcovers
      rcases ht with ht | ht
      · exact (hxs t ht).resolve_right (Nat.not_le.mpr hstop)
      · have := le_start_of_mem_scanLines ht
        omega
    · rw [Scan.scan_eq_yields, String.toList_ofList, hyields]
      rfl
  · refine .inr ⟨hfront, ?_⟩
    rw [Scan.scan_eq_yields, hsource]
    exact hswallows b

/-- A line feed in a token that is no line break was swallowed by that token. -/
theorem swallowed_of_covers (hsource : source.toList = a ++ '\n' :: b) {t : Token}
    (ht : t ∈ tokensOf (scan source)) (hline : t.is .newline = false)
    (hcovers : t.span.Covers (byteSize a)) :
    (∃ s, t.lexeme = .text s ∧ '\n' ∈ s.toList) ∧ (∃ front, a = front ++ ['\\']) ∧
      .error (.unknownEscape '\n' (.range (byteSize a - 1) (byteSize a + 1))) ∈ scan source := by
  rcases scan_lined hsource with ⟨hall, -⟩ | ⟨hfront, hreported, u, hu, hucovers, hlexeme⟩
  · simp [hall t ht hcovers] at hline
  · obtain rfl := eq_of_covers (scan_partition source).2.1 ht hu hcovers hucovers
    exact ⟨hlexeme, hfront, hreported⟩

end

/-! ## Payloads -/

namespace Scan

/-- A character that free text says is one of those that it is read from. -/
theorem mem_of_mem_unescaped {c : Char} {cs : List Char} (h : c ∈ unescaped cs) : c ∈ cs := by
  fun_induction unescaped cs with
  | case1 => exact h
  | case2 cs ih => exact List.mem_cons_of_mem _ (ih h)
  | case3 => cases h
  | case4 d cs ih =>
    rcases List.mem_cons.mp h with rfl | h
    · simp
    · exact List.mem_cons_of_mem _ (List.mem_cons_of_mem _ (ih h))
  | case5 d cs _ _ _ ih =>
    rcases List.mem_cons.mp h with rfl | h
    · exact List.mem_cons_self ..
    · exact List.mem_cons_of_mem _ (ih h)

/-- A string in which no line feed is written says one by an escape. -/
theorem escape_of_mem_unquoted {cs : List Char} (hcs : '\n' ∉ cs) (h : '\n' ∈ unquoted cs) :
    ['\\', 'n'] <:+: cs := by
  fun_induction unquoted cs with
  | case1 => cases h
  | case2 => cases h
  | case3 => cases h
  | case4 d cs ih =>
    rw [List.mem_cons, List.mem_cons, not_or, not_or] at hcs
    rcases List.mem_append.mp h with h | h
    · have hd : d = 'n' := by
        unfold stringEscape? at h
        split at h
        · rfl
        all_goals simp at h
      subst hd
      exact (List.prefix_append ['\\', 'n'] cs).isInfix
    · exact ((ih hcs.2.2 h).trans (List.suffix_cons d cs).isInfix).trans
        (List.suffix_cons _ _).isInfix
  | case5 d cs _ _ _ ih =>
    rw [List.mem_cons, not_or] at hcs
    rcases List.mem_cons.mp h with h | h
    · exact absurd h hcs.1
    · exact (ih hcs.2 h).trans (List.suffix_cons d cs).isInfix

end Scan

/-- The payload of a token is of its own line: names hold no line feed, strings only those that their escapes
stand for, and text only those of the source that the token covers. -/
def Token.SaysLine (source : String) (t : Token) : Prop :=
  match t.lexeme with
  | .identifier name => '\n' ∉ name.toList
  | .text s => '\n' ∈ s.toList → ∃ a b, source.toList = a ++ '\n' :: b ∧ t.span.Covers (byteSize a)
  | .string s => ∃ before written after, source.toList = before ++ '"' :: written ++ after ∧
      t.span = .range (byteSize before) (byteSize before + byteSize ('"' :: written)) ∧
      '\n' ∉ written ∧ s = String.ofList (Scan.unquoted written) ∧
      ('\n' ∈ s.toList → ['\\', 'n'] <:+: written)
  | _ => True

/-- A character of a piece that a token stands at is covered by the token. -/
theorem Token.StandsAt.covers {t : Token} {before front back : List Char} {c : Char}
    (h : t.StandsAt (byteSize before) (front ++ c :: back)) : t.span.Covers (byteSize (before ++ front)) := by
  have hsize : 0 < c.utf8Size := c.utf8Size_pos
  rw [h.span, Span.Covers, Span.stop_range (Nat.le_add_right _ _), byteSize_append, byteSize_append,
    byteSize_cons]
  exact ⟨Nat.le_add_right _ _, by omega⟩

/-- No token says a line feed, but for an escape in a string and what free text has swallowed. -/
theorem saysLine_of_mem {source : String} {t : Token} (ht : t ∈ tokensOf (scan source)) :
    t.SaysLine source := by
  obtain ⟨before, piece, after, hsource, hstands⟩ := (scan_partition source).1 t ht
  have hcovers : '\n' ∈ piece → ∃ a b, source.toList = a ++ '\n' :: b ∧ t.span.Covers (byteSize a) := by
    intro hmem
    obtain ⟨front, back, rfl⟩ := List.append_of_mem hmem
    exact ⟨before ++ front, back ++ after, by simp [hsource], hstands.covers⟩
  have hwritten := hstands.written
  rw [Token.SaysLine]
  split
  · next name hlexeme =>
    rw [hlexeme] at hwritten
    obtain ⟨rfl, hname, -⟩ := hwritten
    rw [String.toList_ofList]
    exact fun hmem => absurd (hname.2 _ hmem) (by decide)
  · next s hlexeme =>
    rw [hlexeme] at hwritten
    obtain ⟨rfl, -⟩ := hwritten
    rw [String.toList_ofList]
    exact fun hmem => hcovers (Scan.mem_of_mem_unescaped hmem)
  · next s hlexeme =>
    rw [hlexeme] at hwritten
    obtain ⟨written, rfl, rfl⟩ := hwritten
    have hline : '\n' ∉ written := by
      intro hmem
      obtain ⟨a, b, hsource, hcovers⟩ := hcovers (List.mem_cons_of_mem _ hmem)
      obtain ⟨⟨s, htext, -⟩, -⟩ := swallowed_of_covers hsource ht (by simp [Token.is, hlexeme]) hcovers
      rw [hlexeme] at htext
      cases htext
    refine ⟨before, written, after, hsource, hstands.span, hline, rfl, ?_⟩
    rw [String.toList_ofList]
    exact Scan.escape_of_mem_unquoted hline
  · trivial

/-! ## A source line by line -/

/-- The lines of a source are scanned one by one, up to one thing.  A backslash in text takes the line feed
behind it: this is reported, and the text goes on over the line feed.  No other token but a line break
covers a line feed, no other payload holds one that is not written as an escape, and whatever stands behind a
line feed that no text swallows is scanned as if nothing stood in front of it. -/
theorem scan_line_by_line (source : String) :
    (∀ t ∈ tokensOf (scan source), t.is .newline = false →
      ∀ a b, source.toList = a ++ '\n' :: b → t.span.Covers (byteSize a) →
        (∃ s, t.lexeme = .text s ∧ '\n' ∈ s.toList) ∧ (∃ front, a = front ++ ['\\']) ∧
          .error (.unknownEscape '\n' (.range (byteSize a - 1) (byteSize a + 1))) ∈ scan source) ∧
    (∀ t ∈ tokensOf (scan source), t.SaysLine source) ∧
    ∀ a b, source.toList = a ++ '\n' :: b →
      (∀ t ∈ tokensOf (scan source), t.span.Covers (byteSize a) → t.is .newline = true) →
        ∃ xs, ∀ b', scan (String.ofList (a ++ '\n' :: b')) = xs ++ scanLines (byteSize a + 1) b' := by
  refine ⟨fun t ht hline a b hsource => swallowed_of_covers hsource ht hline,
    fun t => saysLine_of_mem, fun a b hsource hlines => ?_⟩
  rcases scan_lined hsource with ⟨-, hxs⟩ | ⟨-, -, t, ht, hcovers, s, hlexeme, -⟩
  · exact hxs
  · have hline := hlines t ht hcovers
    simp [Token.is, hlexeme] at hline

/-- A text whose first line ends with a backslash. -/
def overrun : String := "=== a\nhi\\\nyou\n"

/-- The text goes on over the end of its line, so that no second line starts. -/
theorem overrun_swallows : ¬ ∀ t ∈ tokensOf (scan overrun), t.is .newline = false →
    (∀ a b, overrun.toList = a ++ '\n' :: b → ¬ t.span.Covers (byteSize a)) ∧
      ∀ s, t.lexeme = .text s → '\n' ∉ s.toList := by
  intro h
  have ht : (⟨.text "hi\nyou", ⟨6, 7⟩⟩ : Token) ∈ tokensOf (scan overrun) := by decide +kernel
  exact (h _ ht rfl).2 _ rfl (by decide)

end Colloquy
