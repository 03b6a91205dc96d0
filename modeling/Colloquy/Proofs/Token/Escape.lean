import Colloquy.Proofs.Token.Speakers

/-!
# Writing with escapes

A script can say everything.  Every string has a literal, and every text that does not break its line can
stand behind a colon: the characters that mean something to the scanner are written behind a backslash, or
as the letter of an escape.  The two readers of escapes take such characters one at a time, whatever stands
behind them (`stringRun_inString`, `textRun_inText`), so what was written is what is read, and nothing is
reported (`scan_escapes`).
-/

namespace Colloquy

open Text

namespace Scan

/-! ## Written characters -/

/-- A character as it is written in a string. -/
def inString : Char → List Char
  | '\n' => ['\\', 'n']
  | '\t' => ['\\', 't']
  | '"' => ['\\', '"']
  | '\\' => ['\\', '\\']
  | c => [c]

/-- A string between quotes. -/
def stringLiteral (s : String) : List Char := '"' :: (s.toList.flatMap inString ++ ['"'])

/-- A character as it is written in free text. -/
def inText (c : Char) : List Char :=
  if c ∈ ['\x7b', '\x7d', '#', '<', '-', '\\'] then ['\\', c] else [c]

/-- A text as it is written on a line. -/
def writtenText (t : String) : List Char := t.toList.flatMap inText

variable {tail : List Char}

/-! ## Strings -/

/-- A written character is read as itself, whatever stands behind it. -/
theorem stringRun_inString (start offset : Nat) (c : Char) (cs : List Char) :
    stringRun start offset (inString c ++ cs) =
      (stringRun start (offset + byteSize (inString c)) cs).cons c := by
  unfold inString
  split
  -- an escape is read by the letter it is written with
  iterate 4
    rw [List.cons_append, List.singleton_append, stringRun, if_neg (by decide)]
    rfl
  next hline _ hquote hback =>
    rw [List.singleton_append, stringRun]
    · rfl
    · exact hline
    · exact hquote
    · exact fun h => absurd h hback
    · exact fun _ _ h => absurd h hback

/-- A string is read up to the quote behind it. -/
theorem stringRun_written (start offset : Nat) (s tail : List Char) :
    stringRun start offset (s.flatMap inString ++ '"' :: tail) =
      ⟨s, [], offset + byteSize (s.flatMap inString) + 1, tail⟩ := by
  induction s generalizing offset with
  | nil => rfl
  | cons c s ih =>
    rw [List.flatMap_cons, List.append_assoc, stringRun_inString, ih, byteSize_append, Nat.add_assoc offset]
    rfl

/-- Code takes a literal in one step, and goes on in the same mode. -/
theorem stepCode_literal (mode : Mode) (offset : Nat) (s : String) (tail : List Char) :
    stepCode mode offset (stringLiteral s ++ tail) =
      ([.ok ⟨.string s, .range offset (offset + byteSize (stringLiteral s))⟩],
        some ⟨mode, offset + byteSize (stringLiteral s), tail⟩) := by
  have hstop : offset + byteSize (stringLiteral s) =
      offset + 1 + byteSize (s.toList.flatMap inString) + 1 := by
    rw [stringLiteral, byteSize_cons, byteSize_append]
    show offset + (1 + (byteSize _ + 1)) = _
    omega
  have hrun := stringRun_written offset (offset + 1) s.toList tail
  have hmark : punctuation? ('"' :: (s.toList.flatMap inString ++ '"' :: tail)) = none := rfl
  rw [hstop, stringLiteral, List.cons_append, List.append_assoc, List.singleton_append,
    stepCode_lexeme (by decide) (by decide) (by decide), stepLexeme]
  simp only [hmark, if_true, hrun, String.ofList_toList, List.map_nil, List.nil_append]

/-- A literal in code is one token, and the scan goes on behind it. -/
theorem yields_literal {mode : Mode} (hline : mode ≠ .lineStart) (htext : mode ≠ .text) (offset : Nat)
    (s : String) (tail : List Char) :
    yields ⟨mode, offset, stringLiteral s ++ tail⟩ =
      .ok ⟨.string s, .range offset (offset + byteSize (stringLiteral s))⟩ ::
        yields ⟨mode, offset + byteSize (stringLiteral s), tail⟩ := by
  have hcode : step ⟨mode, offset, stringLiteral s ++ tail⟩ =
      stepCode mode offset (stringLiteral s ++ tail) := by
    cases mode with
    | lineStart => exact absurd rfl hline
    | text => exact absurd rfl htext
    | code | speakers | placeholder | guard => rfl
  exact yields_of_step (hcode.trans (stepCode_literal mode offset s tail))

/-! ## Text -/

/-- A character of a line is read as itself once it is written, whatever stands behind it. -/
theorem textRun_inText {c : Char} (hline : c ≠ '\n') (hreturn : c ≠ '\r') (offset : Nat) (cs : List Char) :
    textRun offset (inText c ++ cs) = (textRun (offset + byteSize (inText c)) cs).cons c := by
  rw [inText]
  split
  · next hspecial =>
    have hescape : isTextEscape c = true := by
      simpa [isTextEscape, or_assoc] using hspecial
    have hsize : offset + byteSize ['\\', c] = offset + 1 + c.utf8Size := by
      rw [Nat.add_assoc]
      rfl
    rw [List.cons_append, List.singleton_append, textRun.eq_def, if_neg (by simp [stopsText])]
    simp only
    rw [if_pos hescape, hsize]
  · next hspecial =>
    simp only [List.mem_cons, List.not_mem_nil, or_false, not_or] at hspecial
    obtain ⟨hopen, -, hhash, hless, hminus, hback⟩ := hspecial
    have hgoes : ¬stopsText (c :: cs) = true := by
      simp [stopsText_cons, hline, hopen, hhash, hless, hminus]
    rw [List.singleton_append, textRun.eq_def, if_neg hgoes]
    split
    · next heq => cases heq
    · next heq => exact absurd (List.cons.inj heq).1 hreturn
    · next heq => exact absurd (List.cons.inj heq).1 hback
    · next heq => exact absurd (List.cons.inj heq).1 hback
    · next heq =>
      cases heq
      rfl

/-- A text is read up to what stops it. -/
theorem textRun_written {t : List Char} (hline : '\n' ∉ t) (hreturn : '\r' ∉ t) (hstop : stopsText tail = true)
    (offset : Nat) :
    textRun offset (t.flatMap inText ++ tail) = ⟨t, [], offset + byteSize (t.flatMap inText), tail⟩ := by
  induction t generalizing offset with
  | nil =>
    rw [textRun.eq_def]
    exact if_pos hstop
  | cons c t ih =>
    rw [List.mem_cons, not_or] at hline hreturn
    rw [List.flatMap_cons, List.append_assoc, textRun_inText (Ne.symm hline.1) (Ne.symm hreturn.1),
      ih hline.2 hreturn.2, byteSize_append, Nat.add_assoc]
    rfl

/-- A line that does not open with a blank or a slash is opened where it starts. -/
theorem step_seen {c : Char} (hblank : isBlank c = false) (hslash : c ≠ '/') (offset : Nat) (cs : List Char) :
    lineOf (c :: cs) = c :: lineOf cs ∧ step ⟨.lineStart, offset, c :: cs⟩ = openLine offset (c :: cs) := by
  have hinline : ¬isInlineBlank c = true := fun h => by
    rw [isBlank_of_isInlineBlank h] at hblank
    cases hblank
  have hline : lineOf (c :: cs) = c :: lineOf cs := by
    refine List.takeWhile_cons_of_pos (decide_eq_true ?_)
    rintro rfl
    exact absurd hblank (by decide)
  have hseen : (trim (lineOf (c :: cs))).isEmpty = false := by
    by_contra h
    rw [Bool.not_eq_false] at h
    rw [isBlank_of_isEmpty_trim h c (hline ▸ List.mem_cons_self ..)] at hblank
    cases hblank
  have hcomment : startsWith (lineOf (c :: cs)) "//" = false := by
    have hne : ('/' == c) = false := beq_false_of_ne (Ne.symm hslash)
    show ['/', '/'].isPrefixOf (lineOf (c :: cs)) = false
    rw [hline, List.isPrefixOf, hne, Bool.false_and]
  refine ⟨hline, ?_⟩
  show stepLineStart offset (c :: cs) = _
  rw [stepLineStart, List.takeWhile_cons_of_neg hinline, List.dropWhile_cons_of_neg hinline]
  simp only [byteSize_nil, Nat.add_zero, hseen, hcomment, Bool.or_self, Bool.false_eq_true, if_false]

/-- A line that opens with a colon goes on as text. -/
theorem step_colon (offset : Nat) (cs : List Char) :
    step ⟨.lineStart, offset, ':' :: cs⟩ =
      ([markItem .colon offset (offset + 1)], some ⟨.text, offset + 1, cs⟩) := by
  obtain ⟨hline, hstep⟩ := step_seen (c := ':') (by decide) (by decide) offset cs
  have hword : startsStatement (':' :: lineOf cs) = false := by
    rw [startsStatement, List.takeWhile_cons_of_neg (by decide)]
    decide
  rw [hstep, openLine, hline, hword]
  rfl

/-- A line that opens with a tilde is code, and the tilde is its first mark. -/
theorem yields_tilde (offset : Nat) (cs : List Char) :
    yields ⟨.lineStart, offset, '~' :: cs⟩ =
      markItem .tilde offset (offset + 1) :: yields ⟨.code, offset + 1, cs⟩ := by
  obtain ⟨hline, hstep⟩ := step_seen (c := '~') (by decide) (by decide) offset cs
  have hopen : step ⟨.lineStart, offset, '~' :: cs⟩ = ([], some ⟨.code, offset, '~' :: cs⟩) := by
    rw [hstep]
    unfold openLine
    rw [hline]
    rfl
  have hmark : step ⟨.code, offset, '~' :: cs⟩ =
      ([markItem .tilde offset (offset + 1)], some ⟨.code, offset + 1, cs⟩) := rfl
  rw [yields_of_step hopen, yields_of_step hmark]
  rfl

/-- A text that ends with its line or with the source is one token, and the line ends behind it. -/
theorem stepText_written {t : String} (ht : t ≠ "") (hline : '\n' ∉ t.toList) (hreturn : '\r' ∉ t.toList)
    (htail : tail = [] ∨ ∃ more, tail = '\n' :: more) (offset : Nat) :
    let stop := offset + byteSize (writtenText t)
    stepText offset (writtenText t ++ tail) =
      (.ok ⟨.text t, .range offset stop⟩ :: (endLine stop tail).1, (endLine stop tail).2) := by
  intro stop
  have hrun : textRun offset (writtenText t ++ tail) = ⟨t.toList, [], stop, tail⟩ := by
    refine textRun_written hline hreturn ?_ offset
    rcases htail with rfl | ⟨more, rfl⟩ <;> rfl
  have hnonempty : t.toList.isEmpty = false := by
    rw [List.isEmpty_eq_false_iff]
    exact fun h => ht (String.toList_eq_nil_iff.mp h)
  rw [stepText]
  simp only [hrun, hnonempty, List.map_nil, List.nil_append, Bool.false_eq_true, if_false,
    String.ofList_toList]
  rcases htail with rfl | ⟨more, rfl⟩ <;> rfl

end Scan

/-- A colon, a text and what ends the line behind it are scanned as such. -/
theorem scanLines_text {t : String} (ht : t ≠ "") (hline : '\n' ∉ t.toList) (hreturn : '\r' ∉ t.toList)
    (offset : Nat) :
    let stop := offset + 1 + byteSize (Scan.writtenText t)
    let found : List ScanItem :=
      [Scan.markItem .colon offset (offset + 1), .ok ⟨.text t, .range (offset + 1) stop⟩]
    (∀ tail, scanLines offset (':' :: (Scan.writtenText t ++ '\n' :: tail)) =
      found ++ Scan.markItem .newline stop (stop + 1) :: scanLines (stop + 1) tail) ∧
    scanLines offset (':' :: Scan.writtenText t) =
      found ++ [Scan.markItem .newline stop stop, Scan.markItem .endOfFile stop stop] := by
  intro stop found
  constructor
  · intro tail
    have htext : Scan.step ⟨.text, offset + 1, Scan.writtenText t ++ '\n' :: tail⟩ =
        ([.ok ⟨.text t, .range (offset + 1) stop⟩, Scan.markItem .newline stop (stop + 1)],
          some ⟨.lineStart, stop + 1, tail⟩) :=
      Scan.stepText_written ht hline hreturn (.inr ⟨tail, rfl⟩) (offset + 1)
    rw [scanLines, Scan.yields_of_step (Scan.step_colon offset _), Scan.yields_of_step htext]
    rfl
  · have htext : Scan.step ⟨.text, offset + 1, Scan.writtenText t ++ []⟩ =
        ([.ok ⟨.text t, .range (offset + 1) stop⟩, Scan.markItem .newline stop stop,
          Scan.markItem .endOfFile stop stop], none) :=
      Scan.stepText_written ht hline hreturn (.inl rfl) (offset + 1)
    rw [List.append_nil] at htext
    rw [scanLines, Scan.yields_of_step (Scan.step_colon offset _), Scan.yields_of_last htext]
    rfl

/-- What is written with escapes is read as it was meant, and nothing is reported.  In every mode of code the
literal of a string is one token that holds the string, and the scan goes on in the same mode behind it.  A
line of a colon and a written text that has no end of a line is the colon, a token that holds the text, and the
end of the line, wherever the line stands. -/
theorem scan_escapes :
    (∀ s : String,
      (∀ mode : Mode, mode ≠ .lineStart → mode ≠ .text → ∀ offset tail,
        let stop := offset + byteSize (Scan.stringLiteral s)
        Scan.yields ⟨mode, offset, Scan.stringLiteral s ++ tail⟩ =
          .ok ⟨.string s, .range offset stop⟩ :: Scan.yields ⟨mode, stop, tail⟩) ∧
      let stop := 1 + byteSize (Scan.stringLiteral s)
      scan (String.ofList ('~' :: Scan.stringLiteral s)) =
        [Scan.markItem .tilde 0 1, .ok ⟨.string s, .range 1 stop⟩, Scan.markItem .newline stop stop,
          Scan.markItem .endOfFile stop stop]) ∧
    ∀ t : String, t ≠ "" → '\n' ∉ t.toList → '\r' ∉ t.toList →
      (∀ offset tail,
        let stop := offset + 1 + byteSize (Scan.writtenText t)
        scanLines offset (':' :: (Scan.writtenText t ++ '\n' :: tail)) =
          Scan.markItem .colon offset (offset + 1) :: .ok ⟨.text t, .range (offset + 1) stop⟩ ::
            Scan.markItem .newline stop (stop + 1) :: scanLines (stop + 1) tail) ∧
      let stop := 1 + byteSize (Scan.writtenText t)
      scan (String.ofList (':' :: Scan.writtenText t)) =
        [Scan.markItem .colon 0 1, .ok ⟨.text t, .range 1 stop⟩, Scan.markItem .newline stop stop,
          Scan.markItem .endOfFile stop stop] := by
  refine ⟨fun s => ⟨fun mode hline htext offset tail => Scan.yields_literal hline htext offset s tail, ?_⟩,
    fun t ht hline hreturn => ⟨fun offset tail => ?_, ?_⟩⟩
  · have hlast : Scan.step ⟨.code, 1 + byteSize (Scan.stringLiteral s), []⟩ =
        Scan.endLine (1 + byteSize (Scan.stringLiteral s)) [] := rfl
    have hliteral := @Scan.yields_literal .code (by decide) (by decide) 1 s []
    rw [List.append_nil, Scan.yields_of_last hlast] at hliteral
    rw [← scanLines_zero, scanLines, Scan.yields_tilde, hliteral]
  · exact (scanLines_text ht hline hreturn offset).1 tail
  · rw [← scanLines_zero, (scanLines_text ht hline hreturn 0).2, Nat.zero_add]
    rfl

/-- A text of nearly nothing but characters that mean something. -/
def riddle : String := "<<#\x7ba\x7d -> \"b\"\\"

/-- It can be said as a string inside a placeholder, and as a text. -/
theorem scan_escapes_riddle :
    (Mode.placeholder 1 ≠ .lineStart ∧ Mode.placeholder 1 ≠ .text ∧
      Scan.yields ⟨.placeholder 1, 7, "\"<<#\x7ba\x7d -> \\\"b\\\"\\\\\"\x7d".toList⟩ =
        .ok ⟨.string riddle, .range 7 26⟩ :: Scan.yields ⟨.placeholder 1, 26, ['\x7d']⟩) ∧
    riddle ≠ "" ∧ '\n' ∉ riddle.toList ∧ '\r' ∉ riddle.toList ∧
      scan ":\\<\\<\\#\\\x7ba\\\x7d \\-> \"b\"\\\\" =
        [Scan.markItem .colon 0 1, .ok ⟨.text riddle, .range 1 22⟩, Scan.markItem .newline 22 22,
          Scan.markItem .endOfFile 22 22] := by
  have hline : '\n' ∉ riddle.toList := by decide
  have hreturn : '\r' ∉ riddle.toList := by decide
  refine ⟨⟨by decide, by decide, ?_⟩, by decide, hline, hreturn, ?_⟩
  · exact (scan_escapes.1 riddle).1 (.placeholder 1) (by decide) (by decide) 7 ['\x7d']
  · exact (scan_escapes.2 riddle (by decide) hline hreturn).2

end Colloquy
