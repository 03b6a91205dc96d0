import Colloquy.Proofs.Source.Column
import Colloquy.Proofs.Token.Partition

/-!
# Where scan errors stand

A scan takes whole characters off the front of a source, so its offsets are edges of the source: what it
takes together is a token or is reported with the span it was taken from, and a character that nothing
starts with is reported at its own offset (`scanError_at`).  One lemma for each reader and for each
step says that it keeps to the source (`Follows`).
-/

namespace Colloquy

open Text

/-- An error of a scan stands where it says. -/
def ScanError.At (cs : List Char) : ScanError → Prop
  | .unexpectedCharacter c n => ∃ rest, Ahead cs n (c :: rest)
  | .unterminatedString s => s.On (Edge cs)
  | .unknownEscape _ s => s.On (Edge cs)

namespace Scan

variable {source cs rest : List Char} {offset : Nat} {items : List ScanItem}

/-- A step yields errors that stand where they say, and leads on to what is ahead. -/
structure Follows (source : List Char) (x : Step) : Prop where
  error : ∀ e, .error e ∈ x.1 → e.At source
  next : ∀ s, x.2 = some s → Ahead source s.offset s.rest

/-- A span of characters that were taken. -/
theorem span_on {piece : List Char} (h : Ahead source offset (piece ++ rest)) :
    (Span.range offset (offset + byteSize piece)).On (Edge source) where
  start := h.edge
  stop := by
    rw [Span.stop_range (Nat.le_add_right _ _)]
    exact h.append.edge

/-- A backslash with the character behind it. -/
theorem escape_on {c : Char} (h : Ahead source offset ('\\' :: c :: cs)) :
    (Span.range offset (offset + 1 + c.utf8Size)).On (Edge source) := by
  have hpiece : Ahead source offset (['\\', c] ++ cs) := h
  rw [Nat.add_assoc]
  exact span_on hpiece

/-! ## Readers -/

/-- What a reader leaves is ahead in the source it was given. -/
theorem Reads.ahead {meaning : List Char → List Char} {said : List Char} {stop : Nat}
    (h : Reads meaning offset cs said stop rest) (hcs : Ahead source offset cs) :
    Ahead source stop rest := by
  obtain ⟨piece, rfl, rfl, -⟩ := h
  exact hcs.append

/-- Unknown escapes of free text stand where they say. -/
theorem textRun_at (h : Ahead source offset cs) : ∀ e ∈ (textRun offset cs).errors, e.At source := by
  fun_induction textRun offset cs with
  | case1 cs offset _ => simp
  | case2 offset _ => simp
  | case3 offset cs _ ih => exact ih h.cons
  | case4 offset _ => simp
  | case5 offset c cs run _ _ ih => exact ih h.cons.cons
  | case6 offset c cs run _ _ ih =>
    exact List.forall_mem_cons.mpr ⟨escape_on h, ih h.cons.cons⟩
  | case7 offset c cs _ _ _ _ ih => exact ih h.cons

/-- Errors of a string stand where they say: it is unterminated from its opening quote on. -/
theorem stringRun_at {start : Nat} (hstart : Edge source start) (hle : start ≤ offset)
    (h : Ahead source offset cs) : ∀ e ∈ (stringRun start offset cs).errors, e.At source := by
  have hopen : ∀ {stop : Nat}, start ≤ stop → Edge source stop →
      ∀ e ∈ [ScanError.unterminatedString (.range start stop)], e.At source := by
    intro stop hstop hedge e he
    obtain rfl := List.mem_singleton.mp he
    exact ⟨hstart, by rwa [Span.stop_range hstop]⟩
  fun_induction stringRun start offset cs with
  | case1 offset => exact hopen hle h.edge
  | case2 offset cs => exact hopen hle h.edge
  | case3 offset cs => simp
  | case4 offset => exact hopen (hle.trans (Nat.le_add_right _ _)) h.cons.edge
  | case5 offset cs => exact hopen (hle.trans (Nat.le_add_right _ _)) h.cons.edge
  | case6 offset c cs _ run d _ ih => exact ih (by omega) h.cons.cons
  | case7 offset c cs _ run _ ih =>
    exact List.forall_mem_cons.mpr ⟨escape_on h, ih (by omega) h.cons.cons⟩
  | case8 offset c cs _ _ _ _ ih => exact ih (by omega) h.cons

/-! ## Steps -/

namespace Follows

/-- A step that yields no error. -/
theorem clean {mode : Mode} (hitems : ∀ e, .error e ∉ items) (h : Ahead source offset cs) :
    Follows source (items, some ⟨mode, offset, cs⟩) where
  error e he := absurd he (hitems e)
  next _ hs := by
    cases hs
    exact h

/-- What was read first. -/
theorem behind {x : Step} (hitems : ∀ e, .error e ∈ items → e.At source) (hx : Follows source x) :
    Follows source (items ++ x.1, x.2) where
  error e he := (List.mem_append.mp he).elim (hitems e) (hx.error e)
  next := hx.next

end Follows

/-- The end of a line takes the line feed or nothing. -/
theorem endLine_follows (h : Ahead source offset cs) (hcs : cs = [] ∨ ∃ more, cs = '\n' :: more) :
    Follows source (endLine offset cs) := by
  rcases hcs with rfl | ⟨more, rfl⟩
  · exact ⟨by simp [endLine, markItem], by simp [endLine]⟩
  · exact .clean (by simp [markItem]) h.cons

/-- A line that is neither blank nor a comment opens with at most one mark of its own. -/
theorem openLine_follows (h : Ahead source offset cs) : Follows source (openLine offset cs) := by
  unfold openLine
  simp only
  split
  · exact .clean (by simp) h
  · split
    · next more =>
      have hblanks := (Ahead.cons h).dropWhile isInlineBlank
      split
      · next heq =>
        rw [heq] at hblanks
        exact .clean (by simp [markItem]) hblanks.cons
      · exact .clean (by simp [markItem]) hblanks
    · exact .clean (by simp [markItem]) h.cons
    · split
      · exact .clean (by simp) h
      · exact .clean (by simp) h

/-- The start of a line is passed over if the line is blank or a comment, and opened otherwise. -/
theorem stepLineStart_follows (h : Ahead source offset rest) :
    Follows source (stepLineStart offset rest) := by
  have hblanks := h.dropWhile isInlineBlank
  unfold stepLineStart
  simp only
  split
  · exact ⟨by simp [markItem], by simp⟩
  · next c cs heq =>
    rw [heq] at hblanks
    split
    · have hline : Ahead source _ (afterLine (c :: cs)) := hblanks.dropWhile (· ≠ '\n')
      rcases afterLine_cases (c :: cs) with hafter | ⟨more, hafter⟩
      · rw [hafter] at hline ⊢
        exact .clean (by simp) hline
      · rw [hafter] at hline ⊢
        exact .clean (by simp) hline.cons
    · exact openLine_follows hblanks

/-- Free text is followed up to the first character that stands for something else. -/
theorem stepText_follows (h : Ahead source offset rest) : Follows source (stepText offset rest) := by
  have hrun := (textRun_reads offset rest).ahead h
  have hstops := stopsText_textRun offset rest
  have hitems : ∀ e, .error e ∈ (textRun offset rest).errors.map .error ++
      (if (textRun offset rest).text.isEmpty then [] else
        [.ok ⟨.text (String.ofList (textRun offset rest).text), .range offset (textRun offset rest).offset⟩] :
          List ScanItem) → e.At source := by
    intro e he
    rcases List.mem_append.mp he with he | he
    · obtain ⟨e', he', heq⟩ := List.mem_map.mp he
      cases heq
      exact textRun_at h e he'
    · split at he <;> simp at he
  unfold stepText
  simp only
  generalize textRun offset rest = run at hrun hstops hitems
  split
  · next heq =>
    rw [heq] at hrun
    exact .behind hitems (x := (_, some ⟨_, _, _⟩)) (.clean (by simp [markItem]) hrun.cons)
  · next heq =>
    rw [heq] at hrun
    exact .behind hitems (x := (_, some ⟨_, _, _⟩)) (.clean (by simp [markItem]) hrun.cons.cons)
  · next heq =>
    rw [heq] at hrun
    exact .behind hitems (x := (_, some ⟨_, _, _⟩)) (.clean (by simp [markItem]) hrun.cons.cons)
  · next heq =>
    rw [heq] at hrun
    exact .behind hitems (x := (_, some ⟨_, _, _⟩)) (.clean (by simp [markItem]) hrun.cons.cons)
  · next hbrace hdirective hhash harrow =>
    exact .behind hitems (endLine_follows hrun (stopsText_line hstops hbrace hdirective hhash harrow))

/-- A lexeme is taken off the source as a whole, and a character that starts none is reported at its own
offset. -/
theorem stepLexeme_follows {mode : Mode} {c : Char} (h : Ahead source offset (c :: cs)) :
    Follows source (stepLexeme mode offset c cs) := by
  unfold stepLexeme
  simp only
  split
  · next heq =>
    obtain ⟨piece, hpiece, rfl, -⟩ := punctuation?_spells heq
    rw [hpiece] at h
    exact .clean (by simp [markItem]) h.append
  · split
    · next hquote =>
      subst hquote
      refine ⟨fun e he => ?_, fun s hs => ?_⟩
      · rcases List.mem_append.mp he with he | he
        · obtain ⟨e', he', heq⟩ := List.mem_map.mp he
          cases heq
          exact stringRun_at h.edge (Nat.le_add_right _ _) h.cons e he'
        · simp at he
      · cases hs
        exact (stringRun_reads offset (offset + 1) cs).ahead h.cons
    · split
      · next hdigit =>
        obtain ⟨hsplit, hdecimal⟩ := numberDigits_spells hdigit cs
        rw [hsplit] at h
        rw [← hdecimal.byteSize]
        exact .clean (by simp) h.append
      · split
        · next hstart =>
          obtain ⟨-, hwidth⟩ := word_spells hstart cs
          rw [← hwidth]
          exact .clean (by simp) (h.dropWhile isNameChar)
        · refine ⟨fun e he => ?_, fun s hs => ?_⟩
          · cases List.mem_singleton.mp he
            exact ⟨cs, h⟩
          · cases hs
            exact h.cons

/-- In code, blanks and comments are passed over first. -/
theorem stepCode_follows {mode : Mode} (h : Ahead source offset rest) :
    Follows source (stepCode mode offset rest) := by
  have hblanks := h.dropWhile isInlineBlank
  unfold stepCode
  simp only
  split
  · next heq =>
    rw [heq] at hblanks
    exact endLine_follows hblanks (.inl rfl)
  · next c cs heq =>
    rw [heq] at hblanks
    split
    · next hc =>
      subst hc
      exact endLine_follows hblanks (.inr ⟨cs, rfl⟩)
    · split
      · exact endLine_follows (hblanks.dropWhile (· ≠ '\n')) (afterLine_cases (c :: cs))
      · exact stepLexeme_follows hblanks

/-- Every step keeps to the source. -/
theorem step_follows {s : Scan} (h : Ahead source s.offset s.rest) : Follows source s.step := by
  unfold step
  split
  · exact stepLineStart_follows h
  · exact stepText_follows h
  · exact stepCode_follows h

/-- All errors of a run stand where they say. -/
theorem run_at {fuel : Nat} {s : Scan} (h : Ahead source s.offset s.rest) :
    ∀ e, .error e ∈ run fuel s → e.At source := by
  induction fuel generalizing s with
  | zero => simp [run]
  | succ fuel ih =>
    have hstep := step_follows h
    intro e he
    rw [run] at he
    generalize s.step = x at hstep he
    obtain ⟨items, next⟩ := x
    cases next with
    | none => exact hstep.error e he
    | some next =>
      rcases List.mem_append.mp he with he | he
      · exact hstep.error e he
      · exact ih (hstep.next next rfl) e he

end Scan

/-- Every error of a scan stands where it says. -/
theorem scanError_at (source : String) : ∀ e ∈ errorsOf (scan source), e.At source.toList := by
  intro e he
  obtain ⟨item, hitem, heq⟩ := List.mem_filterMap.mp he
  cases item with
  | ok t => cases heq
  | error e' =>
    cases heq
    exact Scan.run_at (s := ⟨.lineStart, 0, source.toList⟩) (Ahead.zero _) e hitem

/-- Every token of a scan starts and stops at edges of the source. -/
theorem token_on (source : String) : ∀ t ∈ tokensOf (scan source), t.span.On (Edge source.toList) := by
  intro t ht
  obtain ⟨before, piece, after, hsource, hstands⟩ := (scan_partition source).1 t ht
  have hahead : Ahead source.toList (byteSize before) (piece ++ after) :=
    ⟨before, by rw [hsource, List.append_assoc], rfl⟩
  rw [hstands.span]
  exact Scan.span_on hahead

end Colloquy
