import Colloquy.Proofs.Diagnostic.Lowered
import Colloquy.Proofs.Diagnostic.Parsed
import Colloquy.Proofs.Diagnostic.Scanned

/-!
# Records stand inside their lines

A record ends where its diagnostic does, or at the end of the line if the diagnostic goes on.  All spans
of diagnostics start and stop at edges of the source, except that a character that is unexpected is
reported by its first byte.  So a record starts before it ends, and ends within the length of its line,
unless its diagnostic is `Stray`: it reaches behind carriage returns that end the line, which the length of
the line does not count, or its end is counted in bytes, of which the line has more than characters.
These are the only records that do not stand inside their lines (`compileText_inLine`).
-/

namespace Colloquy

open Text

/-- A record starts before it ends, and ends within its line. -/
structure DiagnosticRecord.InLine (index : LineIndex) (r : DiagnosticRecord) : Prop where
  ordered : r.columnStart ≤ r.columnEnd
  inside : r.columnEnd ≤ index.lineLength r.line

namespace Diagnostic

/-- What takes the record of a diagnostic out of its line. -/
inductive Stray (source : String) (d : Diagnostic) : Prop where
  /-- It starts behind carriage returns that end the line. -/
  | start {above front back : List Char} :
      Place source.toList d.span.start above front back → Returned front back → Stray source d
  /-- It stops there, on the line that it starts on. -/
  | stop {above front inside back : List Char} :
      Place source.toList d.span.start above front (inside ++ back) →
      d.span.stop = d.span.start + byteSize inside → Returned (front ++ inside) back → Stray source d
  /-- It stops inside a character, and on its line there are as many bytes in front of the character as the
  line has characters, or more. -/
  | wide {c : Char} {n : Nat} {above front back : List Char} :
      d = .scan (.unexpectedCharacter c n) → Place source.toList n above front (c :: back) →
      1 < c.utf8Size → ((front ++ c :: back).rdropWhile (· = '\r')).length ≤ byteSize front →
      Stray source d

variable {source : String} {d : Diagnostic} {above front inside back : List Char}

/-! ## Records of spans -/

/-- A diagnostic that stops on the line it starts on. -/
theorem inLine_iff_of_oneLine (h : Place source.toList d.span.start above front (inside ++ back))
    (hstop : d.span.stop = d.span.start + byteSize inside) :
    (d.toRecord (.ofSource source)).InLine (.ofSource source) ↔ ¬ Returned (front ++ inside) back := by
  have hposition := h.further.position
  rw [← hstop] at hposition
  have hrecord : d.toRecord (.ofSource source) = ⟨above.count '\n', front.length,
      (front ++ inside).length, d.message, d.severity⟩ := by
    simp only [toRecord, h.position, hposition, if_true, List.length_append]
    rw [Nat.max_eq_left (Nat.le_add_right _ _)]
  rw [hrecord, ← h.further.le_lineLength]
  refine ⟨fun hin => hin.inside, fun hinside => ⟨?_, hinside⟩⟩
  simp only [List.length_append]
  exact Nat.le_add_right _ _

/-- A diagnostic that goes on beyond the line it starts on. -/
theorem inLine_iff_of_further (h : Place source.toList d.span.start above front back)
    (hline : ((LineIndex.ofSource source).position d.span.stop).1 ≠ above.count '\n') :
    (d.toRecord (.ofSource source)).InLine (.ofSource source) ↔ ¬ Returned front back := by
  have hrecord : d.toRecord (.ofSource source) = ⟨above.count '\n', front.length,
      (LineIndex.ofSource source).lineLength (above.count '\n'), d.message, d.severity⟩ := by
    simp only [toRecord, h.position, if_neg hline]
  rw [hrecord, ← h.le_lineLength]
  exact ⟨fun hin => hin.ordered, fun hordered => ⟨hordered, Nat.le_refl _⟩⟩

/-- There are no more characters than bytes. -/
theorem length_le_byteSize (cs : List Char) : cs.length ≤ byteSize cs := by
  induction cs with
  | nil => exact Nat.le_refl 0
  | cons c cs ih =>
    have hpos := c.utf8Size_pos
    rw [List.length_cons, byteSize_cons]
    omega

/-- A character of several bytes that is unexpected. -/
theorem inLine_iff_of_wide {c : Char} {n : Nat} (hd : d = .scan (.unexpectedCharacter c n))
    (h : Place source.toList n above front (c :: back)) (hc : 1 < c.utf8Size) :
    (d.toRecord (.ofSource source)).InLine (.ofSource source) ↔
      byteSize front < ((front ++ c :: back).rdropWhile (· = '\r')).length := by
  subst hd
  have hle := length_le_byteSize front
  have hrecord : (Diagnostic.scan (.unexpectedCharacter c n)).toRecord (.ofSource source) =
      ⟨above.count '\n', front.length, byteSize front + 1,
        (Diagnostic.scan (.unexpectedCharacter c n)).message, .error⟩ := by
    have hstart : (Diagnostic.scan (.unexpectedCharacter c n)).span.start = n := rfl
    have hstop : (Diagnostic.scan (.unexpectedCharacter c n)).span.stop = n + 1 := rfl
    simp only [toRecord, hstart, hstop, h.position, h.position_inside hc, if_true]
    rw [Nat.max_eq_left (by omega)]
    rfl
  rw [hrecord, ← h.lineLength]
  exact ⟨fun hin => hin.inside, fun hinside => ⟨Nat.le_succ_of_le hle, hinside⟩⟩

/-- A record that is stray ends behind its line. -/
theorem Stray.not_inLine (h : d.Stray source) :
    ¬ (d.toRecord (.ofSource source)).InLine (.ofSource source) := by
  cases h with
  | @start above front back hplace hreturned =>
    intro hin
    have hline : (d.toRecord (.ofSource source)).line = above.count '\n' := by
      simp only [toRecord, hplace.position]
    have hcolumn : (d.toRecord (.ofSource source)).columnStart = front.length := by
      simp only [toRecord, hplace.position]
    have hle := hin.ordered.trans hin.inside
    rw [hline, hcolumn] at hle
    exact hplace.le_lineLength.mp hle hreturned
  | stop hplace hstop hreturned =>
    rw [inLine_iff_of_oneLine hplace hstop]
    exact not_not_intro hreturned
  | wide hd hplace hc hlength =>
    rw [inLine_iff_of_wide hd hplace hc]
    exact Nat.not_lt.mpr hlength

/-- A diagnostic between two edges. -/
theorem inLine_iff_of_edges (h : d.span.On (Edge source.toList)) :
    (d.toRecord (.ofSource source)).InLine (.ofSource source) ↔ ¬ d.Stray source := by
  refine ⟨fun hin hstray => hstray.not_inLine hin, fun hstray => ?_⟩
  obtain ⟨rest, hrest⟩ := h.start
  obtain ⟨ahead, hahead⟩ := h.stop
  obtain ⟨piece, rfl, hstop⟩ := hrest.exists_append hahead (Nat.le_add_right _ _)
  obtain ⟨before, hsource, hstart⟩ := hrest
  by_cases hpiece : '\n' ∈ piece
  · obtain ⟨above, front, back, hcount, hplace⟩ := exists_place List.not_mem_nil before (piece ++ ahead)
    rw [List.nil_append, List.nil_append, ← hsource, ← hstart] at hplace
    obtain ⟨above', front', back', hcount', hplace'⟩ := exists_place List.not_mem_nil (before ++ piece) ahead
    rw [List.nil_append, List.append_assoc, ← hsource, byteSize_append, ← hstart, ← hstop] at hplace'
    refine (inLine_iff_of_further hplace ?_).mpr fun hreturned => hstray (.start hplace hreturned)
    -- the line feed between them takes the end to another line
    have hpos := List.count_pos_iff.mpr hpiece
    simp only [hplace'.position, hcount', hcount, List.count_append]
    omega
  · obtain ⟨above, front, back, -, hplace⟩ := exists_place hpiece before ahead
    rw [← hsource, ← hstart] at hplace
    exact (inLine_iff_of_oneLine hplace hstop).mpr fun hreturned => hstray (.stop hplace hstop hreturned)

/-- An error of a scan that stands where it says. -/
theorem inLine_iff_of_at {e : ScanError} (h : e.At source.toList) :
    ((Diagnostic.scan e).toRecord (.ofSource source)).InLine (.ofSource source) ↔
      ¬ (Diagnostic.scan e).Stray source := by
  cases e with
  | unterminatedString s => exact inLine_iff_of_edges h
  | unknownEscape c s => exact inLine_iff_of_edges h
  | unexpectedCharacter c n =>
    obtain ⟨rest, hahead⟩ := h
    by_cases hc : c.utf8Size = 1
    · have hstop := hahead.cons.edge
      rw [hc] at hstop
      exact inLine_iff_of_edges ⟨hahead.edge, hstop⟩
    · have hwide : 1 < c.utf8Size := by
        have hpos := c.utf8Size_pos
        omega
      have hline : '\n' ∉ [c] := by
        rw [List.mem_singleton]
        rintro rfl
        exact hc rfl
      obtain ⟨before, hsource, rfl⟩ := hahead
      obtain ⟨above, front, back, -, hplace⟩ := exists_place hline before rest
      rw [List.singleton_append, List.singleton_append, ← hsource] at hplace
      refine ⟨fun hin hstray => hstray.not_inLine hin, fun hstray => ?_⟩
      rw [inLine_iff_of_wide rfl hplace hwide]
      exact Nat.not_le.mp fun hle => hstray (.wide rfl hplace hwide hle)

end Diagnostic

/-- The record of everything that is reported while a source is compiled stands inside its line, unless it is
stray, and then it does not. -/
theorem compileText_inLine (r : Registry) (o : CompileOptions) (implicit : Option String)
    (source : String) {d : Diagnostic} (hd : d ∈ (compileText r o implicit source).diagnostics) :
    (d.toRecord (.ofSource source)).InLine (.ofSource source) ↔ ¬ d.Stray source := by
  have hparsed := parseTokens_on (Edge.zero _) implicit (token_on source)
  rcases List.mem_append.mp hd with hd | hd
  · rcases List.mem_append.mp hd with hd | hd
    · obtain ⟨e, he, rfl⟩ := List.mem_map.mp hd
      exact Diagnostic.inLine_iff_of_at (scanError_at source e he)
    · obtain ⟨e, he, rfl⟩ := List.mem_map.mp hd
      exact Diagnostic.inLine_iff_of_edges (hparsed.2 e he)
  · exact Diagnostic.inLine_iff_of_edges (compile_on r o hparsed.1 d hd)

/-- Two characters that nothing starts with, on a line that ends with a carriage return. -/
def accents : String := "=== a\r\n~ éé\r\n"

/-- The first of them is reported inside its line. -/
theorem accents_first_inLine :
    .scan (.unexpectedCharacter 'é' 9) ∈ (compileText .empty {} none accents).diagnostics ∧
      ¬ (Diagnostic.scan (.unexpectedCharacter 'é' 9)).Stray accents := by
  have hmem : .scan (.unexpectedCharacter 'é' 9) ∈ (compileText .empty {} none accents).diagnostics := by
    decide +kernel
  exact ⟨hmem, (compileText_inLine .empty {} none accents hmem).mp
    ⟨by decide +kernel, by decide +kernel⟩⟩

/-- The second one ends beyond its line, and the end of the line, where an operand is missing, starts behind
its end. -/
theorem accents_strays :
    (∃ d ∈ (compileText .empty {} none accents).diagnostics,
        (d.toRecord (.ofSource accents)).columnEnd >
          (LineIndex.ofSource accents).lineLength (d.toRecord (.ofSource accents)).line) ∧
      ∃ d ∈ (compileText .empty {} none accents).diagnostics,
        (d.toRecord (.ofSource accents)).columnStart > (d.toRecord (.ofSource accents)).columnEnd := by
  decide +kernel

end Colloquy
