import Colloquy.Proofs.Number.Sign
import Colloquy.Token.Scan

/-!
# Numbers in tokens

The scanner yields numbers only for texts that start with a digit, so no token is negative zero.
-/

namespace Colloquy

/-- Of the number of a lexeme. -/
def Lexeme.Floats (P : Float → Prop) : Lexeme → Prop
  | .number x => P x
  | _ => True

/-- Of the numbers of scanned items. -/
def ScanItem.Floats (P : Float → Prop) (items : List ScanItem) : Prop :=
  ∀ t, .ok t ∈ items → t.lexeme.Floats P

namespace Scan

variable {P : Float → Prop}

/-- Items have the floats of both parts. -/
theorem floats_append {xs ys : List ScanItem} (hx : ScanItem.Floats P xs) (hy : ScanItem.Floats P ys) :
    ScanItem.Floats P (xs ++ ys) := by
  intro t ht
  rcases List.mem_append.mp ht with ht | ht
  · exact hx t ht
  · exact hy t ht

theorem floats_errors (es : List ScanError) : ScanItem.Floats P (es.map .error) := by
  intro t ht
  obtain ⟨e, _, he⟩ := List.mem_map.mp ht
  cases he

theorem floats_singleton {t : Token} (h : t.lexeme.Floats P) : ScanItem.Floats P [.ok t] := by
  intro u hu
  cases List.mem_singleton.mp hu
  exact h

theorem floats_mark (m : Mark) (start stop : Nat) : ScanItem.Floats P [markItem m start stop] :=
  floats_singleton trivial

theorem endLine_floats (offset : Nat) (cs : List Char) : ScanItem.Floats P (endLine offset cs).1 := by
  cases cs with
  | nil => exact floats_append (floats_mark _ _ _) (floats_mark _ _ _)
  | cons c cs => exact floats_mark _ _ _

/-- Opening a line yields no number. -/
theorem openLine_floats (offset : Nat) (cs : List Char) : ScanItem.Floats P (openLine offset cs).1 := by
  have hnil : ScanItem.Floats P [] := fun t ht => by cases ht
  unfold openLine
  simp only
  split
  · exact hnil
  · split
    · split
      · exact floats_append (floats_mark _ _ _) (floats_mark _ _ _)
      · exact floats_mark _ _ _
    · exact floats_mark _ _ _
    · split
      · exact hnil
      · exact hnil

/-- Nor does the start of a line. -/
theorem stepLineStart_floats (offset : Nat) (rest : List Char) :
    ScanItem.Floats P (stepLineStart offset rest).1 := by
  have hnil : ScanItem.Floats P [] := fun t ht => by cases ht
  unfold stepLineStart
  simp only
  split
  · exact floats_mark _ _ _
  · split
    · split
      · exact hnil
      · exact hnil
    · exact openLine_floats _ _

/-- Nor does free text. -/
theorem stepText_floats (start : Nat) (rest : List Char) :
    ScanItem.Floats P (stepText start rest).1 := by
  have hitems : ScanItem.Floats P ((textRun start rest).errors.map .error ++
      if (textRun start rest).text.isEmpty then []
      else [.ok ⟨.text (String.ofList (textRun start rest).text),
        .range start (textRun start rest).offset⟩]) := by
    refine floats_append (floats_errors _) ?_
    split
    · exact fun t ht => by cases ht
    · exact floats_singleton trivial
  unfold stepText
  simp only
  split
  · exact floats_append hitems (floats_mark _ _ _)
  · exact floats_append hitems (floats_mark _ _ _)
  · exact floats_append hitems (floats_mark _ _ _)
  · exact floats_append hitems (floats_mark _ _ _)
  · exact floats_append hitems (endLine_floats _ _)

/-- The digits of a number start with a digit. -/
theorem numberDigits_head {c : Char} (hc : c.isDigit = true) (cs : List Char) :
    ∃ ds, (numberDigits (c :: cs)).1 = c :: ds := by
  unfold numberDigits
  simp only
  split
  · split
    · exact ⟨_, by rw [List.takeWhile_cons_of_pos hc]; rfl⟩
    · exact ⟨_, by rw [List.takeWhile_cons_of_pos hc]⟩
  · exact ⟨_, by rw [List.takeWhile_cons_of_pos hc]⟩

/-- A number that starts with a digit is not negative zero: there is no sign to read. -/
theorem unsigned_number {c : Char} (hc : c.isDigit = true) (cs : List Char) :
    Number.Unsigned ((Number.parse? (String.ofList (numberDigits (c :: cs)).1)).getD 0.0) := by
  obtain ⟨ds, hds⟩ := numberDigits_head hc cs
  rw [hds]
  have hsign : (Number.takeSign (String.ofList (c :: ds)).toList).1 = false := by
    rw [String.toList_ofList]
    unfold Number.takeSign
    split
    · next h =>
      cases h
      exact absurd hc (by decide)
    · rfl
    · rfl
  cases hparse : Number.parse? (String.ofList (c :: ds)) with
  | none => exact Number.Plain.unsigned (by decide)
  | some x => exact Number.unsigned_parse? hsign hparse

/-- A lexeme is no number, or one that starts with a digit. -/
theorem stepLexeme_floats (mode : Mode) (start : Nat) (c : Char) (cs : List Char) :
    ScanItem.Floats Number.Unsigned (stepLexeme mode start c cs).1 := by
  unfold stepLexeme
  simp only
  split
  · exact floats_mark _ _ _
  · split
    · exact floats_append (floats_errors _) (floats_singleton trivial)
    · split
      · next hc => exact floats_singleton (unsigned_number hc cs)
      · split
        · refine floats_singleton ?_
          simp only
          split
          · trivial
          · trivial
        · exact floats_errors [_]

/-- So is what code yields. -/
theorem stepCode_floats (mode : Mode) (offset : Nat) (rest : List Char) :
    ScanItem.Floats Number.Unsigned (stepCode mode offset rest).1 := by
  unfold stepCode
  simp only
  split
  · exact endLine_floats _ _
  · split
    · exact endLine_floats _ _
    · split
      · exact endLine_floats _ _
      · exact stepLexeme_floats _ _ _ _

/-- So is what any step yields. -/
theorem step_floats (s : Scan) : ScanItem.Floats Number.Unsigned s.step.1 := by
  unfold step
  split
  · exact stepLineStart_floats _ _
  · exact stepText_floats _ _
  · exact stepCode_floats _ _ _

/-- So is what a run yields. -/
theorem run_floats (fuel : Nat) (s : Scan) : ScanItem.Floats Number.Unsigned (run fuel s) := by
  induction fuel generalizing s with
  | zero => exact fun t ht => by cases ht
  | succ fuel ih =>
    have hstep := step_floats s
    rw [run]
    split
    · next heq =>
      rw [heq] at hstep
      exact hstep
    · next heq =>
      rw [heq] at hstep
      exact floats_append hstep (ih _)

end Scan

/-- No token of a source is negative zero. -/
theorem tokensOf_scan_floats (source : String) :
    ∀ t ∈ tokensOf (scan source), t.lexeme.Floats Number.Unsigned := by
  intro t ht
  obtain ⟨item, hitem, hsome⟩ := List.mem_filterMap.mp ht
  cases item with
  | ok u =>
    cases hsome
    exact Scan.run_floats _ _ t hitem
  | error e => cases hsome

end Colloquy
