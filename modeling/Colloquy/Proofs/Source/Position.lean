import Mathlib.Data.Prod.Lex
import Colloquy.Proofs.Source.Column

/-!
# What lines and columns count

The position of an offset between two characters is found by a search in the line index.  It is what the
characters in front of the offset say: how many line feeds there are, and how many characters since the last of
them (`LineIndex.position_counts`).  Further characters in front move the count on, to a later line or along the
same one (`counted_lt_append`), so that positions are in the order of the offsets they belong to.
-/

namespace Colloquy

open Text

variable {before after piece : List Char}

/-! ## Counting in front of an offset -/

/-- The number of line feeds in some characters, and of the characters behind the last line feed. -/
def counted (before : List Char) : Nat × Nat :=
  (before.count '\n', (before.rtakeWhile (· ≠ '\n')).length)

/-- What stands behind the last line feed does not depend on what is in front of it. -/
theorem rtakeWhile_lines_append {above front : List Char} (habove : above = [] ∨ ∃ lines, above = lines ++ ['\n'])
    (hfront : '\n' ∉ front) : (above ++ front).rtakeWhile (· ≠ '\n') = front := by
  induction front using List.reverseRecOn with
  | nil =>
    rw [List.append_nil]
    rcases habove with rfl | ⟨lines, rfl⟩
    · exact List.rtakeWhile_nil _
    · exact List.rtakeWhile_concat_neg _ _ _ (by simp)
  | append_singleton front c ih =>
    simp only [List.mem_append, List.mem_singleton, not_or] at hfront
    rw [← List.append_assoc, List.rtakeWhile_concat_pos _ _ _ (by simpa using Ne.symm hfront.2), ih hfront.1]

/-- Counting goes on when characters are added: with a line feed among them on a later line, and without one
further right on the same line. -/
theorem counted_lt_append (hpiece : piece ≠ []) :
    Prod.Lex (· < ·) (· < ·) (counted before) (counted (before ++ piece)) := by
  by_cases hfeed : '\n' ∈ piece
  · apply Prod.Lex.left
    rw [List.count_append]
    have hpos := List.count_pos_iff.mpr hfeed
    omega
  · -- the line goes on from where it was cut
    obtain ⟨above, front, rfl, habove, hfront⟩ := exists_lines_append before
    have hboth : '\n' ∉ front ++ piece := by simp [hfront, hfeed]
    have hlength := List.length_pos_of_ne_nil hpiece
    have hcount : ((above ++ front) ++ piece).count '\n' = (above ++ front).count '\n' := by
      rw [List.count_append, List.count_eq_zero_of_not_mem hfeed, Nat.add_zero]
    rw [counted, counted, hcount, List.append_assoc, rtakeWhile_lines_append habove hfront,
      rtakeWhile_lines_append habove hboth]
    apply Prod.Lex.right
    rw [List.length_append]
    omega

namespace LineIndex

variable {source : String} {n m : Nat}

/-! ## Positions -/

/-- The search in the index comes to what there is to count. -/
theorem position_byteSize (h : source.toList = before ++ after) :
    (ofSource source).position (byteSize before) = counted before := by
  obtain ⟨above, front, rfl, habove, hfront⟩ := exists_lines_append before
  obtain ⟨back, below, rfl, hbelow, hback⟩ := exists_line_append after
  have hplace : Place source.toList (byteSize (above ++ front)) above front back :=
    { text := ⟨below, by simp [h], hbelow⟩
      offset := byteSize_append _ _
      above := habove
      line := by simp [hfront, hback] }
  rw [hplace.position, counted, rtakeWhile_lines_append habove hfront, List.count_append,
    List.count_eq_zero_of_not_mem hfront, Nat.add_zero]

theorem position_of_le (h : source.utf8ByteSize ≤ n) :
    (ofSource source).position n = (ofSource source).position source.utf8ByteSize := by
  have hsize : (ofSource source).size = source.utf8ByteSize := rfl
  rw [position, position, hsize, Nat.min_eq_right h, Nat.min_self]

/-- A later offset has a later position. -/
theorem position_lt (hn : Edge source.toList n) (hm : Edge source.toList m) (hlt : n < m) :
    Prod.Lex (· < ·) (· < ·) ((ofSource source).position n) ((ofSource source).position m) := by
  obtain ⟨rest, hrest⟩ := hn
  obtain ⟨ahead, hahead⟩ := hm
  obtain ⟨piece, rfl, hsize⟩ := hrest.exists_append hahead (Nat.le_of_lt hlt)
  obtain ⟨front, htext, rfl⟩ := hrest
  have hpiece : piece ≠ [] := by
    rintro rfl
    rw [byteSize_nil] at hsize
    omega
  have hlonger : source.toList = (front ++ piece) ++ ahead := by rw [htext, List.append_assoc]
  rw [hsize, ← byteSize_append, position_byteSize htext, position_byteSize hlonger]
  exact counted_lt_append hpiece

/-- A source is cut into one line more than it has line feeds. -/
theorem length_cut (start here : Nat) (before cs : List Char) :
    (cut start here before cs).length = cs.count '\n' + 1 := by
  induction cs generalizing start here before with
  | nil => rfl
  | cons c cs ih =>
    rw [cut]
    split
    · next hc =>
      subst hc
      rw [List.length_cons, ih, List.count_cons_self]
    · next hc => rw [ih, List.count_cons_of_ne hc]

/-- An index answers for a source as counting its characters does. -/
structure Counts (index : LineIndex) (source : String) : Prop where
  /-- An offset is as many lines down as there are line feeds in front, and as many columns in as there are
  characters behind the last of these. -/
  position : ∀ before after, source.toList = before ++ after →
    index.position (byteSize before) =
      (before.count '\n', (before.rtakeWhile (· ≠ '\n')).length)
  /-- Offsets past the end stand at the end. -/
  past : ∀ n, source.utf8ByteSize ≤ n → index.position n = index.position source.utf8ByteSize
  /-- Of two offsets between characters, the later one is on a later line or further right on the same one. -/
  mono : ∀ n m, Edge source.toList n → Edge source.toList m → n < m →
    Prod.Lex (· < ·) (· < ·) (index.position n) (index.position m)
  lineCount : index.lineCount = source.toList.count '\n' + 1

/-- Lines and columns are right for every source and every offset between two of its characters, and they are
strictly increasing on these. -/
theorem position_counts (source : String) : (ofSource source).Counts source where
  position _ _ := position_byteSize
  past _ := position_of_le
  mono _ _ := position_lt
  lineCount := length_cut 0 0 [] source.toList

/-- Behind the line feed at the end a last line begins, and characters of two bytes are one column wide. -/
example : (ofSource "né\n").position 3 = (0, 2) ∧ (ofSource "né\n").position 4 = (1, 0) ∧
    (ofSource "né\n").position 9 = (1, 0) := by decide +kernel

end LineIndex

end Colloquy
