import Mathlib.Data.List.DropRight
import Colloquy.Source.LineIndex

/-!
# Where offsets stand on their lines

An offset between two characters stands on a line, behind some of its characters and in front of the others
(`Place`).  The line index counts just these: the number of the line is the number of line feeds above it,
the column is the number of characters in front (`Place.position`), and the length of the line is what is
left of its characters without the carriage returns it ends with (`Place.lineLength`).  Hence an offset
is beyond the length of its line if it stands behind a carriage return that ends the line, and only then
(`Place.le_lineLength`).
-/

namespace Colloquy

open Text

/-- A text goes on with `rest` from an offset on. -/
def Ahead (cs : List Char) (n : Nat) (rest : List Char) : Prop :=
  ∃ front, cs = front ++ rest ∧ n = byteSize front

/-- An offset does not stand inside a character of a text. -/
def Edge (cs : List Char) (n : Nat) : Prop := ∃ rest, Ahead cs n rest

/-- An offset stands between `front` and `back` on a line of a text.  What stands `above` are whole
lines. -/
structure Place (cs : List Char) (n : Nat) (above front back : List Char) : Prop where
  text : ∃ below, cs = above ++ (front ++ back) ++ below ∧ (below = [] ∨ ∃ more, below = '\n' :: more)
  offset : n = byteSize above + byteSize front
  above : above = [] ∨ ∃ lines, above = lines ++ ['\n']
  line : '\n' ∉ front ++ back

/-- A line goes up to what stands in front of an offset with a carriage return at its end, and no other
characters than carriage returns follow on the line. -/
def Returned (front back : List Char) : Prop := front.getLast? = some '\r' ∧ ∀ c ∈ back, c = '\r'

/-- A span starts and stops at offsets with a property. -/
structure Span.On (P : Nat → Prop) (s : Span) : Prop where
  start : P s.start
  stop : P s.stop

variable {cs rest piece above front back : List Char} {n : Nat}

/-! ## Spans -/

namespace Span.On

variable {P : Nat → Prop} {s t : Span}

/-- A span from one to another is empty if the other stops before the first starts. -/
theorem range (hs : s.On P) (ht : t.On P) : (Span.range s.start t.stop).On P := by
  refine ⟨hs.start, ?_⟩
  by_cases hle : s.start ≤ t.stop
  · rw [stop_range hle]
    exact ht.stop
  · rw [Span.stop, Span.range, Nat.sub_eq_zero_of_le (by omega)]
    exact hs.start

/-- A span that covers two spans starts where one of them does, and stops where one of them does. -/
theorem cover (hs : s.On P) (ht : t.On P) : (s.cover t).On P := by
  constructor
  · rw [start_cover]
    rcases Nat.le_total s.start t.start with h | h
    · rw [Nat.min_eq_left h]
      exact hs.start
    · rw [Nat.min_eq_right h]
      exact ht.start
  · rw [stop_cover]
    rcases Nat.le_total s.stop t.stop with h | h
    · rw [Nat.max_eq_right h]
      exact ht.stop
    · rw [Nat.max_eq_left h]
      exact hs.stop

end Span.On

/-! ## Edges -/

/-- The characters of a string have its bytes. -/
theorem byteSize_toList (s : String) : byteSize s.toList = s.utf8ByteSize := by
  have hlist : ∀ cs : List Char, byteSize cs = (String.ofList cs).utf8ByteSize := by
    intro cs
    induction cs with
    | nil => rfl
    | cons c cs ih =>
      rw [byteSize_cons, ih, ← String.utf8ByteSize_singleton, ← String.utf8ByteSize_append]
      congr 1
      simp
  rw [hlist, String.ofList_toList]

theorem Ahead.zero (cs : List Char) : Ahead cs 0 cs := ⟨[], rfl, rfl⟩

theorem Ahead.edge (h : Ahead cs n rest) : Edge cs n := ⟨rest, h⟩

theorem Ahead.append (h : Ahead cs n (piece ++ rest)) : Ahead cs (n + byteSize piece) rest := by
  obtain ⟨front, rfl, rfl⟩ := h
  exact ⟨front ++ piece, by rw [List.append_assoc], by rw [byteSize_append]⟩

theorem Ahead.cons {c : Char} (h : Ahead cs n (c :: rest)) : Ahead cs (n + c.utf8Size) rest := by
  have happend : Ahead cs n ([c] ++ rest) := h
  exact happend.append

theorem Edge.zero (cs : List Char) : Edge cs 0 := (Ahead.zero cs).edge

/-- The offsets of a text are ordered as what lies ahead of them. -/
theorem Ahead.exists_append {m : Nat} {ahead : List Char} (h : Ahead cs n rest) (h' : Ahead cs m ahead)
    (hle : n ≤ m) : ∃ piece, rest = piece ++ ahead ∧ m = n + byteSize piece := by
  obtain ⟨front, rfl, rfl⟩ := h
  obtain ⟨more, heq, rfl⟩ := h'
  rcases List.append_eq_append_iff.mp heq with ⟨piece, rfl, rfl⟩ | ⟨piece, rfl, rfl⟩
  · exact ⟨piece, rfl, byteSize_append _ _⟩
  · -- the second offset cannot be the smaller one
    cases piece with
    | nil => exact ⟨[], by simp, by simp [byteSize_nil]⟩
    | cons c piece =>
      have hpos := c.utf8Size_pos
      rw [byteSize_append, byteSize_cons] at hle
      omega

/-- A text is whole lines and the start of one more. -/
theorem exists_lines_append (cs : List Char) : ∃ above front, cs = above ++ front ∧
    (above = [] ∨ ∃ lines, above = lines ++ ['\n']) ∧ '\n' ∉ front := by
  induction cs using List.reverseRecOn with
  | nil => exact ⟨[], [], rfl, .inl rfl, List.not_mem_nil⟩
  | append_singleton cs c ih =>
    by_cases hc : c = '\n'
    · subst hc
      exact ⟨cs ++ ['\n'], [], by simp, .inr ⟨cs, rfl⟩, List.not_mem_nil⟩
    · obtain ⟨above, front, rfl, habove, hfront⟩ := ih
      refine ⟨above, front ++ [c], by simp, habove, ?_⟩
      simpa [Ne.symm hc] using hfront

/-- A text is the end of a line, and a line feed with what follows it if there is more. -/
theorem exists_line_append (cs : List Char) : ∃ back below, cs = back ++ below ∧
    (below = [] ∨ ∃ more, below = '\n' :: more) ∧ '\n' ∉ back := by
  induction cs with
  | nil => exact ⟨[], [], rfl, .inl rfl, List.not_mem_nil⟩
  | cons c cs ih =>
    by_cases hc : c = '\n'
    · subst hc
      exact ⟨[], '\n' :: cs, rfl, .inr ⟨cs, rfl⟩, List.not_mem_nil⟩
    · obtain ⟨back, below, rfl, hbelow, hback⟩ := ih
      refine ⟨c :: back, below, rfl, hbelow, ?_⟩
      simpa [Ne.symm hc] using hback

theorem Ahead.dropWhile (p : Char → Bool) (h : Ahead cs n rest) :
    Ahead cs (n + byteSize (rest.takeWhile p)) (rest.dropWhile p) :=
  Ahead.append (by rwa [List.takeWhile_append_dropWhile])

/-- Every edge has its place on a line, and what follows it without a line feed is on the same line. -/
theorem exists_place {inside : List Char} (hinside : '\n' ∉ inside) (before rest : List Char) :
    ∃ above front back, above.count '\n' = before.count '\n' ∧
      Place (before ++ (inside ++ rest)) (byteSize before) above front (inside ++ back) := by
  obtain ⟨above, front, rfl, habove, hfront⟩ := exists_lines_append before
  obtain ⟨back, below, rfl, hbelow, hback⟩ := exists_line_append rest
  refine ⟨above, front, back, ?_, ⟨below, by simp, hbelow⟩, byteSize_append _ _, habove, ?_⟩
  · rw [List.count_append, List.count_eq_zero_of_not_mem hfront, Nat.add_zero]
  · simp only [List.mem_append, not_or]
    exact ⟨hfront, hinside, hback⟩

/-- The place of an offset further on in the line. -/
theorem Place.further {inside : List Char} (h : Place cs n above front (inside ++ back)) :
    Place cs (n + byteSize inside) above (front ++ inside) back where
  text := by simpa only [List.append_assoc] using h.text
  offset := by rw [h.offset, byteSize_append, Nat.add_assoc]
  above := h.above
  line := by simpa only [List.append_assoc] using h.line

namespace LineIndex

/-! ## Lines -/

/-- Characters without a line feed go to the first line. -/
theorem cut_line {line : List Char} (hline : '\n' ∉ line) (start here : Nat) (before below : List Char) :
    cut start here before (line ++ below) =
      cut start (here + byteSize line) (line.reverse ++ before) below := by
  induction line generalizing here before with
  | nil => rfl
  | cons c line ih =>
    rw [List.mem_cons, not_or] at hline
    rw [List.cons_append, cut, if_neg (Ne.symm hline.1), ih hline.2, byteSize_cons, ← Nat.add_assoc,
      List.reverse_cons, List.append_assoc]
    rfl

/-- Lines that end with a line feed come first. -/
theorem cut_above {start here : Nat} (hstart : start ≤ here) (lines before cs : List Char) :
    ∃ ls, cut start here before (lines ++ '\n' :: cs) =
        ls ++ cut (here + byteSize lines + 1) (here + byteSize lines + 1) [] cs ∧
      ls.length = (lines ++ ['\n']).count '\n' ∧ ∀ l ∈ ls, l.start ≤ here + byteSize lines := by
  induction lines generalizing start here before with
  | nil => exact ⟨[⟨start, before.reverse⟩], rfl, rfl, by simpa [byteSize_nil] using hstart⟩
  | cons c lines ih =>
    rw [List.cons_append, cut]
    split
    · next hc =>
      subst hc
      obtain ⟨ls, heq, hlength, hls⟩ := ih (Nat.le_refl (here + 1)) []
      have hsize : here + 1 + byteSize lines = here + byteSize ('\n' :: lines) := by
        rw [byteSize_cons, ← Nat.add_assoc]
        rfl
      rw [hsize] at heq hls
      refine ⟨⟨start, before.reverse⟩ :: ls, by rw [heq]; rfl, ?_, ?_⟩
      · rw [List.length_cons, hlength, List.cons_append, List.count_cons_self]
      · exact List.forall_mem_cons.mpr ⟨hstart.trans (Nat.le_add_right _ _), hls⟩
    · next hc =>
      obtain ⟨ls, heq, hlength, hls⟩ := ih (hstart.trans (Nat.le_add_right here c.utf8Size)) (c :: before)
      have hsize : here + c.utf8Size + byteSize lines = here + byteSize (c :: lines) := by
        rw [byteSize_cons, ← Nat.add_assoc]
      rw [hsize] at heq hls
      refine ⟨ls, heq, ?_, hls⟩
      rw [hlength, List.cons_append, List.count_cons_of_ne hc]

/-- No line of a text starts before it. -/
theorem le_start_cut {start here : Nat} (hstart : start ≤ here) (before cs : List Char) :
    ∀ l ∈ cut start here before cs, start ≤ l.start := by
  induction cs generalizing start here before with
  | nil => simp [cut]
  | cons c cs ih =>
    rw [cut]
    split
    · refine List.forall_mem_cons.mpr ⟨Nat.le_refl _, fun l hl => ?_⟩
      have hle := ih (Nat.le_refl (here + 1)) [] l hl
      omega
    · exact ih (hstart.trans (Nat.le_add_right _ _)) _

/-- The line of a place is one of the index, with the lines above it before it. -/
theorem exists_lines (h : Place cs n above front back) :
    ∃ ls later, cut 0 0 [] cs = ls ++ ⟨byteSize above, front ++ back⟩ :: later ∧
      ls.length = above.count '\n' ∧ (∀ l ∈ ls, l.start ≤ byteSize above) ∧
      ∀ l ∈ later, byteSize above + byteSize (front ++ back) < l.start := by
  obtain ⟨below, rfl, hbelow⟩ := h.text
  have hline : ∃ later, cut (byteSize above) (byteSize above) [] (front ++ back ++ below) =
      ⟨byteSize above, front ++ back⟩ :: later ∧
      ∀ l ∈ later, byteSize above + byteSize (front ++ back) < l.start := by
    rw [cut_line h.line, List.append_nil]
    rcases hbelow with rfl | ⟨more, rfl⟩
    · exact ⟨[], by rw [cut, List.reverse_reverse], by simp⟩
    · refine ⟨_, by rw [cut, if_pos rfl, List.reverse_reverse], fun l hl => ?_⟩
      exact le_start_cut (Nat.le_refl _) _ _ l hl
  obtain ⟨later, hcut, hlater⟩ := hline
  rcases h.above with rfl | ⟨lines, rfl⟩
  · exact ⟨[], later, hcut, rfl, by simp, hlater⟩
  · obtain ⟨ls, heq, hlength, hls⟩ := cut_above (Nat.le_refl 0) lines [] (front ++ back ++ below)
    have hsize : 0 + byteSize lines + 1 = byteSize (lines ++ ['\n']) := by
      rw [byteSize_append, Nat.zero_add]
      rfl
    rw [hsize, hcut] at heq
    refine ⟨ls, later, by simpa using heq, hlength, fun l hl => ?_, hlater⟩
    have hle := hls l hl
    omega

/-- The line of an offset is the last one that starts at or before it. -/
theorem lineAt_eq {k : Nat} {first l : SourceLine} {lines ls later : List SourceLine}
    (heq : first :: lines = ls ++ l :: later) (hls : ∀ x ∈ ls, x.start ≤ n) (hl : l.start ≤ n)
    (hlater : ∀ x ∈ later, n < x.start) : lineAt n k first lines = (k + ls.length, l) := by
  induction ls generalizing k first lines with
  | nil =>
    obtain ⟨rfl, rfl⟩ := List.cons.inj heq
    cases lines with
    | nil => rfl
    | cons m lines =>
      have hm := hlater m (List.mem_cons_self ..)
      rw [lineAt, if_neg (by omega)]
      rfl
  | cons x ls ih =>
    obtain ⟨rfl, hlines⟩ := List.cons.inj heq
    have hrest : ∀ y ∈ ls, y.start ≤ n := fun y hy => hls y (List.mem_cons_of_mem _ hy)
    cases lines with
    | nil => simp at hlines
    | cons m lines =>
      have hm : m.start ≤ n := by
        cases ls with
        | nil => rwa [(List.cons.inj hlines).1]
        | cons y ls =>
          rw [(List.cons.inj hlines).1]
          exact hrest y (List.mem_cons_self ..)
      rw [lineAt, if_pos hm, ih hlines hrest, List.length_cons]
      congr 1
      omega

/-! ## Columns -/

/-- Characters in front are counted one by one. -/
theorem columnAt?_append (front back : List Char) (k : Nat) :
    columnAt? (front ++ back) (byteSize front + k) = (columnAt? back k).map (front.length + ·) := by
  induction front with
  | nil => simp [byteSize_nil]
  | cons c front ih =>
    obtain ⟨m, hm⟩ : ∃ m, c.utf8Size + byteSize front + k = m + 1 :=
      Nat.exists_eq_succ_of_ne_zero (by have := c.utf8Size_pos; omega)
    rw [byteSize_cons, hm, List.cons_append, columnAt?, if_pos (by omega)]
    have hrest : m + 1 - c.utf8Size = byteSize front + k := by omega
    rw [hrest, ih, Option.map_map, List.length_cons]
    congr 1
    funext j
    simp only [Function.comp_apply]
    omega

/-- Every offset on the line of a place is counted from the start of that line. -/
theorem position_of_place {source : String} {m : Nat} (h : Place source.toList n above front back)
    (hlow : byteSize above ≤ m) (hhigh : m ≤ byteSize above + byteSize (front ++ back)) :
    (LineIndex.ofSource source).position m = (above.count '\n',
      (columnAt? (front ++ back) (m - byteSize above)).getD (m - byteSize above)) := by
  obtain ⟨ls, later, hlines, hlength, hls, hlater⟩ := exists_lines h
  have hsize : m ≤ source.utf8ByteSize := by
    obtain ⟨below, hbelow, -⟩ := h.text
    rw [← byteSize_toList, hbelow, byteSize_append, byteSize_append]
    omega
  obtain ⟨first, lines, hfirst⟩ : ∃ first lines, cut 0 0 [] source.toList = first :: lines := by
    rw [hlines]
    cases ls with
    | nil => exact ⟨_, _, rfl⟩
    | cons x ls => exact ⟨_, _, rfl⟩
  have hline := lineAt_eq (n := m) (k := 0) (hfirst.symm.trans hlines)
    (fun x hx => (hls x hx).trans hlow) hlow (fun x hx => Nat.lt_of_le_of_lt hhigh (hlater x hx))
  simp only [position, ofSource, hfirst, Nat.min_eq_left hsize, hline, hlength, Nat.zero_add]

end LineIndex

namespace Place

variable {source : String}

/-- Columns count the characters in front. -/
theorem position (h : Place source.toList n above front back) :
    (LineIndex.ofSource source).position n = (above.count '\n', front.length) := by
  have hcolumn := LineIndex.columnAt?_append front back 0
  have hzero : LineIndex.columnAt? back 0 = some 0 := by cases back <;> rfl
  rw [hzero] at hcolumn
  rw [LineIndex.position_of_place h (by rw [h.offset]; omega)
    (by rw [h.offset, byteSize_append]; omega), h.offset, Nat.add_sub_cancel_left]
  rw [Nat.add_zero] at hcolumn
  rw [hcolumn]
  rfl

/-- Inside a character, columns count the bytes in front. -/
theorem position_inside {c : Char} (h : Place source.toList n above front (c :: back))
    (hc : 1 < c.utf8Size) :
    (LineIndex.ofSource source).position (n + 1) = (above.count '\n', byteSize front + 1) := by
  have hcolumn := LineIndex.columnAt?_append front (c :: back) 1
  have hinside : LineIndex.columnAt? (c :: back) 1 = none := by
    rw [LineIndex.columnAt?, if_neg (by omega)]
  rw [hinside] at hcolumn
  rw [LineIndex.position_of_place h (by rw [h.offset]; omega)
    (by rw [h.offset, byteSize_append, byteSize_cons]; omega), h.offset, Nat.add_assoc,
    Nat.add_sub_cancel_left, hcolumn]
  rfl

/-- The length of a line does not count the carriage returns it ends with. -/
theorem lineLength (h : Place source.toList n above front back) :
    (LineIndex.ofSource source).lineLength (above.count '\n') =
      ((front ++ back).rdropWhile (· = '\r')).length := by
  obtain ⟨ls, later, hlines, hlength, -⟩ := LineIndex.exists_lines h
  have hget : (LineIndex.ofSource source).lines[above.count '\n']? =
      some ⟨byteSize above, front ++ back⟩ := by
    rw [LineIndex.ofSource, hlines, ← hlength]
    simp
  rw [LineIndex.lineLength, hget, List.rdropWhile, List.length_reverse]

/-- An offset is within the length of its line unless it stands behind a carriage return that ends the
line. -/
theorem le_lineLength (h : Place source.toList n above front back) :
    front.length ≤ (LineIndex.ofSource source).lineLength (above.count '\n') ↔ ¬ Returned front back := by
  rw [h.lineLength]
  clear h
  induction back using List.reverseRecOn with
  | nil =>
    rw [List.append_nil]
    induction front using List.reverseRecOn with
    | nil => simp [Returned]
    | append_singleton front c _ =>
      have hle := (List.rdropWhile_prefix (p := fun c => decide (c = '\r')) (l := front)).length_le
      by_cases hc : c = '\r'
      · subst hc
        simp [Returned]
        omega
      · simp [Returned, hc]
  | append_singleton back c ih =>
    rw [← List.append_assoc]
    by_cases hc : c = '\r'
    · subst hc
      rw [List.rdropWhile_concat_pos _ _ _ (by simp), ih]
      simp [Returned, or_imp]
    · rw [List.rdropWhile_concat_neg _ _ _ (by simpa using hc)]
      have hnot : ¬ Returned front (back ++ [c]) := fun h => hc (h.2 c (by simp))
      refine iff_of_true ?_ hnot
      rw [List.append_assoc, List.length_append]
      exact Nat.le_add_right _ _

end Place

end Colloquy
