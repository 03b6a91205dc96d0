import Colloquy.Token.Scan

/-!
# Tokens end with the end of the source

Every step of a scan takes characters, or leaves the start of a line for a mode that does, so a scan comes
to its end within the steps it is given.  Only the last step yields the token that ends the source, and
behind that token there is nothing (`ended_scan`).
-/

namespace Colloquy

/-- The tokens end with the one that ends the source, which stands nowhere else. -/
inductive Ended : List Token → Prop where
  | last {t : Token} : t.is .endOfFile = true → Ended [t]
  | cons {t : Token} {ts : List Token} : t.is .endOfFile = false → Ended ts → Ended (t :: ts)

namespace Ended

variable {t : Token} {ts us : List Token}

theorem ne_nil (h : Ended ts) : ts ≠ [] := by
  cases h <;> exact List.cons_ne_nil _ _

/-- Behind a token that is not the last one, tokens end as they did. -/
theorem tail (h : Ended (t :: ts)) (ht : t.is .endOfFile = false) : Ended ts := by
  cases h with
  | last hlast =>
    rw [ht] at hlast
    cases hlast
  | cons _ hrest => exact hrest

/-- The token that ends a source is the last one. -/
theorem eq_singleton (h : Ended ts) (hhead : ts.head? = some t) (ht : t.is .endOfFile = true) :
    ts = [t] := by
  cases h with
  | last => rw [Option.some.inj hhead]
  | cons hnot _ =>
    rw [Option.some.inj hhead, ht] at hnot
    cases hnot

/-- All tokens before the last one, and the last one. -/
theorem exists_eq_append (h : Ended ts) : ∃ before last, ts = before ++ [last] ∧
    last.is .endOfFile = true ∧ ∀ t ∈ before, t.is .endOfFile = false := by
  induction h with
  | @last t ht => exact ⟨[], t, rfl, ht, by simp⟩
  | @cons t ts ht _ ih =>
    obtain ⟨before, last, rfl, hlast, hbefore⟩ := ih
    exact ⟨t :: before, last, rfl, hlast, List.forall_mem_cons.mpr ⟨ht, hbefore⟩⟩

end Ended

namespace Scan

/-- No item is the end of the source. -/
def Quiet (items : List ScanItem) : Prop := ∀ t, .ok t ∈ items → t.is .endOfFile = false

namespace Quiet

variable {xs ys : List ScanItem}

theorem nil : Quiet [] := fun t ht => by cases ht

/-- What yields no end, one behind the other, yields none. -/
theorem append (hx : Quiet xs) (hy : Quiet ys) : Quiet (xs ++ ys) := by
  intro t ht
  rcases List.mem_append.mp ht with ht | ht
  · exact hx t ht
  · exact hy t ht

theorem errors (es : List ScanError) : Quiet (es.map .error) := by
  intro t ht
  obtain ⟨e, _, he⟩ := List.mem_map.mp ht
  cases he

theorem single {t : Token} (h : t.is .endOfFile = false) : Quiet [.ok t] := by
  intro u hu
  cases List.mem_singleton.mp hu
  exact h

theorem mark {m : Mark} (hm : m ≠ .endOfFile) (start stop : Nat) : Quiet [markItem m start stop] :=
  single (by simpa [Token.is] using hm)

end Quiet

/-- How much a scan has before it: its characters count twice, and the start of a line once. -/
def size (s : Scan) : Nat := 2 * s.rest.length + if s.mode = .lineStart then 1 else 0

/-- What a step of a scan does: it leads on to a smaller scan, or it yields the end of the source. -/
inductive Steps (s : Scan) : Step → Prop where
  | on {items : List ScanItem} {next : Scan} :
      Quiet items → next.size < s.size → Steps s (items, some next)
  | last {items : List ScanItem} {t : Token} :
      Quiet items → t.is .endOfFile = true → Steps s (items ++ [.ok t], none)

namespace Steps

variable {s : Scan}

/-- A step that leaves fewer characters. -/
theorem taken {items : List ScanItem} {mode : Mode} {offset : Nat} {cs : List Char}
    (h : Quiet items) (hcs : cs.length < s.rest.length) : Steps s (items, some ⟨mode, offset, cs⟩) := by
  refine .on h ?_
  simp only [size]
  split <;> split <;> omega

/-- A step that leaves the start of a line. -/
theorem opened {items : List ScanItem} {mode : Mode} {offset : Nat} {cs : List Char}
    (h : Quiet items) (hs : s.mode = .lineStart) (hmode : mode ≠ .lineStart)
    (hcs : cs.length ≤ s.rest.length) : Steps s (items, some ⟨mode, offset, cs⟩) := by
  refine .on h ?_
  simp only [size, if_neg hmode, if_pos hs]
  omega

/-- Items without an end may be yielded before a step. -/
theorem prepend {items : List ScanItem} {x : Step} (h : Quiet items) (hx : Steps s x) :
    Steps s (items ++ x.1, x.2) := by
  cases hx with
  | on hquiet hsize => exact .on (h.append hquiet) hsize
  | last hquiet ht =>
    rw [← List.append_assoc]
    exact .last (h.append hquiet) ht

end Steps

variable {s : Scan}

/-- The end of a line is a step: a line feed is taken, or the source is at its end. -/
theorem endLine_steps (offset : Nat) {cs : List Char} (hcs : cs.length ≤ s.rest.length) :
    Steps s (endLine offset cs) := by
  cases cs with
  | nil => exact .last (.mark (by decide) _ _) (by simp [Token.is])
  | cons c cs => exact .taken (.mark (by decide) _ _) hcs

theorem length_dropWhile_le {p : Char → Bool} (cs : List Char) :
    (cs.dropWhile p).length ≤ cs.length := (List.dropWhile_sublist p).length_le

/-! ## The start of a line -/

/-- Opening a line is a step: it takes the marks in front, or leaves the start of the line for a mode of
text. -/
theorem openLine_steps (hs : s.mode = .lineStart) (offset : Nat) {cs : List Char}
    (hcs : cs.length ≤ s.rest.length) : Steps s (openLine offset cs) := by
  unfold openLine
  simp only
  split
  · exact .opened .nil hs (by simp) hcs
  · split
    · next more _ =>
      have hdrop := length_dropWhile_le (p := isInlineBlank) more
      rw [List.length_cons] at hcs
      split
      · next heq =>
        rw [heq, List.length_cons] at hdrop
        exact .taken ((Quiet.mark (by decide) _ _).append (.mark (by decide) _ _)) (by omega)
      · exact .taken (.mark (by decide) _ _) (by omega)
    · exact .taken (.mark (by decide) _ _) hcs
    · split
      · exact .opened .nil hs (by simp) hcs
      · exact .opened .nil hs (by simp) hcs

/-- A blank line is a step over its line feed; any other line is opened. -/
theorem stepLineStart_steps (hs : s.mode = .lineStart) (offset : Nat) :
    Steps s (stepLineStart offset s.rest) := by
  have hdrop := length_dropWhile_le (p := isInlineBlank) s.rest
  unfold stepLineStart
  simp only
  split
  · exact .last .nil (by simp [Token.is])
  · next c cs heq =>
    rw [heq] at hdrop
    have hafter : (afterLine (c :: cs)).length ≤ (c :: cs).length := length_dropWhile_le _
    split
    · split
      · exact .taken .nil (Nat.lt_of_lt_of_le (Nat.succ_pos _) hdrop)
      · next heq =>
        rw [heq, List.length_cons] at hafter
        exact .taken .nil (by omega)
    · exact openLine_steps hs _ hdrop

/-! ## Text -/

/-- Free text does not give back characters. -/
theorem length_textRun_le (offset : Nat) (cs : List Char) :
    (textRun offset cs).rest.length ≤ cs.length := by
  fun_induction textRun offset cs with
  | case1 | case2 => exact Nat.le_refl _
  | case3 offset cs _ ih => exact Nat.le_succ_of_le ih
  | case4 => exact Nat.zero_le _
  -- a backslash takes a character with it, known as an escape or not
  | case5 offset c cs _ _ _ ih | case6 offset c cs _ _ _ ih =>
    exact Nat.le_succ_of_le (Nat.le_succ_of_le ih)
  | case7 offset c cs _ _ _ _ ih => exact Nat.le_succ_of_le ih

/-- Free text with the mark that ends it is a step. -/
theorem stepText_steps (start : Nat) : Steps s (stepText start s.rest) := by
  have hrun := length_textRun_le start s.rest
  unfold stepText
  simp only
  generalize textRun start s.rest = run at hrun
  have hitems : Quiet (run.errors.map .error ++
      if run.text.isEmpty then []
      else [.ok ⟨.text (String.ofList run.text), .range start run.offset⟩]) := by
    refine (Quiet.errors _).append ?_
    split
    · exact .nil
    · exact .single (by simp [Token.is])
  split
  · next heq =>
    rw [heq, List.length_cons] at hrun
    exact .taken (hitems.append (.mark (by decide) _ _)) (by omega)
  · next heq =>
    rw [heq, List.length_cons, List.length_cons] at hrun
    exact .taken (hitems.append (.mark (by decide) _ _)) (by omega)
  · next heq =>
    rw [heq, List.length_cons, List.length_cons] at hrun
    exact .taken (hitems.append (.mark (by decide) _ _)) (by omega)
  · next heq =>
    rw [heq, List.length_cons, List.length_cons] at hrun
    exact .taken (hitems.append (.mark (by decide) _ _)) (by omega)
  · exact (endLine_steps _ hrun).prepend hitems

/-! ## Code -/

/-- Nor does a string. -/
theorem length_stringRun_le (start offset : Nat) (cs : List Char) :
    (stringRun start offset cs).rest.length ≤ cs.length := by
  fun_induction stringRun start offset cs with
  | case1 | case2 => exact Nat.le_refl _
  | case3 => exact Nat.le_succ _
  | case4 => exact Nat.zero_le _
  | case5 => exact Nat.le_succ _
  | case6 offset c cs _ _ d _ ih | case7 offset c cs _ _ _ ih =>
    exact Nat.le_succ_of_le (Nat.le_succ_of_le ih)
  | case8 offset c cs _ _ _ _ ih => exact Nat.le_succ_of_le ih

/-- A mark takes a character, and is not the end of the source. -/
theorem punctuation?_eq_some {cs rest : List Char} {m : Mark} {width : Nat}
    (h : punctuation? cs = some (m, width, rest)) : m ≠ .endOfFile ∧ rest.length < cs.length := by
  unfold punctuation? at h
  split at h
  all_goals cases h
  all_goals simp only [List.length_cons, ne_eq, reduceCtorEq, not_false_eq_true, true_and]
  all_goals omega

theorem keyword?_ne_endOfFile {name : String} {m : Mark} (h : keyword? name = some m) :
    m ≠ .endOfFile := by
  unfold keyword? at h
  split at h <;> cases h <;> decide

/-- A number takes a digit. -/
theorem length_numberDigits_lt {c : Char} (hc : c.isDigit = true) (cs : List Char) :
    (numberDigits (c :: cs)).2.length < (c :: cs).length := by
  have hdrop := length_dropWhile_le (p := Char.isDigit) cs
  unfold numberDigits
  rw [List.dropWhile_cons_of_pos hc, List.length_cons]
  simp only
  split
  · next d more heq =>
    rw [heq, List.length_cons] at hdrop
    have hmore := length_dropWhile_le (p := Char.isDigit) (d :: more)
    split
    · show (List.dropWhile Char.isDigit (d :: more)).length < _
      omega
    · show ('.' :: d :: more).length < _
      rw [List.length_cons]
      omega
  · exact Nat.lt_succ_of_le hdrop

/-- A lexeme of code is a step, whether it is a mark, a string, a number, a name or none of these. -/
theorem stepLexeme_steps (mode : Mode) (start : Nat) {c : Char} {cs : List Char}
    (hcs : (c :: cs).length ≤ s.rest.length) : Steps s (stepLexeme mode start c cs) := by
  unfold stepLexeme
  simp only
  split
  · next heq =>
    obtain ⟨hm, hlt⟩ := punctuation?_eq_some heq
    exact .taken (.mark hm _ _) (by omega)
  · rw [List.length_cons] at hcs
    split
    · have hrun := length_stringRun_le start (start + 1) cs
      exact .taken ((Quiet.errors _).append (.single (by simp [Token.is]))) (by omega)
    · split
      · next hc =>
        have hrest := length_numberDigits_lt hc cs
        rw [List.length_cons] at hrest
        exact .taken (.single (by simp [Token.is])) (by omega)
      · split
        · next hname =>
          have hword : isNameChar c = true := by
            simp only [isNameStart, isNameChar, Char.isAlphanum, Bool.or_eq_true] at hname ⊢
            exact hname.imp_left .inl
          have hdrop := length_dropWhile_le (p := isNameChar) cs
          refine .taken (.single ?_) ?_
          · cases hkey : keyword? (String.ofList ((c :: cs).takeWhile isNameChar)) with
            | some m => simpa [Token.is] using keyword?_ne_endOfFile hkey
            | none => simp [Token.is]
          · rw [List.dropWhile_cons_of_pos hword]
            omega
        · exact .taken (.errors [_]) (by omega)

/-- Code is a step: blanks with a lexeme, or with the end of the line. -/
theorem stepCode_steps (mode : Mode) (offset : Nat) : Steps s (stepCode mode offset s.rest) := by
  have hdrop := length_dropWhile_le (p := isInlineBlank) s.rest
  unfold stepCode
  simp only
  split
  · exact endLine_steps _ (Nat.zero_le _)
  · next c cs heq =>
    rw [heq] at hdrop
    split
    · exact endLine_steps _ hdrop
    · split
      · have hafter : (afterLine (c :: cs)).length ≤ (c :: cs).length := length_dropWhile_le _
        exact endLine_steps _ (by omega)
      · exact stepLexeme_steps _ _ hdrop

/-- Every step of a scan is one, in all modes. -/
theorem step_steps (s : Scan) : Steps s s.step := by
  unfold step
  split
  · next hs => exact stepLineStart_steps hs _
  · exact stepText_steps _
  · exact stepCode_steps _ _

/-! ## Runs -/

/-- Items without an end may stand before tokens that end. -/
theorem ended_append {items : List ScanItem} (h : Quiet items) {ts : List Token} (hts : Ended ts) :
    Ended (tokensOf items ++ ts) := by
  induction items with
  | nil => exact hts
  | cons item items ih =>
    have hrest : Quiet items := fun t ht => h t (List.mem_cons_of_mem _ ht)
    cases item with
    | ok t => exact .cons (h t (List.mem_cons_self ..)) (ih hrest)
    | error e => exact ih hrest

theorem tokensOf_append (xs ys : List ScanItem) : tokensOf (xs ++ ys) = tokensOf xs ++ tokensOf ys :=
  List.filterMap_append

/-- A scan that is given enough steps comes to the end of the source. -/
theorem ended_run {fuel : Nat} (hfuel : s.size < fuel) : Ended (tokensOf (run fuel s)) := by
  induction fuel generalizing s with
  | zero => omega
  | succ fuel ih =>
    have hstep := step_steps s
    rw [run]
    generalize s.step = x at hstep ⊢
    cases hstep with
    | on hquiet hsize =>
      rw [tokensOf_append]
      exact ended_append hquiet (ih (by omega))
    | last hquiet ht =>
      rw [tokensOf_append]
      exact ended_append hquiet (.last ht)

end Scan

/-- The tokens of a source end with the end of the source. -/
theorem ended_scan (source : String) : Ended (tokensOf (scan source)) :=
  Scan.ended_run (by simp [Scan.size])

end Colloquy
