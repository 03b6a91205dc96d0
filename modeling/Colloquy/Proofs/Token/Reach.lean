import Colloquy.Proofs.Token.Spelling

/-!
# How far readers look

The readers of the scanner stop at a line feed, and what stands behind it does not change what they read.  There
is one lemma for each of them, about a text `a` with a line feed behind it and anything behind that.  Only free
text may go on: a backslash takes the line feed as it takes any other character (`textRun_newline`).
-/

namespace Colloquy

open Text

namespace Scan

variable {offset n : Nat} {a cs : List Char}

/-! ## Words, lines and marks -/

/-- What a reader takes that stops at line feeds lies in front of one. -/
theorem takeWhile_newline {p : Char → Bool} (hp : p '\n' = false) (a b : List Char) :
    (a ++ '\n' :: b).takeWhile p = a.takeWhile p := by
  induction a with
  | nil => simp [hp]
  | cons c a ih =>
    rw [List.cons_append, List.takeWhile_cons, List.takeWhile_cons, ih]

/-- What is passed over ends at a line feed that is not of its kind. -/
theorem dropWhile_newline {p : Char → Bool} (hp : p '\n' = false) (a b : List Char) :
    (a ++ '\n' :: b).dropWhile p = a.dropWhile p ++ '\n' :: b := by
  induction a with
  | nil => simp [hp]
  | cons c a ih =>
    rw [List.cons_append, List.dropWhile_cons, List.dropWhile_cons, ih]
    split <;> rfl

theorem lineOf_newline (a b : List Char) : lineOf (a ++ '\n' :: b) = lineOf a :=
  takeWhile_newline (by decide) a b

theorem afterLine_newline (a b : List Char) : afterLine (a ++ '\n' :: b) = afterLine a ++ '\n' :: b :=
  dropWhile_newline (by decide) a b

/-- A text starts with what it did without a line feed behind it. -/
theorem startsWith_newline {s : String} (hs : '\n' ∉ s.toList) (a b : List Char) :
    startsWith (a ++ '\n' :: b) s = startsWith a s := by
  rw [startsWith, startsWith]
  generalize s.toList = p at hs
  induction p generalizing a with
  | nil => simp
  | cons c p ih =>
    rw [List.mem_cons, not_or] at hs
    cases a with
    | nil => simp [List.isPrefixOf, Ne.symm hs.1]
    | cons d a => simp [List.isPrefixOf, ih a hs.2]

/-- Free text stops at one character or at two. -/
theorem stopsText_cons (c : Char) (cs : List Char) : stopsText (c :: cs) = true ↔
    c = '\n' ∨ c = '\x7b' ∨ (c = '<' ∧ cs.head? = some '<') ∨
      (c = '#' ∧ cs.head? = some '\x7b') ∨ (c = '-' ∧ cs.head? = some '>') := by
  unfold stopsText
  split
  case h_7 => cases cs <;> simp_all
  all_goals grind

/-- Whether free text stops somewhere is decided in front of the line feed. -/
theorem stopsText_newline (a b : List Char) : stopsText (a ++ '\n' :: b) = stopsText a := by
  cases a with
  | nil => rfl
  | cons c a =>
    rw [Bool.eq_iff_iff, List.cons_append, stopsText_cons, stopsText_cons]
    cases a <;> simp

/-- A text that does not go on with a character does not with a line feed behind it. -/
theorem append_newline_ne {c : Char} (hc : c ≠ '\n') (h : ∀ ds, cs = c :: ds → False) (b ds : List Char) :
    cs ++ '\n' :: b ≠ c :: ds := by
  intro heq
  cases cs with
  | nil => exact hc (List.cons.inj heq).1.symm
  | cons d cs =>
    obtain ⟨rfl, -⟩ := List.cons.inj heq
    exact h cs rfl

/-- A mark in front of a text is there with a line feed behind the text, and no longer one. -/
theorem punctuation?_newline (c : Char) (cs b : List Char) : punctuation? (c :: (cs ++ '\n' :: b)) =
    (punctuation? (c :: cs)).map fun x => (x.1, x.2.1, x.2.2 ++ '\n' :: b) := by
  cases h : punctuation? (c :: cs) with
  | some x =>
    unfold punctuation? at h
    split at h
    all_goals cases h
    all_goals rename_i heq
    all_goals cases heq
    all_goals first | rfl | simp_all [punctuation?, append_newline_ne]
  | none =>
    unfold punctuation? at h
    split at h
    all_goals cases h
    unfold punctuation?
    split
    case h_34 => rfl
    all_goals
      rename_i heq
      obtain ⟨hc, htail⟩ := List.cons.inj heq
      subst hc
      exfalso
      -- A mark of two characters is what the line feed cannot complete.
      first
      | refine append_newline_ne ?_ (fun ds hcs => ?_) b _ htail
        · decide
        · subst hcs
          solve_by_elim [Eq.refl]
      | solve_by_elim [Eq.refl]

/-- Digits in front of a line feed are read as they are without it. -/
theorem numberDigits_newline (a b : List Char) : numberDigits (a ++ '\n' :: b) =
    ((numberDigits a).1, (numberDigits a).2 ++ '\n' :: b) := by
  have hdigit : Char.isDigit '\n' = false := by decide
  unfold numberDigits
  simp only
  rw [takeWhile_newline hdigit, dropWhile_newline hdigit]
  generalize a.dropWhile Char.isDigit = rest
  match rest with
  | [] => rfl
  | [c] =>
    by_cases hc : c = '.'
    · subst hc
      rfl
    · simp [hc]
  | c :: d :: more =>
    by_cases hc : c = '.'
    · subst hc
      simp only [List.cons_append]
      by_cases hd : d.isDigit = true
      · rw [if_pos hd, if_pos hd]
        have hfraction := takeWhile_newline hdigit (d :: more) b
        have hrest := dropWhile_newline hdigit (d :: more) b
        rw [List.cons_append] at hfraction hrest
        rw [hfraction, hrest]
      · rw [if_neg hd, if_neg hd]
        rfl
    · simp [hc]

/-! ## Strings and text -/

/-- A string ends in front of a line feed. -/
theorem stringRun_newline (start offset : Nat) (a : List Char) : ∃ value errors piece more,
    a = piece ++ more ∧ ∀ b, stringRun start offset (a ++ '\n' :: b) =
      ⟨value, errors, offset + byteSize piece, more ++ '\n' :: b⟩ := by
  fun_induction stringRun start offset a with
  | case1 offset => exact ⟨[], _, [], [], rfl, fun _ => rfl⟩
  | case2 offset cs => exact ⟨[], _, [], '\n' :: cs, rfl, fun _ => rfl⟩
  | case3 offset cs => exact ⟨[], _, ['"'], cs, rfl, fun _ => rfl⟩
  | case4 offset => exact ⟨[], _, ['\\'], [], rfl, fun _ => rfl⟩
  | case5 offset cs => exact ⟨[], _, ['\\'], '\n' :: cs, rfl, fun _ => rfl⟩
  | case6 offset c cs hc run d hd ih =>
    obtain ⟨value, errors, piece, more, rfl, hrun⟩ := ih
    refine ⟨d :: value, errors, '\\' :: c :: piece, more, rfl, fun b => ?_⟩
    rw [List.cons_append, List.cons_append, stringRun, if_neg hc, hd, hrun, byteSize_cons,
      byteSize_cons, ← Nat.add_assoc, ← Nat.add_assoc]
    rfl
  | case7 offset c cs hc run hnone ih =>
    obtain ⟨value, errors, piece, more, rfl, hrun⟩ := ih
    refine ⟨value, .unknownEscape c (.range offset (offset + 1 + c.utf8Size)) :: errors,
      '\\' :: c :: piece, more, rfl, fun b => ?_⟩
    rw [List.cons_append, List.cons_append, stringRun, if_neg hc, hnone, hrun, byteSize_cons,
      byteSize_cons, ← Nat.add_assoc, ← Nat.add_assoc]
    rfl
  | case8 offset c cs hline hquote hlast hescape ih =>
    obtain ⟨value, errors, piece, more, rfl, hrun⟩ := ih
    have hne := ne_backslash hlast hescape
    refine ⟨c :: value, errors, c :: piece, more, rfl, fun b => ?_⟩
    rw [List.cons_append, stringRun, hrun, byteSize_cons, ← Nat.add_assoc]
    · rfl
    · exact hline
    · exact hquote
    · exact fun h => absurd h hne
    · exact fun _ _ h => absurd h hne

/-- Free text was read over a line feed: it stood behind a backslash. -/
structure TextRun.Overruns (n : Nat) (run : TextRun) : Prop where
  reported : .unknownEscape '\n' (.range (n - 1) (n + 1)) ∈ run.errors
  said : '\n' ∈ run.text
  beyond : n < run.offset

/-- Free text ends in front of a line feed, whatever stands behind it, or runs over it. -/
def TextRun.Ends (offset : Nat) (a : List Char) : Prop :=
  (∃ text errors piece more, a = piece ++ more ∧ ∀ b, textRun offset (a ++ '\n' :: b) =
    ⟨text, errors, offset + byteSize piece, more ++ '\n' :: b⟩) ∨
  (∃ front, a = front ++ ['\\']) ∧
    ∀ b, (textRun offset (a ++ '\n' :: b)).Overruns (offset + byteSize a)

/-- Characters that are read first do not change where free text ends. -/
theorem TextRun.Ends.before (front said : List Char) (reported : List ScanError)
    (h : TextRun.Ends (offset + byteSize front) a)
    (hfront : ∀ b, textRun offset (front ++ (a ++ '\n' :: b)) =
      { textRun (offset + byteSize front) (a ++ '\n' :: b) with
        text := said ++ (textRun (offset + byteSize front) (a ++ '\n' :: b)).text
        errors := reported ++ (textRun (offset + byteSize front) (a ++ '\n' :: b)).errors }) :
    TextRun.Ends offset (front ++ a) := by
  rcases h with ⟨text, errors, piece, more, rfl, hrun⟩ | ⟨⟨first, rfl⟩, hover⟩
  · refine .inl ⟨said ++ text, reported ++ errors, front ++ piece, more,
      (List.append_assoc _ _ _).symm, fun b => ?_⟩
    rw [List.append_assoc front, hfront b, hrun b, byteSize_append, Nat.add_assoc]
  · refine .inr ⟨⟨front ++ first, (List.append_assoc _ _ _).symm⟩, fun b => ?_⟩
    have hrun := hover b
    rw [List.append_assoc front, hfront b, byteSize_append, ← Nat.add_assoc]
    exact ⟨List.mem_append_right _ hrun.reported, List.mem_append_right _ hrun.said, hrun.beyond⟩

/-- Free text ends at the line feed, or takes it behind a backslash that the line ends with. -/
theorem textRun_newline (offset : Nat) (a : List Char) : TextRun.Ends offset a := by
  fun_induction textRun offset a with
  | case1 a offset hstops =>
    refine .inl ⟨[], [], [], a, rfl, fun b => ?_⟩
    rw [textRun.eq_def, if_pos (by rwa [stopsText_newline])]
    rfl
  | case2 offset h => exact absurd rfl h
  | case3 offset cs hgoes ih =>
    refine TextRun.Ends.before ['\r'] [] [] ih fun b => ?_
    rw [textRun.eq_def, if_neg (by simp [stopsText])]
    rfl
  | case4 offset hgoes =>
    -- the line feed is what the backslash takes
    refine .inr ⟨⟨[], rfl⟩, fun b => ?_⟩
    obtain ⟨piece, -, hstop, -⟩ := textRun_reads (offset + 2) b
    rw [List.singleton_append, textRun.eq_def, if_neg (by simp [stopsText])]
    refine ⟨List.mem_cons_self .., List.mem_cons_self .., ?_⟩
    show offset + 1 < (textRun (offset + 2) b).offset
    omega
  | case5 offset c cs run hescape hgoes ih =>
    rw [Nat.add_assoc] at ih
    refine TextRun.Ends.before ['\\', c] [c] [] ih fun b => ?_
    show textRun offset ('\\' :: c :: (cs ++ '\n' :: b)) = _
    rw [textRun.eq_def, if_neg (by simp [stopsText])]
    simp only
    rw [if_pos hescape, Nat.add_assoc]
    rfl
  | case6 offset c cs run hescape hgoes ih =>
    rw [Nat.add_assoc] at ih
    refine TextRun.Ends.before ['\\', c] [c] [.unknownEscape c (.range offset (offset + (1 + c.utf8Size)))]
      ih fun b => ?_
    show textRun offset ('\\' :: c :: (cs ++ '\n' :: b)) = _
    rw [textRun.eq_def, if_neg (by simp [stopsText])]
    simp only
    rw [if_neg hescape, Nat.add_assoc]
    rfl
  | case7 offset c cs hreturn hlast hescape hgoes ih =>
    have hne := ne_backslash hlast hescape
    refine TextRun.Ends.before [c] [c] [] ih fun b => ?_
    have hgoes' : ¬stopsText (c :: (cs ++ '\n' :: b)) = true := by
      rwa [← List.cons_append, stopsText_newline]
    rw [List.singleton_append, textRun.eq_def, if_neg hgoes']
    split
    · next heq => cases heq
    · next heq => exact absurd (List.cons.inj heq).1 hreturn
    · next heq => exact absurd (List.cons.inj heq).1 hne
    · next heq => exact absurd (List.cons.inj heq).1 hne
    · next heq =>
      cases heq
      rfl

end Scan

end Colloquy
