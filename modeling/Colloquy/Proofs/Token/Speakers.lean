import Colloquy.Proofs.Token.Lines

/-!
# Speakers in front of a line

Whether a line opens with speakers is decided by one matcher (`hasSpeakers`), and the speakers are then
scanned as code, by another.  The first finds a bill: names and braced names with blanks around them,
separated by commas, up to a colon (`exists_bill`).  The second takes the bill piece by piece and leaves the
text behind the colon for text (`Bill.scanned`).  They differ in two ways.  The first passes over every blank,
the second only over those it knows inside a line and reports the others; and a name that the first passes
over may be a keyword for the second.  A bill without either scans as the speakers it lists, and no other
bill does (`speakers_scan`).
-/

namespace Colloquy

open Text

namespace Scan

/-! ## Bills -/

/-- A piece of the speakers in front of a line. -/
inductive Piece where
  | blank (c : Char)
  | openBrace
  | closeBrace
  | comma
  | word (name : List Char)
  deriving DecidableEq, Repr

namespace Piece

/-- The characters of a piece. -/
def text : Piece → List Char
  | .blank c => [c]
  | .openBrace => ['\x7b']
  | .closeBrace => ['\x7d']
  | .comma => [',']
  | .word name => name

/-- The characters of pieces in a row. -/
def spell (ps : List Piece) : List Char := ps.flatMap text

/-- What a name in code is read as. -/
def lexeme (name : List Char) : Lexeme :=
  match keyword? (String.ofList name) with
  | some m => .mark m
  | none => .identifier (String.ofList name)

/-- What a scan of code yields for a piece: nothing for a blank inside a line, an error for any other blank,
and a token for the rest. -/
def items (offset : Nat) : Piece → List ScanItem
  | .blank c => if isInlineBlank c then [] else [.error (.unexpectedCharacter c offset)]
  | .openBrace => [markItem .openBrace offset (offset + 1)]
  | .closeBrace => [markItem .closeBrace offset (offset + 1)]
  | .comma => [markItem .comma offset (offset + 1)]
  | .word name => [.ok ⟨lexeme name, .range offset (offset + name.length)⟩]

/-- What a scan of code yields for pieces in a row. -/
def allItems : Nat → List Piece → List ScanItem
  | _, [] => []
  | offset, p :: ps => p.items offset ++ allItems (offset + byteSize p.text) ps

/-- A piece that both matchers see the same way: a blank inside a line, or a name that is not a keyword. -/
def Plain : Piece → Prop
  | .blank c => isInlineBlank c = true
  | .word name => keyword? (String.ofList name) = none
  | _ => True

end Piece

/-- Blanks between the speakers of a line. -/
def Padding (cs : List Char) : Prop := ∀ c ∈ cs, isBlank c = true ∧ c ≠ '\n'

/-- Blanks as pieces. -/
def pad (cs : List Char) : List Piece := cs.map .blank

/-- One speaker: a name, or a name between braces with blanks around it. -/
inductive Credit : List Piece → Prop where
  | name {word : List Char} (h : IsName word) : Credit [.word word]
  | braced {front word back : List Char} (hfront : Padding front) (h : IsName word) (hback : Padding back) :
      Credit (.openBrace :: (pad front ++ .word word :: (pad back ++ [.closeBrace])))

/-- One or more speakers with blanks around them, separated by commas. -/
inductive Bill : List Piece → Prop where
  | last {front back : List Char} {credit : List Piece} (hfront : Padding front) (h : Credit credit)
      (hback : Padding back) : Bill (pad front ++ (credit ++ pad back))
  | more {front back : List Char} {credit rest : List Piece} (hfront : Padding front) (h : Credit credit)
      (hback : Padding back) (hrest : Bill rest) :
      Bill (pad front ++ (credit ++ (pad back ++ .comma :: rest)))

/-- The tokens of one speaker. -/
inductive Announced : List ScanItem → Prop where
  | name (name : String) (span : Span) : Announced [.ok ⟨.identifier name, span⟩]
  | braced (name : String) (span first last : Span) :
      Announced [.ok ⟨.mark .openBrace, first⟩, .ok ⟨.identifier name, span⟩,
        .ok ⟨.mark .closeBrace, last⟩]

/-- The tokens of one or more speakers, separated by commas. -/
inductive Announces : List ScanItem → Prop where
  | last {items : List ScanItem} (h : Announced items) : Announces items
  | more {items rest : List ScanItem} (h : Announced items) (comma : Span) (hrest : Announces rest) :
      Announces (items ++ .ok ⟨.mark .comma, comma⟩ :: rest)

/-! ## Blanks and names apart -/

theorem toNat_of_isDigit {c : Char} (h : c.isDigit = true) : 48 ≤ c.toNat ∧ c.toNat ≤ 57 := by
  obtain ⟨hge, hle⟩ := Bool.and_eq_true_iff.mp h
  exact ⟨UInt32.le_iff_toNat_le.mp (of_decide_eq_true hge),
    UInt32.le_iff_toNat_le.mp (of_decide_eq_true hle)⟩

/-- The letters of the matcher are those of two ranges. -/
theorem toNat_of_isAlpha {c : Char} (h : c.isAlpha = true) :
    (65 ≤ c.toNat ∧ c.toNat ≤ 90) ∨ (97 ≤ c.toNat ∧ c.toNat ≤ 122) := by
  rcases Bool.or_eq_true_iff.mp h with h | h
  · obtain ⟨hge, hle⟩ := of_decide_eq_true h
    exact .inl ⟨UInt32.le_iff_toNat_le.mp hge, UInt32.le_iff_toNat_le.mp hle⟩
  · obtain ⟨hge, hle⟩ := Bool.and_eq_true_iff.mp h
    exact .inr ⟨UInt32.le_iff_toNat_le.mp (of_decide_eq_true hge),
      UInt32.le_iff_toNat_le.mp (of_decide_eq_true hle)⟩

/-- A blank is no character of a name. -/
theorem not_isNameChar_of_isBlank {c : Char} (h : isBlank c = true) : isNameChar c = false := by
  by_contra hname
  rw [Bool.not_eq_false, isNameChar, Bool.or_eq_true, decide_eq_true_eq] at hname
  rcases hname with hname | rfl
  · simp only [isBlank, inRanges, blankRanges, List.any_cons, List.any_nil, Bool.or_eq_true,
      Bool.and_eq_true, decide_eq_true_eq, Bool.or_false] at h
    rw [Char.isAlphanum, Bool.or_eq_true] at hname
    rcases hname with hname | hname
    · have := toNat_of_isAlpha hname
      omega
    · have := toNat_of_isDigit hname
      omega
  · revert h
    decide

/-- What starts a name is no digit. -/
theorem not_isDigit_of_isNameStart {c : Char} (h : isNameStart c = true) : c.isDigit = false := by
  by_contra hdigit
  rw [isNameStart, Bool.or_eq_true, decide_eq_true_eq] at h
  rw [Bool.not_eq_false] at hdigit
  rcases h with h | rfl
  · have := toNat_of_isAlpha h
    have := toNat_of_isDigit hdigit
    omega
  · revert hdigit
    decide

/-- No mark starts with a character of a class that has none of the characters marks start with. -/
theorem punctuation?_eq_none {p : Char → Bool}
    (hp : ("=-+*/!<>&|#()\x7b\x7d[],:~%".toList.all fun d => !p d) = true) {c : Char}
    (hc : p c = true) (cs : List Char) : punctuation? (c :: cs) = none := by
  simp only [List.all_eq_true, Bool.not_eq_true'] at hp
  unfold punctuation?
  split
  all_goals first
    | rfl
    | (next heq =>
        obtain ⟨rfl, -⟩ := List.cons.inj heq
        rw [hp _ (by decide)] at hc
        cases hc)

/-! ## Scanning piece by piece -/

/-- What is scanned depends on the first step alone. -/
theorem yields_congr {s s' : Scan} (h : s.step = s'.step) : s.yields = s'.yields := by
  cases hstep : s.step with
  | mk items next =>
    cases next with
    | some next => rw [yields_of_step hstep, yields_of_step (h.symm.trans hstep)]
    | none => rw [yields_of_last hstep, yields_of_last (h.symm.trans hstep)]

variable {tail : List Char} {ps qs : List Piece}

/-- A blank inside a line yields nothing. -/
theorem yields_inlineBlank {c : Char} (h : isInlineBlank c = true) (offset : Nat) (tail : List Char) :
    yields ⟨.speakers, offset, c :: tail⟩ = yields ⟨.speakers, offset + c.utf8Size, tail⟩ := by
  refine yields_congr ?_
  show stepCode .speakers offset (c :: tail) = stepCode .speakers (offset + c.utf8Size) tail
  rw [stepCode, stepCode, List.takeWhile_cons_of_pos h, List.dropWhile_cons_of_pos h, byteSize_cons,
    Nat.add_assoc]

/-- A step of code at a character that is no blank of a line, no line feed and no slash takes a lexeme. -/
theorem stepCode_lexeme {c : Char} (hblank : isInlineBlank c = false) (hline : c ≠ '\n') (hslash : c ≠ '/')
    (mode : Mode) (offset : Nat) (tail : List Char) :
    stepCode mode offset (c :: tail) = stepLexeme mode offset c tail := by
  have hcomment : startsWith (c :: tail) "//" = false := by
    have hne : ('/' == c) = false := beq_false_of_ne (Ne.symm hslash)
    show (['/', '/'].isPrefixOf (c :: tail)) = false
    rw [List.isPrefixOf, hne, Bool.false_and]
  rw [stepCode, List.takeWhile_cons_of_neg (by rw [hblank]; decide),
    List.dropWhile_cons_of_neg (by rw [hblank]; decide)]
  simp only [byteSize_nil, Nat.add_zero, hline, if_false, hcomment, Bool.false_eq_true]

/-- Any other blank is reported. -/
theorem stepLexeme_oddBlank {c : Char} (hblank : isBlank c = true) (offset : Nat) (tail : List Char) :
    stepLexeme .speakers offset c tail =
      ([.error (.unexpectedCharacter c offset)], some ⟨.speakers, offset + c.utf8Size, tail⟩) := by
  have hname : isNameChar c = false := not_isNameChar_of_isBlank hblank
  have hstart : isNameStart c = false := by
    by_contra h
    rw [Bool.not_eq_false] at h
    rw [isNameChar_of_isNameStart h] at hname
    cases hname
  have hdigit : c.isDigit = false := by
    by_contra h
    rw [Bool.not_eq_false] at h
    rw [isNameChar_of_isDigit h] at hname
    cases hname
  have hquote : c ≠ '"' := by
    rintro rfl
    exact absurd hblank (by decide)
  simp only [stepLexeme, punctuation?_eq_none (by decide) hblank, hquote, hdigit, hstart, if_false,
    Bool.false_eq_true]

/-- A text does not go on with a character of names. -/
def Apart (cs : List Char) : Prop := ∀ c ∈ cs.head?, isNameChar c = false

/-- A name ends in front of a text that does not go on with one. -/
theorem takeWhile_apart {word : List Char} (hword : ∀ d ∈ word, isNameChar d = true) (htail : Apart tail) :
    (word ++ tail).takeWhile isNameChar = word ∧ (word ++ tail).dropWhile isNameChar = tail := by
  rw [List.takeWhile_append_of_pos hword, List.dropWhile_append_of_pos hword]
  cases tail with
  | nil => exact ⟨List.append_nil word, rfl⟩
  | cons d tail =>
    have hd : ¬ isNameChar d = true := by
      rw [htail d rfl]
      decide
    rw [List.takeWhile_cons_of_neg hd, List.dropWhile_cons_of_neg hd, List.append_nil]
    exact ⟨rfl, rfl⟩

/-- A name in front of something else is one lexeme. -/
theorem stepLexeme_word {c : Char} {word : List Char} (hstart : isNameStart c = true)
    (hword : ∀ d ∈ c :: word, isNameChar d = true) (htail : Apart tail) (offset : Nat) :
    stepLexeme .speakers offset c (word ++ tail) =
      ([.ok ⟨Piece.lexeme (c :: word), .range offset (offset + (c :: word).length)⟩],
        some ⟨.speakers, offset + (c :: word).length, tail⟩) := by
  obtain ⟨htake, hdrop⟩ := takeWhile_apart hword htail
  have hmark : punctuation? (c :: (word ++ tail)) = none :=
    punctuation?_eq_none (p := isNameStart) (by decide) hstart _
  have hquote : c ≠ '"' := by
    rintro rfl
    exact absurd hstart (by decide)
  rw [List.cons_append] at htake hdrop
  simp only [stepLexeme, hmark, hquote, not_isDigit_of_isNameStart hstart, hstart, htake, hdrop, if_false,
    if_true, Bool.false_eq_true]
  rfl

/-- Pieces that a scan takes one after another in front of anything that is no part of a name. -/
def Scanned (ps : List Piece) : Prop :=
  ∀ offset tail, Apart tail → yields ⟨.speakers, offset, Piece.spell ps ++ tail⟩ =
    Piece.allItems offset ps ++ yields ⟨.speakers, offset + byteSize (Piece.spell ps), tail⟩

/-- Pieces behind which a name ends. -/
def Parted (ps : List Piece) : Prop := ∀ tail, Apart tail → Apart (Piece.spell ps ++ tail)

theorem Parted.nil : Parted [] := fun _ h => h

/-- Pieces that start with another character than those of names are parted from a name in front. -/
theorem Parted.cons {p : Piece} (hp : ∃ c, p.text = [c] ∧ isNameChar c = false) : Parted (p :: ps) := by
  obtain ⟨c, htext, hc⟩ := hp
  intro tail _ d hd
  rw [Piece.spell, List.flatMap_cons, htext] at hd
  cases hd
  exact hc

/-- Blanks part what follows from a name in front of them. -/
theorem Parted.pad {back : List Char} (hback : Padding back) (hps : Parted ps) : Parted (pad back ++ ps) := by
  cases back with
  | nil => exact hps
  | cons c back =>
    exact .cons ⟨c, rfl, not_isNameChar_of_isBlank (hback c (List.mem_cons_self ..)).1⟩

namespace Scanned

theorem nil : Scanned [] := by
  intro offset tail _
  rfl

/-- A piece that a scan takes in front of pieces that it takes. -/
theorem cons {p : Piece} (hps : Scanned ps)
    (hp : ∀ offset tail, Apart tail → yields ⟨.speakers, offset, p.text ++ (Piece.spell ps ++ tail)⟩ =
      p.items offset ++ yields ⟨.speakers, offset + byteSize p.text, Piece.spell ps ++ tail⟩) :
    Scanned (p :: ps) := by
  intro offset tail htail
  rw [Piece.spell, List.flatMap_cons, List.append_assoc, byteSize_append, ← Nat.add_assoc]
  exact (hp offset tail htail).trans
    (by rw [hps _ tail htail, Piece.allItems, List.append_assoc]; rfl)

theorem mark {p : Piece} (hps : Scanned ps)
    (hp : ∀ offset tail, step ⟨.speakers, offset, p.text ++ tail⟩ =
      (p.items offset, some ⟨.speakers, offset + byteSize p.text, tail⟩)) : Scanned (p :: ps) :=
  hps.cons fun offset _ _ => yields_of_step (hp offset _)

/-- A blank in front of pieces is scanned before them. -/
theorem blank {c : Char} (hblank : isBlank c = true) (hline : c ≠ '\n') (hps : Scanned ps) :
    Scanned (.blank c :: ps) := by
  refine hps.cons fun offset tail _ => ?_
  show yields ⟨.speakers, offset, c :: _⟩ = (if isInlineBlank c then _ else _) ++
    yields ⟨.speakers, offset + c.utf8Size, _⟩
  by_cases hinline : isInlineBlank c = true
  · rw [if_pos hinline]
    exact yields_inlineBlank hinline offset _
  · rw [if_neg hinline]
    refine yields_of_step (Eq.trans ?_ (stepLexeme_oddBlank hblank offset _))
    refine stepCode_lexeme (Bool.eq_false_iff.mpr hinline) hline ?_ _ offset _
    rintro rfl
    exact absurd hblank (by decide)

/-- A name in front of pieces is scanned before them, if they are parted from it. -/
theorem word {name : List Char} (hname : IsName name) (hparted : Parted ps) (hps : Scanned ps) :
    Scanned (.word name :: ps) := by
  obtain ⟨⟨c, more, rfl, hstart⟩, hall⟩ := hname
  refine hps.cons fun offset tail htail => ?_
  have hfirst : isNameChar c = true := isNameChar_of_isNameStart hstart
  have hsize : byteSize (c :: more) = (c :: more).length :=
    byteSize_eq_length fun d hd => utf8Size_of_isNameChar (hall d hd)
  show yields ⟨.speakers, offset, c :: (more ++ _)⟩ =
    _ ++ yields ⟨.speakers, offset + byteSize (c :: more), _⟩
  rw [hsize]
  refine yields_of_step (Eq.trans ?_ (stepLexeme_word hstart hall (hparted tail htail) offset))
  refine stepCode_lexeme ?_ ?_ ?_ _ offset _
  · by_contra hinline
    rw [Bool.not_eq_false] at hinline
    rw [not_isNameChar_of_isBlank (isBlank_of_isInlineBlank hinline)] at hfirst
    cases hfirst
  · rintro rfl
    exact absurd hstart (by decide)
  · rintro rfl
    exact absurd hstart (by decide)

/-- Blanks in front of pieces are scanned before them. -/
theorem pad {front : List Char} (hfront : Padding front) (hps : Scanned ps) : Scanned (pad front ++ ps) := by
  induction front with
  | nil => exact hps
  | cons c front ih =>
    obtain ⟨hblank, hline⟩ := hfront c (List.mem_cons_self ..)
    exact blank hblank hline (ih fun d hd => hfront d (List.mem_cons_of_mem _ hd))

end Scanned

theorem Scanned.comma (hps : Scanned ps) : Scanned (.comma :: ps) := hps.mark fun _ _ => rfl

/-- A credit in front of pieces is scanned before them. -/
theorem Credit.scanned (h : Credit qs) (hparted : Parted ps) (hps : Scanned ps) : Scanned (qs ++ ps) := by
  cases h with
  | name h => exact hps.word h hparted
  | braced hfront h hback =>
    have hclose : Scanned (.closeBrace :: ps) := hps.mark fun _ _ => rfl
    have hopen : Scanned _ := (((hclose.pad hback).word h
      (.pad hback (.cons ⟨_, rfl, by decide⟩))).pad hfront).mark (p := .openBrace) fun _ _ => rfl
    simpa only [List.cons_append, List.append_assoc, List.nil_append] using hopen

/-- A bill is scanned piece by piece. -/
theorem Bill.scanned (h : Bill ps) : Scanned ps := by
  induction h with
  | last hfront h hback =>
    have hrest : Scanned (pad _ ++ []) := Scanned.nil.pad hback
    have hparted : Parted (pad _ ++ []) := .pad hback .nil
    rw [List.append_nil] at hrest hparted
    exact (h.scanned hparted hrest).pad hfront
  | more hfront h hback _ ih =>
    exact (h.scanned (.pad hback (.cons ⟨_, rfl, by decide⟩)) (ih.comma.pad hback)).pad hfront

/-! ## Recognised lines -/

/-- The blanks in front of a text on one line. -/
theorem exists_padding {cs : List Char} (hcs : '\n' ∉ cs) :
    ∃ front, Padding front ∧ cs = front ++ trimStart cs := by
  refine ⟨cs.takeWhile isBlank, fun c hc => ?_, List.takeWhile_append_dropWhile.symm⟩
  refine ⟨List.all_eq_true.mp List.all_takeWhile c hc, ?_⟩
  rintro rfl
  exact hcs ((List.takeWhile_sublist _).subset hc)

/-- The name in front of a text. -/
theorem exists_word {c : Char} (hc : isNameStart c = true) (more : List Char) :
    ∃ word, IsName word ∧ c :: more = word ++ more.dropWhile isNameChar := by
  refine ⟨c :: more.takeWhile isNameChar, ?_, ?_⟩
  · rw [← List.takeWhile_cons_of_pos (isNameChar_of_isNameStart hc)]
    exact (word_spells hc more).1
  · rw [List.cons_append, List.takeWhile_append_dropWhile]

theorem spell_pad (cs : List Char) : Piece.spell (pad cs) = cs := by
  rw [Piece.spell, pad, List.flatMap_map]
  exact List.flatMap_singleton' cs

theorem spell_cons (p : Piece) (ps : List Piece) : Piece.spell (p :: ps) = p.text ++ Piece.spell ps :=
  List.flatMap_cons

theorem spell_append (ps qs : List Piece) : Piece.spell (ps ++ qs) = Piece.spell ps ++ Piece.spell qs :=
  List.flatMap_append

/-- What a name leaves, behind the blanks around it. -/
theorem exists_named {c : Char} {more : List Char} (hline : '\n' ∉ c :: more) (hc : isNameStart c = true) :
    ∃ word back, IsName word ∧ Padding back ∧
      c :: more = word ++ (back ++ trimStart (more.dropWhile isNameChar)) := by
  obtain ⟨word, hword, hmore⟩ := exists_word hc more
  have hrest : '\n' ∉ more.dropWhile isNameChar := fun h =>
    hline (List.mem_cons_of_mem _ ((List.dropWhile_sublist _).subset h))
  obtain ⟨back, hback, hrest⟩ := exists_padding hrest
  exact ⟨word, back, hword, hback, by rw [hmore, ← hrest]⟩

/-- What is skipped as a speaker is one, with blanks around it. -/
theorem exists_credit {cs rest : List Char} (hcs : '\n' ∉ cs) (h : skipSpeaker cs = some rest) :
    ∃ front credit back, Padding front ∧ Credit credit ∧ Padding back ∧
      cs = front ++ (Piece.spell credit ++ (back ++ rest)) := by
  obtain ⟨front, hfront, hskip⟩ := exists_padding hcs
  rw [hskip] at hcs
  have hcs : '\n' ∉ trimStart cs := fun h => hcs (List.mem_append_right _ h)
  unfold skipSpeaker at h
  rw [hskip]
  generalize trimStart cs = ds at h hcs
  by_cases hbrace : ∃ more, ds = '\x7b' :: more
  · obtain ⟨more, rfl⟩ := hbrace
    have hmore : '\n' ∉ more := fun h => hcs (List.mem_cons_of_mem _ h)
    obtain ⟨inner, hinner, hskip⟩ := exists_padding hmore
    simp only at h
    split at h
    · next c tail heq =>
      rw [heq] at hskip
      subst hskip
      split at h
      · next hstart =>
        obtain ⟨word, outer, hword, houter, htail⟩ :=
          exists_named (fun h => hmore (List.mem_append_right _ h)) hstart
        simp only [if_true] at h
        split at h
        · next last hlast =>
          rw [hlast] at htail
          cases h
          have hend : '\n' ∉ last := fun h => hmore (by simp [htail, h])
          obtain ⟨back, hback, hskip⟩ := exists_padding hend
          refine ⟨front, _, back, hfront, .braced hinner hword houter, hback, ?_⟩
          have hspell : Piece.spell
              (.openBrace :: (pad inner ++ .word word :: (pad outer ++ [.closeBrace]))) =
              '\x7b' :: (inner ++ (word ++ (outer ++ ['\x7d']))) := by
            rw [spell_cons, spell_append, spell_cons, spell_append, spell_pad, spell_pad]
            rfl
          rw [htail, hspell, ← hskip]
          simp
        · cases h
      · cases h
    · cases h
  · cases ds with
    | nil => cases h
    | cons c tail =>
      have hbare : c ≠ '\x7b' := fun h => hbrace ⟨tail, by rw [h]⟩
      simp only [List.cons.injEq, hbare, false_and, forall_const, imp_false, not_false_eq_true,
        Bool.false_eq_true, if_false] at h
      split at h
      · next hstart =>
        cases h
        obtain ⟨word, back, hword, hback, htail⟩ := exists_named hcs hstart
        refine ⟨front, _, back, hfront, .name hword, hback, ?_⟩
        rw [htail, show Piece.spell [.word word] = word from List.append_nil _]
      · cases h

/-- Speakers in front of a line are a bill, and the text behind the colon is left. -/
theorem exists_bill {fuel : Nat} {cs : List Char} (hcs : '\n' ∉ cs) (h : hasSpeakersWithin fuel cs = true) :
    ∃ ps text, Bill ps ∧ cs = Piece.spell ps ++ ':' :: text := by
  induction fuel generalizing cs with
  | zero => cases h
  | succ fuel ih =>
    rw [hasSpeakersWithin] at h
    split at h
    · next text heq =>
      obtain ⟨front, credit, back, hfront, hcredit, hback, hcs⟩ := exists_credit hcs heq
      refine ⟨_, text, .last hfront hcredit hback, ?_⟩
      rw [hcs, spell_append, spell_append, spell_pad, spell_pad]
      simp
    · next rest heq =>
      obtain ⟨front, credit, back, hfront, hcredit, hback, rfl⟩ := exists_credit hcs heq
      obtain ⟨ps, text, hbill, rfl⟩ := ih (fun h => hcs (by simp [h])) h
      refine ⟨_, text, .more hfront hcredit hback hbill, ?_⟩
      rw [spell_append, spell_append, spell_append, spell_pad, spell_pad]
      simp [Piece.spell, Piece.text]
    · cases h

/-- A line that is opened for speakers is one that has them, from its start on. -/
theorem openLine_speakers {offset start : Nat} {cs rest : List Char}
    (h : openLine offset cs = ([], some ⟨.speakers, start, rest⟩)) :
    start = offset ∧ rest = cs ∧ hasSpeakers (lineOf cs) = true := by
  unfold openLine at h
  simp only at h
  split at h
  · cases h
  · split at h
    · split at h <;> cases h
    · cases h
    · split at h
      · next hspeakers => 
        cases h
        exact ⟨rfl, rfl, hspeakers⟩
      · cases h

/-- A line is scanned as speakers and text only if it opens with speakers. -/
theorem stepLineStart_speakers {offset start : Nat} {cs rest : List Char}
    (h : stepLineStart offset rest = ([], some ⟨.speakers, start, cs⟩)) : hasSpeakers (lineOf cs) = true := by
  unfold stepLineStart at h
  simp only at h
  split at h
  · cases h
  · split at h
    · split at h <;> cases h
    · obtain ⟨-, rfl, hspeakers⟩ := openLine_speakers h
      exact hspeakers

/-! ## What a bill is read as -/

/-- What pieces are scanned as one behind the other is what each of them is, at its place. -/
theorem allItems_append (offset : Nat) (ps qs : List Piece) : Piece.allItems offset (ps ++ qs) =
    Piece.allItems offset ps ++ Piece.allItems (offset + byteSize (Piece.spell ps)) qs := by
  induction ps generalizing offset with
  | nil => rfl
  | cons p ps ih =>
    rw [List.cons_append, Piece.allItems, Piece.allItems, ih, List.append_assoc, spell_cons,
      byteSize_append, Nat.add_assoc]

/-- What a piece is scanned as is among what all are. -/
theorem items_subset_allItems {p : Piece} (h : p ∈ ps) (offset : Nat) :
    ∃ n, p.items n ⊆ Piece.allItems offset ps := by
  obtain ⟨before, after, rfl⟩ := List.append_of_mem h
  refine ⟨offset + byteSize (Piece.spell before), ?_⟩
  rw [allItems_append, Piece.allItems]
  exact List.Subset.trans (List.subset_append_left _ _) (List.subset_append_right _ _)

/-- A token of speakers. -/
def Credits (item : ScanItem) : Prop :=
  ∃ t, item = .ok t ∧
    (t.is .openBrace ∨ t.is .closeBrace ∨ t.is .comma ∨ ∃ name, t.lexeme = .identifier name)

/-- What announces one speaker consists of names and braces. -/
theorem Announced.credits {items : List ScanItem} (h : Announced items) : ∀ item ∈ items, Credits item := by
  cases h with
  | name name span =>
    rintro item (_ | ⟨_, ⟨⟩⟩)
    exact ⟨_, rfl, .inr (.inr (.inr ⟨name, rfl⟩))⟩
  | braced name span first last =>
    rintro item (_ | ⟨_, _ | ⟨_, _ | ⟨_, ⟨⟩⟩⟩⟩)
    · exact ⟨_, rfl, .inl rfl⟩
    · exact ⟨_, rfl, .inr (.inr (.inr ⟨name, rfl⟩))⟩
    · exact ⟨_, rfl, .inr (.inl rfl)⟩

/-- What announces speakers consists of names, braces and commas. -/
theorem Announces.credits {items : List ScanItem} (h : Announces items) : ∀ item ∈ items, Credits item := by
  induction h with
  | last h => exact h.credits
  | more h comma _ ih =>
    intro item hitem
    rcases List.mem_append.mp hitem with hitem | _ | ⟨_, hitem⟩
    · exact h.credits item hitem
    · exact ⟨_, rfl, .inr (.inr (.inl rfl))⟩
    · exact ih item hitem

/-- The mark of a keyword is neither a brace nor a comma. -/
theorem keyword?_ne_credits {name : String} {m : Mark} (h : keyword? name = some m) :
    m ≠ .openBrace ∧ m ≠ .closeBrace ∧ m ≠ .comma := by
  unfold keyword? at h
  split at h
  all_goals cases h
  all_goals decide

/-- A piece that is read as nothing but tokens of speakers is plain. -/
theorem Piece.plain_of_credits {p : Piece} {offset : Nat} (h : ∀ item ∈ p.items offset, Credits item) :
    p.Plain := by
  cases p with
  | blank c =>
    by_contra hodd
    have hitem : (.error (.unexpectedCharacter c offset) : ScanItem) ∈ Piece.items offset (.blank c) := by
      rw [Piece.items, if_neg (show ¬ isInlineBlank c = true from hodd)]
      exact List.mem_singleton.mpr rfl
    obtain ⟨t, ht, -⟩ := h _ hitem
    cases ht
  | word name =>
    cases hkey : keyword? (String.ofList name) with
    | none => exact hkey
    | some m =>
      obtain ⟨t, ht, hcredit⟩ := h _ (List.mem_singleton.mpr rfl)
      obtain ⟨hopen, hclose, hcomma⟩ := keyword?_ne_credits hkey
      cases ht
      simp [Token.is, Piece.lexeme, hkey, hopen, hclose, hcomma] at hcredit
  | openBrace => trivial
  | closeBrace => trivial
  | comma => trivial

/-- Plain blanks are scanned as nothing. -/
theorem allItems_pad {front : List Char} (hplain : ∀ p ∈ pad front, p.Plain) (offset : Nat) :
    Piece.allItems offset (pad front) = [] := by
  induction front generalizing offset with
  | nil => rfl
  | cons c front ih =>
    have hc : isInlineBlank c = true := hplain _ (List.mem_cons_self ..)
    show Piece.items offset (.blank c) ++ Piece.allItems _ (pad front) = []
    rw [Piece.items, if_pos hc, ih fun p hp => hplain p (List.mem_cons_of_mem _ hp)]
    rfl

theorem lexeme_of_plain {name : List Char} (h : (Piece.word name).Plain) :
    Piece.lexeme name = .identifier (String.ofList name) := by
  have hkey : keyword? (String.ofList name) = none := h
  rw [Piece.lexeme, hkey]

/-- A plain credit announces its speaker. -/
theorem Credit.announced (h : Credit ps) (hplain : ∀ p ∈ ps, p.Plain) (offset : Nat) :
    Announced (Piece.allItems offset ps) := by
  cases h with
  | name h =>
    rw [Piece.allItems, Piece.allItems, Piece.items, lexeme_of_plain (hplain _ (List.mem_cons_self ..))]
    exact .name _ _
  | @braced front word back hfront h hback =>
    have hinner : ∀ p ∈ pad front, p.Plain := fun p hp => hplain p (by simp [hp])
    have houter : ∀ p ∈ pad back, p.Plain := fun p hp => hplain p (by simp [hp])
    have hword : (Piece.word word).Plain := hplain _ (by simp)
    rw [Piece.allItems, allItems_append, Piece.allItems, allItems_append, allItems_pad hinner,
      allItems_pad houter, Piece.items, Piece.items, lexeme_of_plain hword]
    exact .braced _ _ _ _

/-- A bill of plain pieces is read as its speakers. -/
theorem Bill.announces (h : Bill ps) (hplain : ∀ p ∈ ps, p.Plain) (offset : Nat) :
    Announces (Piece.allItems offset ps) := by
  induction h generalizing offset with
  | @last front back credit hfront h hback =>
    have hbefore : ∀ p ∈ pad front, p.Plain := fun p hp => hplain p (by simp [hp])
    have hafter : ∀ p ∈ pad back, p.Plain := fun p hp => hplain p (by simp [hp])
    rw [allItems_append, allItems_append, allItems_pad hbefore, allItems_pad hafter, List.append_nil]
    exact .last (h.announced (fun p hp => hplain p (by simp [hp])) _)
  | @more front back credit rest hfront h hback hrest ih =>
    have hbefore : ∀ p ∈ pad front, p.Plain := fun p hp => hplain p (by simp [hp])
    have hafter : ∀ p ∈ pad back, p.Plain := fun p hp => hplain p (by simp [hp])
    rw [allItems_append, allItems_append, allItems_append, allItems_pad hbefore, allItems_pad hafter]
    exact .more (h.announced (fun p hp => hplain p (by simp [hp])) _) _
      (ih (fun p hp => hplain p (by simp [hp])) _)

/-- A bill announces speakers exactly if it is plain. -/
theorem Bill.announces_iff (h : Bill ps) (offset : Nat) :
    Announces (Piece.allItems offset ps) ↔ ∀ p ∈ ps, p.Plain := by
  refine ⟨fun hitems p hp => ?_, fun hplain => h.announces hplain offset⟩
  obtain ⟨n, hn⟩ := items_subset_allItems hp offset
  exact Piece.plain_of_credits fun item hitem => hitems.credits item (hn hitem)

end Scan

/-! ## Lines that open with speakers -/

/-- Every line that is taken to open with speakers has a bill in front of a colon.  The scan yields what the
bill is read as, the colon, and the rest as text.  It reads the speakers that the bill lists, without an
error, if and only if the blanks of the bill are blanks inside a line and none of its names is a keyword. -/
theorem speakers_scan {offset start : Nat} {rest cs : List Char}
    (h : Scan.step ⟨.lineStart, offset, rest⟩ = ([], some ⟨.speakers, start, cs⟩)) :
    ∃ bill text, Scan.Bill bill ∧ cs = Scan.Piece.spell bill ++ ':' :: text ∧
      '\n' ∉ Scan.Piece.spell bill ∧
      (let colon := start + byteSize (Scan.Piece.spell bill)
       Scan.yields ⟨.speakers, start, cs⟩ = Scan.Piece.allItems start bill ++
        Scan.markItem .colon colon (colon + 1) :: Scan.yields ⟨.text, colon + 1, text⟩) ∧
      (Scan.Announces (Scan.Piece.allItems start bill) ↔ ∀ p ∈ bill, p.Plain) := by
  have hspeakers := Scan.stepLineStart_speakers h
  obtain ⟨bill, text, hbill, hline⟩ := Scan.exists_bill (Scan.newline_notMem_lineOf cs) hspeakers
  have hcs : cs = Scan.Piece.spell bill ++ ':' :: (text ++ Scan.afterLine cs) := by
    have hsplit : cs = Scan.lineOf cs ++ Scan.afterLine cs := List.takeWhile_append_dropWhile.symm
    rw [hline, List.append_assoc, List.cons_append] at hsplit
    exact hsplit
  refine ⟨bill, text ++ Scan.afterLine cs, hbill, hcs, fun hnewline => ?_, ?_, hbill.announces_iff start⟩
  · exact Scan.newline_notMem_lineOf cs (hline ▸ List.mem_append_left _ hnewline)
  · have htext : Scan.Apart (':' :: (text ++ Scan.afterLine cs)) := by
      rintro d ⟨⟩
      decide
    intro colon
    conv => lhs; rw [hcs, hbill.scanned start _ htext]
    rw [Scan.yields_of_step (rfl : Scan.step ⟨.speakers, colon, ':' :: (text ++ Scan.afterLine cs)⟩ =
      ([Scan.markItem .colon colon (colon + 1)], some ⟨.text, colon + 1, text ++ Scan.afterLine cs⟩))]
    rfl

/-- A line with a named speaker and a variable one. -/
def choir : String := " A, { hero } : Hi.\n"

/-- In front of the choir's line two speakers are recognised and scanned. -/
theorem speakers_scan_choir :
    Scan.step ⟨.lineStart, 0, choir.toList⟩ = ([], some ⟨.speakers, 1, choir.toList.drop 1⟩) ∧
    ∃ bill text, Scan.Bill bill ∧ choir.toList.drop 1 = Scan.Piece.spell bill ++ ':' :: text ∧
      '\n' ∉ Scan.Piece.spell bill ∧
      (let colon := 1 + byteSize (Scan.Piece.spell bill)
       Scan.yields ⟨.speakers, 1, choir.toList.drop 1⟩ = Scan.Piece.allItems 1 bill ++
        Scan.markItem .colon colon (colon + 1) :: Scan.yields ⟨.text, colon + 1, text⟩) ∧
      (Scan.Announces (Scan.Piece.allItems 1 bill) ↔ ∀ p ∈ bill, p.Plain) :=
  have hstep : Scan.step ⟨.lineStart, 0, choir.toList⟩ =
      ([], some ⟨.speakers, 1, choir.toList.drop 1⟩) := by
    decide +kernel
  ⟨hstep, speakers_scan hstep⟩

/-- A line with a blank behind its speaker that is no blank inside a line. -/
def wideBlank : String := "A\u00A0: hi\n"

/-- A line that is taken to open with speakers need not be read as them: the blank is reported. -/
theorem wideBlank_reported :
    ¬ ∀ (offset start : Nat) (rest cs : List Char),
      Scan.step ⟨.lineStart, offset, rest⟩ = ([], some ⟨.speakers, start, cs⟩) →
      ∃ items colon text, Scan.Announces items ∧ Scan.yields ⟨.speakers, start, cs⟩ =
        items ++ Scan.markItem .colon colon (colon + 1) :: Scan.yields ⟨.text, colon + 1, text⟩ := by
  intro hall
  obtain ⟨items, colon, text, hitems, hyields⟩ :=
    hall 0 0 wideBlank.toList wideBlank.toList (by decide +kernel)
  have hblank : Scan.Padding ['\u00A0'] := by
    rintro c (_ | ⟨_, ⟨⟩⟩)
    decide
  have hname : Scan.IsName ['A'] := ⟨⟨'A', [], rfl, by decide⟩, List.forall_mem_singleton.mpr rfl⟩
  have hbill : Scan.Bill [.word ['A'], .blank '\u00A0'] :=
    @Scan.Bill.last [] _ [_] nofun (.name hname) hblank
  have hread : Scan.yields ⟨.speakers, 0, wideBlank.toList⟩ =
      [.ok ⟨.identifier "A", .range 0 1⟩, .error (.unexpectedCharacter '\u00A0' 1)] ++
        Scan.yields ⟨.speakers, 3, ": hi\n".toList⟩ :=
    hbill.scanned 0 ": hi\n".toList (by rintro d ⟨⟩; decide)
  rw [hread] at hyields
  -- behind the first name speakers go on with a comma or end with the colon, and not with an error
  cases hitems with
  | last h => cases h <;> simp [Scan.markItem] at hyields
  | more h => cases h <;> simp at hyields

end Colloquy
