import Colloquy.Timeline.Cue
import Mathlib.Data.List.Infix

/-!
# Groups of a text

`pieces` cuts a text from the right.  What it finds does not depend on what stands around it: a text has
a group if and only if the brackets and what is between them stand somewhere in the text, and there is
no bracket between them (`group_mem_pieces_iff`).  So the groups of a part of a text are groups of the
whole, and so are the control tags (`mem_tags_interpolate`).
-/

namespace Colloquy

/-- There is no bracket among some characters. -/
def Bare (body : List Char) : Prop := ∀ c ∈ body, c ≠ '[' ∧ c ≠ ']'

namespace Piece

variable {ps rest : List Piece} {body : List Char}

/-- What is split off up to a bracket that closes has no bracket inside. -/
theorem bare_and_eq_of_splitGroup (h : splitGroup ps = some (body, rest)) :
    Bare body ∧ ps = body.map .char ++ .char ']' :: rest := by
  induction ps generalizing body with
  | nil => cases h
  | cons p ps ih =>
    cases p with
    | group b => cases h
    | char c =>
      by_cases hclose : c = ']'
      · simp only [splitGroup, hclose, if_true, Option.some.injEq, Prod.mk.injEq] at h
        obtain ⟨rfl, rfl⟩ := h
        exact ⟨by simp [Bare], by rw [hclose]; rfl⟩
      · by_cases hopen : c = '['
        · simp [splitGroup, hopen] at h
        · simp only [splitGroup, hclose, hopen, if_false, Option.map_eq_some_iff,
            Prod.mk.injEq] at h
          obtain ⟨⟨b, r⟩, hs, rfl, rfl⟩ := h
          obtain ⟨hbare, heq⟩ := ih hs
          refine ⟨?_, by rw [heq]; rfl⟩
          rw [Bare, List.forall_mem_cons]
          exact ⟨⟨hopen, hclose⟩, hbare⟩

theorem bare_of_splitGroup (h : splitGroup ps = some (body, rest)) : Bare body :=
  (bare_and_eq_of_splitGroup h).1

/-- A group closes behind characters, and the rest is as it was. -/
theorem eq_of_splitGroup (h : splitGroup ps = some (body, rest)) :
    ps = body.map .char ++ .char ']' :: rest :=
  (bare_and_eq_of_splitGroup h).2

/-- Only characters stand in front of the rest. -/
theorem mem_rest_of_splitGroup (h : splitGroup ps = some (body, rest)) {b : List Char} :
    .group b ∈ ps ↔ .group b ∈ rest := by
  simp [eq_of_splitGroup h]

/-- Characters without a bracket are the body of a group if a bracket closes behind them. -/
theorem splitGroup_of_bare (hbody : Bare body) (ps : List Piece) :
    splitGroup (body.map .char ++ .char ']' :: ps) = some (body, ps) := by
  induction body with
  | nil => simp [splitGroup]
  | cons c body ih =>
    rw [Bare, List.forall_mem_cons] at hbody
    obtain ⟨⟨hopen, hclose⟩, hbody⟩ := hbody
    simp [splitGroup, hopen, hclose, ih hbody]

/-- A character in front takes no group apart. -/
theorem mem_add_of_mem {b : List Char} (h : .group b ∈ ps) (c : Char) : .group b ∈ add c ps := by
  rw [add]
  split
  · split
    · next body rest hsplit => exact List.mem_cons_of_mem _ ((mem_rest_of_splitGroup hsplit).mp h)
    · exact List.mem_cons_of_mem _ h
  · exact List.mem_cons_of_mem _ h

end Piece

theorem pieces_cons (c : Char) (cs : List Char) : pieces (c :: cs) = Piece.add c (pieces cs) := rfl

/-- A group of a text is a group of every text that ends with it. -/
theorem mem_pieces_append {body : List Char} {cs : List Char} (h : .group body ∈ pieces cs)
    (front : List Char) : .group body ∈ pieces (front ++ cs) := by
  induction front with
  | nil => exact h
  | cons c front ih => exact Piece.mem_add_of_mem ih c

/-- Characters that open no group stay as they are. -/
theorem pieces_append_of_bare {body : List Char} (hbody : Bare body) (cs : List Char) :
    pieces (body ++ cs) = body.map .char ++ pieces cs := by
  induction body with
  | nil => rfl
  | cons c body ih =>
    rw [Bare, List.forall_mem_cons] at hbody
    rw [List.cons_append, pieces_cons, ih hbody.2, Piece.add, if_neg hbody.1.1]
    rfl

/-- Brackets with no bracket between them are a group, whatever stands behind. -/
theorem pieces_group {body : List Char} (hbody : Bare body) (cs : List Char) :
    pieces ('[' :: (body ++ ']' :: cs)) = .group body :: pieces cs := by
  have hclose : pieces (']' :: cs) = .char ']' :: pieces cs := by
    rw [pieces_cons, Piece.add, if_neg (by decide)]
  rw [pieces_cons, pieces_append_of_bare hbody, hclose, Piece.add, if_pos rfl,
    Piece.splitGroup_of_bare hbody]

/-- No group has a bracket inside. -/
theorem bare_of_mem_pieces {body cs : List Char} (h : .group body ∈ pieces cs) : Bare body := by
  induction cs with
  | nil => cases h
  | cons c cs ih =>
    rw [pieces_cons, Piece.add] at h
    split at h
    · split at h
      · next b rest hsplit =>
        rcases List.mem_cons.mp h with heq | hrest
        · cases heq
          exact Piece.bare_of_splitGroup hsplit
        · exact ih ((Piece.mem_rest_of_splitGroup hsplit).mpr hrest)
      · exact ih (by simpa using h)
    · exact ih (by simpa using h)

/-- A group is found wherever it stands in a text. -/
theorem group_mem_pieces_iff {body cs : List Char} :
    .group body ∈ pieces cs ↔ '[' :: (body ++ [']']) <:+: cs ∧ Bare body := by
  constructor
  · intro h
    refine ⟨?_, bare_of_mem_pieces h⟩
    obtain ⟨ps, qs, hpieces⟩ := List.append_of_mem h
    refine ⟨piecesText ps, piecesText qs, ?_⟩
    rw [← piecesText_pieces cs, hpieces]
    simp [piecesText, Piece.text]
  · rintro ⟨⟨front, back, rfl⟩, hbare⟩
    rw [List.append_assoc]
    refine mem_pieces_append ?_ front
    rw [List.cons_append, List.append_assoc, List.singleton_append, pieces_group hbare]
    exact List.mem_cons_self ..

/-! ## Control tags -/

/-- The cues of pieces are the tags of their control groups, wherever the pieces stand. -/
theorem mem_tags_cuesFrom {tag : Tag} {shown : Nat} {ps : List Piece} :
    tag ∈ (cuesFrom shown ps).map Cue.tag ↔
      ∃ body, .group body ∈ ps ∧ Tag.isControl body = true ∧ Tag.ofGroup? body = some tag := by
  induction ps generalizing shown with
  | nil => simp [cuesFrom]
  | cons p ps ih =>
    cases p with
    | char c => simpa [cuesFrom] using ih
    | group b =>
      by_cases hcontrol : Tag.isControl b = true
      · have hfirst : tag ∈ ((Tag.ofGroup? b).map fun tag => (⟨tag, shown⟩ : Cue)).toList.map Cue.tag ↔
            Tag.ofGroup? b = some tag := by
          cases Tag.ofGroup? b <;> simp [eq_comm]
        rw [cuesFrom, if_pos hcontrol, List.map_append, List.mem_append, ih, hfirst]
        simp [hcontrol, or_and_right, exists_or]
      · rw [cuesFrom, if_neg hcontrol, ih]
        simp [hcontrol, or_and_right, exists_or]

/-- The tags of a text are those of its well-formed control groups. -/
theorem mem_tags_interpolate {tag : Tag} {text : String} :
    tag ∈ (interpolate text).tags ↔
      ∃ body, .group body ∈ pieces text.toList ∧ Tag.isControl body = true ∧
        Tag.ofGroup? body = some tag :=
  mem_tags_cuesFrom

end Colloquy
