import Colloquy.Text.Blank

/-!
# Markup in shown text

Shown text may hold groups between brackets.  A group has no bracket inside it, takes no time to
reveal and is not seen as text; a bracket that belongs to no group is text like any other character.

`pieces` cuts a text into characters and groups from the right: an opening bracket makes a group of
the characters up to the next bracket if that one closes.  No character is lost (`piecesText_pieces`).
-/

namespace Colloquy

/-- A piece of shown text. -/
inductive Piece where
  | char (c : Char)
  /-- A group, without its brackets. -/
  | group (body : List Char)
  deriving DecidableEq, Repr

namespace Piece

/-- The characters of a piece. -/
def text : Piece → List Char
  | .char c => [c]
  | .group body => '[' :: (body ++ [']'])

/-- Whether a piece is seen by a reader. -/
def isVisible : Piece → Bool
  | .char _ => true
  | .group _ => false

/-- The characters in front of pieces up to a closing bracket, and the pieces after it, if no other
bracket comes first. -/
def splitGroup : List Piece → Option (List Char × List Piece)
  | .char c :: ps =>
    if c = ']' then some ([], ps)
    else if c = '[' then none
    else (splitGroup ps).map fun g => (c :: g.1, g.2)
  | _ => none

/-- Put a character in front of pieces. -/
def add (c : Char) (ps : List Piece) : List Piece :=
  if c = '[' then
    match splitGroup ps with
    | some (body, rest) => .group body :: rest
    | none => .char c :: ps
  else .char c :: ps

theorem text_splitGroup {ps rest : List Piece} {body : List Char}
    (h : splitGroup ps = some (body, rest)) :
    ps.flatMap text = body ++ ']' :: rest.flatMap text := by
  induction ps generalizing body with
  | nil => simp [splitGroup] at h
  | cons p ps ih =>
    cases p with
    | group b => simp [splitGroup] at h
    | char c =>
      by_cases hc : c = ']'
      · simp [splitGroup, hc] at h
        obtain ⟨rfl, rfl⟩ := h
        simp [text, hc]
      · by_cases ho : c = '['
        · simp [splitGroup, ho] at h
        · simp only [splitGroup, hc, ho, if_false, Option.map_eq_some_iff, Prod.mk.injEq] at h
          obtain ⟨⟨b, r⟩, hs, rfl, rfl⟩ := h
          simp [text, ih hs]

end Piece

/-- Cut a text into characters and groups. -/
def pieces (cs : List Char) : List Piece := cs.foldr Piece.add []

/-- The characters of pieces. -/
def piecesText (ps : List Piece) : List Char := ps.flatMap Piece.text

/-- Cutting a text loses nothing. -/
theorem piecesText_pieces (cs : List Char) : piecesText (pieces cs) = cs := by
  induction cs with
  | nil => rfl
  | cons c cs ih =>
    simp only [pieces, piecesText] at ih
    simp only [pieces, piecesText, List.foldr_cons, Piece.add]
    split
    · next hc =>
      split
      · next body rest h =>
        rw [Piece.text_splitGroup h] at ih
        simp [Piece.text, hc, ih]
      · simp [Piece.text, ih]
    · simp [Piece.text, ih]

/-! ## Revealing a text -/

/-- The number of characters a reader sees. -/
def visibleCount (ps : List Piece) : Nat := (ps.filter Piece.isVisible).length

/-- The pieces shown once `n` visible characters are out: groups show with the character before
them. -/
def revealPieces : Nat → List Piece → List Piece
  | _, [] => []
  | n, .group body :: ps => .group body :: revealPieces n ps
  | 0, .char _ :: _ => []
  | n + 1, .char c :: ps => .char c :: revealPieces n ps

/-- The number of visible characters of a text, the unit of timelines. -/
def visibleLength (text : String) : Nat := visibleCount (pieces text.toList)

/-- The part of a text shown once `n` visible characters are out, with its groups. -/
def revealed (text : String) (n : Nat) : String :=
  String.ofList (piecesText (revealPieces n (pieces text.toList)))

end Colloquy
