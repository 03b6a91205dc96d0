import Colloquy.Proofs.Timeline.Offset
import Colloquy.Proofs.Timeline.Place

/-!
# What is revealed of a text

A text is revealed piece by piece, and a part of the pieces of a text is what the text of that part is cut into:
a bracket that nothing closes in the whole text is not closed in the part either (`pieces_of_isPrefix`).  So what
is shown of a text, cut again by its own, has as many visible characters as were asked for, and as its
pieces are whole no group is cut in two (`revealed_shows`).
-/

namespace Colloquy

variable {ps qs front back rest : List Piece} {body : List Char} {start place m n : Nat}

/-! ## Parts of pieces -/

namespace Piece

/-- A group that closes among pieces closes whatever stands behind them. -/
theorem splitGroup_append (h : splitGroup ps = some (body, rest)) (qs : List Piece) :
    splitGroup (ps ++ qs) = some (body, rest ++ qs) := by
  rw [eq_of_splitGroup h, List.append_assoc, List.cons_append, splitGroup_of_bare (bare_of_splitGroup h)]

/-- A character stays one in front of pieces if it does in front of more of them. -/
theorem add_of_append {c : Char} (h : add c (front ++ back) = .char c :: (front ++ back)) :
    add c front = .char c :: front := by
  rw [add]
  split
  · next hopen =>
    cases hsplit : splitGroup front with
    | none => rfl
    | some g =>
      rw [add, if_pos hopen, splitGroup_append hsplit] at h
      cases h
  · rfl

end Piece

/-- What is cut the same way again is cut the same way part by part. -/
theorem regroup_of_append (h : regroup (front ++ back) = front ++ back) : regroup front = front := by
  induction front with
  | nil => rfl
  | cons p front ih =>
    rw [List.cons_append, regroup_cons] at h
    -- a piece that is put in front and stays as it is leaves what is behind it as it was
    have hbehind : regroup (front ++ back) = front ++ back := by
      cases p with
      | group body => exact (List.cons.inj h).2
      | char c =>
        rw [Piece.join, Piece.add] at h
        split at h
        · split at h
          · cases h
          · exact (List.cons.inj h).2
        · exact (List.cons.inj h).2
    rw [regroup_cons, ih hbehind]
    rw [hbehind] at h
    cases p with
    | group body => rfl
    | char c => exact Piece.add_of_append h

/-- The text of the first pieces of a text is cut into these pieces. -/
theorem pieces_of_isPrefix {cs : List Char} (h : qs <+: pieces cs) : pieces (piecesText qs) = qs := by
  have hbare : ∀ body, .group body ∈ pieces cs → Bare body := fun _ => bare_of_mem_pieces
  have hsame : regroup (pieces cs) = pieces cs := by
    rw [← pieces_piecesText hbare, piecesText_pieces]
  obtain ⟨back, hback⟩ := h
  rw [← hback] at hsame hbare
  rw [pieces_piecesText fun body hbody => hbare body (List.mem_append_left _ hbody)]
  exact regroup_of_append hsame

/-! ## Revealing pieces -/

/-- What is revealed of pieces is their front part. -/
theorem revealPieces_isPrefix (n : Nat) (ps : List Piece) : revealPieces n ps <+: ps := by
  fun_induction revealPieces n ps with
  | case1 => exact List.prefix_rfl
  | case2 n body ps ih => exact (List.prefix_cons_inj _).mpr ih
  | case3 c ps => exact List.nil_prefix
  | case4 n c ps ih => exact (List.prefix_cons_inj _).mpr ih

/-- The more is revealed, the longer is the front part. -/
theorem revealPieces_mono (h : m ≤ n) (ps : List Piece) : revealPieces m ps <+: revealPieces n ps := by
  fun_induction revealPieces m ps generalizing n with
  | case1 => exact List.nil_prefix
  | case2 m body ps ih => exact (List.prefix_cons_inj _).mpr (ih h)
  | case3 c ps => exact List.nil_prefix
  | case4 m c ps ih =>
    obtain ⟨k, rfl⟩ : ∃ k, n = k + 1 := ⟨n - 1, by omega⟩
    exact (List.prefix_cons_inj _).mpr (ih (Nat.le_of_succ_le_succ h))

/-- As many characters are visible as are asked for, if there are that many. -/
theorem visibleCount_revealPieces (n : Nat) (ps : List Piece) :
    visibleCount (revealPieces n ps) = min n (visibleCount ps) := by
  fun_induction revealPieces n ps with
  | case1 => exact (Nat.min_zero _).symm
  | case2 n body ps ih => rw [visibleCount_group, visibleCount_group, ih]
  | case3 c ps => exact (Nat.zero_min _).symm
  | case4 n c ps ih => rw [visibleCount_char, visibleCount_char, ih, Nat.succ_min_succ]

/-- If there are no more, all pieces are revealed. -/
theorem revealPieces_all (h : visibleCount ps ≤ n) : revealPieces n ps = ps := by
  fun_induction revealPieces n ps with
  | case1 => rfl
  | case2 n body ps ih => rw [ih h]
  | case3 c ps => cases h
  | case4 n c ps ih => rw [ih (Nat.le_of_succ_le_succ h)]

/-! ## Groups among pieces -/

/-- The groups of pieces put one behind the other are those of the first ones, and those of the others
moved behind them. -/
theorem placedGroups_append (start : Nat) (ps qs : List Piece) :
    placedGroups start (ps ++ qs) =
      placedGroups start ps ++ placedGroups (start + (piecesText ps).length) qs := by
  induction ps generalizing start with
  | nil => rfl
  | cons p ps ih =>
    rw [List.cons_append]
    cases p with
    | char c =>
      rw [placedGroups, ih, placedGroups, length_piecesText_char, Nat.add_assoc, Nat.add_comm 1]
    | group body =>
      rw [placedGroups, ih, placedGroups, length_piecesText_group, Nat.add_assoc, List.cons_append]

/-- The groups of pieces stand within them. -/
theorem placedGroups_within (h : (place, body) ∈ placedGroups start ps) :
    start ≤ place ∧ place + (body.length + 2) ≤ start + (piecesText ps).length := by
  induction ps generalizing start with
  | nil => cases h
  | cons p ps ih =>
    cases p with
    | char c =>
      have hbehind := ih h
      rw [length_piecesText_char]
      omega
    | group b =>
      rw [length_piecesText_group]
      rcases List.mem_cons.mp h with heq | h
      · cases heq
        omega
      · have hbehind := ih h
        omega

/-- A group of a text stands within its first pieces, or behind them. -/
theorem group_within_or_behind {cs : List Char} (hgroup : (place, body) ∈ groupsFrom 0 cs)
    (hps : ps <+: pieces cs) :
    place + (body.length + 2) ≤ (piecesText ps).length ∨ (piecesText ps).length ≤ place := by
  obtain ⟨back, hback⟩ := hps
  rw [groupsFrom, ← hback, placedGroups_append, List.mem_append, Nat.zero_add] at hgroup
  rcases hgroup with hgroup | hgroup
  · exact .inl (by simpa using (placedGroups_within hgroup).2)
  · exact .inr (placedGroups_within hgroup).1

/-! ## Revealing texts -/

theorem toList_revealed (text : String) (n : Nat) :
    (revealed text n).toList = piecesText (revealPieces n (pieces text.toList)) := String.toList_ofList

theorem revealed_mono (h : m ≤ n) (text : String) : (revealed text m).toList <+: (revealed text n).toList := by
  rw [toList_revealed, toList_revealed]
  exact (revealPieces_mono h _).flatMap _

/-- What is revealed of a text is a first part of it. -/
theorem revealed_append (text : String) (n : Nat) : ∃ back, text = revealed text n ++ back := by
  obtain ⟨back, hback⟩ := (revealPieces_isPrefix n (pieces text.toList)).flatMap Piece.text
  refine ⟨String.ofList back, ?_⟩
  rw [← String.toList_inj, String.toList_append, toList_revealed, String.toList_ofList]
  exact (piecesText_pieces text.toList).symm.trans hback.symm

theorem visibleLength_revealed (text : String) (n : Nat) :
    visibleLength (revealed text n) = min n (visibleLength text) := by
  rw [visibleLength, toList_revealed, pieces_of_isPrefix (revealPieces_isPrefix n _), visibleCount_revealPieces]
  rfl

theorem revealed_all {text : String} (h : visibleLength text ≤ n) : revealed text n = text := by
  rw [revealed, revealPieces_all h, piecesText_pieces, String.ofList_toList]

/-- What is shown of a text once `n` visible characters are out is a first part of the text that ends between two
of its characters.  It has `n` visible characters by its own, or all that the text has, it grows with `n` up to
the whole text, and a group of the text, which is two brackets without a bracket between them, is in it as a
whole or not at all. -/
theorem revealed_shows (text : String) :
    (∀ n, (∃ back, text = revealed text n ++ back) ∧
      String.Pos.Raw.IsValid text (revealed text n).rawEndPos ∧
      visibleLength (revealed text n) = min n (visibleLength text) ∧
      ∀ front body back, text.toList = front ++ '[' :: (body ++ ']' :: back) → Bare body →
        front.length + (body.length + 2) ≤ (revealed text n).length ∨
          (revealed text n).length ≤ front.length) ∧
    (∀ m n, m ≤ n → (revealed text m).toList <+: (revealed text n).toList) ∧
    ∀ n, visibleLength text ≤ n → revealed text n = text := by
  refine ⟨fun n => ⟨revealed_append text n, ?_, visibleLength_revealed text n, ?_⟩,
    fun m n h => revealed_mono h text, fun n => revealed_all⟩
  · obtain ⟨back, hback⟩ := revealed_append text n
    exact String.Pos.Raw.isValid_iff_exists_append.mpr ⟨_, back, hback, rfl⟩
  · intro front body back htext hbare
    have hopened : opened? (text.toList.drop front.length) = some body := by
      rw [htext, List.drop_left]
      exact opened?_eq_some.mpr ⟨⟨back, by simp⟩, hbare⟩
    have hgroup : (front.length, body) ∈ groupsFrom 0 text.toList :=
      mem_groupsFrom.mpr ⟨front.length, (Nat.zero_add _).symm, hopened⟩
    rw [← String.length_toList, toList_revealed]
    exact group_within_or_behind hgroup (revealPieces_isPrefix n _)

/-- A text with a group between brackets that nothing closes. -/
def knotted : String := "[a[b]é]x"

/-- Once both characters in front of the group are out, it is shown as a whole. -/
theorem revealed_shows_knotted :
    (knotted.toList = ['[', 'a'] ++ '[' :: (['b'] ++ ']' :: "é]x".toList) ∧ Bare ['b'] ∧
      (5 ≤ (revealed knotted 2).length ∨ (revealed knotted 2).length ≤ 2)) ∧
    (1 ≤ 2 ∧ (revealed knotted 1).toList <+: (revealed knotted 2).toList) ∧
    visibleLength knotted ≤ 5 ∧ revealed knotted 5 = knotted := by
  have htext : knotted.toList = ['[', 'a'] ++ '[' :: (['b'] ++ ']' :: "é]x".toList) := by decide
  have hbare : Bare ['b'] := List.forall_mem_singleton.mpr (by decide)
  have hlength : visibleLength knotted ≤ 5 := by decide +kernel
  obtain ⟨hshows, hgrows, hall⟩ := revealed_shows knotted
  exact ⟨⟨htext, hbare, (hshows 2).2.2.2 ['[', 'a'] ['b'] _ htext hbare⟩,
    ⟨by decide, hgrows 1 2 (by decide)⟩, hlength, hall 5 hlength⟩

end Colloquy
