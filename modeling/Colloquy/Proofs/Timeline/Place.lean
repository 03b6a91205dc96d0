import Colloquy.Proofs.Timeline.Group

/-!
# Where the groups of a text stand

Whether an opening bracket starts a group is decided by the characters behind it, up to the bracket that
closes (`opened?_eq_some`), so the groups of a text are found bracket by bracket (`groupsFrom_cons`) and each
is known by its place (`mem_groupsFrom`).  The groups of two texts are still there, in their order, when one
is put behind the other (`groupsFrom_append_sublist`), and a group that stands inside a part of a text is a
group of the part (`mem_groupsFrom_infix`).  The same goes for control tags.
-/

namespace Colloquy

/-! ## Groups and their places -/

/-- The groups of pieces with the places they are opened at, with `start` characters in front. -/
def placedGroups : Nat → List Piece → List (Nat × List Char)
  | _, [] => []
  | start, .char _ :: ps => placedGroups (start + 1) ps
  | start, .group body :: ps => (start, body) :: placedGroups (start + (body.length + 2)) ps

/-- The groups of some characters with the places they are opened at, with `start` characters in front. -/
def groupsFrom (start : Nat) (cs : List Char) : List (Nat × List Char) := placedGroups start (pieces cs)

/-- The body of the group that characters start with. -/
def opened? : List Char → Option (List Char)
  | [] => none
  | c :: cs => if c = '[' then (Piece.splitGroup (pieces cs)).map Prod.fst else none

/-- Single characters only move the groups behind them. -/
theorem placedGroups_chars (start : Nat) (cs : List Char) (ps : List Piece) :
    placedGroups start (cs.map .char ++ ps) = placedGroups (start + cs.length) ps := by
  induction cs generalizing start with
  | nil => rfl
  | cons c cs ih =>
    have hstart : start + 1 + cs.length = start + (cs.length + 1) := by omega
    rw [List.map_cons, List.cons_append, placedGroups, ih, hstart, List.length_cons]

/-- Each bracket starts a group or not, whatever is in front of it. -/
theorem groupsFrom_cons (start : Nat) (c : Char) (cs : List Char) :
    groupsFrom start (c :: cs) =
      ((opened? (c :: cs)).map fun body => (start, body)).toList ++ groupsFrom (start + 1) cs := by
  rw [groupsFrom, pieces_cons, Piece.add, opened?]
  by_cases hopen : c = '['
  · rw [if_pos hopen, if_pos hopen]
    cases hsplit : Piece.splitGroup (pieces cs) with
    | none => rfl
    | some g =>
      obtain ⟨body, rest⟩ := g
      have hplace : start + 1 + body.length + 1 = start + (body.length + 2) := by omega
      have hrest : groupsFrom (start + 1) cs = placedGroups (start + (body.length + 2)) rest := by
        rw [groupsFrom, Piece.eq_of_splitGroup hsplit, placedGroups_chars, placedGroups, hplace]
      rw [hrest]
      rfl
  · rw [if_neg hopen, if_neg hopen]
    rfl

/-- A group is what its characters say, whatever stands behind it. -/
theorem opened?_eq_some {cs body : List Char} :
    opened? cs = some body ↔ '[' :: (body ++ [']']) <+: cs ∧ Bare body := by
  constructor
  · intro h
    cases cs with
    | nil => cases h
    | cons c cs =>
      by_cases hopen : c = '['
      · rw [opened?, if_pos hopen] at h
        obtain ⟨⟨b, rest⟩, hsplit, rfl⟩ := Option.map_eq_some_iff.mp h
        have htext : cs = b ++ ']' :: piecesText rest := by
          rw [← piecesText_pieces cs, piecesText, Piece.text_splitGroup hsplit]
          rfl
        refine ⟨⟨piecesText rest, ?_⟩, Piece.bare_of_splitGroup hsplit⟩
        rw [hopen, htext, List.cons_append, List.append_assoc, List.singleton_append]
      · rw [opened?, if_neg hopen] at h
        cases h
  · rintro ⟨⟨back, rfl⟩, hbare⟩
    have hclose : pieces (']' :: back) = .char ']' :: pieces back := by
      rw [pieces_cons, Piece.add, if_neg (by decide)]
    rw [List.cons_append, List.append_assoc, List.singleton_append, opened?, if_pos rfl,
      pieces_append_of_bare hbare, hclose, Piece.splitGroup_of_bare hbare, Option.map_some]

theorem opened?_append {cs body : List Char} (h : opened? cs = some body) (back : List Char) :
    opened? (cs ++ back) = some body := by
  rw [opened?_eq_some] at h ⊢
  exact ⟨h.1.trans (List.prefix_append ..), h.2⟩

/-- A group is known by the place it is opened at. -/
theorem mem_groupsFrom {start place : Nat} {cs body : List Char} :
    (place, body) ∈ groupsFrom start cs ↔ ∃ n, place = start + n ∧ opened? (cs.drop n) = some body := by
  induction cs generalizing start with
  | nil => simp [groupsFrom, pieces, placedGroups, opened?]
  | cons c cs ih =>
    have hfirst : (place, body) ∈ ((opened? (c :: cs)).map fun body => (start, body)).toList ↔
        place = start ∧ opened? (c :: cs) = some body := by
      cases opened? (c :: cs) <;> simp [eq_comm]
    rw [groupsFrom_cons, List.mem_append, hfirst, ih]
    constructor
    · rintro (⟨rfl, hopened⟩ | ⟨n, rfl, hopened⟩)
      · exact ⟨0, rfl, hopened⟩
      · exact ⟨n + 1, by omega, hopened⟩
    · rintro ⟨n, rfl, hopened⟩
      cases n with
      | zero => exact .inl ⟨rfl, hopened⟩
      | succ n => exact .inr ⟨n, by omega, hopened⟩

/-- The groups of two texts are groups of both together. -/
theorem groupsFrom_append_sublist (start : Nat) (cs back : List Char) :
    (groupsFrom start cs ++ groupsFrom (start + cs.length) back).Sublist (groupsFrom start (cs ++ back)) := by
  induction cs generalizing start with
  | nil => exact .refl _
  | cons c cs ih =>
    have hfirst : (((opened? (c :: cs)).map fun body => (start, body)).toList).Sublist
        ((opened? (c :: cs ++ back)).map fun body => (start, body)).toList := by
      cases hopened : opened? (c :: cs) with
      | none => exact List.nil_sublist _
      | some body => rw [opened?_append hopened]
    have hrest := ih (start + 1)
    have hplace : start + 1 + cs.length = start + (cs.length + 1) := by omega
    rw [hplace] at hrest
    rw [groupsFrom_cons, List.append_assoc, List.length_cons, List.cons_append, groupsFrom_cons]
    exact hfirst.append hrest

/-- A group that stands inside a part of a text is a group of the part. -/
theorem mem_groupsFrom_infix {front part back body : List Char} {place : Nat}
    (h : (place, body) ∈ groupsFrom 0 (front ++ (part ++ back))) (hfront : front.length ≤ place)
    (hback : place + (body.length + 2) ≤ front.length + part.length) :
    (place - front.length, body) ∈ groupsFrom 0 part := by
  obtain ⟨n, rfl, hopened⟩ := mem_groupsFrom.mp h
  rw [Nat.zero_add] at hfront hback ⊢
  obtain ⟨hstart, hbare⟩ := opened?_eq_some.mp hopened
  have hdrop : (front ++ (part ++ back)).drop n = part.drop (n - front.length) ++ back := by
    rw [List.drop_append, List.drop_eq_nil_of_le hfront, List.nil_append,
      List.drop_append_of_le_length (by omega)]
  rw [hdrop] at hstart
  refine mem_groupsFrom.mpr ⟨n - front.length, by omega, opened?_eq_some.mpr ⟨?_, hbare⟩⟩
  refine List.prefix_of_prefix_length_le hstart (List.prefix_append ..) ?_
  simp
  omega

/-! ## Control tags and their places -/

/-- The control tags of a text, well formed or not, with the places they are opened at. -/
def controls (text : String) : List (Nat × List Char) :=
  (groupsFrom 0 text.toList).filter fun g => Tag.isControl g.2

theorem mem_controls {text : String} {g : Nat × List Char} :
    g ∈ controls text ↔ g ∈ groupsFrom 0 text.toList ∧ Tag.isControl g.2 = true :=
  List.mem_filter

/-- The tags among groups. -/
def tagsOf (gs : List (Nat × List Char)) : List Tag :=
  (gs.filter fun g => Tag.isControl g.2).filterMap fun g => Tag.ofGroup? g.2

theorem tagsOf_append (gs hs : List (Nat × List Char)) : tagsOf (gs ++ hs) = tagsOf gs ++ tagsOf hs := by
  rw [tagsOf, List.filter_append, List.filterMap_append]
  rfl

theorem tagsOf_sublist {gs hs : List (Nat × List Char)} (h : gs.Sublist hs) :
    (tagsOf gs).Sublist (tagsOf hs) :=
  (h.filter _).filterMap _

/-- Tags do not depend on what is counted in front of them. -/
theorem tags_cuesFrom (shown start : Nat) (ps : List Piece) :
    (cuesFrom shown ps).map Cue.tag = tagsOf (placedGroups start ps) := by
  induction ps generalizing shown start with
  | nil => rfl
  | cons p ps ih =>
    cases p with
    | char c => exact ih (shown + 1) (start + 1)
    | group body =>
      have hrest := ih shown (start + (body.length + 2))
      by_cases hcontrol : Tag.isControl body = true
      · rw [cuesFrom, if_pos hcontrol, List.map_append, hrest, placedGroups, tagsOf, tagsOf,
          List.filter_cons_of_pos (by simpa using hcontrol), List.filterMap_cons]
        cases Tag.ofGroup? body <;> rfl
      · rw [cuesFrom, if_neg hcontrol, hrest, placedGroups, tagsOf, tagsOf,
          List.filter_cons_of_neg (by simpa using hcontrol)]

theorem tags_interpolate (start : Nat) (text : String) :
    (interpolate text).tags = tagsOf (groupsFrom start text.toList) :=
  tags_cuesFrom 0 start (pieces text.toList)

/-- The tags of two texts are still there, in their order, when one is put behind the other. -/
theorem tags_append_sublist (front back : String) :
    ((interpolate front).tags ++ (interpolate back).tags).Sublist (interpolate (front ++ back)).tags := by
  rw [tags_interpolate 0 front, tags_interpolate front.toList.length back, tags_interpolate 0,
    ← tagsOf_append, String.toList_append, ← Nat.zero_add front.toList.length]
  exact tagsOf_sublist (groupsFrom_append_sublist 0 front.toList back.toList)

end Colloquy
