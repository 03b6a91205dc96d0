import Mathlib.Data.List.TakeWhile
import Colloquy.Proofs.Timeline.Place

/-!
# What is left of a text without its tags

A control group is two brackets with no bracket between them, and a reserved name in front of the first equals
sign in it.  It is one wherever it stands in a text (`mem_controls_iff`), so the control groups of a text can be
told without cutting it.  Taking the tags out deletes the characters of these groups and no others, and the
timeline has one cue for each of them that is well formed (`interpolate_deletes`).
-/

namespace Colloquy

/-! ## What is written in a group -/

namespace Tag

/-- A group says a name, and behind the first equals sign an argument.  The blanks around them do not count. -/
inductive Says : List Char → String → Option String → Prop where
  | name {name : List Char} : '=' ∉ name → Says name (String.ofList (Text.trim name)) none
  | argument {name argument : List Char} : '=' ∉ name →
      Says (name ++ '=' :: argument) (String.ofList (Text.trim name))
        (some (String.ofList (Text.trim argument)))

/-- The tag that a name and an argument stand for.  No other argument of a name is well formed. -/
inductive Means : String → Option String → Tag → Prop where
  | auto : Means "auto" none .auto
  | finish : Means "end" none .finish
  | goto {target : String} : target ≠ "" → Means "goto" (some target) (.goto target)
  | wait : Means "pause" none (.pause none)
  | pause {number : String} {seconds : Float} : Number.parse? number = some seconds →
      Means "pause" (some number) (.pause (some seconds))
  | speed {number : String} {rate : Float} : Number.parse? number = some rate →
      Means "speed" (some number) (.speed rate)
  | prompt : Means "prompt" none .prompt
  | scroll : Means "scroll" none .scroll
  | page : Means "page" none .page

variable {body : List Char} {name : String} {argument : Option String} {tag : Tag}

/-- Cutting the body of a group at its first equals sign gives the name and the argument that it says. -/
theorem says_iff : Says body name argument ↔ nameOf body = name ∧ argumentOf body = argument := by
  -- the part in front of the first equals sign has none
  have hfront : ∀ front : List Char, '=' ∉ front → ∀ c ∈ front, decide (c ≠ '=') = true := by
    intro front hnot c hc
    simp only [decide_eq_true_eq]
    rintro rfl
    exact hnot hc
  constructor
  · intro h
    cases h with
    | @name front hnot =>
      have hnone : body.dropWhile (· ≠ '=') = [] := List.dropWhile_eq_nil_iff.mpr (hfront body hnot)
      rw [nameOf, argumentOf, List.takeWhile_eq_self_iff.mpr (hfront body hnot), hnone]
      exact ⟨rfl, rfl⟩
    | @argument front back hnot =>
      rw [nameOf, argumentOf, List.takeWhile_append_of_pos (hfront front hnot),
        List.dropWhile_append_of_pos (hfront front hnot)]
      simp
  · rintro ⟨rfl, rfl⟩
    have hnot : '=' ∉ body.takeWhile (· ≠ '=') := by
      intro hmem
      have hne := List.all_eq_true.mp List.all_takeWhile _ hmem
      simp at hne
    have hsplit := List.takeWhile_append_dropWhile (p := fun c => decide (c ≠ '=')) (l := body)
    rw [nameOf, argumentOf]
    generalize body.takeWhile (· ≠ '=') = front at hnot hsplit ⊢
    cases hdrop : body.dropWhile (· ≠ '=') with
    | nil =>
      rw [hdrop, List.append_nil] at hsplit
      subst hsplit
      exact .name hnot
    | cons c back =>
      have hc : c = '=' := by
        have hhead := List.head?_dropWhile_not (fun c => decide (c ≠ '=')) body
        rw [hdrop] at hhead
        simpa using hhead
      rw [hdrop, hc] at hsplit
      subst hsplit
      exact .argument hnot

/-- A name and an argument make a tag if and only if they mean it. -/
theorem of?_eq_some_iff : of? name argument = some tag ↔ Means name argument tag := by
  constructor
  · intro h
    unfold of? at h
    split at h
    · cases h
      exact .auto
    · cases h
      exact .finish
    · next target =>
      split at h
      · cases h
      · next hempty =>
        cases h
        apply Means.goto
        rintro rfl
        exact hempty rfl
    · cases h
      exact .wait
    · obtain ⟨seconds, hnumber, rfl⟩ := Option.map_eq_some_iff.mp h
      exact .pause hnumber
    · obtain ⟨rate, hnumber, rfl⟩ := Option.map_eq_some_iff.mp h
      exact .speed hnumber
    · cases h
      exact .prompt
    · cases h
      exact .scroll
    · cases h
      exact .page
    · cases h
  · intro h
    cases h with
    | @goto target hne =>
      have hempty : target.isEmpty = false := by simpa using hne
      simp [of?, hempty]
    | pause hnumber => simp [of?, hnumber]
    | speed hnumber => simp [of?, hnumber]
    | _ => rfl

/-- A group makes a tag if what it says is well formed. -/
theorem ofGroup?_eq_some_iff :
    ofGroup? body = some tag ↔ ∃ name argument, Says body name argument ∧ Means name argument tag := by
  rw [ofGroup?, of?_eq_some_iff]
  constructor
  · intro h
    exact ⟨_, _, says_iff.mpr ⟨rfl, rfl⟩, h⟩
  · rintro ⟨name, argument, hsays, hmeans⟩
    obtain ⟨rfl, rfl⟩ := says_iff.mp hsays
    exact hmeans

/-- A group is a control group if and only if it says a reserved name. -/
theorem isControl_iff :
    isControl body = true ↔ ∃ name argument, Says body name argument ∧ name ∈ reserved := by
  rw [isControl, List.contains_iff_mem]
  constructor
  · intro h
    exact ⟨_, _, says_iff.mpr ⟨rfl, rfl⟩, h⟩
  · rintro ⟨name, argument, hsays, hreserved⟩
    obtain ⟨rfl, rfl⟩ := says_iff.mp hsays
    exact hreserved

end Tag

/-! ## Control groups of a text -/

/-- A control group stands at a place of a text: between its brackets is no other one, and it says a reserved
name. -/
structure ControlAt (cs : List Char) (place : Nat) (body : List Char) : Prop where
  stands : ∃ before after, before.length = place ∧ cs = before ++ '[' :: (body ++ ']' :: after)
  bare : Bare body
  reserved : ∃ name argument, Tag.Says body name argument ∧ name ∈ Tag.reserved

/-- Control groups are known by the characters at their place. -/
theorem mem_controls_iff {text : String} {place : Nat} {body : List Char} :
    (place, body) ∈ controls text ↔ ControlAt text.toList place body := by
  rw [mem_controls, mem_groupsFrom, Tag.isControl_iff]
  constructor
  · rintro ⟨⟨n, rfl, hopened⟩, hreserved⟩
    obtain ⟨⟨after, hafter⟩, hbare⟩ := opened?_eq_some.mp hopened
    refine ⟨⟨text.toList.take n, after, ?_, ?_⟩, hbare, hreserved⟩
    · have hlength : (text.toList.drop n).length = body.length + 2 + after.length := by
        rw [← hafter]
        simp
        omega
      rw [List.length_drop] at hlength
      rw [List.length_take]
      omega
    · have hcut := List.take_append_drop n text.toList
      rw [← hafter] at hcut
      simpa using hcut.symm
  · rintro ⟨⟨before, after, rfl, htext⟩, hbare, hreserved⟩
    refine ⟨⟨before.length, (Nat.zero_add _).symm, opened?_eq_some.mpr ⟨⟨after, ?_⟩, hbare⟩⟩, hreserved⟩
    rw [htext, List.drop_left]
    simp

/-! ## Deleting groups -/

/-- Whether a place lies in a group, its brackets included. -/
def inGroup (g : Nat × List Char) (place : Nat) : Bool := g.1 ≤ place && place < g.1 + (g.2.length + 2)

/-- The characters that are in none of some groups, in their order, with `start` characters in front. -/
def outside (start : Nat) (gs : List (Nat × List Char)) (cs : List Char) : List Char :=
  ((cs.zipIdx start).filter fun c => !gs.any fun g => inGroup g c.2).map Prod.fst

/-- No group stands in front of the pieces. -/
theorem le_of_mem_placedGroups {start : Nat} {ps : List Piece} {g : Nat × List Char}
    (h : g ∈ placedGroups start ps) : start ≤ g.1 := by
  induction ps generalizing start with
  | nil => cases h
  | cons p ps ih =>
    cases p with
    | char c => exact Nat.le_of_succ_le (ih h)
    | group body =>
      rcases List.mem_cons.mp h with rfl | h
      · exact le_rfl
      · have hle := ih h
        omega

/-- Each group ends before the next one starts. -/
theorem placedGroups_pairwise (start : Nat) (ps : List Piece) :
    (placedGroups start ps).Pairwise fun g h => g.1 + (g.2.length + 2) ≤ h.1 := by
  induction ps generalizing start with
  | nil => exact .nil
  | cons p ps ih =>
    cases p with
    | char c => exact ih (start + 1)
    | group body => exact List.pairwise_cons.mpr ⟨fun g hg => le_of_mem_placedGroups hg, ih _⟩

section

variable {start : Nat} {gs : List (Nat × List Char)} {cs ds : List Char}

theorem outside_append : outside start gs (cs ++ ds) =
    outside start gs cs ++ outside (start + cs.length) gs ds := by
  rw [outside, List.zipIdx_append, List.filter_append, List.map_append]
  rfl

/-- Nothing is deleted in front of all groups. -/
theorem outside_of_le (h : ∀ g ∈ gs, start + cs.length ≤ g.1) : outside start gs cs = cs := by
  rw [outside, List.filter_eq_self.mpr, List.zipIdx_map_fst]
  intro c hc
  have hlt := List.snd_lt_add_of_mem_zipIdx hc
  simp only [Bool.not_eq_true', List.any_eq_false, inGroup]
  intro g hg
  have hle := h g hg
  simp
  omega

/-- A group is deleted as a whole. -/
theorem outside_of_inGroup {g : Nat × List Char} (hg : g ∈ gs) (hstart : g.1 ≤ start)
    (hstop : start + cs.length ≤ g.1 + (g.2.length + 2)) : outside start gs cs = [] := by
  rw [outside, List.map_eq_nil_iff, List.filter_eq_nil_iff]
  intro c hc
  have hle := List.le_snd_of_mem_zipIdx hc
  have hlt := List.snd_lt_add_of_mem_zipIdx hc
  simp only [Bool.not_eq_true', Bool.not_eq_false, List.any_eq_true]
  refine ⟨g, hg, ?_⟩
  simp [inGroup]
  omega

/-- A group in front of all characters deletes none of them. -/
theorem outside_cons_of_le {g : Nat × List Char} (h : g.1 + (g.2.length + 2) ≤ start) :
    outside start (g :: gs) cs = outside start gs cs := by
  rw [outside, outside, List.filter_congr]
  intro c hc
  have hle := List.le_snd_of_mem_zipIdx hc
  have hnot : inGroup g c.2 = false := by
    simp [inGroup]
    omega
  rw [List.any_cons, hnot, Bool.false_or]

end

/-- The pieces that stay are what is outside of the control groups. -/
theorem piecesText_filter (start : Nat) (ps : List Piece) :
    piecesText (ps.filter fun p => !p.isControl) =
      outside start ((placedGroups start ps).filter fun g => Tag.isControl g.2) (piecesText ps) := by
  induction ps generalizing start with
  | nil => rfl
  | cons p ps ih =>
    have hbehind : ∀ start g, g ∈ (placedGroups start ps).filter (fun g => Tag.isControl g.2) → start ≤ g.1 :=
      fun start g hg => le_of_mem_placedGroups (List.mem_of_mem_filter hg)
    cases p with
    | char c =>
      have hfirst : outside start ((placedGroups (start + 1) ps).filter fun g => Tag.isControl g.2) [c] = [c] :=
        outside_of_le fun g hg => hbehind (start + 1) g hg
      calc piecesText ((Piece.char c :: ps).filter fun p => !p.isControl)
          = [c] ++ piecesText (ps.filter fun p => !p.isControl) := rfl
        _ = outside start ((placedGroups (start + 1) ps).filter fun g => Tag.isControl g.2)
              ([c] ++ piecesText ps) := by
            rw [outside_append, hfirst, ih (start + 1)]
            rfl
    | group body =>
      have hlength : (Piece.group body).text.length = body.length + 2 := by simp [Piece.text]
      have htext : piecesText (.group body :: ps) = (Piece.group body).text ++ piecesText ps := rfl
      rw [htext, placedGroups, outside_append, hlength]
      by_cases hcontrol : Tag.isControl body = true
      · -- the characters of the group are all in it, and those behind it are not
        have hinside : outside start
            ((start, body) :: (placedGroups (start + (body.length + 2)) ps).filter fun g => Tag.isControl g.2)
            (Piece.group body).text = [] :=
          outside_of_inGroup (g := (start, body)) (List.mem_cons_self ..) le_rfl (by rw [hlength])
        have hbehindIt : outside (start + (body.length + 2))
            ((start, body) :: (placedGroups (start + (body.length + 2)) ps).filter fun g => Tag.isControl g.2)
            (piecesText ps) = _ := outside_cons_of_le le_rfl
        rw [List.filter_cons_of_neg (by simp [Piece.isControl, hcontrol]),
          List.filter_cons_of_pos (by simpa using hcontrol), hinside, hbehindIt, List.nil_append]
        exact ih _
      · rw [List.filter_cons_of_pos (by simp [Piece.isControl, hcontrol]),
          List.filter_cons_of_neg (by simpa using hcontrol), outside_of_le, ← ih]
        · rfl
        · intro g hg
          rw [hlength]
          exact hbehind _ g hg

/-- A text without the characters of some groups, and the cues of these. -/
structure Deletes (cs : List Char) (gs : List (Nat × List Char)) (t : TimedText) : Prop where
  /-- The groups are just the control groups of the text. -/
  groups : ∀ place body, (place, body) ∈ gs ↔ ControlAt cs place body
  /-- They stand one behind the other. -/
  apart : gs.Pairwise fun g h => g.1 + (g.2.length + 2) ≤ h.1
  text : t.text.toList = outside 0 gs cs
  tags : t.tags = gs.filterMap fun g => Tag.ofGroup? g.2
  /-- A group makes a tag just if what it says is well formed. -/
  wellFormed : ∀ g ∈ gs, ∀ tag, Tag.ofGroup? g.2 = some tag ↔
    ∃ name argument, Tag.Says g.2 name argument ∧ Tag.Means name argument tag

/-- Taking the tags out of a text deletes its control groups and nothing else, and there is one cue for each
of them that is well formed, in their order. -/
theorem interpolate_deletes (text : String) : Deletes text.toList (controls text) (interpolate text) where
  groups _ _ := mem_controls_iff
  apart := (placedGroups_pairwise 0 _).filter _
  text := by
    have hkept := piecesText_filter 0 (pieces text.toList)
    rw [piecesText_pieces] at hkept
    rw [interpolate, String.toList_ofList]
    exact hkept
  tags := tags_interpolate 0 text
  wellFormed _ _ _ := Tag.ofGroup?_eq_some_iff

/-- A bracket in front of a tag, markup that stays, a malformed tag and a bracket that nothing closes. -/
example : (interpolate "[[auto]b] [ pause = x ]c[").text = "[b] c[" := by decide +kernel

end Colloquy
