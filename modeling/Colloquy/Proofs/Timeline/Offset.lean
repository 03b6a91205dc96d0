import Colloquy.Proofs.Timeline.Group

/-!
# Offsets in the text that is shown

A cue is placed by the characters in front of its tag in the text as it was written.  The renderer counts in
the text without the tags, where other characters stand next to each other: an opening bracket that was text
may then start a group, and everything up to its end is no longer seen.

The visible characters stand at `visiblePlaces`, which is where a text is revealed to (`revealed_eq`).
`regroup` says what is cut from a text whose pieces are known (`pieces_piecesText`).  Along it, the
characters that are seen in front of a place are at most those that were counted, and they are as many just
if no bracket in front of the place starts a group (`visibleIn_regroup`).  So the offset of a cue is the
number of visible characters in front of where its tag was, unless taking the tags out closes a bracket
(`interpolate_offsets`).
-/

namespace Colloquy

@[simp] theorem visibleCount_char (c : Char) (ps : List Piece) :
    visibleCount (.char c :: ps) = visibleCount ps + 1 := rfl

@[simp] theorem visibleCount_group (body : List Char) (ps : List Piece) :
    visibleCount (.group body :: ps) = visibleCount ps := rfl

@[simp] theorem length_piecesText_char (c : Char) (ps : List Piece) :
    (piecesText (.char c :: ps)).length = (piecesText ps).length + 1 := rfl

@[simp] theorem length_piecesText_group (body : List Char) (ps : List Piece) :
    (piecesText (.group body :: ps)).length = (body.length + 2) + (piecesText ps).length := by
  simp [piecesText, Piece.text]
  omega

/-! ## Places of visible characters -/

/-- The places of the visible characters of pieces, with `start` characters in front. -/
def visiblePlaces : Nat → List Piece → List Nat
  | _, [] => []
  | start, .char _ :: ps => start :: visiblePlaces (start + 1) ps
  | start, .group body :: ps => visiblePlaces (start + (body.length + 2)) ps

/-- The number of visible characters of pieces in front of a place, with `start` characters in front of the
pieces. -/
def visibleIn (ps : List Piece) (start place : Nat) : Nat := (visiblePlaces start ps).countP (· < place)

/-- The number of visible characters of a text in front of a place. -/
def visibleBefore (text : String) (place : Nat) : Nat := visibleIn (pieces text.toList) 0 place

/-- There is a place for each visible character. -/
theorem length_visiblePlaces (start : Nat) (ps : List Piece) :
    (visiblePlaces start ps).length = visibleCount ps := by
  induction ps generalizing start with
  | nil => rfl
  | cons p ps ih =>
    cases p with
    | char c => rw [visiblePlaces, List.length_cons, ih, visibleCount_char]
    | group body => rw [visiblePlaces, ih, visibleCount_group]

/-- The visible places of pieces are those of the first, and those of the others behind the text of the
first. -/
theorem visiblePlaces_append (start : Nat) (ps qs : List Piece) :
    visiblePlaces start (ps ++ qs) =
      visiblePlaces start ps ++ visiblePlaces (start + (piecesText ps).length) qs := by
  induction ps generalizing start with
  | nil => rfl
  | cons p ps ih =>
    rw [List.cons_append]
    cases p with
    | char c => rw [visiblePlaces, ih, visiblePlaces, length_piecesText_char, List.cons_append, Nat.add_assoc,
        Nat.add_comm 1]
    | group body => rw [visiblePlaces, ih, visiblePlaces, length_piecesText_group, Nat.add_assoc]

/-- No visible place is in front of where the pieces start. -/
theorem le_of_mem_visiblePlaces {start place : Nat} {ps : List Piece} (h : place ∈ visiblePlaces start ps) :
    start ≤ place := by
  induction ps generalizing start with
  | nil => cases h
  | cons p ps ih =>
    cases p with
    | char c =>
      rcases List.mem_cons.mp h with rfl | h
      · exact le_rfl
      · exact Nat.le_of_succ_le (ih h)
    | group body => exact le_trans (Nat.le_add_right ..) (ih h)

/-- Nor is the place up to which a text is revealed. -/
theorem le_getD_visiblePlaces (n start k : Nat) (ps : List Piece) :
    start ≤ (visiblePlaces start ps)[n]?.getD (start + k) := by
  cases hplace : (visiblePlaces start ps)[n]? with
  | none => exact Nat.le_add_right ..
  | some place => exact le_of_mem_visiblePlaces (List.mem_of_getElem? hplace)

/-- What is shown once `n` characters are out ends in front of the next visible place. -/
theorem piecesText_revealPieces (n start : Nat) (ps : List Piece) :
    piecesText (revealPieces n ps) =
      (piecesText ps).take ((visiblePlaces start ps)[n]?.getD (start + (piecesText ps).length) - start) := by
  induction ps generalizing n start with
  | nil => simp [revealPieces, piecesText]
  | cons p ps ih =>
    cases p with
    | char c =>
      cases n with
      | zero => simp [revealPieces, visiblePlaces, piecesText]
      | succ n =>
        have hend : start + (piecesText (.char c :: ps)).length = start + 1 + (piecesText ps).length := by
          rw [length_piecesText_char]
          omega
        obtain ⟨m, hm⟩ := Nat.exists_eq_add_of_le
          (le_getD_visiblePlaces n (start + 1) (piecesText ps).length ps)
        have htake : start + 1 + m - start = m + 1 := by omega
        rw [hend, revealPieces, visiblePlaces, List.getElem?_cons_succ, hm, htake]
        show c :: piecesText (revealPieces n ps) = c :: (piecesText ps).take m
        rw [ih n (start + 1), hm, Nat.add_sub_cancel_left]
    | group body =>
      have hend : start + (piecesText (.group body :: ps)).length =
          start + (body.length + 2) + (piecesText ps).length := by
        rw [length_piecesText_group, ← Nat.add_assoc]
      obtain ⟨m, hm⟩ := Nat.exists_eq_add_of_le
        (le_getD_visiblePlaces n (start + (body.length + 2)) (piecesText ps).length ps)
      have htake : start + (body.length + 2) + m - start = (Piece.group body).text.length + m := by
        simp [Piece.text]
        omega
      rw [hend, revealPieces, visiblePlaces, hm, htake]
      show (Piece.group body).text ++ piecesText (revealPieces n ps) =
        ((Piece.group body).text ++ piecesText ps).take _
      rw [List.take_length_add_append, ih n (start + (body.length + 2)), hm, Nat.add_sub_cancel_left]

/-- A text is revealed up to one of its visible places, or as a whole. -/
theorem revealed_eq (text : String) (n : Nat) :
    revealed text n = String.ofList
      (text.toList.take ((visiblePlaces 0 (pieces text.toList))[n]?.getD text.toList.length)) := by
  rw [revealed, piecesText_revealPieces n 0, piecesText_pieces, Nat.zero_add, Nat.sub_zero]

/-- Nothing is seen in front of the start. -/
theorem visibleIn_start (ps : List Piece) (start : Nat) : visibleIn ps start start = 0 := by
  rw [visibleIn, List.countP_eq_zero]
  intro place hplace
  simpa using le_of_mem_visiblePlaces hplace

theorem visibleIn_char {start place : Nat} (h : start < place) (c : Char) (ps : List Piece) :
    visibleIn (.char c :: ps) start place = visibleIn ps (start + 1) place + 1 := by
  rw [visibleIn, visiblePlaces, List.countP_cons_of_pos (by simpa using h), visibleIn]

/-- What is seen behind some pieces is seen. -/
theorem visibleIn_le_append (ps qs : List Piece) (start place : Nat) :
    visibleIn qs (start + (piecesText ps).length) place ≤ visibleIn (ps ++ qs) start place := by
  rw [visibleIn, visibleIn, visiblePlaces_append, List.countP_append]
  exact Nat.le_add_left ..

/-- Once a bracket in front of pieces starts a group, less of them is seen. -/
theorem visibleIn_group_le {ps rest : List Piece} {body : List Char}
    (h : Piece.splitGroup ps = some (body, rest)) (start place : Nat) :
    visibleIn (.group body :: rest) start place ≤ visibleIn ps (start + 1) place := by
  have hbody : (piecesText (body.map .char ++ [.char ']'])).length = body.length + 1 := by
    rw [piecesText, List.flatMap_append, List.flatMap_map]
    simp [Piece.text]
  have hbehind := visibleIn_le_append (body.map .char ++ [.char ']']) rest (start + 1) place
  rw [hbody, List.append_assoc, List.singleton_append, ← Piece.eq_of_splitGroup h] at hbehind
  have hplace : start + 1 + (body.length + 1) = start + (body.length + 2) := by omega
  rwa [hplace] at hbehind

/-- No text has more visible characters in front of a place than it has. -/
theorem visibleBefore_le (text : String) (place : Nat) : visibleBefore text place ≤ visibleLength text := by
  rw [visibleLength, ← length_visiblePlaces 0]
  exact List.countP_le_length

/-! ## Cutting the text of pieces -/

/-- Put a piece in front of pieces; a bracket may start a group there. -/
def Piece.join : Piece → List Piece → List Piece
  | .char c, ps => Piece.add c ps
  | .group body, ps => .group body :: ps

/-- The pieces that the text of pieces is cut into. -/
def regroup (ps : List Piece) : List Piece := ps.foldr Piece.join []

theorem regroup_cons (p : Piece) (ps : List Piece) : regroup (p :: ps) = p.join (regroup ps) := rfl

/-- The text of pieces is cut into them, but for brackets that close only now. -/
theorem pieces_piecesText {ps : List Piece} (h : ∀ body, .group body ∈ ps → Bare body) :
    pieces (piecesText ps) = regroup ps := by
  induction ps with
  | nil => rfl
  | cons p ps ih =>
    have hrest : pieces (piecesText ps) = regroup ps :=
      ih fun body hbody => h body (List.mem_cons_of_mem _ hbody)
    cases p with
    | char c =>
      show pieces (c :: piecesText ps) = Piece.add c (regroup ps)
      rw [pieces_cons, hrest]
    | group body =>
      have htext : piecesText (.group body :: ps) = '[' :: (body ++ ']' :: piecesText ps) := by
        simp [piecesText, Piece.text]
      rw [htext, pieces_group (h body (List.mem_cons_self ..)), hrest]
      rfl

/-- Whether a bracket closes does not depend on the groups behind it. -/
theorem isSome_splitGroup_regroup (ps : List Piece) :
    (Piece.splitGroup (regroup ps)).isSome = (Piece.splitGroup ps).isSome := by
  induction ps with
  | nil => rfl
  | cons p ps ih =>
    rw [regroup_cons]
    cases p with
    | group body => rfl
    | char c =>
      by_cases hopen : c = '['
      · rw [Piece.join, Piece.add, if_pos hopen]
        split <;> simp [Piece.splitGroup, hopen]
      · rw [Piece.join, Piece.add, if_neg hopen]
        by_cases hclose : c = ']'
        · simp [Piece.splitGroup, hclose]
        · simp [Piece.splitGroup, hclose, hopen, ih]

/-- A bracket among the pieces in front starts a group, with these pieces behind. -/
def Closes (front back : List Piece) : Prop :=
  ∃ xs ys, front = xs ++ .char '[' :: ys ∧ (Piece.splitGroup (ys ++ back)).isSome = true

theorem not_closes_nil (back : List Piece) : ¬Closes [] back := by
  rintro ⟨xs, ys, heq, -⟩
  simp at heq

/-- A group is closed by a bracket that belongs to no group yet. -/
theorem mem_of_closes {front back : List Piece} (h : Closes front back) : .char ']' ∈ front ++ back := by
  obtain ⟨xs, ys, rfl, hsplit⟩ := h
  obtain ⟨⟨body, rest⟩, hsplit⟩ := Option.isSome_iff_exists.mp hsplit
  rw [List.append_assoc, List.cons_append, Piece.eq_of_splitGroup hsplit]
  simp

/-- A bracket in front closes, if it is the first piece or one behind it. -/
theorem closes_cons {p : Piece} {front back : List Piece} :
    Closes (p :: front) back ↔
      p = .char '[' ∧ (Piece.splitGroup (front ++ back)).isSome = true ∨ Closes front back := by
  constructor
  · rintro ⟨xs, ys, heq, hsplit⟩
    cases xs with
    | nil =>
      cases heq
      exact .inl ⟨rfl, hsplit⟩
    | cons x xs =>
      cases heq
      exact .inr ⟨xs, ys, rfl, hsplit⟩
  · rintro (⟨rfl, hsplit⟩ | ⟨xs, ys, rfl, hsplit⟩)
    · exact ⟨[], front, rfl, hsplit⟩
    · exact ⟨p :: xs, ys, rfl, hsplit⟩

/-- What is seen in front of a place, once the text of the pieces is cut again. -/
theorem visibleIn_regroup (front back : List Piece) (start : Nat) :
    visibleIn (regroup (front ++ back)) start (start + (piecesText front).length) ≤ visibleCount front ∧
      (visibleCount front = visibleIn (regroup (front ++ back)) start (start + (piecesText front).length) ↔
        ¬Closes front back) := by
  induction front generalizing start with
  | nil =>
    have hnone : visibleIn (regroup ([] ++ back)) start (start + (piecesText []).length) = 0 :=
      visibleIn_start _ start
    rw [hnone]
    exact ⟨le_rfl, iff_of_true rfl (not_closes_nil back)⟩
  | cons p front ih =>
    rw [List.cons_append, regroup_cons, closes_cons]
    cases p with
    | group body =>
      have hplace : start + (piecesText (.group body :: front)).length =
          start + (body.length + 2) + (piecesText front).length := by
        rw [length_piecesText_group, ← Nat.add_assoc]
      have hbehind := ih (start + (body.length + 2))
      rw [hplace, visibleCount_group]
      simpa [Piece.join, visibleIn, visiblePlaces] using hbehind
    | char c =>
      have hplace : start + (piecesText (.char c :: front)).length =
          start + 1 + (piecesText front).length := by
        rw [length_piecesText_char]
        omega
      obtain ⟨hle, heq⟩ := ih (start + 1)
      rw [hplace, visibleCount_char, Piece.join]
      by_cases hcloses : c = '[' ∧ (Piece.splitGroup (front ++ back)).isSome = true
      · -- the bracket and what it closes are no longer seen
        obtain ⟨rfl, hcloses⟩ := hcloses
        obtain ⟨⟨body, rest⟩, hsplit⟩ :=
          Option.isSome_iff_exists.mp ((isSome_splitGroup_regroup (front ++ back)).trans hcloses)
        have hfewer := visibleIn_group_le hsplit start (start + 1 + (piecesText front).length)
        simp only [Piece.add, if_true, hsplit, true_and, hcloses, true_or, not_true_eq_false, iff_false]
        omega
      · have hstays : Piece.add c (regroup (front ++ back)) = .char c :: regroup (front ++ back) := by
          rw [Piece.add]
          split
          · next hopen =>
            have hnone : Piece.splitGroup (regroup (front ++ back)) = none := by
              rw [← Option.not_isSome_iff_eq_none, isSome_splitGroup_regroup]
              exact fun h => hcloses ⟨hopen, h⟩
            rw [hnone]
          · rfl
        rw [hstays, visibleIn_char (by omega)]
        simp [hcloses, ← heq]
        omega

/-! ## Timelines -/

/-- Pieces without the control tags. -/
def untagged (ps : List Piece) : List Piece := ps.filter fun p => !p.isControl

/-- Taking out the tags takes out nothing that is seen. -/
theorem visibleCount_untagged (ps : List Piece) : visibleCount (untagged ps) = visibleCount ps := by
  induction ps with
  | nil => rfl
  | cons p ps ih =>
    cases p with
    | char c => simpa [untagged, Piece.isControl] using ih
    | group body =>
      by_cases hcontrol : Tag.isControl body = true
      · simpa [untagged, Piece.isControl, hcontrol] using ih
      · simpa [untagged, Piece.isControl, hcontrol] using ih

/-- What the text without its tags is cut into. -/
theorem pieces_interpolate (text : String) :
    pieces (interpolate text).text.toList = regroup (untagged (pieces text.toList)) := by
  rw [interpolate, String.toList_ofList]
  exact pieces_piecesText fun body hbody => bare_of_mem_pieces (List.mem_of_mem_filter hbody)

/-- A cue stands at or behind what was shown in front of it. -/
theorem le_of_mem_cuesFrom {shown : Nat} {ps : List Piece} {c : Cue} (h : c ∈ cuesFrom shown ps) :
    shown ≤ c.offset := by
  induction ps generalizing shown with
  | nil => cases h
  | cons p ps ih =>
    cases p with
    | char x => exact Nat.le_of_succ_le (ih h)
    | group body =>
      rw [cuesFrom] at h
      split at h
      · rcases List.mem_append.mp h with h | h
        · obtain ⟨tag, -, rfl⟩ := Option.map_eq_some_iff.mp (Option.mem_toList.mp h)
          exact le_rfl
        · exact ih h
      · exact ih h

/-- Cues come in the order of their offsets. -/
theorem cuesFrom_sorted (shown : Nat) (ps : List Piece) :
    (cuesFrom shown ps).Pairwise fun c d => c.offset ≤ d.offset := by
  induction ps generalizing shown with
  | nil => exact .nil
  | cons p ps ih =>
    cases p with
    | char x => exact ih (shown + 1)
    | group body =>
      rw [cuesFrom]
      split
      · cases Tag.ofGroup? body with
        | none => exact ih shown
        | some tag => exact List.pairwise_cons.mpr ⟨fun d hd => le_of_mem_cuesFrom hd, ih shown⟩
      · exact ih shown

/-- Each cue is made by a tag, with the characters and the cues in front of it. -/
theorem cuesFrom_eq_append {shown : Nat} {ps : List Piece} {cs ds : List Cue} {c : Cue}
    (h : cuesFrom shown ps = cs ++ c :: ds) :
    ∃ front body back, ps = front ++ .group body :: back ∧ cs = cuesFrom shown front ∧
      Tag.isControl body = true ∧ Tag.ofGroup? body = some c.tag ∧
      c.offset = shown + visibleCount front := by
  induction ps generalizing shown cs with
  | nil => simp [cuesFrom] at h
  | cons p ps ih =>
    cases p with
    | char x =>
      obtain ⟨front, body, back, rfl, hcs, hcontrol, htag, hoffset⟩ := ih h
      refine ⟨.char x :: front, body, back, rfl, hcs, hcontrol, htag, ?_⟩
      rw [hoffset, visibleCount_char]
      omega
    | group b =>
      -- the cues behind the group, if `made` are the cues that it makes itself
      have hbehind : ∀ {made cs' : List Cue}, cuesFrom shown ps = cs' ++ c :: ds → cs = made ++ cs' →
          (∀ front, cuesFrom shown (.group b :: front) = made ++ cuesFrom shown front) →
          ∃ front body back, .group b :: ps = front ++ .group body :: back ∧ cs = cuesFrom shown front ∧
            Tag.isControl body = true ∧ Tag.ofGroup? body = some c.tag ∧
            c.offset = shown + visibleCount front := by
        intro made cs' h hcs hmade
        obtain ⟨front, body, back, rfl, rfl, hcontrol, htag, hoffset⟩ := ih h
        exact ⟨.group b :: front, body, back, rfl, hcs.trans (hmade front).symm, hcontrol, htag, hoffset⟩
      by_cases hb : Tag.isControl b = true
      · cases htag : Tag.ofGroup? b with
        | none =>
          have hmade : ∀ front, cuesFrom shown (.group b :: front) = [] ++ cuesFrom shown front :=
            fun front => by simp [cuesFrom, hb, htag]
          exact hbehind ((hmade ps).symm.trans h) rfl hmade
        | some tag =>
          have hmade : ∀ front, cuesFrom shown (.group b :: front) = [⟨tag, shown⟩] ++ cuesFrom shown front :=
            fun front => by simp [cuesFrom, hb, htag]
          rw [hmade] at h
          cases cs with
          | nil =>
            cases h
            exact ⟨[], b, ps, rfl, rfl, hb, htag, rfl⟩
          | cons c' cs =>
            obtain ⟨rfl, hbehind'⟩ := List.cons.inj h
            exact hbehind hbehind' rfl hmade
      · have hmade : ∀ front, cuesFrom shown (.group b :: front) = [] ++ cuesFrom shown front :=
          fun front => by simp [cuesFrom, hb]
        exact hbehind ((hmade ps).symm.trans h) rfl hmade

/-- The cues of a text come in the order of their offsets.  A cue is made by a tag of the text, and counts
what is visible in front of the place where the tag was, unless taking the tags out lets a bracket in front of
that place start a group.  In that case it counts more than is visible there. -/
theorem interpolate_offsets (text : String) :
    ((interpolate text).cues.Pairwise fun c d => c.offset ≤ d.offset) ∧
    ∀ cs c ds, (interpolate text).cues = cs ++ c :: ds →
      ∃ front body back, pieces text.toList = front ++ .group body :: back ∧ cs = cuesFrom 0 front ∧
        Tag.isControl body = true ∧ Tag.ofGroup? body = some c.tag ∧
        visibleBefore (interpolate text).text (piecesText (untagged front)).length ≤ c.offset ∧
        (c.offset = visibleBefore (interpolate text).text (piecesText (untagged front)).length ↔
          ¬Closes (untagged front) (untagged back)) ∧
        (¬Closes (untagged front) (untagged back) → c.offset ≤ visibleLength (interpolate text).text) := by
  refine ⟨cuesFrom_sorted 0 _, fun cs c ds hcues => ?_⟩
  obtain ⟨front, body, back, hpieces, hcs, hcontrol, htag, hoffset⟩ := cuesFrom_eq_append hcues
  have hshown : visibleBefore (interpolate text).text (piecesText (untagged front)).length =
      visibleIn (regroup (untagged front ++ untagged back)) 0 (piecesText (untagged front)).length := by
    rw [visibleBefore, pieces_interpolate, hpieces]
    simp [untagged, Piece.isControl, hcontrol]
  obtain ⟨hle, heq⟩ := visibleIn_regroup (untagged front) (untagged back) 0
  rw [Nat.zero_add, ← hshown, visibleCount_untagged] at hle heq
  rw [Nat.zero_add] at hoffset
  rw [← hoffset] at hle heq
  exact ⟨front, body, back, hpieces, hcs, hcontrol, htag, hle, heq,
    fun hcloses => (heq.mpr hcloses).trans_le (visibleBefore_le _ _)⟩

/-- A text with markup, a bracket that nothing closes, and tags next to each other. -/
def tagged : String := "[b]Hi[/b] [speed=2]the[re[pause][auto]!"

/-- Nothing closes in it, and the last of its cues counts the nine characters in front of its tag. -/
theorem tagged_offsets :
    ∃ place, visibleBefore (interpolate tagged).text place = 9 ∧
      9 ≤ visibleLength (interpolate tagged).text := by
  have hcues : (interpolate tagged).cues = [⟨.speed 2, 3⟩, ⟨.pause none, 9⟩] ++ ⟨.auto, 9⟩ :: [] := by
    decide +kernel
  obtain ⟨front, body, back, hpieces, -, -, -, -, heq, hle⟩ := (interpolate_offsets tagged).2 _ _ _ hcues
  have hopen : .char ']' ∉ pieces tagged.toList := by decide +kernel
  have hcloses : ¬Closes (untagged front) (untagged back) := fun h => by
    rw [hpieces] at hopen
    rcases List.mem_append.mp (mem_of_closes h) with h | h
    · exact hopen (List.mem_append_left _ (List.mem_of_mem_filter h))
    · exact hopen (List.mem_append_right _ (List.mem_cons_of_mem _ (List.mem_of_mem_filter h)))
  exact ⟨_, (heq.mpr hcloses).symm, hle hcloses⟩

/-- A tag behind a bracket that closes once the tag is gone. -/
def closing : String := "[[auto]b]"

/-- Nothing is visible in the text that is left, and the offset of the tag is one. -/
theorem closing_offset : interpolate closing = ⟨"[b]", [⟨.auto, 1⟩]⟩ ∧ visibleBefore "[b]" 1 = 0 ∧
    visibleLength "[b]" = 0 := by
  decide +kernel

end Colloquy
