import Colloquy.Proofs.Assembly.Edit
import Colloquy.Proofs.Layout.Story

/-!
# Assemblies are finished by their last word

Whatever was done to an assembly, finishing it puts into each word that waits for a label the offset that
the label leads to after all edits, and into those of stray labels the offset of one `End` behind all
words; nothing else changes (`finish_resolves`).  Labels may lead in circles, be settled several times, or
lead to labels that are bound later.  It makes no difference if the gaps are filled in turn, and the `End`
is added when the first stray label is met (`fillInTurn_eq`).
-/

namespace Colloquy

open Edit

/-- Fill gaps in turn.  The first one whose label leads nowhere adds an `End` behind all words, and the
others of that kind share it. -/
def Assembly.fillInTurn (a : Assembly) : List Gap → Option Nat → Array UInt32 → Array UInt32
  | [], _, ws => ws
  | g :: gs, trap, ws =>
    match a.resolve? g.label with
    | some n => a.fillInTurn gs trap (ws.setIfInBounds g.offset (UInt32.ofNat n))
    | none =>
      match trap with
      | some n => a.fillInTurn gs (some n) (ws.setIfInBounds g.offset (UInt32.ofNat n))
      | none => a.fillInTurn gs (some ws.size)
          ((ws.push Code.StatementCode.finish.word).setIfInBounds g.offset (UInt32.ofNat ws.size))

open scoped Classical in
/-- A script and some mentions, as the assembly that some edits made is finished to. -/
structure Resolved (es : List Edit) (S : Script) (strays : List Mention) : Prop where
  /-- A word that waits for no label is as it was last filled in. -/
  written : ∀ {before e rest w}, es = before ++ e :: rest → e.word? = some w →
    S.words[wordCount before]? = some (refillAll (wordCount before) w rest)
  /-- A word that waits for a label has the offset that the label leads to. -/
  led : ∀ {before l rest n}, es = before ++ .pushTarget l :: rest → Leads es l n →
    S.words[wordCount before]? = some (UInt32.ofNat n)
  /-- A word that waits for a stray label has the offset behind all words. -/
  stray : ∀ {before l rest}, es = before ++ .pushTarget l :: rest → Stray es l →
    S.words[wordCount before]? = some (UInt32.ofNat (wordCount es))
  /-- If a word waits for a stray label, one `End` stands behind all words. -/
  trapped : ∀ {l}, .pushTarget l ∈ es → Stray es l → S.words.size = wordCount es + 1 ∧
    S.words[wordCount es]? = some Code.StatementCode.finish.word
  /-- If none does, nothing stands there. -/
  untrapped : (∀ l, .pushTarget l ∈ es → ¬Stray es l) → S.words.size = wordCount es
  /-- The words are those that come of filling the gaps in turn. -/
  in_turn : S.words = (Assembly.after es).fillInTurn (Assembly.after es).gaps.toList none
    (Assembly.after es).script.words
  /-- The mentions of stray labels are left, in order. -/
  mentions : strays = (es.filterMap mention?).filter fun m => Stray es m.label
  /-- The pools are those of the assembly. -/
  pools : S.strings = (Assembly.after es).script.strings ∧
    S.speakers = (Assembly.after es).script.speakers ∧ S.floats = (Assembly.after es).script.floats
  /-- Labels are followed for no more steps than there are labels, and only to labels there are. -/
  followed : ∀ {l}, .pushTarget l ∈ es ∨ (∃ x, .mention l x ∈ es) →
    ((Assembly.after es).chain l).length ≤ labelCount es ∧
      ∀ m ∈ (Assembly.after es).chain l, m.index < labelCount es

namespace Assembly

/-! ## Filling gaps in turn -/

section

variable (a : Assembly) {gs : List Gap} {ws : Array UInt32} {n : Nat}

theorem setIfInBounds_push {i : Nat} (h : i < ws.size) (w v : UInt32) :
    (ws.push w).setIfInBounds i v = (ws.setIfInBounds i v).push w := by
  rw [Array.setIfInBounds_def, Array.setIfInBounds_def, dif_pos h, dif_pos (by simp; omega),
    Array.set_push, dif_pos h]

theorem fillGaps_cons (f : Label → UInt32) (g : Gap) (gs : List Gap) (ws : Array UInt32) :
    fillGaps f (g :: gs) ws = fillGaps f gs (ws.setIfInBounds g.offset (f g.label)) := rfl

/-- Once the end is there, the gaps are filled in front of it. -/
theorem fillInTurn_push (hn : ws.size = n) (hgs : ∀ g ∈ gs, g.offset < n) :
    a.fillInTurn gs (some n) (ws.push Code.StatementCode.finish.word) =
      (fillGaps (fun l => UInt32.ofNat ((a.resolve? l).getD n)) gs ws).push
        Code.StatementCode.finish.word := by
  induction gs generalizing ws with
  | nil => rfl
  | cons g gs ih =>
    rw [List.forall_mem_cons] at hgs
    -- filled or stray, the gap has the word that its label stands for
    have hturn : a.fillInTurn (g :: gs) (some n) (ws.push Code.StatementCode.finish.word) =
        a.fillInTurn gs (some n) ((ws.push Code.StatementCode.finish.word).setIfInBounds g.offset
          (UInt32.ofNat ((a.resolve? g.label).getD n))) := by
      rw [fillInTurn]
      cases a.resolve? g.label <;> rfl
    rw [hturn, setIfInBounds_push (hn ▸ hgs.1)]
    exact ih (Array.size_setIfInBounds.trans hn) hgs.2

/-- Filling gaps in turn comes to filling all of them and adding an end if a label leads nowhere. -/
theorem fillInTurn_eq (hn : ws.size = n) (hgs : ∀ g ∈ gs, g.offset < n) :
    a.fillInTurn gs none ws =
      if gs.any fun g => !a.isBound g.label then
        (fillGaps (fun l => UInt32.ofNat ((a.resolve? l).getD n)) gs ws).push
          Code.StatementCode.finish.word
      else fillGaps (fun l => UInt32.ofNat ((a.resolve? l).getD n)) gs ws := by
  induction gs generalizing ws with
  | nil => rfl
  | cons g gs ih =>
    rw [List.forall_mem_cons] at hgs
    rw [fillInTurn, List.any_cons, isBound]
    cases hg : a.resolve? g.label with
    | some m =>
      rw [fillGaps_cons, hg]
      exact ih (Array.size_setIfInBounds.trans hn) hgs.2
    | none =>
      rw [fillGaps_cons, hg, Option.getD_none, ← fillInTurn_push a (Array.size_setIfInBounds.trans hn) hgs.2,
        ← setIfInBounds_push (hn ▸ hgs.1), ← hn]
      rfl

end

/-! ## Finished assemblies -/

variable {es : List Edit}

/-- What was done to an assembly makes a valid draft. -/
theorem after_valid (h : Admissible [] es) : (⟨after es, ∅, []⟩ : Draft).Valid fun _ => True where
  gap_lt _ := gap_lt_after
  gap_inj _ hg _ hg' := gap_inj_after hg hg'
  bound_le l n hn := by
    obtain ⟨before, rest, hes, -, rfl⟩ := exists_bind h hn
    show _ ≤ (after es).offset
    rw [offset_after, hes, wordCount_append]
    omega
  float _ _ := trivial
  section_lt _ _ h := by cases h
  undeclared _ _ h := by cases h

/-- A gap that a target left is filled with the offset that the label leads to. -/
theorem getElem?_finish_target {before rest : List Edit} {l : Label} (h : Admissible [] es)
    (hes : es = before ++ .pushTarget l :: rest) : (after es).finish.1.words[wordCount before]? =
      some (UInt32.ofNat (((after es).resolve? l).getD (wordCount es))) := by
  have hgap : ⟨wordCount before, l⟩ ∈ (after es).gaps := mem_gaps_after.mpr ⟨before, rest, hes, rfl⟩
  have hholds := ((after_valid h).agrees.gap _ hgap (Nat.zero_le _)).1
  rw [← offset_after es]
  exact hholds

/-- A word that waits for no label is not touched. -/
theorem getElem?_finish_word {before rest : List Edit} {e : Edit} {w : UInt32}
    (h : Admissible [] es) (hes : es = before ++ e :: rest) (hw : e.word? = some w) :
    (after es).finish.1.words[wordCount before]? = some (refillAll (wordCount before) w rest) := by
  rw [← getElem?_after hes hw]
  refine (after_valid h).agrees.word _ (Nat.zero_le _) ?_ fun g hg heq => ?_
  · show _ < (after es).offset
    rw [offset_after]
    exact wordCount_lt hes (addsWord_of_word? hw)
  · obtain ⟨before', rest', hes', hoffset⟩ := mem_gaps_after.mp hg
    obtain ⟨-, rfl, -⟩ := split_unique (hes.symm.trans hes') (addsWord_of_word? hw) rfl
      (heq.symm.trans hoffset)
    cases hw

/-- A target of a label that leads nowhere puts an end behind all words. -/
theorem finish_trapped {l : Label} (hmem : .pushTarget l ∈ es)
    (hbound : (after es).isBound l = false) : (after es).finish.1.words.size = wordCount es + 1 ∧
      (after es).finish.1.words[wordCount es]? = some Code.StatementCode.finish.word := by
  obtain ⟨before, rest, hes⟩ := List.append_of_mem hmem
  have hgap : ⟨wordCount before, l⟩ ∈ (after es).gaps := mem_gaps_after.mpr ⟨before, rest, hes, rfl⟩
  have htrapped : (⟨after es, ∅, []⟩ : Draft).artifact.Trapped :=
    Draft.trapped_artifact hgap (by simp [hbound])
  rw [← offset_after]
  exact ⟨htrapped.size.symm, htrapped.word⟩

/-- Without such a target the script ends with the words of the assembly. -/
theorem finish_untrapped (h : ∀ l, .pushTarget l ∈ es → (after es).isBound l = true) :
    (after es).finish.1.words.size = wordCount es := by
  have hnone : ¬((after es).gaps.any fun g => !(after es).isBound g.label) = true := by
    rw [Array.any_eq_true']
    rintro ⟨g, hg, hlost⟩
    obtain ⟨before, rest, hes, -⟩ := mem_gaps_after.mp hg
    rw [h g.label (by simp [hes])] at hlost
    cases hlost
  have hwords := (⟨after es, ∅, []⟩ : Draft).words_artifact
  rw [if_neg hnone] at hwords
  have hsize := congrArg Array.size hwords
  rwa [size_fillGaps, ← Assembly.offset, offset_after] at hsize

/-- Only labels there are wait to be followed. -/
theorem index_lt_of_waits {l : Label} (h : Admissible [] es)
    (hl : .pushTarget l ∈ es ∨ ∃ x, .mention l x ∈ es) : l.index < labelCount es := by
  obtain ⟨before, rest, hes, hlt⟩ : ∃ before rest, es = before ++ rest ∧ l.index < labelCount before := by
    rcases hl with hl | ⟨x, hl⟩
    · obtain ⟨before, rest, rfl⟩ := List.append_of_mem hl
      exact ⟨before, _, rfl, h.licit⟩
    · obtain ⟨before, rest, rfl⟩ := List.append_of_mem hl
      exact ⟨before, _, rfl, h.licit⟩
  exact Nat.lt_of_lt_of_le hlt (labelCount_le hes)

/-- Finishing an assembly fills in the words that wait for labels and nothing else. -/
theorem finish_resolves (es : List Edit) (h : Admissible [] es) :
    Resolved es (after es).finish.1 (after es).finish.2 where
  written := getElem?_finish_word h
  led hes hleads := by
    rw [getElem?_finish_target h hes, (leads_iff h).mp hleads, Option.getD_some]
  stray hes hstray := by
    have hbound := (stray_iff h).mp hstray
    rw [isBound, Option.isSome_eq_false_iff, Option.isNone_iff_eq_none] at hbound
    rw [getElem?_finish_target h hes, hbound, Option.getD_none]
  trapped hmem hstray := finish_trapped hmem ((stray_iff h).mp hstray)
  untrapped hnone := finish_untrapped fun l hl => by
    rw [← Bool.not_eq_false, ← stray_iff h]
    exact hnone l hl
  in_turn := by
    refine (⟨after es, ∅, []⟩ : Draft).words_artifact.trans ?_
    rw [fillInTurn_eq (after es) rfl fun g hg => gap_lt_after (Array.mem_toList_iff.mp hg),
      Array.any_toList]
    rfl
  mentions := by
    classical
    rw [← mentions_after]
    refine List.filter_congr fun m _ => ?_
    rw [Bool.eq_iff_iff, decide_eq_true_iff, stray_iff h, Bool.not_eq_true']
  pools := ⟨rfl, rfl, rfl⟩
  followed hl := by
    have hlt := index_lt_of_waits h hl
    rw [← size_labels_after] at hlt ⊢
    exact ⟨length_chainWithin_le _ _ _, fun m hm => index_lt_of_mem_chain h hlt hm⟩

/-- Targets of labels that are bound later (0), lead to such a one (1), lead in a circle (2 and 3), left
the circle again (4), and lead to themselves (5), after a word that is filled in late. -/
def detour : List Edit :=
  [.freshLabel, .freshLabel, .freshLabel, .freshLabel, .freshLabel, .freshLabel,
    .reserve, .pushTarget ⟨0⟩, .redirect ⟨1⟩ ⟨0⟩, .pushTarget ⟨1⟩,
    .redirect ⟨2⟩ ⟨3⟩, .redirect ⟨3⟩ ⟨2⟩, .mention ⟨2⟩ ⟨"maze", default⟩, .pushTarget ⟨2⟩,
    .mention ⟨0⟩ ⟨"door", default⟩, .redirect ⟨4⟩ ⟨2⟩, .pushTarget ⟨4⟩, .redirect ⟨4⟩ ⟨1⟩,
    .bind ⟨0⟩, .push 1, .fill 0 42, .mention ⟨3⟩ ⟨"well", default⟩, .redirect ⟨5⟩ ⟨5⟩, .pushTarget ⟨5⟩]

/-- The detour sends labels round in circles and to labels bound later, and two words end at the trap. -/
theorem detour_resolves : Admissible [] detour ∧
    Resolved detour ⟨#[], #[], #[], #[42, 5, 5, 7, 5, 1, 7, Code.StatementCode.finish.word]⟩
      [⟨⟨2⟩, ⟨"maze", default⟩⟩, ⟨⟨3⟩, ⟨"well", default⟩⟩] := by
  have hadmissible : Admissible [] detour := by decide
  have hfinish : (after detour).finish =
      (⟨#[], #[], #[], #[42, 5, 5, 7, 5, 1, 7, Code.StatementCode.finish.word]⟩,
        [⟨⟨2⟩, ⟨"maze", default⟩⟩, ⟨⟨3⟩, ⟨"well", default⟩⟩]) := by decide +kernel
  have hresolves := finish_resolves detour hadmissible
  rw [hfinish] at hresolves
  exact ⟨hadmissible, hresolves⟩

end Assembly

end Colloquy
