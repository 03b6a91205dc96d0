import Mathlib.Order.MinMax
import Colloquy.Timeline.Typewriter

/-!
# Typewriters

A player asks a typewriter for one step after another.  A `Typewriter` answers: events of a cue that fired
are handed out first, then the next cue fires if the text is shown up to it, and if not, the text is revealed up
to there.  The answers are the frames of the text, and nothing after them (`Typewriter.answer_load`).

Frames are made cue by cue (`framesFrom_cons`).  A cue fires at the largest of the offsets up to its own, cut off
at the end of the text (`reach`), so no cue fires early, and if the offsets are in order each fires where it
stands.  The counts grow up to the length of the text and no event is lost (`Typewriter.plays_timeline`).
-/

namespace Colloquy

/-- A typewriter at work: the number of visible characters of its text, the cues that are to come, the events of
the last cue that are to be handed out, and the number of characters that are shown. -/
structure Typewriter where
  length : Nat
  cues : List Cue
  pending : List Event
  shown : Nat

namespace Typewriter

/-! ## One step after another -/

/-- A typewriter in front of a text. -/
def load (text : String) (timeline : List Cue) : Typewriter := ⟨visibleLength text, timeline, [], 0⟩

/-- Reveal up to a target, unless everything is shown. -/
def revealTo (target : Nat) (w : Typewriter) : Option Step × Typewriter :=
  if w.length ≤ w.shown then (none, w) else (some (.reveal target), { w with shown := target })

/-- Ask for the next step.  Cues that ask for nothing are passed over. -/
def next : Typewriter → Option Step × Typewriter
  | ⟨length, cues, e :: pending, shown⟩ => (some (.event e), ⟨length, cues, pending, shown⟩)
  | ⟨length, c :: cues, [], shown⟩ =>
    if min c.offset length ≤ shown then next ⟨length, cues, c.tag.events, shown⟩
    else revealTo (min c.offset length) ⟨length, c :: cues, [], shown⟩
  | ⟨length, [], [], shown⟩ => revealTo length ⟨length, [], [], shown⟩
termination_by w => w.cues.length

/-- The answer of a typewriter after `k` others, with the number of characters that are shown then. -/
def answer : Nat → Typewriter → Option Frame
  | 0, w => w.next.1.map fun s => ⟨s, w.next.2.shown⟩
  | k + 1, w => answer k w.next.2

/-- The frames that a typewriter has before it. -/
def ahead (w : Typewriter) : List Frame :=
  w.pending.map (fun e => ⟨.event e, w.shown⟩) ++ framesFrom w.length w.shown w.cues

/-- A step hands out the first of the frames, shows what that one shows, and keeps the others. -/
structure Hands (fs : List Frame) (x : Option Step × Typewriter) : Prop where
  step : x.1 = fs.head?.map Frame.step
  shown : ∀ f ∈ fs.head?, x.2.shown = f.shown
  rest : x.2.ahead = fs.tail

/-- The next step of a typewriter is the first of the frames ahead, and leaves the others. -/
theorem next_hands (w : Typewriter) : Hands w.ahead w.next := by
  fun_induction next w with
  | case1 length cues e pending shown => exact ⟨rfl, by rintro f ⟨⟩; rfl, rfl⟩
  | case2 length c cues shown hfires ih =>
    -- a cue that fires is taken off, and its events are what comes next
    have hahead : ahead ⟨length, c :: cues, [], shown⟩ = ahead ⟨length, cues, c.tag.events, shown⟩ := by
      rw [ahead, framesFrom, if_pos hfires]
      rfl
    rwa [hahead]
  | case3 length c cues shown hwaits =>
    -- a cue that waits is kept: once the text is revealed up to it, it fires
    have hahead : ahead ⟨length, c :: cues, [], shown⟩ =
        ⟨.reveal (min c.offset length), min c.offset length⟩ ::
          ahead ⟨length, c :: cues, [], min c.offset length⟩ := by
      rw [ahead, ahead, framesFrom, framesFrom, if_neg hwaits, if_pos le_rfl]
      rfl
    rw [hahead, revealTo, if_neg (by show ¬length ≤ shown; omega)]
    exact ⟨rfl, by rintro f ⟨⟩; rfl, rfl⟩
  | case4 length shown =>
    rw [revealTo]
    by_cases hdone : length ≤ shown
    · have hahead : ahead ⟨length, [], [], shown⟩ = [] := if_neg (Nat.not_lt.mpr hdone)
      rw [hahead, if_pos hdone]
      exact ⟨rfl, nofun, hahead⟩
    · have hahead : ahead ⟨length, [], [], shown⟩ = [⟨.reveal length, length⟩] :=
        if_pos (Nat.not_le.mp hdone)
      rw [hahead, if_neg hdone]
      exact ⟨rfl, by rintro f ⟨⟩; rfl, if_neg (lt_irrefl length)⟩

/-- The answers of a typewriter are the frames ahead of it. -/
theorem answer_ahead (k : Nat) (w : Typewriter) : w.answer k = w.ahead[k]? := by
  have hnext := next_hands w
  induction k generalizing w with
  | zero =>
    rw [answer, hnext.step, ← List.head?_eq_getElem?]
    cases hfirst : w.ahead.head? with
    | none => rfl
    | some f =>
      rw [Option.map_some, Option.map_some, hnext.shown f hfirst]
  | succ k ih => rw [answer, ih _ (next_hands _), hnext.rest, List.getElem?_tail]

/-- The answers of a typewriter in front of a text are the frames of the text. -/
theorem answer_load (text : String) (timeline : List Cue) (k : Nat) :
    (load text timeline).answer k = (frames text timeline)[k]? :=
  answer_ahead k (load text timeline)

/-! ## Frames cue by cue -/

/-- The number of characters that a step reveals up to. -/
def Step.count? : Step → Option Nat
  | .reveal count => some count
  | .event _ => none

/-- The event that a step hands out. -/
def Step.event? : Step → Option Event
  | .reveal _ => none
  | .event e => some e

/-- The numbers that frames reveal up to, one after the other. -/
def counts (fs : List Frame) : List Nat := fs.filterMap (·.step.count?)

/-- The events that frames hand out, one after the other. -/
def events (fs : List Frame) : List Event := fs.filterMap (·.step.event?)

/-- The frame that reveals up to a target, if that is more than is shown. -/
def revealFrames (shown target : Nat) : List Frame :=
  if shown < target then [⟨.reveal target, target⟩] else []

/-- The number of characters that are shown once cues have fired. -/
def reach (length shown : Nat) (cs : List Cue) : Nat :=
  cs.foldl (fun n c => max n (min c.offset length)) shown

/-- Frames show what the one in front of them shows, or what they reveal up to. -/
def Tracks : Nat → List Frame → Prop
  | _, [] => True
  | shown, f :: fs => f.shown = f.step.count?.getD shown ∧ Tracks f.shown fs

variable {length shown : Nat} {cs : List Cue}

theorem framesFrom_nil (length shown : Nat) : framesFrom length shown [] = revealFrames shown length := rfl

/-- The frames of cues are a reveal up to the first one, its own frames, and those of the others. -/
theorem framesFrom_cons (length shown : Nat) (c : Cue) (cs : List Cue) :
    framesFrom length shown (c :: cs) = revealFrames shown (min c.offset length) ++
      (cueFrames (max shown (min c.offset length)) c ++
        framesFrom length (max shown (min c.offset length)) cs) := by
  rw [framesFrom, revealFrames]
  by_cases hfires : min c.offset length ≤ shown
  · rw [if_pos hfires, if_neg (Nat.not_lt.mpr hfires), max_eq_left hfires]
    rfl
  · rw [if_neg hfires, if_pos (Nat.not_le.mp hfires), max_eq_right (Nat.le_of_not_le hfires)]
    rfl

theorem counts_append (fs gs : List Frame) : counts (fs ++ gs) = counts fs ++ counts gs :=
  List.filterMap_append

theorem events_append (fs gs : List Frame) : events (fs ++ gs) = events fs ++ events gs :=
  List.filterMap_append

theorem counts_cueFrames (shown : Nat) (c : Cue) : counts (cueFrames shown c) = [] := by
  rw [counts, cueFrames, List.filterMap_map]
  exact List.filterMap_eq_nil_iff.mpr fun _ _ => rfl

theorem events_cueFrames (shown : Nat) (c : Cue) : events (cueFrames shown c) = c.tag.events := by
  rw [events, cueFrames, List.filterMap_map]
  exact List.filterMap_some

theorem counts_revealFrames (shown target : Nat) :
    counts (revealFrames shown target) = if shown < target then [target] else [] := by
  rw [revealFrames]
  split <;> rfl

theorem events_revealFrames (shown target : Nat) : events (revealFrames shown target) = [] := by
  rw [revealFrames]
  split <;> rfl

theorem counts_framesFrom_cons (length shown : Nat) (c : Cue) (cs : List Cue) :
    counts (framesFrom length shown (c :: cs)) = counts (revealFrames shown (min c.offset length)) ++
      counts (framesFrom length (max shown (min c.offset length)) cs) := by
  rw [framesFrom_cons, counts_append, counts_append, counts_cueFrames, List.nil_append]

/-- The events of frames are those of the cues, in order. -/
theorem events_framesFrom (length shown : Nat) (cs : List Cue) :
    events (framesFrom length shown cs) = cs.flatMap (·.tag.events) := by
  induction cs generalizing shown with
  | nil => rw [framesFrom_nil, events_revealFrames, List.flatMap_nil]
  | cons c cs ih =>
    rw [framesFrom_cons, events_append, events_append, events_revealFrames, events_cueFrames, ih,
      List.nil_append, List.flatMap_cons]

/-! ## Counts -/

/-- A count is beyond what was shown, and within the text. -/
theorem mem_counts_framesFrom {n : Nat} (h : n ∈ counts (framesFrom length shown cs)) :
    shown < n ∧ n ≤ length := by
  induction cs generalizing shown with
  | nil =>
    rw [framesFrom_nil, counts_revealFrames] at h
    split at h
    · next hless =>
      rw [List.mem_singleton] at h
      exact ⟨h ▸ hless, h.le⟩
    · cases h
  | cons c cs ih =>
    rw [counts_framesFrom_cons, List.mem_append, counts_revealFrames] at h
    rcases h with h | h
    · split at h
      · next hless =>
        rw [List.mem_singleton] at h
        exact ⟨h ▸ hless, h ▸ min_le_right _ _⟩
      · cases h
    · obtain ⟨hless, hle⟩ := ih h
      exact ⟨(le_max_left _ _).trans_lt hless, hle⟩

/-- The counts of frames increase. -/
theorem counts_increasing (length shown : Nat) (cs : List Cue) :
    (counts (framesFrom length shown cs)).Pairwise (· < ·) := by
  induction cs generalizing shown with
  | nil =>
    rw [framesFrom_nil, counts_revealFrames]
    split
    · exact List.pairwise_singleton _ _
    · exact .nil
  | cons c cs ih =>
    rw [counts_framesFrom_cons, counts_revealFrames]
    split
    · refine List.pairwise_cons.mpr ⟨fun n hn => ?_, ih _⟩
      exact (le_max_right _ _).trans_lt (mem_counts_framesFrom hn).1
    · exact ih _

/-- In the end all of the text is shown. -/
theorem getLast?_counts (length shown : Nat) (cs : List Cue) :
    (counts (framesFrom length shown cs)).getLast?.getD shown = max shown length := by
  have hreveal : ∀ shown target, (counts (revealFrames shown target)).getLast?.getD shown = max shown target := by
    intro shown target
    rw [counts_revealFrames]
    split
    · next hless => exact (max_eq_right hless.le).symm
    · next hge => exact (max_eq_left (Nat.not_lt.mp hge)).symm
  induction cs generalizing shown with
  | nil => exact hreveal shown length
  | cons c cs ih =>
    rw [counts_framesFrom_cons, List.getLast?_append, Option.getD_or, hreveal, ih, max_assoc,
      max_eq_right (min_le_right _ _)]

/-- The last count is the length of the text, unless all of it was shown before. -/
theorem getLast?_counts_of_lt (h : shown < length) (cs : List Cue) :
    (counts (framesFrom length shown cs)).getLast? = some length := by
  have hlast := getLast?_counts length shown cs
  rw [max_eq_right h.le] at hlast
  cases hcount : (counts (framesFrom length shown cs)).getLast? with
  | none =>
    rw [hcount] at hlast
    exact absurd hlast h.ne
  | some n =>
    rw [hcount] at hlast
    exact congrArg some hlast

/-- What is shown with a reveal is what it reveals. -/
theorem tracks_revealFrames (shown target : Nat) (fs : List Frame) :
    Tracks shown (revealFrames shown target ++ fs) ↔ Tracks (max shown target) fs := by
  rw [revealFrames]
  split
  · next hless =>
    rw [max_eq_right hless.le]
    exact and_iff_right rfl
  · next hge =>
    rw [max_eq_left (Nat.not_lt.mp hge)]
    exact Iff.rfl

/-- A cue changes nothing that is shown. -/
theorem tracks_cueFrames (shown : Nat) (c : Cue) (fs : List Frame) :
    Tracks shown (cueFrames shown c ++ fs) ↔ Tracks shown fs := by
  rw [cueFrames]
  induction c.tag.events with
  | nil => exact Iff.rfl
  | cons e es ih =>
    rw [← ih]
    exact and_iff_right rfl

/-- With every frame stands what the counts so far have shown. -/
theorem tracks_framesFrom (length shown : Nat) (cs : List Cue) :
    Tracks shown (framesFrom length shown cs) := by
  induction cs generalizing shown with
  | nil =>
    rw [framesFrom_nil, ← List.append_nil (revealFrames shown length), tracks_revealFrames]
    trivial
  | cons c cs ih =>
    rw [framesFrom_cons, tracks_revealFrames, tracks_cueFrames]
    exact ih _

/-! ## When a cue fires -/

theorem reach_append (length shown : Nat) (cs : List Cue) (c : Cue) :
    reach length shown (cs ++ [c]) = max (reach length shown cs) (min c.offset length) := by
  rw [reach, List.foldl_append]
  rfl

/-- No more is shown than is shown already or a cue asks for. -/
theorem reach_le {n : Nat} (hshown : shown ≤ n) (hcs : ∀ c ∈ cs, min c.offset length ≤ n) :
    reach length shown cs ≤ n := by
  induction cs generalizing shown with
  | nil => exact hshown
  | cons c cs ih =>
    rw [List.forall_mem_cons] at hcs
    exact ih (max_le hshown hcs.1) hcs.2

/-- Cues in order each ask for as much as all up to them. -/
theorem reach_sorted (length : Nat) {cs ds : List Cue} {c : Cue}
    (h : (cs ++ c :: ds).Pairwise fun c d => c.offset ≤ d.offset) :
    reach length 0 (cs ++ [c]) = min c.offset length := by
  rw [List.pairwise_append] at h
  obtain ⟨-, -, hbefore⟩ := h
  refine (reach_append ..).trans (max_eq_right ?_)
  refine reach_le (Nat.zero_le _) fun d hd => ?_
  exact min_le_min_right length (hbefore d hd c (List.mem_cons_self ..))

/-- The frames of some cues come first, whatever cues are behind them. -/
theorem framesFrom_append (length shown : Nat) (cs : List Cue) : ∃ front,
    events front = cs.flatMap (·.tag.events) ∧
    ∀ ds, framesFrom length shown (cs ++ ds) = front ++ framesFrom length (reach length shown cs) ds := by
  induction cs generalizing shown with
  | nil => exact ⟨[], rfl, fun _ => rfl⟩
  | cons c cs ih =>
    -- behind the first cue the text is shown up to it, or further
    obtain ⟨front, hevents, hframes⟩ := ih (max shown (min c.offset length))
    refine ⟨revealFrames shown (min c.offset length) ++
      (cueFrames (max shown (min c.offset length)) c ++ front), ?_, fun ds => ?_⟩
    · rw [events_append, events_append, events_revealFrames, events_cueFrames, hevents, List.nil_append,
        List.flatMap_cons]
    · rw [List.cons_append, framesFrom_cons, hframes, List.append_assoc, List.append_assoc]
      rfl

/-- The events of a cue stand behind those of the cues before it and in front of those behind it. -/
theorem framesFrom_cue (length shown : Nat) (cs : List Cue) (c : Cue) (ds : List Cue) : ∃ front back,
    framesFrom length shown (cs ++ c :: ds) = front ++ (cueFrames (reach length shown (cs ++ [c])) c ++ back) ∧
    events front = cs.flatMap (·.tag.events) ∧ events back = ds.flatMap (·.tag.events) := by
  obtain ⟨front, hevents, hframes⟩ := framesFrom_append length shown cs
  refine ⟨front ++ revealFrames (reach length shown cs) (min c.offset length),
    framesFrom length (reach length shown (cs ++ [c])) ds, ?_, ?_, events_framesFrom ..⟩
  · rw [hframes, framesFrom_cons, reach_append, List.append_assoc]
  · rw [events_append, events_revealFrames, List.append_nil, hevents]

end Typewriter

/-- A tag asks for nothing if it steers the script, for two events if it ends a page, and else for one. -/
theorem Tag.events_eq (tag : Tag) :
    (tag = .finish ∨ ∃ target, tag = .goto target) ∧ tag.events = [] ∨
    tag = .page ∧ tag.events = [.prompt, .scroll] ∨
    (tag ≠ .finish ∧ (∀ target, tag ≠ .goto target) ∧ tag ≠ .page) ∧ ∃ e, tag.events = [e] := by
  cases tag with
  | finish => exact .inl ⟨.inl rfl, rfl⟩
  | goto target => exact .inl ⟨.inr ⟨target, rfl⟩, rfl⟩
  | page => exact .inr (.inl ⟨rfl, rfl⟩)
  | pause seconds => cases seconds <;> exact .inr (.inr ⟨⟨nofun, nofun, nofun⟩, _, rfl⟩)
  | auto | speed | prompt | scroll => exact .inr (.inr ⟨⟨nofun, nofun, nofun⟩, _, rfl⟩)

namespace Typewriter

/-- Asked for one step after another, a typewriter answers with the frames of its text and then with nothing,
whatever cues it is given and in whatever order.  What it reveals grows, up to the whole text.  It hands out the
events of all cues in order, those of a cue when the text is shown up to the cue or further, and when it is shown
exactly up to the cue if the cues are in order. -/
theorem plays_timeline (text : String) (timeline : List Cue) :
    let length := visibleLength text
    let fs := frames text timeline
    (∀ k, (load text timeline).answer k = fs[k]?) ∧ Tracks 0 fs ∧
    (counts fs).Pairwise (· < ·) ∧ (∀ n ∈ counts fs, n ≤ length) ∧
    (0 < length → (counts fs).getLast? = some length) ∧
    events fs = timeline.flatMap (·.tag.events) ∧
    (∀ tag : Tag,
      (tag = .finish ∨ ∃ target, tag = .goto target) ∧ tag.events = [] ∨
      tag = .page ∧ tag.events = [.prompt, .scroll] ∨
      (tag ≠ .finish ∧ (∀ target, tag ≠ .goto target) ∧ tag ≠ .page) ∧ ∃ e, tag.events = [e]) ∧
    ∀ cs c ds, timeline = cs ++ c :: ds → ∃ front shown back, fs = front ++ (cueFrames shown c ++ back) ∧
      events front = cs.flatMap (·.tag.events) ∧ events back = ds.flatMap (·.tag.events) ∧
      min c.offset length ≤ shown ∧
      ((timeline.Pairwise fun c d => c.offset ≤ d.offset) → shown = min c.offset length) := by
  intro length fs
  refine ⟨answer_load text timeline, tracks_framesFrom length 0 timeline,
    counts_increasing length 0 timeline, fun n hn => (mem_counts_framesFrom hn).2,
    fun hlength => getLast?_counts_of_lt hlength timeline, events_framesFrom length 0 timeline,
    Tag.events_eq, ?_⟩
  rintro cs c ds rfl
  obtain ⟨front, back, hframes, hfront, hback⟩ := framesFrom_cue length 0 cs c ds
  refine ⟨front, _, back, hframes, hfront, hback, ?_, reach_sorted length⟩
  rw [reach_append]
  exact le_max_right _ _

/-- A text with markup and three visible characters. -/
def greeting : String := "[b]Hé[/b]!"

/-- Cues in order, of which one asks for nothing and one stands behind the end of the text. -/
def greetingCues : List Cue := [⟨.goto "shop", 1⟩, ⟨.page, 2⟩, ⟨.auto, 9⟩]

/-- The page ends in front of the last character, which is then revealed. -/
theorem plays_timeline_greeting :
    0 < visibleLength greeting ∧
    (counts (frames greeting greetingCues)).getLast? = some 3 ∧
    (greetingCues.Pairwise fun c d => c.offset ≤ d.offset) ∧
    ∃ front back, frames greeting greetingCues =
        front ++ ([⟨.event .prompt, 2⟩, ⟨.event .scroll, 2⟩] ++ back) ∧
      events front = [] ∧ events back = [.auto] := by
  have hpositive : 0 < visibleLength greeting := by decide +kernel
  have hlength : visibleLength greeting = 3 := by decide +kernel
  have hsorted : greetingCues.Pairwise fun c d => c.offset ≤ d.offset := by decide
  obtain ⟨-, -, -, -, hlast, -, -, hcues⟩ := plays_timeline greeting greetingCues
  obtain ⟨front, shown, back, hframes, hfront, hback, -, hshown⟩ :=
    hcues [⟨.goto "shop", 1⟩] ⟨.page, 2⟩ [⟨.auto, 9⟩] rfl
  have htwo : shown = 2 := by
    rw [hshown hsorted, hlength]
    rfl
  rw [htwo] at hframes
  rw [hlength] at hlast
  exact ⟨hpositive, hlast (by decide), hsorted, front, back, hframes, hfront, hback⟩

end Typewriter

end Colloquy
