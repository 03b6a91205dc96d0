import Colloquy.Proofs.Layout.Table
import Colloquy.Proofs.Telling.Statement

/-!
# Playthroughs are tellings

A session of a compiled script and the telling of its story answer every move alike.  They go in
lockstep: `Plays` relates the two between moves and between statements, a statement keeps it
(`Plays.step`), and so does every move (`Plays.move`).  What the host remembers is the same after every
statement, so the requests are the same and come in the same order.
-/

namespace Colloquy

/-! ## Answers without offsets -/

/-- A step without the offsets that it carries. -/
def Step.placeless : Step → Step
  | .on events => .on (events.map Event.placeless)
  | .wait events => .wait (events.map Event.placeless)
  | .fault e => .fault e.placeless

/-- An answer without the offsets that it carries. -/
def Reply.placeless : Reply → Reply
  | .ok events => .ok (events.map Event.placeless)
  | .error e => .error e.placeless

/-! ## Sessions and tellings -/

section

variable (A : Artifact) (r : Registry) (sections : Catalog Nat)

/-- What a session and a telling share at all times.  Once they are at their end, it does not matter whether
a line ends them. -/
structure Shares (s : Session) (t : Telling) : Prop where
  script : s.script = A.script
  table : s.sections = sections
  status : s.status = t.status
  prompt : s.status ≠ .awaitingCall
  ending : s.status ≠ .ended → s.ending = t.ending
  events : s.eventPool.Clean
  choices : s.choicePool.Clean

/-- A session plays what is told: it goes on where the story does, and offers what the story does. -/
structure Plays (s : Session) (t : Telling) : Prop extends Shares A sections s t where
  running : s.status = .running → s.memo = .empty ∧ CodeAt A r sections s.pointer t.rest
  choosing : s.status = .awaitingChoice → List.Forall₂ (OfferAt A r sections) s.choices.items t.offers

end

section

variable {σ : Type} {A : Artifact} {r : Registry} {h : Host σ} {sections : Catalog Nat}
  {story : Story} {s : Session} {t : Telling}

/-- Options are shown as they are told. -/
theorem OfferAt.shown {c : Choice} {o : Tell.Offer} (ho : OfferAt A r sections c o) :
    { c with next := 0 } = Telling.shown o := by
  rw [Telling.shown, ← ho.text, ← ho.enabled]

/-- Choices without the offsets they lead to are the offers of the telling. -/
theorem OfferAt.shown_all {cs : List Choice} {os : List Tell.Offer}
    (hos : List.Forall₂ (OfferAt A r sections) cs os) :
    (cs.map fun c => { c with next := 0 }) = os.map Telling.shown := by
  induction hos with
  | nil => rfl
  | cons ho _ ih => rw [List.map_cons, List.map_cons, ho.shown, ih]

/-- An option can be selected in both or in none. -/
theorem OfferAt.any_enabled {cs : List Choice} {os : List Tell.Offer}
    (hos : List.Forall₂ (OfferAt A r sections) cs os) :
    cs.any (·.enabled) = os.any (·.enabled) := by
  induction hos with
  | nil => rfl
  | cons ho _ ih => rw [List.any_cons, List.any_cons, ho.enabled, ih]

/-- At each place there is an option in both or in none. -/
theorem OfferAt.getElem? {cs : List Choice} {os : List Tell.Offer}
    (hos : List.Forall₂ (OfferAt A r sections) cs os) (index : Nat) :
    (cs[index]? = none ∧ os[index]? = none) ∨
      ∃ c o, cs[index]? = some c ∧ os[index]? = some o ∧ OfferAt A r sections c o := by
  induction hos generalizing index with
  | nil => exact .inl ⟨rfl, rfl⟩
  | cons ho _ ih =>
    cases index with
    | zero => exact .inr ⟨_, _, rfl, rfl, ho⟩
    | succ index => exact ih index

variable (A r sections) in
/-- How a step of a session and one of a telling went. -/
structure Stepped (x : Step × Session × σ) (y : Step × Telling × σ) : Prop where
  step : x.1.placeless = y.1
  memory : x.2.2 = y.2.2
  plays : Plays A r sections x.2.1 y.2.1
  /-- A session that goes on is running. -/
  on : ∀ events, x.1 = .on events → x.2.1.status = .running

/-- A running session jumps to where the story goes on. -/
theorem Shares.jump (hs : Shares A sections s t) {n : Nat} {rest : Tell.Rest}
    (hcode : CodeAt A r sections n rest) (hrunning : s.status = .running) :
    Plays A r sections (s.jump n) { t with rest } where
  script := hs.script
  table := hs.table
  status := hs.status
  prompt := hs.prompt
  ending := hs.ending
  events := hs.events
  choices := hs.choices
  running _ := ⟨rfl, hcode⟩
  choosing hchoosing := by
    rw [show (s.jump n).status = s.status from rfl, hrunning] at hchoosing
    cases hchoosing

/-- A playthrough that has ended, whatever is left of its last line. -/
theorem Shares.ended (hs : Shares A sections s t) (ending : Bool) (pending : Option (Nat × String)) :
    Plays A r sections { s with status := .ended, ending, pending, memo := .empty }
      { t with status := .ended } where
  script := hs.script
  table := hs.table
  status := rfl
  prompt := by simp
  ending hended := absurd rfl hended
  events := hs.events
  choices := hs.choices
  running hrunning := by cases hrunning
  choosing hchoosing := by cases hchoosing

/-- A session offers options if the story does. -/
theorem Shares.offer (hs : Shares A sections s t) (hrunning : s.status = .running) {n : Nat}
    {rest : Tell.Rest} {cs : List Choice} {os : List Tell.Offer} (hcode : CodeAt A r sections n rest)
    (hos : List.Forall₂ (OfferAt A r sections) cs os) (memory : σ) :
    Stepped A r sections ((s.offer n cs).1, (s.offer n cs).2, memory)
      ((t.take (.offer rest os)).1, (t.take (.offer rest os)).2, memory) := by
  obtain ⟨hbuffer, hpool⟩ := hs.choices.take
  obtain ⟨hcopy, hrest⟩ := hpool.take
  by_cases hany : cs.any (·.enabled) = true
  · have hoffer : s.offer n cs = (.wait [.choice (s.choicePool.take.2.take.1.append
        (s.choicePool.take.1.append cs).items).items], { s with
          choices := s.choicePool.take.1.append cs
          choicePool := s.choicePool.take.2.take.2.give s.choices
          status := .awaitingChoice }) := if_pos hany
    have htake : t.take (.offer rest os) = (.wait [.choice (os.map Telling.shown)],
        { t with status := .awaitingChoice, offers := os }) := if_pos (OfferAt.any_enabled hos ▸ hany)
    rw [hoffer, htake]
    have hending : s.ending = t.ending := hs.ending (by simp [hrunning])
    refine ⟨?_, rfl, ⟨⟨hs.script, hs.table, rfl, by simp, fun _ => hending, hs.events, hrest.give _⟩,
      by simp, ?_⟩, by simp⟩
    · simp only [Step.placeless, List.map_cons, List.map_nil, Event.placeless, Buffer.append, hcopy,
        hbuffer, List.nil_append, OfferAt.shown_all hos]
    · intro _
      show List.Forall₂ _ (s.choicePool.take.1.items ++ cs) os
      rw [hbuffer]
      exact hos
  · have hoffer : s.offer n cs = (.on [], { s with
        choicePool := s.choicePool.take.2.give (s.choicePool.take.1.append cs) }.jump n) := if_neg hany
    have htake : t.take (.offer rest os) = (.on [], { t with rest }) :=
      if_neg (OfferAt.any_enabled hos ▸ hany)
    rw [hoffer, htake]
    have hshares : Shares A sections { s with
        choicePool := s.choicePool.take.2.give (s.choicePool.take.1.append cs) } t :=
      ⟨hs.script, hs.table, hs.status, hs.prompt, hs.ending, hs.events, hpool.give _⟩
    exact ⟨rfl, rfl, hshares.jump hcode hrunning, fun _ _ => hrunning⟩

/-- A session takes in what a statement came to as the telling does. -/
theorem Shares.take (hs : Shares A sections s t) (hrunning : s.status = .running)
    {outcome : Outcome} {told : Tell.Told} (h : OutcomeAt A r sections outcome told) (memory : σ) :
    Stepped A r sections ((s.take outcome).1, (s.take outcome).2, memory)
      ((t.take told).1, (t.take told).2, memory) := by
  cases h with
  | proceed events hcode => exact ⟨rfl, rfl, hs.jump hcode hrunning, fun _ _ => hrunning⟩
  | @present n rest ending events hcode =>
    have hjump := hs.jump hcode hrunning
    refine ⟨rfl, rfl, ?_, by simp [Session.take]⟩
    exact ⟨⟨hs.script, hs.table, hs.status, hs.prompt, fun _ => rfl, hs.events, hs.choices⟩, hjump.running,
      hjump.choosing⟩
  | offer hcode hos => exact hs.offer hrunning hcode hos memory
  | finish => exact ⟨rfl, rfl, hs.ended _ _, by simp [Session.take, Session.finish]⟩

/-- A statement is played as it is told. -/
theorem Plays.step (hS : A.script.words.size < UInt32.size) (hprompt : h.Prompt)
    (hdir : Directory A r sections story) (hmeets : story.Meets (Expr.Floats Number.Unsigned) (0 < ·))
    (hs : Plays A r sections s t) (hrunning : s.status = .running) (memory : σ) :
    Stepped A r sections (s.step h memory) (t.step r story h memory) := by
  obtain ⟨hmemo, hcode⟩ := hs.running hrunning
  have hsame : s.ending = t.ending := hs.ending (by simp [hrunning])
  by_cases hending : s.ending = true
  · rw [Session.step, Telling.step, if_pos hending, if_pos (hsame ▸ hending)]
    have hshares : Shares A sections { s with ending := false } { t with ending := false } :=
      ⟨hs.script, hs.table, hs.status, hs.prompt, fun _ => rfl, hs.events, hs.choices⟩
    exact ⟨rfl, rfl, hshares.ended _ _, by simp [Session.finish]⟩
  · rw [Session.step, Telling.step, if_neg hending, if_neg (hsame ▸ hending), hs.script,
      hs.table, hmemo]
    obtain ⟨m, hfollows⟩ := hcode.follows hS hprompt hdir hmeets
    have hends := hfollows .empty memory (Memo.below_empty _)
    generalize Eval.statementAt A.script h (Eval.expr A.script h) sections s.pointer
      ⟨.empty, memory⟩ = x at hends ⊢
    generalize Tell.next r h story t.rest memory = y at hends ⊢
    cases hends with
    | @ok outcome told memo memory _ htold =>
      have hshares : Shares A sections { s with memo } t :=
        ⟨hs.script, hs.table, hs.status, hs.prompt, hs.ending, hs.events, hs.choices⟩
      exact hshares.take hrunning htold memory
    | @error e ending memo memory =>
      obtain ⟨pool, hbreak, hclean⟩ := s.exists_breakOff
      have hshares : Shares A sections { s with choicePool := pool } t :=
        ⟨hs.script, hs.table, hs.status, hs.prompt, hs.ending, hs.events, hclean hs.choices⟩
      rw [Session.settle, hbreak]
      exact ⟨rfl, rfl, hshares.ended ending none, by simp [Session.abort]⟩

/-! ## Moves -/

variable (A r sections) in
/-- How a move went in a session and in a telling. -/
inductive Moved : Option (Reply × Session × σ) → Option (Reply × Telling × σ) → Prop where
  | none : Moved none none
  | some {reply : Reply} {s : Session} {t : Telling} (memory : σ) :
      Plays A r sections s t → Moved (some (reply, s, memory)) (some (reply.placeless, t, memory))

/-- The answer to an advance. -/
def Session.answer : Option (Except SessionError (Buffer Event) × Session × σ) →
    Option (Reply × Session × σ)
  | some (reply, s, memory) => some (reply.map Buffer.items, s, memory)
  | none => none

/-- An advance keeps a session and its telling in lockstep, by induction on the statements it may take. -/
theorem Plays.advanceFrom (hS : A.script.words.size < UInt32.size) (hprompt : h.Prompt)
    (hdir : Directory A r sections story) (hmeets : story.Meets (Expr.Floats Number.Unsigned) (0 < ·))
    (limit : Nat) (events : Buffer Event) {s : Session} {t : Telling}
    (hs : Plays A r sections s t) (hrunning : s.status = .running) (memory : σ) :
    Moved A r sections (Session.answer (Session.advanceFrom (Session.step h) limit events s memory))
      (Telling.advanceFrom r story h limit (events.items.map Event.placeless) t memory) := by
  induction limit generalizing events s t memory with
  | zero => exact .none
  | succ limit ih =>
    have hstep := hs.step hS hprompt hdir hmeets hrunning memory
    rw [Session.advanceFrom, Telling.advanceFrom]
    generalize s.step h memory = x at hstep ⊢
    generalize t.step r story h memory = y at hstep ⊢
    obtain ⟨step, s, memory⟩ := x
    obtain ⟨_, t, _⟩ := y
    obtain ⟨rfl, rfl, hplays, hon⟩ := hstep
    cases step with
    | on more =>
      have hrest := ih (events.append more) hplays (hon more rfl) memory
      rwa [Buffer.append, List.map_append] at hrest
    | wait more =>
      show Moved A r sections (some (.ok (events.append more).items, s, memory))
        (some (.ok (events.items.map Event.placeless ++ more.map Event.placeless), t, memory))
      rw [← List.map_append]
      exact .some memory hplays
    | fault e =>
      refine .some memory ⟨⟨hplays.script, hplays.table, hplays.status, hplays.prompt,
        hplays.ending, ?_, hplays.choices⟩, hplays.running, hplays.choosing⟩
      exact hplays.events.give events

/-- So does an advance in any state. -/
theorem Plays.advance (hS : A.script.words.size < UInt32.size) (hprompt : h.Prompt)
    (hdir : Directory A r sections story) (hmeets : story.Meets (Expr.Floats Number.Unsigned) (0 < ·))
    (hs : Plays A r sections s t) (limit : Nat) (memory : σ) :
    Moved A r sections (Session.answer (s.advance h limit memory))
      (t.advance r story h limit memory) := by
  rw [Session.advance, Session.advanceWith, Telling.advance, ← hs.status]
  by_cases hrunning : s.status = .running
  · rw [if_pos hrunning, if_pos hrunning]
    obtain ⟨hitems, hpool⟩ := hs.events.take
    have hplays : Plays A r sections { s with eventPool := s.eventPool.take.2 } t :=
      ⟨⟨hs.script, hs.table, hs.status, hs.prompt, hs.ending, hpool, hs.choices⟩, hs.running,
        hs.choosing⟩
    have hall := hplays.advanceFrom hS hprompt hdir hmeets limit s.eventPool.take.1 hrunning memory
    rwa [hitems] at hall
  · rw [if_neg hrunning, if_neg hrunning]
    exact .some memory hs

/-- So does a start, at a section that there is or is not. -/
theorem Plays.start (hdir : Directory A r sections story) (hs : Plays A r sections s t)
    (name : String) (memory : σ) :
    Moved A r sections (s.move h memory (.start name)) (t.move r story h memory (.start name)) := by
  rw [Session.move, Session.start, if_neg hs.prompt, hs.table, Telling.move, Telling.start]
  cases hfind : Tell.findSection? story name with
  | none =>
    rw [hdir.missing name hfind]
    exact .some memory hs
  | some x =>
    obtain ⟨n, _, hn, _⟩ := hdir.found name x hfind
    rw [hn]
    refine .some memory ⟨⟨hs.script, hs.table, rfl, by simp, fun _ => rfl, hs.events, hs.choices.give _⟩, ?_,
      by simp⟩
    exact fun _ => ⟨rfl, .enter hn⟩

/-- So does a selection. -/
theorem Plays.select (hs : Plays A r sections s t) (index : Nat) (memory : σ) :
    Moved A r sections (s.move h memory (.select index)) (t.move r story h memory (.select index)) := by
  rw [Session.move, Session.select, Telling.move, Telling.select, ← hs.status]
  by_cases hchoosing : s.status = .awaitingChoice
  · have hoffers := hs.choosing hchoosing
    rw [if_neg (not_not.mpr hchoosing), if_neg (not_not.mpr hchoosing), hoffers.length_eq]
    rcases OfferAt.getElem? hoffers index with ⟨hc, ho⟩ | ⟨c, o, hc, ho, hoffer⟩
    · rw [hc, ho]
      exact .some memory hs
    · rw [hc, ho]
      by_cases henabled : c.enabled = true
      · have henabled' : o.enabled = true := hoffer.enabled ▸ henabled
        simp only [henabled, henabled', if_true]
        have hending : s.ending = t.ending := hs.ending (by simp [hchoosing])
        refine .some memory ⟨⟨hs.script, hs.table, rfl, by simp, fun _ => hending, hs.events,
          hs.choices.give _⟩, ?_, by simp⟩
        exact fun _ => ⟨rfl, hoffer.next⟩
      · have henabled' : ¬o.enabled = true := hoffer.enabled ▸ henabled
        simp only [henabled, henabled']
        exact .some memory hs
  · rw [if_pos hchoosing, if_pos hchoosing]
    exact .some memory hs


/-- So does a result that is delivered. -/
theorem Plays.complete (hs : Plays A r sections s t) (result : Except HostError Value) (memory : σ) :
    Moved A r sections (s.move h memory (.complete result))
      (t.move r story h memory (.complete result)) := by
  have hrefused : s.complete result =
      (.error (.invalidState .complete s.status), { s with pending := none }) := by
    rw [Session.complete]
    split
    · next hawaiting _ => exact absurd hawaiting hs.prompt
    · rfl
  rw [Session.move, hrefused, Telling.move, ← hs.status]
  refine .some memory ⟨⟨hs.script, hs.table, hs.status, hs.prompt, hs.ending, hs.events, hs.choices⟩,
    hs.running, hs.choosing⟩

/-- Every move is answered as in the telling. -/
theorem Plays.move (hS : A.script.words.size < UInt32.size) (hprompt : h.Prompt)
    (hdir : Directory A r sections story) (hmeets : story.Meets (Expr.Floats Number.Unsigned) (0 < ·))
    (hs : Plays A r sections s t) (m : Move) (memory : σ) :
    Moved A r sections (s.move h memory m) (t.move r story h memory m) := by
  cases m with
  | start name => exact hs.start hdir name memory
  | advance limit => exact hs.advance hS hprompt hdir hmeets limit memory
  | select index => exact hs.select index memory
  | complete result => exact hs.complete result memory

/-- All moves are answered as in the telling. -/
theorem Plays.play (hS : A.script.words.size < UInt32.size) (hprompt : h.Prompt)
    (hdir : Directory A r sections story) (hmeets : story.Meets (Expr.Floats Number.Unsigned) (0 < ·))
    (hs : Plays A r sections s t) (memory : σ) (moves : List Move) :
    (s.play h memory moves).map (List.map fun p => (p.1.placeless, p.2)) =
      t.play r story h memory moves := by
  induction moves generalizing s t memory with
  | nil => rfl
  | cons m ms ih =>
    have hmove := hs.move hS hprompt hdir hmeets m memory
    rw [Session.play, Telling.play]
    generalize s.move h memory m = x at hmove ⊢
    generalize t.move r story h memory m = y at hmove ⊢
    cases hmove with
    | none => rfl
    | @some reply s t memory hplays =>
      show ((s.play h memory ms).bind fun replies => some ((reply, memory) :: replies)).map _ =
        (t.play r story h memory ms).bind fun replies => some ((reply.placeless, memory) :: replies)
      rw [← ih hplays memory]
      cases s.play h memory ms with
      | none => rfl
      | some replies => rfl

end

/-! ## Compiled stories -/

/-- If every section that is named exists and no two share a name, the table of a compiled script leads
to the sections of the story. -/
theorem Compiled.exists_directory {r : Registry} {story : Story} {c : Compilation} {A : Artifact}
    {labels : List Label} (h : Compiled Number.Unsigned r story c A labels)
    (hunique : ∀ name span first, .compile (.duplicateSection name span first) ∉ c.diagnostics)
    (hknown : ∀ name span, .compile (.unknownSection name span) ∉ c.diagnostics) :
    ∃ table, A.script.sectionTable = .ok table ∧ Directory A r table story := by
  obtain ⟨table, htable, hfind⟩ := h.exists_table hunique
  refine ⟨table, htable, ?_, ?_, ?_⟩
  · rintro x n ⟨l, hmention, rfl, _⟩
    have hbound : A.bound l := by
      refine hmention.reported.resolve_right fun herror => ?_
      exact hknown _ _ (h.diagnostics ▸ List.mem_map_of_mem herror)
    obtain ⟨y, hy, hname⟩ := h.declared x l hmention.labels hbound
    exact (hfind _ _).mpr ⟨y, l, hy, rfl, hname⟩
  · intro name x hx
    obtain ⟨l, hl, s, t, rfl, hsection⟩ := h.sections.exists_of_mem_left (List.mem_of_find?_eq_some hx)
    have hname : x.name.name = name := by simpa using List.find?_some hx
    exact ⟨_, t, (hfind _ _).mpr ⟨x, l, hl, rfl, hname⟩, hsection⟩
  · intro name hnone
    rw [Option.eq_none_iff_forall_ne_some]
    intro n hn
    obtain ⟨x, l, hx, _, hname⟩ := (hfind _ _).mp hn
    have hnot := List.find?_eq_none.mp hnone x (List.of_mem_zip hx).1
    simp [hname] at hnot

/-- A session of a compiled story answers all moves as the telling of the story does. -/
theorem exists_session_play {r : Registry} (o : CompileOptions) {story : Story}
    (hr : r.Floats Number.Unsigned) (hmeets : story.Meets (Expr.Floats Number.Unsigned) (0 < ·))
    (haddressable : (compile r o story).script.Addressable)
    (hunique : ∀ name span first,
      .compile (.duplicateSection name span first) ∉ (compile r o story).diagnostics)
    (hknown : ∀ name span, .compile (.unknownSection name span) ∉ (compile r o story).diagnostics) :
    ∃ session, Session.ofScript (compile r o story).script = .ok session ∧
      ∀ {σ : Type} (h : Host σ), h.Prompt → ∀ memory moves,
        (session.play h memory moves).map (List.map fun p => (p.1.placeless, p.2)) =
          Telling.play r story h .idle memory moves := by
  obtain ⟨A, labels, hA⟩ := exists_compiled o hr hmeets haddressable
  obtain ⟨table, htable, hdir⟩ := hA.exists_directory hunique hknown
  rw [← hA.script]
  refine ⟨_, by rw [Session.ofScript, htable], ?_⟩
  intro σ h hprompt memory moves
  refine Plays.play hA.fits.addressable.words hprompt hdir hmeets ?_ memory moves
  exact ⟨⟨rfl, rfl, rfl, by simp, fun _ => rfl, .empty _, .empty _⟩, by simp, by simp⟩

end Colloquy
