import Colloquy.Compiler.Compile
import Colloquy.Host.Table
import Colloquy.Proofs.Session.Turn

/-!
# Histories of sessions

A session is started, advanced and answered in any order, with operations that fail among the others,
and events are handed back to it at any time.  A history is such a sequence together with the answers;
the host and what it remembers may be others at every operation.

`Session.Coherent` says how the parts of a session belong together.  A turn keeps it, so an advance
does, so every operation does, and hence every session that can be reached is coherent.
-/

namespace Colloquy

/-- What is done with a session: a move and its answer, or events that are handed back. -/
inductive Deed where
  | move (m : Move) (reply : Reply)
  | recycle (events : Buffer Event)

/-- The events that the session returns. -/
def Deed.events : Deed → List Event
  | .move _ (.ok events) => events
  | _ => []

/-- The deed starts the script at a section. -/
def Deed.isStart : Deed → Bool
  | .move (.start _) (.ok _) => true
  | _ => false

/-- The events of some deeds, in order. -/
def delivered (past : List Deed) : List Event := past.flatMap Deed.events

/-- The answer to an operation that returns no events. -/
def quietly (reply : Except SessionError Unit) : Reply := reply.map fun _ => []

@[simp] theorem Deed.events_quietly (m : Move) (reply : Except SessionError Unit) :
    (Deed.move m (quietly reply)).events = [] := by
  cases reply <;> rfl

@[simp] theorem Deed.events_recycle (events : Buffer Event) : (Deed.recycle events).events = [] := rfl

/-- A session does something, against any host, and is another one afterwards. -/
inductive Session.Does (s : Session) : Deed → Session → Prop where
  | start (name : String) : s.Does (.move (.start name) (quietly (s.start name).1)) (s.start name).2
  | advance {σ : Type} (h : Host σ) (limit : Nat) (memory : σ) {memory' : σ}
      {reply : Except SessionError (Buffer Event)} {s' : Session} :
      s.advance h limit memory = some (reply, s', memory') →
      s.Does (.move (.advance limit) (reply.map Buffer.items)) s'
  | select (index : Nat) :
      s.Does (.move (.select index) (quietly (s.select index).1)) (s.select index).2
  | complete (result : Except HostError Value) :
      s.Does (.move (.complete result) (quietly (s.complete result).1)) (s.complete result).2
  | recycle (events : Buffer Event) : s.Does (.recycle events) (s.recycle events)

/-- A move is something that a session does. -/
theorem Session.Does.of_move {σ : Type} {h : Host σ} {s s' : Session} {memory memory' : σ} {m : Move}
    {reply : Reply} (hmove : s.move h memory m = some (reply, s', memory')) :
    s.Does (.move m reply) s' := by
  cases m with
  | start name =>
    cases hmove
    exact .start name
  | advance limit =>
    rw [Session.move] at hmove
    split at hmove
    · next hadvance =>
      cases hmove
      exact .advance h limit memory hadvance
    · cases hmove
  | select index =>
    cases hmove
    exact .select index
  | complete result =>
    cases hmove
    exact .complete result

/-- A new session of a script came to be a session by some deeds, the earliest first. -/
inductive History (S : Script) : List Deed → Session → Prop where
  | new {s : Session} : Session.ofScript S = .ok s → History S [] s
  | snoc {past : List Deed} {s s' : Session} {d : Deed} :
      History S past s → s.Does d s' → History S (past ++ [d]) s'

theorem delivered_concat (past : List Deed) (d : Deed) :
    delivered (past ++ [d]) = delivered past ++ d.events := by
  rw [delivered, List.flatMap_append, List.flatMap_singleton]
  rfl

/-! ## Single operations -/

/-- A start is refused, or the session goes to the section. -/
theorem Session.start_cases (s : Session) (name : String) :
    (∃ e, s.start name = (.error e, s)) ∨
      (s.status ≠ .awaitingCall ∧ ∃ entry, s.sections.find? name = some entry ∧
        s.start name = (.ok (), { s.withdraw.jump entry with ending := false, status := .running })) := by
  rw [Session.start]
  by_cases hstatus : s.status = .awaitingCall
  · rw [if_pos hstatus]
    exact .inl ⟨_, rfl⟩
  · rw [if_neg hstatus]
    cases s.sections.find? name with
    | none => exact .inl ⟨_, rfl⟩
    | some entry => exact .inr ⟨hstatus, entry, rfl, rfl⟩

/-- A session that awaits no call can be started at every section. -/
theorem Session.start_of_section {s : Session} (hstatus : s.status ≠ .awaitingCall) {name : String}
    {entry : Nat} (hentry : s.sections.find? name = some entry) :
    s.start name =
      (.ok (), { s.withdraw.jump entry with ending := false, status := .running }) := by
  rw [Session.start, if_neg hstatus, hentry]

/-- A selection is refused, or the session goes where the option leads. -/
theorem Session.select_cases (s : Session) (index : Nat) :
    (∃ e, s.select index = (.error e, s)) ∨
      (s.status = .awaitingChoice ∧ ∃ choice, s.choices.items[index]? = some choice ∧
        choice.enabled = true ∧
        s.select index = (.ok (), { s.withdraw.jump choice.next with status := .running })) := by
  rw [Session.select]
  by_cases hstatus : s.status = .awaitingChoice
  · rw [if_neg (not_not_intro hstatus)]
    cases s.choices.items[index]? with
    | none => exact .inl ⟨_, rfl⟩
    | some choice =>
      by_cases henabled : choice.enabled = true
      · exact .inr ⟨hstatus, choice, rfl, henabled, if_pos henabled⟩
      · exact .inl ⟨_, if_neg henabled⟩
  · rw [if_pos hstatus]
    exact .inl ⟨_, rfl⟩

/-- The result of the pending call goes to the memo, and the session goes on. -/
theorem Session.complete_ok {s : Session} (hstatus : s.status = .awaitingCall) {offset : Nat}
    {function : String} (hpending : s.pending = some (offset, function)) (v : Value) :
    s.complete (.ok v) =
      (.ok (), { s with status := .running, pending := none, memo := s.memo.insert offset v }) := by
  rw [Session.complete, hstatus, hpending]

/-- A pending call that failed ends the session. -/
theorem Session.complete_error {s : Session} (hstatus : s.status = .awaitingCall) {offset : Nat}
    {function : String} (hpending : s.pending = some (offset, function)) (e : HostError) :
    s.complete (.error e) =
      (.error (.ofHost function e), { s with status := .ended, pending := none, memo := .empty }) := by
  rw [Session.complete, hstatus, hpending]

/-- A result that nobody awaits is refused. -/
theorem Session.complete_of_status_ne {s : Session} (hstatus : s.status ≠ .awaitingCall)
    (result : Except HostError Value) :
    s.complete result = (.error (.invalidState .complete s.status), { s with pending := none }) := by
  rw [Session.complete]
  split
  · next hawaiting _ => exact absurd hawaiting hstatus
  · rfl

/-- From the end, only a start leads on.  Everything else leaves the session at its end and returns no
events. -/
theorem Session.Does.of_ended {s s' : Session} {d : Deed} (hdoes : s.Does d s')
    (hended : s.status = .ended) :
    (s'.status = .ended ∧ d.events = []) ∨ (s'.status = .running ∧ d.isStart = true) := by
  cases hdoes with
  | start name =>
    rcases s.start_cases name with ⟨e, hstart⟩ | ⟨-, entry, -, hstart⟩
    · rw [hstart]
      exact .inl ⟨hended, rfl⟩
    · rw [hstart]
      exact .inr ⟨rfl, rfl⟩
  | advance h limit memory hadvance =>
    rw [Session.advance, Session.advanceWith, if_neg (by simp [hended])] at hadvance
    cases hadvance
    exact .inl ⟨hended, rfl⟩
  | select index =>
    rw [Session.select, if_pos (by simp [hended])]
    exact .inl ⟨hended, rfl⟩
  | complete result =>
    rw [Session.complete_of_status_ne (by simp [hended])]
    exact .inl ⟨hended, rfl⟩
  | recycle events => exact .inl ⟨hended, rfl⟩

/-! ## Moves in a row -/

/-- Make moves one after another.  The answers come with the session at the end and what the host
remembers then. -/
def Session.run {σ : Type} (h : Host σ) : Session → σ → List Move → Option (List Reply × Session × σ)
  | s, memory, [] => some ([], s, memory)
  | s, memory, m :: ms => do
    let (reply, s, memory) ← s.move h memory m
    let (replies, s, memory) ← run h s memory ms
    return (reply :: replies, s, memory)

/-- Moves in a row continue a history with their answers. -/
theorem History.run {σ : Type} {h : Host σ} {S : Script} {past : List Deed} {s s' : Session}
    {memory memory' : σ} {moves : List Move} {replies : List Reply} (hs : History S past s)
    (hrun : s.run h memory moves = some (replies, s', memory')) :
    History S (past ++ List.zipWith Deed.move moves replies) s' := by
  induction moves generalizing past s memory replies with
  | nil =>
    cases hrun
    rwa [List.zipWith_nil_left, List.append_nil]
  | cons m ms ih =>
    rw [Session.run] at hrun
    obtain ⟨⟨reply, t, memory₁⟩, hmove, hrun⟩ := Option.bind_eq_some_iff.mp hrun
    obtain ⟨⟨rest, u, memory₂⟩, hrest, hrun⟩ := Option.bind_eq_some_iff.mp hrun
    cases hrun
    have hall := ih (hs.snoc (.of_move hmove)) hrest
    rwa [List.append_assoc] at hall

/-- What is there as an option is a result. -/
theorem ok_of_toOption {ε α : Type} {x : Except ε α} {a : α} (h : x.toOption = some a) :
    x = .ok a := by
  cases x with
  | ok b => rw [Option.some.inj h]
  | error e => cases h

/-- Moves that a new session of a script can make are a history, with all that can be checked of it. -/
theorem History.exists_of_run {σ : Type} (h : Host σ) {S : Script} (memory : σ) (moves : List Move)
    (p : List Deed → Session → Bool) (hrun : ((Session.ofScript S).toOption.bind fun s =>
      (s.run h memory moves).map fun r => p (List.zipWith Deed.move moves r.1) r.2.1) = some true) :
    ∃ past s, History S past s ∧ p past s = true := by
  obtain ⟨s, hnew, hrun⟩ := Option.bind_eq_some_iff.mp hrun
  obtain ⟨⟨replies, s', memory'⟩, hrun, hp⟩ := Option.map_eq_some_iff.mp hrun
  exact ⟨_, s', (History.new (ok_of_toOption hnew)).run hrun, hp⟩

/-! ## Coherence -/

/-- The parts of a session that delivered some events belong together. -/
structure Session.Coherent (events : List Event) (s : Session) : Prop where
  /-- A call is pending exactly while one is awaited. -/
  pending : s.pending.isSome ↔ s.status = .awaitingCall
  /-- Options are on offer exactly while one has to be selected. -/
  choices : s.choices.items ≠ [] ↔ s.status = .awaitingChoice
  /-- One of the options on offer can be selected, and they are what was returned last. -/
  offer : s.status = .awaitingChoice → (∃ c ∈ s.choices.items, c.enabled = true) ∧
    events.getLast? = some (.choice s.choices.items)
  /-- No results are kept before the start and after the end. -/
  memo : s.status = .idle ∨ s.status = .ended → s.memo = .empty
  /-- A line is set to end the script only while the session runs, or at its end, where a fault may have
  left it so. -/
  ending : s.ending = true → s.status = .running ∨ s.status = .ended
  eventPool : s.eventPool.Clean
  choicePool : s.choicePool.Clean

namespace Session.Coherent

variable {σ : Type} {h : Host σ} {s s' : Session} {events more : List Event}

theorem pending_eq_none (hs : s.Coherent events) (hstatus : s.status ≠ .awaitingCall) :
    s.pending = none := by
  rw [← Option.not_isSome_iff_eq_none, hs.pending]
  exact hstatus

/-- A coherent session has choices only while one is awaited. -/
theorem choices_eq_nil (hs : s.Coherent events) (hstatus : s.status ≠ .awaitingChoice) :
    s.choices.items = [] := by
  cases hitems : s.choices.items with
  | nil => rfl
  | cons c cs => exact absurd (hs.choices.mp (by simp [hitems])) hstatus

/-- The events matter only to a session that offers a choice. -/
theorem of_status_ne (hs : s.Coherent events) (hstatus : s.status ≠ .awaitingChoice)
    (events' : List Event) : s.Coherent events' :=
  { hs with offer := fun hchoosing => absurd hchoosing hstatus }

/-- A session without a pending call and without options goes to a statement. -/
theorem run (hpending : s.pending = none) (hchoices : s.choices.items = [])
    (hrunning : s.status = .running) (hevents : s.eventPool.Clean) (hpool : s.choicePool.Clean) :
    s.Coherent events where
  pending := by rw [hpending, hrunning]; simp
  choices := by rw [hchoices, hrunning]; simp
  offer := by rw [hrunning]; simp
  memo := by rw [hrunning]; simp
  ending _ := .inl hrunning
  eventPool := hevents
  choicePool := hpool

/-- A session without a pending call and without options ends. -/
theorem finish (hpending : s.pending = none) (hchoices : s.choices.items = [])
    (hended : s.status = .ended) (hmemo : s.memo = .empty) (hevents : s.eventPool.Clean)
    (hpool : s.choicePool.Clean) : s.Coherent events where
  pending := by rw [hpending, hended]; simp
  choices := by rw [hchoices, hended]; simp
  offer := by rw [hended]; simp
  memo _ := hmemo
  ending _ := .inr hended
  eventPool := hevents
  choicePool := hpool

/-! ### Advances -/

/-- A turn that leads on leaves the session running. -/
theorem turn_on (hs : s.Coherent events) (hrunning : s.status = .running)
    (hturn : Session.Turn h s (.on more) s') : s'.status = .running ∧ s'.Coherent events := by
  have hpending := hs.pending_eq_none (by simp [hrunning])
  have hchoices := hs.choices_eq_nil (by simp [hrunning])
  cases hturn with
  | moved _ _ => exact ⟨hrunning, run hpending hchoices hrunning hs.eventPool hs.choicePool⟩
  | skipped _ hclean => exact ⟨hrunning, run hpending hchoices hrunning hs.eventPool hclean⟩

/-- A turn that waits keeps a session coherent, with its events behind those that were delivered. -/
theorem turn_wait (hs : s.Coherent events) (hrunning : s.status = .running)
    (hturn : Session.Turn h s (.wait more) s') : s'.Coherent (events ++ more) := by
  have hpending := hs.pending_eq_none (by simp [hrunning])
  have hchoices := hs.choices_eq_nil (by simp [hrunning])
  cases hturn with
  | closed _ => exact finish hpending hchoices rfl rfl hs.eventPool hs.choicePool
  | shown _ _ _ => exact run hpending hchoices hrunning hs.eventPool hs.choicePool
  | @offered choices memo pool hending henabled hclean =>
    have hfound : ∃ c ∈ choices, c.enabled = true := List.any_eq_true.mp henabled
    have hne : choices ≠ [] := by
      obtain ⟨c, hc, _⟩ := hfound
      exact List.ne_nil_of_mem hc
    exact {
      pending := by simp [hpending]
      choices := by simp [hne]
      offer := fun _ => ⟨hfound, by simp⟩
      memo := by simp
      ending := by simp [hending]
      eventPool := hs.eventPool
      choicePool := hclean }
  | finished _ => exact finish hpending hchoices rfl rfl hs.eventPool hs.choicePool
  | suspended hending hclean =>
    exact {
      pending := by simp
      choices := by simp [hchoices]
      offer := by simp
      memo := by simp
      ending := by simp [hending]
      eventPool := hs.eventPool
      choicePool := hclean }

/-- A turn that faults ends a session, and keeps it coherent. -/
theorem turn_fault {e : SessionError} (hs : s.Coherent events) (hrunning : s.status = .running)
    (hturn : Session.Turn h s (.fault e) s') : s'.status = .ended ∧ s'.Coherent events := by
  have hchoices := hs.choices_eq_nil (by simp [hrunning])
  cases hturn with
  | failed _ hclean => exact ⟨rfl, finish rfl hchoices rfl rfl hs.eventPool hclean⟩

/-- Turns that go on keep a session running and coherent. -/
theorem turns (hs : s.Coherent events) (hrunning : s.status = .running)
    (hturns : Turns h s more s') : s'.status = .running ∧ s'.Coherent events := by
  induction hturns with
  | refl s => exact ⟨hrunning, hs⟩
  | step hturn _ ih =>
    obtain ⟨hrunning, hs⟩ := hs.turn_on hrunning hturn
    exact ih hs hrunning

/-- An advance keeps a session coherent, and a fault on the way ends it. -/
theorem advances {reply : Reply} (hs : s.Coherent events) (hrunning : s.status = .running)
    (hadvances : Advances h s reply s') (limit : Nat) :
    s'.Coherent (events ++ (Deed.move (.advance limit) reply).events) ∧
      ∀ e, reply = .error e → s'.status = .ended := by
  cases hadvances with
  | @ok t _ first last hturns hwait =>
    obtain ⟨hrunning, ht⟩ := hs.turns hrunning hturns
    have ht := ht.of_status_ne (by simp [hrunning]) (events ++ first)
    have hend := ht.turn_wait hrunning hwait
    rw [List.append_assoc] at hend
    exact ⟨hend, by simp⟩
  | @error t u _ e pool hturns hfault hclean =>
    obtain ⟨hrunning, hs⟩ := hs.turns hrunning hturns
    obtain ⟨hended, hend⟩ := hs.turn_fault hrunning hfault
    refine ⟨?_, fun _ _ => hended⟩
    have hlast : { u with eventPool := pool }.Coherent events :=
      { hend with eventPool := hclean hend.eventPool }
    exact hlast.of_status_ne (by simp [hended]) _

/-- An advance keeps a session coherent, and one that faults ends it. -/
theorem advance {limit : Nat} {reply : Except SessionError (Buffer Event)} {memory memory' : σ}
    (hs : s.Coherent events) (hadvance : s.advance h limit memory = some (reply, s', memory')) :
    s'.Coherent (events ++ (Deed.move (.advance limit) (reply.map Buffer.items)).events) ∧
      ∀ e, reply = .error e → s'.status = .ended ∨
        (s.status ≠ .running ∧ e = .invalidState .advance s.status ∧ s' = s) := by
  by_cases hrunning : s.status = .running
  · obtain ⟨pool, hpool, hadvances⟩ :=
      Session.advance_advances hs.eventPool hs.choicePool hrunning hadvance
    have hs : { s with eventPool := pool }.Coherent events := { hs with eventPool := hpool }
    obtain ⟨hend, hfault⟩ := hs.advances hrunning hadvances limit
    refine ⟨hend, ?_⟩
    rintro e rfl
    exact .inl (hfault e rfl)
  · rw [Session.advance, Session.advanceWith, if_neg hrunning] at hadvance
    cases hadvance
    refine ⟨by simpa [Deed.events, Except.map] using hs, ?_⟩
    rintro e he
    cases he
    exact .inr ⟨hrunning, rfl, rfl⟩

/-! ### The other operations -/

/-- A start keeps a session coherent, whether there is such a section or not. -/
theorem start (hs : s.Coherent events) (name : String) : (s.start name).2.Coherent events := by
  rcases s.start_cases name with ⟨e, hstart⟩ | ⟨hstatus, entry, -, hstart⟩
  · rw [hstart]
    exact hs
  · rw [hstart]
    exact run (hs.pending_eq_none hstatus) rfl rfl hs.eventPool (hs.choicePool.give _)

/-- So does a selection, whether there is such an option or not. -/
theorem select (hs : s.Coherent events) (index : Nat) : (s.select index).2.Coherent events := by
  rcases s.select_cases index with ⟨e, hselect⟩ | ⟨hstatus, choice, -, -, hselect⟩
  · rw [hselect]
    exact hs
  · rw [hselect]
    have hpending := hs.pending_eq_none (by simp [hstatus])
    exact run hpending rfl rfl hs.eventPool (hs.choicePool.give _)

/-- The result of a call is taken in.  A call that failed ends the session; without a call nothing
changes, although the session forgets a pending call before it looks. -/
theorem complete {result : Except HostError Value} {reply : Except SessionError Unit}
    (hs : s.Coherent events) (hcomplete : s.complete result = (reply, s')) :
    s'.Coherent events ∧ ∀ e, reply = .error e → s'.status = .ended ∨
      (s.status ≠ .awaitingCall ∧ e = .invalidState .complete s.status ∧ s' = s) := by
  by_cases hstatus : s.status = .awaitingCall
  · obtain ⟨⟨offset, function⟩, hpending⟩ := Option.isSome_iff_exists.mp (hs.pending.mpr hstatus)
    have hchoices := hs.choices_eq_nil (by simp [hstatus])
    cases result with
    | ok value =>
      rw [Session.complete_ok hstatus hpending] at hcomplete
      cases hcomplete
      exact ⟨run rfl hchoices rfl hs.eventPool hs.choicePool, by simp⟩
    | error e =>
      rw [Session.complete_error hstatus hpending] at hcomplete
      cases hcomplete
      exact ⟨finish rfl hchoices rfl rfl hs.eventPool hs.choicePool, fun _ _ => .inl rfl⟩
  · have hpending := hs.pending_eq_none hstatus
    have hsame : { s with pending := none } = s := by rw [← hpending]
    rw [Session.complete_of_status_ne hstatus, hsame] at hcomplete
    cases hcomplete
    refine ⟨hs, ?_⟩
    rintro e he
    cases he
    exact .inr ⟨hstatus, rfl, rfl⟩

/-- The buffers that are reclaimed from events are clean. -/
theorem reclaim_clean (events : List Event) {pool : Pool Choice} (hpool : pool.Clean) :
    (events.foldl Session.reclaim pool).Clean := by
  induction events generalizing pool with
  | nil => exact hpool
  | cons e events ih =>
    apply ih
    cases e with
    | choice choices => exact hpool.give _
    | _ => exact hpool

/-- Events may be handed back to a coherent session. -/
theorem recycle (hs : s.Coherent events) (used : Buffer Event) :
    (s.recycle used).Coherent events :=
  { hs with
    eventPool := hs.eventPool.give _
    choicePool := reclaim_clean used.items hs.choicePool }

/-- Whatever a coherent session does, it stays coherent. -/
theorem does {d : Deed} (hs : s.Coherent events) (hdoes : s.Does d s') :
    s'.Coherent (events ++ d.events) := by
  cases hdoes with
  | start name =>
    rw [Deed.events_quietly, List.append_nil]
    exact hs.start name
  | advance h limit memory hadvance => exact (hs.advance hadvance).1
  | select index =>
    rw [Deed.events_quietly, List.append_nil]
    exact hs.select index
  | complete result =>
    rw [Deed.events_quietly, List.append_nil]
    exact (hs.complete rfl).1
  | recycle used =>
    rw [Deed.events_recycle, List.append_nil]
    exact hs.recycle used

end Session.Coherent

/-- Every session that can be reached is coherent. -/
theorem History.coherent {S : Script} {past : List Deed} {s : Session} (h : History S past s) :
    s.Coherent (delivered past) := by
  induction h with
  | @new s hnew =>
    rw [Session.ofScript] at hnew
    split at hnew
    · cases hnew
      exact {
        pending := by simp
        choices := by simp [Buffer.empty]
        offer := by simp
        memo := by simp
        ending := by simp
        eventPool := .empty _
        choicePool := .empty _ }
    · cases hnew
  | snoc _ hdoes ih =>
    rw [delivered_concat]
    exact ih.does hdoes

/-- A session that can be reached by operations of any kind is coherent with the events it returned.  An
advance or a delivery that fails leaves it at its end, unless it is refused in a state where it makes no
sense.  From the end only a start leads on. -/
theorem history_coherent {S : Script} {past : List Deed} {s : Session} (hpast : History S past s) :
    s.Coherent (delivered past) ∧
    (∀ {σ : Type} (h : Host σ) limit memory e s' memory',
      s.advance h limit memory = some (.error e, s', memory') → s'.status = .ended ∨
        (s.status ≠ .running ∧ e = .invalidState .advance s.status ∧ s' = s)) ∧
    (∀ result e s', s.complete result = (.error e, s') → s'.status = .ended ∨
        (s.status ≠ .awaitingCall ∧ e = .invalidState .complete s.status ∧ s' = s)) ∧
    (s.status = .ended → ∀ d s', s.Does d s' →
      s'.status = .ended ∨ (s'.status = .running ∧ d.isStart = true)) := by
  have hs := hpast.coherent
  refine ⟨hs, ?_, ?_, ?_⟩
  · intro σ h limit memory e s' memory' hadvance
    exact (hs.advance hadvance).2 e rfl
  · intro result e s' hcomplete
    exact (hs.complete hcomplete).2 e rfl
  · intro hended d s' hdoes
    rcases hdoes.of_ended hended with ⟨hstays, -⟩ | hstarts
    · exact .inl hstays
    · exact .inr hstarts

/-- Gold is fetched, counted and shown, and then there is a choice. -/
def treasury : String :=
  "=== main\n~ gold = await fetch(\"coins\") + 1\nAnn: I have \x7bgold\x7d.\nchoice \x7b\n* Take it\n* [gold > 99] Buy\n\x7d\n"

/-- A host whose coins take their time. -/
def treasurer : TableHost :=
  (TableHost.empty.withVariable "gold" (.float 0)).withAwaitable
    ⟨"fetch", .float, [⟨.string, none⟩], true⟩ fun _ _ => .ok .pending

/-- The script of the treasury. -/
def treasuryScript : Script := (compileText treasurer.registry {} none treasury).script

/-- A refused selection, a call that is awaited and delivered, a line, and a choice. -/
def treasuryMoves : List Move :=
  [.start "main", .select 3, .advance 9, .complete (.ok (.float 41)), .advance 9, .advance 9]

/-- Up to the choice in the treasury. -/
theorem coherent_at_choice : ∃ past s, History treasuryScript past s ∧ s.status = .awaitingChoice ∧
    s.Coherent (delivered past) := by
  obtain ⟨past, s, hpast, hstatus⟩ := History.exists_of_run TableHost.host treasurer treasuryMoves
    (fun _ s => s.status = .awaitingChoice) (S := treasuryScript) (by decide +kernel)
  exact ⟨past, s, hpast, of_decide_eq_true hstatus, (history_coherent hpast).1⟩

/-- A host in whose stories nobody knows where to go. -/
def wanderer : TableHost := TableHost.empty.withVariable "way" (.string "[goto=nowhere]")

/-- A fault behind an `[end]` does not take it back: the session is at its end, and still set to end. -/
example : ∃ past s,
    History (compileText wanderer.registry {} none "=== main\nAnn: Bye[end]\x7bway\x7d\n").script past s ∧
      (s.status == .ended && s.ending) = true :=
  History.exists_of_run TableHost.host wanderer [.start "main", .advance 9]
    (fun _ s => s.status == .ended && s.ending) (by decide +kernel)

end Colloquy
