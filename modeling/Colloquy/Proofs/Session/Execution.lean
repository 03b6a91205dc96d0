import Colloquy.Proofs.Session.Once

/-!
# Executions of statements

A statement is entered by a jump and left by the next one, by the end, by a fault, or when its choice is
offered.  In between the session may wait and go on any number of times.  `Session.Tracked` says what
the notes of a session have to do with its state; every move keeps it, so the notes of every execution
are orderly (`effects_once`), and the events that a move returns are those of the executions it
completed.
-/

namespace Colloquy

open Code

/-- The notes of a session belong to its state. -/
structure Session.Tracked (S : Script) (s : Session) (c : Chronicle) : Prop where
  script : s.script = S
  eventPool : s.eventPool.Clean
  done : ∀ x ∈ c.done, Orderly S x.notes
  running : s.status = .running → Settled S s.memo c.notes
  waiting : s.status = .awaitingCall →
    ∃ o function, s.pending = some (o, function) ∧ Waits S s.memo o c.notes
  /-- In all other states no statement is under way. -/
  resting : s.status ≠ .running → s.status ≠ .awaitingCall → c.notes = []

namespace Session.Tracked

variable {σ : Type} {h : Host σ} {S : Script} {s s' : Session} {c c' : Chronicle}

/-- The notes of a session are orderly at any time, also in the middle of an execution. -/
theorem orderly (hs : s.Tracked S c) : Orderly S c.notes := by
  by_cases hrunning : s.status = .running
  · exact (hs.running hrunning).orderly
  · by_cases hwaiting : s.status = .awaitingCall
    · obtain ⟨o, function, -, hwaits⟩ := hs.waiting hwaiting
      exact hwaits.orderly
    · rw [hs.resting hrunning hwaiting]
      exact .nil

/-- A statement is left: what comes next starts without results. -/
theorem leave (hs : s.Tracked S c) {notes : List Note} (hnotes : Orderly S notes)
    (hscript : s'.script = s.script) (hpool : s'.eventPool = s.eventPool)
    (hstatus : s'.status ≠ .awaitingCall) (hmemo : s'.status = .running → s'.memo = .empty)
    (events : List Event) : s'.Tracked S (Chronicle.leave { c with notes } events) where
  script := hscript.trans hs.script
  eventPool := hpool ▸ hs.eventPool
  done x hx := by
    rcases List.mem_append.mp hx with hx | hx
    · exact hs.done x hx
    · rw [List.mem_singleton.mp hx]
      exact hnotes
  running hrunning := by
    rw [hmemo hrunning]
    exact .empty
  waiting hwaiting := absurd hwaiting hstatus
  resting _ _ := rfl

/-! ## Statements -/

/-- A statement that comes to something is left with the events of its outcome. -/
theorem take_leave (hs : s.Tracked S c) (hrunning : s.status = .running) {notes : List Note}
    (hnotes : Orderly S notes) {memo : Memo} {outcome : Outcome} {st : Step}
    (htake : { s with memo }.take outcome = (st, s')) :
    s'.status ≠ .awaitingCall ∧ s'.Tracked S (Chronicle.leave { c with notes } st.events) ∧
      ∀ more, st = .on more → s'.status = .running := by
  have hstatus : s.status ≠ .awaitingCall := by simp [hrunning]
  cases outcome with
  | proceed next events =>
    cases htake
    refine ⟨hstatus, ?_, fun _ _ => hrunning⟩
    refine hs.leave hnotes ?_ ?_ ?_ ?_ events
    exacts [rfl, rfl, hstatus, fun _ => rfl]
  | present next ending events =>
    cases htake
    refine ⟨hstatus, ?_, fun _ _ => hrunning⟩
    refine hs.leave hnotes ?_ ?_ ?_ ?_ events
    exacts [rfl, rfl, hstatus, fun _ => rfl]
  | offer next choices =>
    rw [Session.take, Session.offer] at htake
    by_cases hany : choices.any (·.enabled) = true
    · simp only [if_pos hany] at htake
      cases htake
      refine ⟨by simp, ?_, by simp⟩
      refine hs.leave hnotes ?_ ?_ ?_ ?_ _
      exacts [rfl, rfl, by simp, by simp]
    · simp only [if_neg hany] at htake
      cases htake
      refine ⟨hstatus, ?_, fun _ _ => hrunning⟩
      refine hs.leave hnotes ?_ ?_ ?_ ?_ []
      exacts [rfl, rfl, hstatus, fun _ => rfl]
  | finish =>
    cases htake
    refine ⟨by simp, ?_, by simp⟩
    refine hs.leave hnotes ?_ ?_ ?_ ?_ [.ended]
    exacts [rfl, rfl, by simp, by simp]

/-- A statement adds an execution to those that are done if it is left, with the events it delivers, and
otherwise delivers nothing. -/
theorem step (hs : s.Tracked S c) (hrunning : s.status = .running) (memory : σ) {st : Step}
    {memory' : σ} (hstep : s.notedStep h (memory, c) = (st, s', memory', c')) :
    s'.Tracked S c' ∧ (∃ new, c'.done = c.done ++ new ∧ st.events = new.flatMap Execution.events) ∧
      ∀ more, st = .on more → s'.status = .running := by
  have hleft : ∀ (notes : List Note) (events : List Event),
      ∃ new, (Chronicle.leave { c with notes } events).done = c.done ++ new ∧
        events = new.flatMap Execution.events :=
    fun notes events => ⟨[⟨notes, events⟩], rfl, by simp⟩
  rw [notedStep] at hstep
  by_cases hending : s.ending = true
  · rw [if_pos hending] at hstep
    cases hstep
    refine ⟨?_, hleft c.notes _, by simp⟩
    refine hs.leave hs.orderly ?_ ?_ ?_ ?_ [.ended]
    exacts [rfl, rfl, by simp, by simp]
  · rw [if_neg hending] at hstep
    have hends := Keeps.statementAt S h s.sections s.pointer s.memo memory c.notes (hs.running hrunning)
    rw [← hs.script] at hends
    generalize Eval.statementAt s.script (h.noted s.pointer) (Eval.notedExpr s.script h) s.sections
      s.pointer ⟨s.memo, memory, c.notes⟩ = result at hstep hends
    obtain ⟨pool, hbreak, -⟩ := s.exists_breakOff
    cases hends with
    | @ok outcome memo memory₁ more hsettled _ =>
      have horderly : Orderly S (c.notes ++ more) := (hs.script ▸ hsettled).orderly
      cases htake : { s with memo }.take outcome with
      | mk st₁ t =>
        obtain ⟨hstatus, htracked, hon⟩ := hs.take_leave hrunning horderly htake
        simp only [Session.settle, htake, if_neg hstatus] at hstep
        cases hstep
        exact ⟨htracked, hleft _ _, hon⟩
    | @pending o function memo memory₁ notes hwaits =>
      rw [Session.settle, hbreak] at hstep
      cases hstep
      refine ⟨⟨hs.script, hs.eventPool, hs.done, by simp, ?_, by simp⟩, ⟨[], by simp, rfl⟩, by simp⟩
      exact fun _ => ⟨o, function, rfl, hs.script ▸ hwaits⟩
    | @fault e ending memo memory₁ notes horderly =>
      rw [Session.settle, hbreak] at hstep
      cases hstep
      have horderly : Orderly S notes := hs.script ▸ horderly
      refine ⟨?_, hleft notes [], by simp⟩
      refine hs.leave horderly ?_ ?_ ?_ ?_ []
      exacts [rfl, rfl, by simp, by simp]

/-! ## Moves -/

/-- An advance keeps track, and the events it returns are those of the executions that it completes. -/
theorem advanceFrom {limit : Nat} {buffer : Buffer Event} {memory memory' : σ}
    {reply : Except SessionError (Buffer Event)} (hs : s.Tracked S c) (hrunning : s.status = .running)
    (hadvance : Session.advanceFrom (notedStep h) limit buffer s (memory, c) =
      some (reply, s', memory', c')) :
    s'.Tracked S c' ∧ ∃ new, c'.done = c.done ++ new ∧
      ∀ b, reply = .ok b → b.items = buffer.items ++ new.flatMap Execution.events := by
  induction limit generalizing buffer s c memory with
  | zero => cases hadvance
  | succ limit ih =>
    rw [Session.advanceFrom] at hadvance
    cases hx : s.notedStep h (memory, c) with
    | mk st x =>
      obtain ⟨t, memory₁, c₁⟩ := x
      obtain ⟨ht, ⟨new, hdone, hevents⟩, hon⟩ := hs.step hrunning memory hx
      rw [hx] at hadvance
      cases st with
      | on more =>
        obtain ⟨hs', new', hdone', hreply⟩ := ih ht (hon more rfl) hadvance
        refine ⟨hs', new ++ new', by rw [hdone', hdone, List.append_assoc], ?_⟩
        intro b hb
        rw [hreply b hb, Buffer.append, List.append_assoc, List.flatMap_append, ← hevents]
        rfl
      | wait more =>
        cases hadvance
        refine ⟨ht, new, hdone, ?_⟩
        rintro b hb
        cases hb
        rw [← hevents]
        rfl
      | fault e =>
        cases hadvance
        exact ⟨{ ht with eventPool := ht.eventPool.give buffer }, new, hdone, by simp⟩

/-- So does an advance from any state of the session, which is refused unless the session may go on. -/
theorem advance {limit : Nat} {memory memory' : σ} {reply : Except SessionError (Buffer Event)}
    (hs : s.Tracked S c)
    (hadvance : s.advanceWith (notedStep h) limit (memory, c) = some (reply, s', memory', c')) :
    s'.Tracked S c' ∧ ∃ new, c'.done = c.done ++ new ∧
      ∀ b, reply = .ok b → b.items = new.flatMap Execution.events := by
  rw [advanceWith] at hadvance
  by_cases hrunning : s.status = .running
  · rw [if_pos hrunning] at hadvance
    obtain ⟨hitems, hpool⟩ := hs.eventPool.take
    generalize s.eventPool.take = taken at hadvance hitems hpool
    obtain ⟨buffer, pool⟩ := taken
    have hs' : { s with eventPool := pool }.Tracked S c := { hs with eventPool := hpool }
    obtain ⟨ht, new, hdone, hreply⟩ := hs'.advanceFrom hrunning hadvance
    refine ⟨ht, new, hdone, fun b hb => ?_⟩
    rw [hreply b hb, hitems]
    rfl
  · rw [if_neg hrunning] at hadvance
    cases hadvance
    exact ⟨hs, [], by simp, by simp⟩

/-- A start leaves the statement under way. -/
theorem start {name : String} {memory memory' : σ} {reply : Reply} (hs : s.Tracked S c)
    (hmove : s.notedMove h (memory, c) (.start name) = some (reply, s', memory', c')) :
    s'.Tracked S c' ∧ ∃ new, c'.done = c.done ++ new ∧
      ∀ events, reply = .ok events → events = new.flatMap Execution.events := by
  rcases s.start_cases name with ⟨e, hstart⟩ | ⟨hstatus, entry, -, hstart⟩
  · rw [notedMove, hstart] at hmove
    cases hmove
    exact ⟨hs, [], by simp, by simp [quietly, Except.map]⟩
  · rw [notedMove, hstart] at hmove
    cases hmove
    refine ⟨?_, [⟨c.notes, []⟩], rfl, by simp [quietly, Except.map]⟩
    refine hs.leave hs.orderly ?_ ?_ ?_ ?_ []
    exacts [rfl, rfl, by simp, fun _ => rfl]

/-- A selection begins a statement. -/
theorem select {index : Nat} {memory memory' : σ} {reply : Reply} (hs : s.Tracked S c)
    (hmove : s.notedMove h (memory, c) (.select index) = some (reply, s', memory', c')) :
    s'.Tracked S c' ∧ ∃ new, c'.done = c.done ++ new ∧
      ∀ events, reply = .ok events → events = new.flatMap Execution.events := by
  rcases s.select_cases index with ⟨e, hselect⟩ | ⟨hstatus, choice, -, -, hselect⟩
  · rw [notedMove, hselect] at hmove
    cases hmove
    exact ⟨hs, [], by simp, by simp [quietly, Except.map]⟩
  · rw [notedMove, hselect] at hmove
    cases hmove
    have hnotes : c.notes = [] := hs.resting (by simp [hstatus]) (by simp [hstatus])
    refine ⟨⟨hs.script, hs.eventPool, hs.done, ?_, by simp, by simp⟩, [], by simp,
      by simp [quietly, Except.map]⟩
    intro _
    rw [hnotes]
    exact .empty

/-- A result that nobody awaits is not noted. -/
theorem notedDelivery_of_status_ne (hstatus : s.status ≠ .awaitingCall) (c : Chronicle)
    (result : Except HostError Value) : s.notedDelivery c result = c := by
  cases result with
  | ok v =>
    rw [notedDelivery]
    split
    · next hawaiting _ => exact absurd hawaiting hstatus
    · rfl
  | error e => rw [notedDelivery, if_neg hstatus]

/-- The statement under way goes on with a result, and is left if its call failed. -/
theorem complete {result : Except HostError Value} {memory memory' : σ} {reply : Reply}
    (hs : s.Tracked S c)
    (hmove : s.notedMove h (memory, c) (.complete result) = some (reply, s', memory', c')) :
    s'.Tracked S c' ∧ ∃ new, c'.done = c.done ++ new ∧
      ∀ events, reply = .ok events → events = new.flatMap Execution.events := by
  by_cases hstatus : s.status = .awaitingCall
  · obtain ⟨o, function, hpending, hwaits⟩ := hs.waiting hstatus
    cases result with
    | ok v =>
      rw [notedMove, notedDelivery, Session.complete_ok hstatus hpending, hstatus, hpending] at hmove
      cases hmove
      refine ⟨⟨hs.script, hs.eventPool, hs.done, fun _ => hwaits.deliver v, by simp, by simp⟩, [],
        by simp, by simp [quietly, Except.map]⟩
    | error e =>
      rw [notedMove, notedDelivery, Session.complete_error hstatus hpending, if_pos hstatus] at hmove
      cases hmove
      refine ⟨?_, [⟨c.notes, []⟩], rfl, by simp [quietly, Except.map]⟩
      refine hs.leave hs.orderly ?_ ?_ ?_ ?_ []
      exacts [rfl, rfl, by simp, by simp]
  · rw [notedMove, notedDelivery_of_status_ne hstatus, Session.complete_of_status_ne hstatus] at hmove
    cases hmove
    refine ⟨⟨hs.script, hs.eventPool, hs.done, hs.running, ?_, hs.resting⟩, [], by simp,
      by simp [quietly, Except.map]⟩
    exact fun hwaiting => absurd hwaiting hstatus

/-- A move keeps the notes orderly, and returns the events of the executions that it completed. -/
theorem move {m : Move} {memory memory' : σ} {reply : Reply} (hs : s.Tracked S c)
    (hmove : s.notedMove h (memory, c) m = some (reply, s', memory', c')) :
    s'.Tracked S c' ∧ ∃ new, c'.done = c.done ++ new ∧
      ∀ events, reply = .ok events → events = new.flatMap Execution.events := by
  cases m with
  | start name => exact hs.start hmove
  | select index => exact hs.select hmove
  | complete result => exact hs.complete hmove
  | advance limit =>
    rw [notedMove] at hmove
    split at hmove
    · next reply _ _ hadvance =>
      cases hmove
      obtain ⟨ht, new, hdone, hreply⟩ := hs.advance hadvance
      refine ⟨ht, new, hdone, ?_⟩
      cases reply with
      | ok b => simpa [Except.map] using hreply b rfl
      | error e => simp [Except.map]
    · cases hmove

/-- Any moves keep track. -/
theorem run {moves : List Move} {memory memory' : σ} {replies : List Reply} (hs : s.Tracked S c)
    (hrun : s.notedRun h (memory, c) moves = some (replies, s', memory', c')) : s'.Tracked S c' := by
  induction moves generalizing s c memory replies with
  | nil =>
    cases hrun
    exact hs
  | cons m ms ih =>
    rw [notedRun] at hrun
    obtain ⟨⟨reply, t, memory₁, c₁⟩, hmove, hrun⟩ := Option.bind_eq_some_iff.mp hrun
    obtain ⟨⟨rest, u, memory₂, c₂⟩, hrest, hrun⟩ := Option.bind_eq_some_iff.mp hrun
    cases hrun
    exact ih (hs.move hmove).1 hrest

/-- A new session has no notes, and none are due. -/
theorem new (hnew : Session.ofScript S = .ok s) : s.Tracked S .empty := by
  rw [Session.ofScript] at hnew
  split at hnew
  · cases hnew
    exact ⟨rfl, .empty _, by simp [Chronicle.empty], by simp, by simp, fun _ _ => rfl⟩
  · cases hnew

end Session.Tracked

/-- Whatever moves are made and whatever the host answers, the notes of a session are orderly for every
execution of a statement, also for the one under way: each node asks the host at most once, and a result
that is delivered is the value of the call that waited for it and of no other.  A move returns the
events of the executions that it completed, so a statement delivers nothing before it is left.  Keeping
notes changes nothing. -/
theorem effects_once {S : Script} {s : Session} (hnew : Session.ofScript S = .ok s) {σ : Type}
    (h : Host σ) (memory : σ) (moves : List Move) :
    (s.notedRun h (memory, .empty) moves).map Session.erase = s.run h memory moves ∧
    ∀ replies s' memory' c, s.notedRun h (memory, .empty) moves = some (replies, s', memory', c) →
      (∀ x ∈ c.done, Orderly S x.notes) ∧ Orderly S c.notes ∧
      ∀ m reply t memory₁ c₁, s'.notedMove h (memory', c) m = some (reply, t, memory₁, c₁) →
        ∃ new, c₁.done = c.done ++ new ∧
          ∀ events, reply = .ok events → events = new.flatMap Execution.events := by
  refine ⟨Session.notedRun_erase s (memory, .empty) moves, ?_⟩
  intro replies s' memory' c hrun
  have htracked := (Session.Tracked.new hnew).run hrun
  exact ⟨htracked.done, htracked.orderly, fun m reply t memory₁ c₁ hmove => (htracked.move hmove).2⟩

/-- In the treasury the coins are asked for once, delivered once and counted once, although the statement
is evaluated twice. -/
theorem effects_once_in_treasury : ∃ s, Session.ofScript treasuryScript = .ok s ∧
    ∃ replies s' memory c,
      s.notedRun TableHost.host (treasurer, .empty) treasuryMoves = some (replies, s', memory, c) ∧
      (∃ x ∈ c.done, x.notes.length = 4) ∧ ∀ x ∈ c.done, Orderly treasuryScript x.notes := by
  have hrun : ((Session.ofScript treasuryScript).toOption.bind fun s =>
      (s.notedRun TableHost.host (treasurer, .empty) treasuryMoves).map fun r =>
        r.2.2.2.done.any (·.notes.length = 4)) = some true := by decide +kernel
  obtain ⟨s, hnew, hrun⟩ := Option.bind_eq_some_iff.mp hrun
  obtain ⟨⟨replies, s', memory, c⟩, hrun, hany⟩ := Option.map_eq_some_iff.mp hrun
  have hnew := ok_of_toOption hnew
  obtain ⟨-, hall⟩ := effects_once hnew TableHost.host treasurer treasuryMoves
  exact ⟨s, hnew, replies, s', memory, c, hrun, by simpa using hany, (hall _ _ _ _ hrun).1⟩

end Colloquy
