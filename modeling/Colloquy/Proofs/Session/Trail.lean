import Colloquy.Proofs.Session.Grammar

/-!
# Trails of sessions

A history tells what is done with a session from outside, where an advance is one thing.  A trail looks
closer: statements are performed one at a time, and the offsets that control goes to are kept.  So the
sessions along a trail are those between the operations and those in the middle of an advance.
-/

namespace Colloquy

/-- One thing happens to a session, against any host: control goes to the offset in the list, or stays
where it is. -/
inductive Session.Tick (s : Session) : List Nat → Session → Prop where
  /-- The session starts at a section. -/
  | start {name : String} {s' : Session} : s.start name = (.ok (), s') → s.Tick [s'.pointer] s'
  /-- An option is selected. -/
  | select {index : Nat} {s' : Session} : s.select index = (.ok (), s') → s.Tick [s'.pointer] s'
  /-- A statement is performed and leads on. -/
  | goes {σ : Type} {h : Host σ} {memory memory' : σ} {step : Step} {s' : Session} :
      s.status = .running → s.step h memory = (step, s', memory') → s'.status = .running →
      s.Tick [s'.pointer] s'
  /-- A statement offers options, awaits a call, ends the script or is at fault. -/
  | halts {σ : Type} {h : Host σ} {memory memory' : σ} {step : Step} {s' : Session} :
      s.status = .running → s.step h memory = (step, s', memory') → s'.status ≠ .running →
      s.Tick [] s'
  /-- The result of a call is delivered. -/
  | complete (result : Except HostError Value) : s.Tick [] (s.complete result).2
  /-- Events are handed back. -/
  | recycle (events : Buffer Event) : s.Tick [] (s.recycle events)
  /-- Buffers for events are taken or given back. -/
  | buffers (pool : Pool Event) : s.Tick [] { s with eventPool := pool }

/-- The offsets that control went to since a session of a script was new, the earliest first. -/
inductive Trail (S : Script) : List Nat → Session → Prop where
  | new {s : Session} : Session.ofScript S = .ok s → Trail S [] s
  | snoc {trail more : List Nat} {s s' : Session} :
      Trail S trail s → s.Tick more s' → Trail S (trail ++ more) s'

/-- A start that succeeds goes to a section. -/
theorem Session.start_eq_ok {s s' : Session} {name : String} (h : s.start name = (.ok (), s')) :
    ∃ entry, s.sections.find? name = some entry ∧
      s' = { s.withdraw.jump entry with ending := false, status := .running } := by
  rcases s.start_cases name with ⟨e, hstart⟩ | ⟨-, entry, hentry, hstart⟩
  · rw [hstart] at h
    cases h
  · rw [hstart] at h
    cases h
    exact ⟨entry, hentry, rfl⟩

/-- A selection that succeeds goes where an option on offer leads. -/
theorem Session.select_eq_ok {s s' : Session} {index : Nat} (h : s.select index = (.ok (), s')) :
    s.status = .awaitingChoice ∧ ∃ choice ∈ s.choices.items,
      s' = { s.withdraw.jump choice.next with status := .running } := by
  rcases s.select_cases index with ⟨e, hselect⟩ | ⟨hstatus, choice, hchoice, -, hselect⟩
  · rw [hselect] at h
    cases h
  · rw [hselect] at h
    cases h
    exact ⟨hstatus, choice, List.mem_of_getElem? hchoice, rfl⟩

namespace Session.Tick

variable {s s' : Session} {more : List Nat}

/-- A session plays one script, with the same sections all the time. -/
theorem script (h : s.Tick more s') (hpool : s.choicePool.Clean) :
    s'.script = s.script ∧ s'.sections = s.sections := by
  cases h with
  | start hstart =>
    obtain ⟨entry, -, rfl⟩ := Session.start_eq_ok hstart
    exact ⟨rfl, rfl⟩
  | select hselect =>
    obtain ⟨-, choice, -, rfl⟩ := Session.select_eq_ok hselect
    exact ⟨rfl, rfl⟩
  | @goes _ h memory _ _ _ _ hstep _ | @halts _ h memory _ _ _ _ hstep _ =>
    have hturn := Session.step_turn (h := h) hpool memory
    rw [hstep] at hturn
    exact hturn.script
  | complete result =>
    rw [Session.complete]
    split
    · cases result <;> exact ⟨rfl, rfl⟩
    · exact ⟨rfl, rfl⟩
  | recycle events => exact ⟨rfl, rfl⟩
  | buffers pool => exact ⟨rfl, rfl⟩

/-- A tick leaves the pool of choices with empty buffers only. -/
theorem choicePool (h : s.Tick more s') (hpool : s.choicePool.Clean) : s'.choicePool.Clean := by
  cases h with
  | start hstart =>
    obtain ⟨entry, -, rfl⟩ := Session.start_eq_ok hstart
    exact hpool.give _
  | select hselect =>
    obtain ⟨-, choice, -, rfl⟩ := Session.select_eq_ok hselect
    exact hpool.give _
  | @goes _ h memory _ _ _ _ hstep _ | @halts _ h memory _ _ _ _ hstep _ =>
    have hturn := Session.step_turn (h := h) hpool memory
    rw [hstep] at hturn
    exact hturn.clean hpool
  | complete result =>
    rw [Session.complete]
    split
    · cases result <;> exact hpool
    · exact hpool
  | recycle events => exact Session.Coherent.reclaim_clean events.items hpool
  | buffers pool => exact hpool

end Session.Tick

namespace Trail

variable {S : Script} {trail : List Nat} {s s' : Session}

/-- Along a trail a session has its script, the sections of the script, and empty buffers. -/
theorem script (h : Trail S trail s) :
    s.script = S ∧ S.sectionTable = .ok s.sections ∧ s.choicePool.Clean := by
  induction h with
  | new hnew =>
    rw [Session.ofScript] at hnew
    split at hnew
    · next htable =>
      cases hnew
      exact ⟨rfl, htable, .empty _⟩
    · cases hnew
  | snoc _ htick ih =>
    obtain ⟨hscript, htable, hpool⟩ := ih
    obtain ⟨hscript', hsections⟩ := htick.script hpool
    exact ⟨hscript'.trans hscript, hsections ▸ htable, htick.choicePool hpool⟩

/-- What does not move control leaves the trail as it is. -/
theorem stays (h : Trail S trail s) (htick : s.Tick [] s') : Trail S trail s' := by
  have hsnoc := h.snoc htick
  rwa [List.append_nil] at hsnoc

/-- A statement that is performed continues a trail. -/
theorem step {σ : Type} {host : Host σ} {memory memory' : σ} {step : Step} (h : Trail S trail s)
    (hrunning : s.status = .running) (hstep : s.step host memory = (step, s', memory')) :
    ∃ more, Trail S (trail ++ more) s' := by
  by_cases hstatus : s'.status = .running
  · exact ⟨_, h.snoc (.goes hrunning hstep hstatus)⟩
  · exact ⟨_, h.snoc (.halts hrunning hstep hstatus)⟩

/-- An advance is a trail of the statements it performs. -/
theorem advanceFrom {σ : Type} {host : Host σ} {memory memory' : σ} {limit : Nat}
    {buffer : Buffer Event} {reply : Except SessionError (Buffer Event)} (h : Trail S trail s)
    (hrunning : s.status = .running)
    (hadvance : Session.advanceFrom (Session.step host) limit buffer s memory =
      some (reply, s', memory')) : ∃ more, Trail S (trail ++ more) s' := by
  induction limit generalizing buffer trail s memory with
  | zero => cases hadvance
  | succ limit ih =>
    have hturn := Session.step_turn (h := host) h.script.2.2 memory
    rw [Session.advanceFrom] at hadvance
    generalize hstep : s.step host memory = x at hturn hadvance
    obtain ⟨step, t, memory₁⟩ := x
    obtain ⟨more, ht⟩ := h.step hrunning hstep
    cases step with
    | on events =>
      obtain ⟨rest, hrest⟩ := ih ht (hturn.isHash.2.trans hrunning) hadvance
      rw [List.append_assoc] at hrest
      exact ⟨_, hrest⟩
    | wait events =>
      cases hadvance
      exact ⟨more, ht⟩
    | fault e =>
      cases hadvance
      exact ⟨more, ht.stays (.buffers _)⟩

/-- An advance continues a trail. -/
theorem advance {σ : Type} {host : Host σ} {memory memory' : σ} {limit : Nat}
    {reply : Except SessionError (Buffer Event)} (h : Trail S trail s)
    (hadvance : s.advance host limit memory = some (reply, s', memory')) :
    ∃ more, Trail S (trail ++ more) s' := by
  rw [Session.advance, Session.advanceWith] at hadvance
  by_cases hrunning : s.status = .running
  · rw [if_pos hrunning] at hadvance
    exact (h.stays (.buffers s.eventPool.take.2)).advanceFrom hrunning hadvance
  · rw [if_neg hrunning] at hadvance
    cases hadvance
    exact ⟨[], by rwa [List.append_nil]⟩

/-- Whatever a session does continues its trail. -/
theorem does {d : Deed} (h : Trail S trail s) (hdoes : s.Does d s') :
    ∃ more, Trail S (trail ++ more) s' := by
  cases hdoes with
  | start name =>
    rcases s.start_cases name with ⟨e, hstart⟩ | ⟨-, entry, -, hstart⟩ <;> rw [hstart]
    · exact ⟨[], by rwa [List.append_nil]⟩
    · exact ⟨_, h.snoc (.start hstart)⟩
  | advance host limit memory hadvance => exact h.advance hadvance
  | select index =>
    rcases s.select_cases index with ⟨e, hselect⟩ | ⟨-, choice, -, -, hselect⟩ <;> rw [hselect]
    · exact ⟨[], by rwa [List.append_nil]⟩
    · exact ⟨_, h.snoc (.select hselect)⟩
  | complete result => exact ⟨[], h.snoc (.complete result)⟩
  | recycle events => exact ⟨[], h.snoc (.recycle events)⟩

end Trail

/-- Every session that can be reached has a trail. -/
theorem History.exists_trail {S : Script} {past : List Deed} {s : Session} (h : History S past s) :
    ∃ trail, Trail S trail s := by
  induction h with
  | new hnew => exact ⟨[], .new hnew⟩
  | snoc _ hdoes ih =>
    obtain ⟨trail, htrail⟩ := ih
    obtain ⟨more, hmore⟩ := htrail.does hdoes
    exact ⟨_, hmore⟩

end Colloquy
