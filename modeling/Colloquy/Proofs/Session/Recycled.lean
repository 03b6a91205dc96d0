import Colloquy.Proofs.Session.Restart

/-!
# Recycling does not show

Events that are handed back make room in the pools of a session and nothing else.  A session whose pools
are clean is a twin of itself after it was handed anything, so a run with recycling in it answers like
the run without, act by act.  The pools of a session are used in the two ways a pool has, so they never
run over either.
-/

namespace Colloquy

variable {σ : Type}

/-- Whether events are handed back. -/
def Act.isRecycle : Act σ → Bool
  | .recycle _ => true
  | _ => false

/-- What belongs to the acts other than recycling, of what belongs to each act. -/
def Act.besidesRecycling {ρ : Type} (acts : List (Act σ)) (rows : List ρ) : List ρ :=
  ((acts.zip rows).filter (!·.1.isRecycle)).map Prod.snd

theorem Act.besidesRecycling_recycle {ρ : Type} (events : Buffer Event) (acts : List (Act σ)) (row : ρ)
    (rows : List ρ) : besidesRecycling (.recycle events :: acts) (row :: rows) =
      besidesRecycling acts rows := rfl

theorem Act.besidesRecycling_other {ρ : Type} {a : Act σ} (ha : a.isRecycle = false)
    (acts : List (Act σ)) (row : ρ) (rows : List ρ) :
    besidesRecycling (a :: acts) (row :: rows) = row :: besidesRecycling acts rows := by
  simp [besidesRecycling, ha]

namespace Session

/-! ## Answers -/

/-- Twins cannot be told from each other if events are handed back to one of them in between. -/
theorem Twins.observe_recycling {s t : Session} (hst : s.Twins t) (memory : σ) (acts : List (Act σ)) :
    (s.observe memory acts).map (Act.besidesRecycling acts) =
      t.observe memory (acts.filter (!·.isRecycle)) := by
  induction acts generalizing s t memory with
  | nil => rfl
  | cons a acts ih =>
    cases hrecycle : a.isRecycle with
    | true =>
      cases a with
      | recycle events =>
        -- the left one is handed something, and nothing happens to the right one
        have hrecycled : (s.recycle events).Twins t :=
          ⟨hst.bare, (hst.recycle events).left, hst.right⟩
        rw [List.filter_cons_of_neg (by simp [Act.isRecycle]), ← ih hrecycled memory]
        show ((Session.observe (s.recycle events) memory acts).bind _).map _ = _
        cases Session.observe (s.recycle events) memory acts with
        | none => rfl
        | some rows => exact congrArg some (Act.besidesRecycling_recycle events acts _ rows)
      | move | alter => cases hrecycle
    | false =>
      rw [List.filter_cons_of_pos (by simp [hrecycle]), Session.observe, Session.observe]
      rcases hst.act_cases memory a with ⟨hs, ht⟩ | ⟨reply, s', t', memory', hs, ht, htwins⟩
      · rw [hs, ht]
        rfl
      · rw [hs, ht]
        show ((Session.observe s' memory' acts).bind _).map _ =
          (Session.observe t' memory' (acts.filter _)).bind _
        rw [← ih htwins memory', htwins.bare]
        cases Session.observe s' memory' acts with
        | none => rfl
        | some rows => exact congrArg some (Act.besidesRecycling_other hrecycle acts _ rows)

/-! ## Pools -/

/-- The pools of the session were used as pools are, within the limit of a session. -/
structure Pooled (s : Session) : Prop where
  events : s.eventPool.Used poolLimit
  choices : s.choicePool.Used poolLimit

namespace Pooled

variable {h : Host σ} {s : Session}

/-- An offer uses the pool of choices as pools are used. -/
theorem offer (hs : s.Pooled) (next : Nat) (choices : List Choice) :
    (s.offer next choices).2.Pooled := by
  by_cases hany : choices.any (·.enabled) = true
  · simp only [Session.offer, if_pos hany]
    exact ⟨hs.events, hs.choices.take.take.give _⟩
  · simp only [Session.offer, if_neg hany]
    exact ⟨hs.events, hs.choices.take.give _⟩

theorem take (hs : s.Pooled) (outcome : Outcome) : (s.take outcome).2.Pooled := by
  cases outcome with
  | offer next choices => exact hs.offer next choices
  | _ => exact ⟨hs.events, hs.choices⟩

/-- So does one that is broken off. -/
theorem breakOff (hs : s.Pooled) : s.breakOff.Pooled := by
  rw [Session.breakOff]
  split
  · exact ⟨hs.events, hs.choices.take⟩
  · exact hs

/-- So does settling the result of an evaluation. -/
theorem settle (hs : s.Pooled) (result : EStateM.Result Interrupt (Stage σ) Outcome) :
    (s.settle result).2.1.Pooled := by
  match result with
  | .ok outcome stage =>
    have hmemo : { s with memo := stage.memo }.Pooled := ⟨hs.events, hs.choices⟩
    exact hmemo.take outcome
  | .error (.pending _ _) _ | .error (.fault _ _) _ => exact ⟨hs.breakOff.events, hs.breakOff.choices⟩

/-- So does a statement. -/
theorem step (hs : s.Pooled) (memory : σ) : (s.step h memory).2.1.Pooled := by
  rw [Session.step]
  split
  · exact ⟨hs.events, hs.choices⟩
  · exact hs.settle _

/-- So does an advance, statement after statement. -/
theorem advanceFrom (hs : s.Pooled) {limit : Nat} {buffer : Buffer Event} {memory memory' : σ}
    {result : Except SessionError (Buffer Event)} {s' : Session}
    (hadvance : Session.advanceFrom (Session.step h) limit buffer s memory = some (result, s', memory')) :
    s'.Pooled := by
  induction limit generalizing buffer s memory with
  | zero => cases hadvance
  | succ limit ih =>
    have hstep := hs.step memory (h := h)
    rw [Session.advanceFrom] at hadvance
    generalize s.step h memory = x at hadvance hstep
    obtain ⟨step, s₁, memory₁⟩ := x
    cases step with
    | on more => exact ih hstep hadvance
    | wait more =>
      cases hadvance
      exact hstep
    | fault e =>
      cases hadvance
      exact ⟨hstep.events.give _, hstep.choices⟩

/-- An advance uses the pool of events as pools are used. -/
theorem advance (hs : s.Pooled) {limit : Nat} {memory memory' : σ}
    {result : Except SessionError (Buffer Event)} {s' : Session}
    (hadvance : Session.advance h limit s memory = some (result, s', memory')) : s'.Pooled := by
  rw [Session.advance, Session.advanceWith] at hadvance
  split at hadvance
  · have htaken : { s with eventPool := s.eventPool.take.2 }.Pooled := ⟨hs.events.take, hs.choices⟩
    exact htaken.advanceFrom hadvance
  · cases hadvance
    exact hs

/-- So does a start. -/
theorem start (hs : s.Pooled) (name : String) : (s.start name).2.Pooled := by
  rw [Session.start]
  split
  · exact hs
  · split
    · exact hs
    · exact ⟨hs.events, hs.choices.give _⟩

/-- So does a selection. -/
theorem select (hs : s.Pooled) (index : Nat) : (s.select index).2.Pooled := by
  rw [Session.select]
  split
  · exact hs
  · split
    · exact hs
    · split
      · exact ⟨hs.events, hs.choices.give _⟩
      · exact hs

/-- So does a result that is delivered. -/
theorem complete (hs : s.Pooled) (result : Except HostError Value) : (s.complete result).2.Pooled := by
  rw [Session.complete]
  split
  · cases result <;> exact ⟨hs.events, hs.choices⟩
  · exact ⟨hs.events, hs.choices⟩

/-- Buffers that are reclaimed from events are given to a pool. -/
theorem reclaim {pool : Pool Choice} (hpool : pool.Used poolLimit) (events : List Event) :
    (events.foldl Session.reclaim pool).Used poolLimit := by
  induction events generalizing pool with
  | nil => exact hpool
  | cons event events ih =>
    cases event with
    | choice choices => exact ih (hpool.give _)
    | _ => exact ih hpool

theorem recycle (hs : s.Pooled) (events : Buffer Event) : (s.recycle events).Pooled :=
  ⟨hs.events.give _, reclaim hs.choices events.items⟩

/-- Whatever a session does, it uses its pools as pools are used. -/
theorem does (hs : s.Pooled) {d : Deed} {s' : Session} (hdoes : s.Does d s') : s'.Pooled := by
  cases hdoes with
  | start name => exact hs.start name
  | advance h limit memory hadvance => exact hs.advance hadvance
  | select index => exact hs.select index
  | complete result => exact hs.complete result
  | recycle events => exact hs.recycle events

end Pooled

/-- A new session has pools that were not used yet. -/
theorem pooled_of_new {S : Script} {s : Session} (hnew : Session.ofScript S = .ok s) : s.Pooled := by
  rw [Session.ofScript] at hnew
  split at hnew
  · cases hnew
    exact ⟨.empty, .empty⟩
  · cases hnew

end Session

/-- The pools of every session that can be reached were used as pools are used. -/
theorem History.pooled {S : Script} {past : List Deed} {s : Session} (hpast : History S past s) :
    s.Pooled := by
  induction hpast with
  | new hnew => exact Session.pooled_of_new hnew
  | snoc _ hdoes ih => exact ih.does hdoes

/-! ## Recycling -/

/-- Recycling does not show.  When any events are handed back to a new session at any points of a run,
the other acts are answered, and leave the session and the host, as they do without; the pools of a
session that can be reached came of taking buffers and handing some back, within their limit; and such a
pool hands out an empty buffer and holds no more buffers than its limit. -/
theorem recycling_is_invisible {S : Script} {fresh : Session} (hnew : Session.ofScript S = .ok fresh) :
    (∀ {σ : Type} (memory : σ) (acts : List (Act σ)),
      (fresh.observe memory acts).map (Act.besidesRecycling acts) =
        fresh.observe memory (acts.filter (!·.isRecycle))) ∧
      (∀ {past : List Deed} {s : Session}, History S past s →
        s.eventPool.Used Session.poolLimit ∧ s.choicePool.Used Session.poolLimit) ∧
      ∀ {α : Type} {limit : Nat} {p : Pool α}, p.Used limit →
        p.take.1.items = [] ∧ p.available ≤ limit := by
  have hcoherent := (History.new hnew).coherent
  have htwins : fresh.Twins fresh := .refl hcoherent.eventPool hcoherent.choicePool
  refine ⟨fun memory acts => htwins.observe_recycling memory acts, ?_, ?_⟩
  · intro past s hpast
    exact ⟨hpast.pooled.events, hpast.pooled.choices⟩
  · intro α limit p hp
    exact ⟨hp.clean.take.1, hp.limit_eq_and_available_le.2⟩

/-- Events with options that never were on offer. -/
def staleEvents : Buffer Event :=
  .ofList [.ended, .choice [⟨7, "Stale", true⟩], .choice [⟨0, "", false⟩]]

/-- The moves in the treasury, with such events handed back before the first, before the choice and
at it. -/
def staleActs : List (Act TableHost) :=
  .recycle staleEvents :: (treasuryMoves.take 5).map (.move TableHost.host) ++
    .recycle staleEvents :: (treasuryMoves.drop 5).map (.move TableHost.host) ++ [.recycle staleEvents]

/-- In the treasury, the two options of the choice are what they are without the events handed back. -/
theorem recycling_in_treasury : ∃ fresh rows, Session.ofScript treasuryScript = .ok fresh ∧
    staleActs.filter (!·.isRecycle) = treasuryMoves.map (.move TableHost.host) ∧
    (fresh.observe treasurer staleActs).map (Act.besidesRecycling staleActs) = some rows ∧
    (rows.any fun row => row.2.1.status = .awaitingChoice && row.2.1.choices.items.length == 2) ∧
    fresh.eventPool.available ≤ Session.poolLimit := by
  have hrun : ((Session.ofScript treasuryScript).toOption.bind fun s =>
      (s.observe treasurer (treasuryMoves.map (.move TableHost.host))).map (·.any fun row =>
        row.2.1.status = .awaitingChoice && row.2.1.choices.items.length == 2)) = some true := by
    decide +kernel
  obtain ⟨fresh, hnew, hrun⟩ := Option.bind_eq_some_iff.mp hrun
  obtain ⟨rows, hrows, hany⟩ := Option.map_eq_some_iff.mp hrun
  have hnew := ok_of_toOption hnew
  obtain ⟨hanswers, hused, hpools⟩ := recycling_is_invisible hnew
  exact ⟨fresh, rows, hnew, rfl, (hanswers treasurer staleActs).trans hrows, hany,
    (hpools (hused (.new hnew)).1).2⟩

end Colloquy
