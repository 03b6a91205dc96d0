import Colloquy.Proofs.Session.Grammar

/-!
# A start forgets the past

Whatever a session has been through, a start leads to a session that cannot be told from a new one that
was started at the same section.  What is left of the past is in the buffers kept for later use, and
those are empty: `Session.Twins` are sessions that differ in such buffers only, and whatever is done to
both of them has the same answer and leaves twins behind.
-/

namespace Colloquy

/-- The session without the buffers it keeps for later use. -/
def Session.bare (s : Session) : Session :=
  { s with eventPool := .empty poolLimit, choicePool := .empty poolLimit }

/-- What can happen between a session and a host that keeps its memory in `σ`. -/
inductive Act (σ : Type) where
  /-- A move against a host. -/
  | move (h : Host σ) (m : Move)
  /-- Events are handed back. -/
  | recycle (events : Buffer Event)
  /-- The memory of the host changes on its own. -/
  | alter (f : σ → σ)

namespace Session

variable {σ : Type}

/-- Do something with a session, and get an answer. -/
def act (s : Session) (memory : σ) : Act σ → Option (Reply × Session × σ)
  | .move h m => s.move h memory m
  | .recycle events => some (.ok [], s.recycle events, memory)
  | .alter f => some (.ok [], s, f memory)

/-- What can be seen of some acts in a row: the answer to each, the session after it except for buffers
it keeps, and what the host remembers. -/
def observe : Session → σ → List (Act σ) → Option (List (Reply × Session × σ))
  | _, _, [] => some []
  | s, memory, a :: acts => do
    let (reply, s, memory) ← s.act memory a
    return (reply, s.bare, memory) :: (← observe s memory acts)

/-! ## Twins -/

/-- The sessions differ at most in buffers they keep for later use, and those are empty. -/
structure Twins (s t : Session) : Prop where
  bare : s.bare = t.bare
  left : s.eventPool.Clean ∧ s.choicePool.Clean
  right : t.eventPool.Clean ∧ t.choicePool.Clean

/-- The answers are the same, and twins are left behind. -/
structure Agree {ρ : Type} (x y : ρ × Session × σ) : Prop where
  reply : x.1 = y.1
  twins : x.2.1.Twins y.2.1
  memory : x.2.2 = y.2.2

namespace Twins

variable {h : Host σ} {s t : Session}

theorem refl (hevents : s.eventPool.Clean) (hchoices : s.choicePool.Clean) : s.Twins s :=
  ⟨rfl, ⟨hevents, hchoices⟩, hevents, hchoices⟩

theorem symm (hst : s.Twins t) : t.Twins s := ⟨hst.bare.symm, hst.right, hst.left⟩

theorem trans {u : Session} (hst : s.Twins t) (htu : t.Twins u) : s.Twins u :=
  ⟨hst.bare.trans htu.bare, hst.left, htu.right⟩

theorem status (hst : s.Twins t) : s.status = t.status := by
  show s.bare.status = t.bare.status
  rw [hst.bare]

/-- The twins of a session are that session with other buffers. -/
theorem eq_left (hst : s.Twins t) :
    s = { t with eventPool := s.eventPool, choicePool := s.choicePool } := by
  have hbare := hst.bare
  obtain ⟨⟩ := s
  obtain ⟨⟩ := t
  cases hbare
  rfl

/-- A session with empty buffers is a twin of itself with other ones. -/
theorem of_clean {events events' : Pool Event} {choices choices' : Pool Choice} (t : Session)
    (hevents : events.Clean) (hevents' : events'.Clean) (hchoices : choices.Clean)
    (hchoices' : choices'.Clean) :
    { t with eventPool := events, choicePool := choices }.Twins
      { t with eventPool := events', choicePool := choices' } :=
  ⟨rfl, ⟨hevents, hchoices⟩, hevents', hchoices'⟩

/-! ### Statements -/

/-- Twins offer the same choice, whatever buffers they have for it. -/
theorem offer (hst : s.Twins t) (next : Nat) (choices : List Choice) :
    (s.offer next choices).1 = (t.offer next choices).1 ∧
      (s.offer next choices).2.Twins (t.offer next choices).2 := by
  have hclean := hst.left
  rw [hst.eq_left]
  obtain ⟨hevents, hpool⟩ := hclean
  obtain ⟨hevents', hpool'⟩ := hst.right
  obtain ⟨hbuffer, hrest⟩ := hpool.take
  obtain ⟨hbuffer', hrest'⟩ := hpool'.take
  obtain ⟨hcopy, hlast⟩ := hrest.take
  obtain ⟨hcopy', hlast'⟩ := hrest'.take
  by_cases hany : choices.any (·.enabled) = true
  · -- with an option to select, the storage of the buffers does not show either
    have hne : choices.isEmpty = false := by
      cases choices with
      | nil => simp at hany
      | cons => rfl
    simp only [Session.offer, if_pos hany, Buffer.append, hbuffer, hbuffer', hcopy, hcopy',
      List.nil_append, hne, Bool.not_false, Bool.or_true]
    exact ⟨trivial, rfl, ⟨hevents, hlast.give _⟩, hevents', hlast'.give _⟩
  · simp only [Session.offer, if_neg hany]
    exact ⟨trivial, rfl, ⟨hevents, hrest.give _⟩, hevents', hrest'.give _⟩

/-- Twins take an outcome alike. -/
theorem take (hst : s.Twins t) (outcome : Outcome) :
    (s.take outcome).1 = (t.take outcome).1 ∧ (s.take outcome).2.Twins (t.take outcome).2 := by
  cases outcome with
  | offer next choices => exact hst.offer next choices
  | _ =>
    have hclean := hst.left
    rw [hst.eq_left]
    exact ⟨rfl, rfl, hclean, hst.right⟩

theorem remember (hst : s.Twins t) (memo : Memo) : { s with memo }.Twins { t with memo } := by
  have hclean := hst.left
  rw [hst.eq_left]
  exact ⟨rfl, hclean, hst.right⟩

/-- Twins are suspended alike. -/
theorem suspend (hst : s.Twins t) (offset : Nat) (function : String) :
    (s.suspend offset function).1 = (t.suspend offset function).1 ∧
      (s.suspend offset function).2.Twins (t.suspend offset function).2 := by
  have hclean := hst.left
  rw [hst.eq_left]
  exact ⟨rfl, rfl, hclean, hst.right⟩

/-- Twins are aborted alike. -/
theorem abort (hst : s.Twins t) (e : SessionError) (ending : Bool) :
    (s.abort e ending).1 = (t.abort e ending).1 ∧
      (s.abort e ending).2.Twins (t.abort e ending).2 := by
  have hclean := hst.left
  rw [hst.eq_left]
  exact ⟨rfl, rfl, hclean, hst.right⟩

/-- A choice that is broken off costs both twins a buffer at most. -/
theorem breakOff (hst : s.Twins t) : s.breakOff.Twins t.breakOff := by
  obtain ⟨pool, hs, hclean⟩ := s.exists_breakOff
  obtain ⟨pool', ht, hclean'⟩ := t.exists_breakOff
  rw [hs, ht]
  exact ⟨hst.bare, ⟨hst.left.1, hclean hst.left.2⟩, hst.right.1, hclean' hst.right.2⟩

/-- Twins settle the result of an evaluation alike. -/
theorem settle (hst : s.Twins t) (result : EStateM.Result Interrupt (Stage σ) Outcome) :
    Agree (s.settle result) (t.settle result) := by
  match result with
  | .ok outcome stage =>
    obtain ⟨hstep, htwins⟩ := (hst.remember stage.memo).take outcome
    exact ⟨hstep, htwins, rfl⟩
  | .error (.pending offset function) stage =>
    obtain ⟨hstep, htwins⟩ := (hst.breakOff.remember stage.memo).suspend offset function
    exact ⟨hstep, htwins, rfl⟩
  | .error (.fault e ending) stage =>
    obtain ⟨hstep, htwins⟩ := hst.breakOff.abort e ending
    exact ⟨hstep, htwins, rfl⟩

/-- Twins perform the same statement. -/
theorem step (hst : s.Twins t) (memory : σ) : Agree (s.step h memory) (t.step h memory) := by
  have hsettle := hst.settle (Eval.statementAt t.script h (Eval.expr t.script h) t.sections t.pointer
    ⟨t.memo, memory⟩)
  have hclean := hst.left
  rw [hst.eq_left] at hsettle ⊢
  rw [Session.step, Session.step]
  by_cases hending : t.ending = true
  · rw [if_pos hending, if_pos hending]
    exact ⟨rfl, ⟨rfl, hclean, hst.right⟩, rfl⟩
  · rw [if_neg hending, if_neg hending]
    exact hsettle

/-! ### Moves -/

/-- Twins go on alike, statement after statement, with buffers of the same events. -/
theorem advanceFrom (hst : s.Twins t) {buffer buffer' : Buffer Event}
    (hitems : buffer.items = buffer'.items) (limit : Nat) (memory : σ) :
    Option.Rel (fun x y => x.1.map Buffer.items = y.1.map Buffer.items ∧ x.2.1.Twins y.2.1 ∧
        x.2.2 = y.2.2)
      (Session.advanceFrom (Session.step h) limit buffer s memory)
      (Session.advanceFrom (Session.step h) limit buffer' t memory) := by
  induction limit generalizing buffer buffer' s t memory with
  | zero => exact .none
  | succ limit ih =>
    have hstep := hst.step memory (h := h)
    rw [Session.advanceFrom, Session.advanceFrom]
    generalize s.step h memory = x at hstep
    generalize t.step h memory = y at hstep
    obtain ⟨step, s', memory'⟩ := x
    obtain ⟨step', t', memory''⟩ := y
    obtain ⟨rfl, hst', rfl⟩ := hstep
    cases step with
    | on more =>
      refine ih hst' ?_ memory'
      rw [Buffer.append, Buffer.append, hitems]
    | wait more =>
      refine .some ⟨?_, hst', rfl⟩
      show Except.ok (buffer.append more).items = Except.ok (buffer'.append more).items
      rw [Buffer.append, Buffer.append, hitems]
    | fault e =>
      refine .some ⟨rfl, ?_, rfl⟩
      obtain ⟨hevents, hchoices⟩ := hst'.left
      obtain ⟨hevents', hchoices'⟩ := hst'.right
      exact ⟨hst'.bare, ⟨hevents.give _, hchoices⟩, hevents'.give _, hchoices'⟩

/-- Twins advance alike. -/
theorem advance (hst : s.Twins t) (limit : Nat) (memory : σ) :
    Option.Rel Agree (s.move h memory (.advance limit)) (t.move h memory (.advance limit)) := by
  have hclean := hst.left
  rw [Session.move, Session.move, Session.advance, Session.advance, Session.advanceWith,
    Session.advanceWith, hst.eq_left]
  by_cases hrunning : t.status = .running
  · rw [if_pos hrunning, if_pos hrunning]
    obtain ⟨hbuffer, hevents⟩ := hclean.1.take
    obtain ⟨hbuffer', hevents'⟩ := hst.right.1.take
    have hadvance := (of_clean t hevents hevents' hclean.2 hst.right.2).advanceFrom
      (hbuffer.trans hbuffer'.symm) limit memory (h := h)
    simp only
    generalize Session.advanceFrom (Session.step h) limit s.eventPool.take.1 _ memory = x at hadvance ⊢
    generalize Session.advanceFrom (Session.step h) limit t.eventPool.take.1 _ memory = y at hadvance ⊢
    cases hadvance with
    | none => exact .none
    | some hsame => exact .some ⟨hsame.1, hsame.2.1, hsame.2.2⟩
  · rw [if_neg hrunning, if_neg hrunning]
    exact .some ⟨rfl, ⟨rfl, hclean, hst.right⟩, rfl⟩

/-- Twins are started alike. -/
theorem start (hst : s.Twins t) (name : String) :
    (s.start name).1 = (t.start name).1 ∧ (s.start name).2.Twins (t.start name).2 := by
  have hclean := hst.left
  rw [hst.eq_left, Session.start, Session.start]
  by_cases hstatus : t.status = .awaitingCall
  · rw [if_pos hstatus, if_pos hstatus]
    exact ⟨rfl, rfl, hclean, hst.right⟩
  rw [if_neg hstatus, if_neg hstatus]
  cases t.sections.find? name with
  | none => exact ⟨rfl, rfl, hclean, hst.right⟩
  | some entry =>
    exact ⟨rfl, rfl, ⟨hclean.1, hclean.2.give _⟩, hst.right.1, hst.right.2.give _⟩

/-- Twins select alike. -/
theorem select (hst : s.Twins t) (index : Nat) :
    (s.select index).1 = (t.select index).1 ∧ (s.select index).2.Twins (t.select index).2 := by
  have hclean := hst.left
  rw [hst.eq_left, Session.select, Session.select]
  by_cases hstatus : t.status = .awaitingChoice
  · rw [if_neg (not_not_intro hstatus), if_neg (not_not_intro hstatus)]
    cases t.choices.items[index]? with
    | none => exact ⟨rfl, rfl, hclean, hst.right⟩
    | some choice =>
      simp only
      by_cases henabled : choice.enabled = true
      · rw [if_pos henabled, if_pos henabled]
        exact ⟨rfl, rfl, ⟨hclean.1, hclean.2.give _⟩, hst.right.1, hst.right.2.give _⟩
      · rw [if_neg henabled, if_neg henabled]
        exact ⟨rfl, rfl, hclean, hst.right⟩
  · rw [if_pos hstatus, if_pos hstatus]
    exact ⟨rfl, rfl, hclean, hst.right⟩

/-- Twins take a result alike. -/
theorem complete (hst : s.Twins t) (result : Except HostError Value) :
    (s.complete result).1 = (t.complete result).1 ∧
      (s.complete result).2.Twins (t.complete result).2 := by
  have hclean := hst.left
  rw [hst.eq_left, Session.complete, Session.complete]
  simp only
  split
  · cases result <;> exact ⟨rfl, rfl, hclean, hst.right⟩
  · exact ⟨rfl, rfl, hclean, hst.right⟩

/-- Events may be handed back to both twins. -/
theorem recycle (hst : s.Twins t) (events : Buffer Event) :
    (s.recycle events).Twins (t.recycle events) where
  bare := by
    rw [hst.eq_left]
    rfl
  left := ⟨hst.left.1.give _, Coherent.reclaim_clean events.items hst.left.2⟩
  right := ⟨hst.right.1.give _, Coherent.reclaim_clean events.items hst.right.2⟩

/-- Whatever happens to both twins, they give the same answer and are twins afterwards. -/
theorem act (hst : s.Twins t) (memory : σ) (a : Act σ) :
    Option.Rel Agree (s.act memory a) (t.act memory a) := by
  -- only an advance may have no answer, and then it has none for both
  cases a with
  | move h m =>
    cases m with
    | start name =>
      obtain ⟨hreply, htwins⟩ := hst.start name
      exact .some ⟨congrArg quietly hreply, htwins, rfl⟩
    | advance limit => exact hst.advance limit memory
    | select index =>
      obtain ⟨hreply, htwins⟩ := hst.select index
      exact .some ⟨congrArg quietly hreply, htwins, rfl⟩
    | complete result =>
      obtain ⟨hreply, htwins⟩ := hst.complete result
      exact .some ⟨congrArg quietly hreply, htwins, rfl⟩
  | recycle events => exact .some ⟨rfl, hst.recycle events, rfl⟩
  | alter f => exact .some ⟨rfl, hst, rfl⟩

/-- Either neither twin has an answer, or both have the same one. -/
theorem act_cases (hst : s.Twins t) (memory : σ) (a : Act σ) :
    (s.act memory a = none ∧ t.act memory a = none) ∨ ∃ reply s' t' memory',
      s.act memory a = some (reply, s', memory') ∧ t.act memory a = some (reply, t', memory') ∧
        s'.Twins t' := by
  have hact := hst.act memory a
  generalize s.act memory a = x at hact ⊢
  generalize t.act memory a = y at hact ⊢
  cases hact with
  | none => exact .inl ⟨rfl, rfl⟩
  | @some x y hagree =>
    obtain ⟨reply, s', memory'⟩ := x
    obtain ⟨_, t', _⟩ := y
    obtain ⟨rfl, htwins, rfl⟩ := hagree
    exact .inr ⟨reply, s', t', memory', rfl, rfl, htwins⟩

/-- A move of one twin is a move of the other. -/
theorem move_eq_some {memory memory' : σ} {m : Move} {reply : Reply} {s' : Session} (hst : s.Twins t)
    (hmove : s.move h memory m = some (reply, s', memory')) :
    ∃ t', t.move h memory m = some (reply, t', memory') ∧ s'.Twins t' := by
  rcases hst.act_cases memory (.move h m) with ⟨hs, -⟩ | ⟨reply', u, t', memory'', hs, ht, htwins⟩
  · rw [Session.act, hmove] at hs
    cases hs
  · rw [Session.act, hmove] at hs
    cases hs
    exact ⟨t', ht, htwins⟩

/-- Twins cannot be told from each other. -/
theorem observe (hst : s.Twins t) (memory : σ) (acts : List (Act σ)) :
    s.observe memory acts = t.observe memory acts := by
  induction acts generalizing s t memory with
  | nil => rfl
  | cons a acts ih =>
    rw [Session.observe, Session.observe]
    rcases hst.act_cases memory a with ⟨hs, ht⟩ | ⟨reply, s', t', memory', hs, ht, htwins⟩
    · rw [hs, ht]
    · rw [hs, ht]
      show (Session.observe s' memory' acts).bind _ = (Session.observe t' memory' acts).bind _
      rw [ih htwins memory', htwins.bare]

end Twins

end Session

/-! ## Restarts -/

/-- A session that can be reached and awaits no call is started at a section as a new one is. -/
theorem History.start_twins {S : Script} {past : List Deed} {s fresh : Session}
    (hpast : History S past s) (hnew : Session.ofScript S = .ok fresh)
    (hstatus : s.status ≠ .awaitingCall) {name : String} (hname : fresh.hasSection name = true) :
    (s.start name).1 = .ok () ∧ (fresh.start name).1 = .ok () ∧
      (s.start name).2.Twins (fresh.start name).2 := by
  have hcoherent := hpast.coherent
  have hpending := hcoherent.pending_eq_none hstatus
  obtain ⟨hscript, htable⟩ := hpast.sections
  -- a new session of the same script has the same table
  rw [Session.ofScript, htable] at hnew
  cases hnew
  obtain ⟨entry, hentry⟩ := Option.isSome_iff_exists.mp hname
  rw [Session.start_of_section hstatus hentry, Session.start_of_section (by simp) hentry]
  refine ⟨rfl, rfl, ?_, ⟨hcoherent.eventPool, hcoherent.choicePool.give _⟩, .empty _, ?_⟩
  · simp only [Session.bare, Session.jump, Session.withdraw, hscript, hpending]
  · exact (Pool.Clean.empty _).give _

/-- A start forgets the past.  A session that can be reached and awaits no call can be started at every
section, and from then on it cannot be told from a new session that was started there, whatever is done
with the two against any hosts. -/
theorem restart_observe {S : Script} {past : List Deed} {s fresh : Session} (hpast : History S past s)
    (hnew : Session.ofScript S = .ok fresh) (hstatus : s.status ≠ .awaitingCall) {name : String}
    (hname : fresh.hasSection name = true) :
    (s.start name).1 = .ok () ∧ (fresh.start name).1 = .ok () ∧
      (s.start name).2.bare = (fresh.start name).2.bare ∧
      ∀ {σ : Type} (memory : σ) (acts : List (Act σ)),
        (s.start name).2.observe memory acts = (fresh.start name).2.observe memory acts := by
  obtain ⟨hok, hok', htwins⟩ := hpast.start_twins hnew hstatus hname
  exact ⟨hok, hok', htwins.bare, fun memory acts => htwins.observe memory acts⟩

/-- The result that was delivered in the treasury, but not yet used, is forgotten by a start. -/
theorem restart_with_result : ∃ past s fresh, History treasuryScript past s ∧
    Session.ofScript treasuryScript = .ok fresh ∧ s.memo ≠ .empty ∧
      ∀ acts : List (Act TableHost),
        (s.start "main").2.observe treasurer acts = (fresh.start "main").2.observe treasurer acts := by
  obtain ⟨past, s, hpast, hs⟩ := History.exists_of_run TableHost.host treasurer
    (treasuryMoves.take 4) (fun _ s => s.status = .running && decide (s.memo ≠ .empty))
    (S := treasuryScript) (by decide +kernel)
  rw [Bool.and_eq_true, decide_eq_true_eq, decide_eq_true_eq] at hs
  obtain ⟨hstatus, hmemo⟩ := hs
  have hnew : ((Session.ofScript treasuryScript).toOption.map (·.hasSection "main")) = some true := by
    decide +kernel
  obtain ⟨fresh, hfresh, hname⟩ := Option.map_eq_some_iff.mp hnew
  have hfresh := ok_of_toOption hfresh
  obtain ⟨-, -, -, hobserve⟩ := restart_observe hpast hfresh (by simp [hstatus]) hname
  exact ⟨past, s, fresh, hpast, hfresh, hmemo, hobserve treasurer⟩

end Colloquy
