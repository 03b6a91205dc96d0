import Colloquy.Proofs.Session.Play

/-!
# What a statement does to a session

A session performs one statement at a time.  `Session.Turn` lists everything that one of them can do to the
session, with the events it delivers, and `Session.step_turn` says that there is nothing else.  What
holds of a session at all times is shown for these cases only.
-/

namespace Colloquy

open Code

namespace Eval

variable {σ α β : Type}

/-- Two evaluations in turn succeed if the second one does on what the first one comes to. -/
theorem bind_eq_ok {m : Eval σ α} {f : α → Eval σ β} {x z : Stage σ} {b : β} :
    (m >>= f) x = .ok b z ↔ ∃ a y, m x = .ok a y ∧ f a y = .ok b z := by
  show EStateM.bind m f x = _ ↔ _
  rw [EStateM.bind]
  cases m x with
  | ok a y =>
    constructor
    · intro hf
      exact ⟨a, y, rfl, hf⟩
    · rintro ⟨a, y, hm, hf⟩
      cases hm
      exact hf
  | error e y => simp

theorem pure_eq_ok {a b : α} {x y : Stage σ} : (pure a : Eval σ α) x = .ok b y ↔ a = b ∧ x = y := by
  show EStateM.Result.ok a x = .ok b y ↔ _
  simp

/-- A reading of the script succeeds if there is something to read, and changes nothing. -/
theorem read_eq_ok {e : Except CodeError α} {a : α} {x y : Stage σ} :
    (read e : Eval σ α) x = .ok a y ↔ e = .ok a ∧ x = y := by
  cases e with
  | ok b => simp [read, pure_eq_ok]
  | error e =>
    show EStateM.Result.error _ _ = _ ↔ _
    simp

end Eval

/-- The event carries hash data. -/
def Event.isHash : Event → Bool
  | .hash .. => true
  | _ => false

/-! ## Directives -/

section

variable {σ : Type} (S : Script) (eval : Nat → Eval σ Value)

/-- The events are those that the directives at some offsets announce, in the order of the directives.
Speeds and pauses carry the values of their operands; targets and expressions announce nothing. -/
inductive Directed : List Nat → List Event → Prop where
  | nil : Directed [] []
  | auto {d stop : Nat} {ds : List Nat} {events : List Event} :
      S.decodeExpr d = .ok (.auto, stop) → Directed ds events → Directed (d :: ds) (.auto :: events)
  | speed {d stop operand : Nat} {rate : Float} {x y : Stage σ} {ds : List Nat}
      {events : List Event} :
      S.decodeExpr d = .ok (.speed operand, stop) → Eval.floatAt eval operand x = .ok rate y →
      Directed ds events → Directed (d :: ds) (.speed rate :: events)
  | pause {d stop operand : Nat} {seconds : Float} {x y : Stage σ} {ds : List Nat}
      {events : List Event} :
      S.decodeExpr d = .ok (.pause operand, stop) → Eval.floatAt eval operand x = .ok seconds y →
      Directed ds events → Directed (d :: ds) (.pause seconds :: events)
  | silent {d stop : Nat} {node : Node} {ds : List Nat} {events : List Event} :
      S.decodeExpr d = .ok (node, stop) → node ≠ .auto → (∀ o, node ≠ .speed o) →
      (∀ o, node ≠ .pause o) → Directed ds events → Directed (d :: ds) events

variable {S eval}

/-- The events that are computed for directives are the ones they announce. -/
theorem Directed.of_directives {ds : List Nat} {next target : Nat} {events : List Event}
    {x y : Stage σ} (h : Eval.directives S eval next ds x = .ok (events, target) y) :
    Directed S eval ds events := by
  induction ds generalizing next target events x y with
  | nil =>
    obtain ⟨hpair, -⟩ := Eval.pure_eq_ok.mp h
    cases hpair
    exact .nil
  | cons d ds ih =>
    rw [Eval.directives, Eval.bind_eq_ok] at h
    obtain ⟨⟨node, stop⟩, x, hread, h⟩ := h
    obtain ⟨hdecode, -⟩ := Eval.read_eq_ok.mp hread
    cases node with
    | auto =>
      obtain ⟨⟨rest, _⟩, z, hrest, h⟩ := Eval.bind_eq_ok.mp h
      obtain ⟨hpair, -⟩ := Eval.pure_eq_ok.mp h
      cases hpair
      exact .auto hdecode (ih hrest)
    | speed operand =>
      obtain ⟨rate, z, hrate, h⟩ := Eval.bind_eq_ok.mp h
      obtain ⟨⟨rest, _⟩, _, hrest, h⟩ := Eval.bind_eq_ok.mp h
      obtain ⟨hpair, -⟩ := Eval.pure_eq_ok.mp h
      cases hpair
      exact .speed hdecode hrate (ih hrest)
    | pause operand =>
      obtain ⟨seconds, z, hseconds, h⟩ := Eval.bind_eq_ok.mp h
      obtain ⟨⟨rest, _⟩, _, hrest, h⟩ := Eval.bind_eq_ok.mp h
      obtain ⟨hpair, -⟩ := Eval.pure_eq_ok.mp h
      cases hpair
      exact .pause hdecode hseconds (ih hrest)
    | goto target => exact .silent hdecode (by simp) (by simp) (by simp) (ih h)
    -- all other nodes are evaluated for what they do
    | _ =>
      obtain ⟨_, z, -, h⟩ := Eval.bind_eq_ok.mp h
      exact .silent hdecode (by simp) (by simp) (by simp) (ih h)

end

/-! ## Outcomes -/

section

variable {σ : Type} (S : Script) (h : Host σ) (sections : Catalog Nat)

/-- A line comes to some events: first the line itself, then what its directives announce. -/
inductive LineComes (l : LineNode) (next : Nat) (ending : Bool) : List Event → Prop where
  | intro {speakers : List String} {text : String} {cues : List Cue} {events : List Event}
      {x y : Stage σ} :
      Eval.line S h (Eval.expr S h) sections l x =
        .ok (.present next ending (.line speakers text cues :: events)) y →
      Directed S (Eval.expr S h) l.directives events →
      LineComes l next ending (.line speakers text cues :: events)

/-- What a statement can come to. -/
inductive Comes : Statement → Outcome → Prop where
  | proceed {node : Statement} {next : Nat} {events : List Event} :
      (∀ e ∈ events, e.isHash) → Comes node (.proceed next events)
  | present {l : LineNode} {next : Nat} {ending : Bool} {events : List Event} :
      LineComes S h sections l next ending events → Comes (.line l) (.present next ending events)
  | offer {node : Statement} {next : Nat} {choices : List Choice} : Comes node (.offer next choices)
  | finish {node : Statement} : Comes node .finish

variable {S h sections}

/-- A line that is evaluated comes to what its directives announce, and leads where the last goto of it
says. -/
theorem Eval.line_comes {l : LineNode} {x y : Stage σ} {outcome : Outcome}
    (hline : Eval.line S h (Eval.expr S h) sections l x = .ok outcome y) :
    Comes S h sections (.line l) outcome := by
  have hcopy := hline
  rw [Eval.line, Eval.bind_eq_ok] at hline
  obtain ⟨raw, x₁, -, hline⟩ := hline
  obtain ⟨⟨events, next⟩, x₂, hdirectives, hline⟩ := Eval.bind_eq_ok.mp hline
  obtain ⟨speakers, x₃, -, hline⟩ := Eval.bind_eq_ok.mp hline
  obtain ⟨⟨next, ending⟩, x₄, -, hline⟩ := Eval.bind_eq_ok.mp hline
  obtain ⟨rfl, rfl⟩ := Eval.pure_eq_ok.mp hline
  exact .present (.intro hcopy (.of_directives hdirectives))

/-- A statement that is evaluated comes to what its form allows. -/
theorem Eval.statement_comes {node : Statement} {x y : Stage σ} {outcome : Outcome}
    (heval : Eval.statement S h (Eval.expr S h) sections node x = .ok outcome y) :
    Comes S h sections node outcome := by
  cases node with
  | entry next name =>
    obtain ⟨rfl, -⟩ := Eval.pure_eq_ok.mp heval
    exact .proceed (by simp)
  | finish =>
    obtain ⟨rfl, -⟩ := Eval.pure_eq_ok.mp heval
    exact .finish
  | line l => exact Eval.line_comes heval
  | instruction next offset =>
    obtain ⟨_, x₁, -, heval⟩ := Eval.bind_eq_ok.mp heval
    obtain ⟨rfl, -⟩ := Eval.pure_eq_ok.mp heval
    exact .proceed (by simp)
  | conditional otherwise branches =>
    obtain ⟨next, x₁, -, heval⟩ := Eval.bind_eq_ok.mp heval
    obtain ⟨rfl, -⟩ := Eval.pure_eq_ok.mp heval
    exact .proceed (by simp)
  | choice next items =>
    obtain ⟨choices, x₁, -, heval⟩ := Eval.bind_eq_ok.mp heval
    obtain ⟨rfl, -⟩ := Eval.pure_eq_ok.mp heval
    exact .offer
  | hash next entries =>
    obtain ⟨data, x₁, -, heval⟩ := Eval.bind_eq_ok.mp heval
    obtain ⟨rfl, -⟩ := Eval.pure_eq_ok.mp heval
    exact .proceed (by simp [Event.isHash])
  | speaker next index entries =>
    obtain ⟨data, x₁, -, heval⟩ := Eval.bind_eq_ok.mp heval
    obtain ⟨name, x₂, -, heval⟩ := Eval.bind_eq_ok.mp heval
    obtain ⟨rfl, -⟩ := Eval.pure_eq_ok.mp heval
    exact .proceed (by simp [Event.isHash])

end

/-! ## Turns -/

/-- Taking in an outcome forgets all results or none, and is never at fault. -/
theorem Session.take_cases (s : Session) (outcome : Outcome) :
    ((s.take outcome).2.memo = .empty ∨ (s.take outcome).2.memo = s.memo) ∧
      (s.take outcome).2.pending = s.pending ∧ ∀ e, (s.take outcome).1 ≠ .fault e := by
  cases outcome with
  | proceed next events => exact ⟨.inl rfl, rfl, by rintro _ ⟨⟩⟩
  | present next ending events => exact ⟨.inl rfl, rfl, by rintro _ ⟨⟩⟩
  | finish => exact ⟨.inl rfl, rfl, by rintro _ ⟨⟩⟩
  | offer next choices =>
    rw [Session.take, Session.offer]
    by_cases hany : choices.any (·.enabled) = true
    · simp only [if_pos hany]
      exact ⟨.inr trivial, trivial, by rintro _ ⟨⟩⟩
    · simp only [if_neg hany]
      exact ⟨.inl rfl, rfl, by rintro _ ⟨⟩⟩

section

variable {σ : Type} (h : Host σ) (s : Session)

/-- What performing a statement can do to a session. -/
inductive Session.Turn : Step → Session → Prop where
  /-- The line before ends the playthrough. -/
  | closed : s.ending = true →
      Session.Turn (.wait [.ended]) { s with ending := false, status := .ended, memo := .empty }
  /-- The statement delivers hash data at most, and leads on. -/
  | moved {next : Nat} {events : List Event} : s.ending = false → (∀ e ∈ events, e.isHash) →
      Session.Turn (.on events) (s.jump next)
  /-- A line is on show. -/
  | shown {l : LineNode} {stop next : Nat} {ending : Bool} {events : List Event} :
      s.ending = false → s.script.decodeStatement s.pointer = .ok (.line l, stop) →
      LineComes s.script h s.sections l next ending events →
      Session.Turn (.wait events) { s.jump next with ending }
  /-- Options are on offer. -/
  | offered {choices : List Choice} {memo : Memo} {pool : Pool Choice} : s.ending = false →
      choices.any (·.enabled) = true → pool.Clean →
      Session.Turn (.wait [.choice choices])
        { s with
          memo
          choices := ⟨choices, true⟩
          choicePool := pool
          status := .awaitingChoice }
  /-- A choice without an enabled option is passed by. -/
  | skipped {next : Nat} {pool : Pool Choice} : s.ending = false → pool.Clean →
      Session.Turn (.on []) ({ s with choicePool := pool }.jump next)
  /-- The script is at its end. -/
  | finished : s.ending = false → Session.Turn (.wait [.ended]) { s with status := .ended, memo := .empty }
  /-- A call awaits its result. -/
  | suspended {offset : Nat} {function : String} {memo : Memo} {pool : Pool Choice} :
      s.ending = false → pool.Clean →
      Session.Turn (.wait [])
        { s with
          memo
          choicePool := pool
          status := .awaitingCall
          pending := some (offset, function) }
  /-- The statement is at fault. -/
  | failed {e : SessionError} {ending : Bool} {pool : Pool Choice} : s.ending = false → pool.Clean →
      Session.Turn (.fault e)
        { s with
          memo := .empty
          ending
          choicePool := pool
          status := .ended
          pending := none }

variable {h s}

/-- A choice is offered if an option is enabled, and the options on offer are the ones shown. -/
theorem Session.offer_turn (hpool : s.choicePool.Clean) (hending : s.ending = false)
    (memo : Memo) (next : Nat) (choices : List Choice) :
    Session.Turn h s ({ s with memo }.offer next choices).1 ({ s with memo }.offer next choices).2 := by
  obtain ⟨hbuffer, hrest⟩ := hpool.take
  obtain ⟨hcopy, hlast⟩ := hrest.take
  rw [Session.offer]
  by_cases hany : choices.any (·.enabled) = true
  · have hne : choices.isEmpty = false := by
      cases choices with
      | nil => simp at hany
      | cons => rfl
    simp only [if_pos hany, Buffer.append, hbuffer, hcopy, List.nil_append, hne, Bool.not_false,
      Bool.or_true]
    exact .offered hending hany (hlast.give _)
  · simp only [if_neg hany]
    exact .skipped hending (hrest.give _)

/-- Every step is one of the turns. -/
theorem Session.step_turn (hpool : s.choicePool.Clean) (memory : σ) :
    Session.Turn h s (s.step h memory).1 (s.step h memory).2.1 := by
  rw [Session.step]
  by_cases hending : s.ending = true
  · rw [if_pos hending]
    exact .closed hending
  rw [if_neg hending]
  rw [Bool.not_eq_true] at hending
  generalize heval : Eval.statementAt s.script h (Eval.expr s.script h) s.sections s.pointer
    ⟨s.memo, memory⟩ = result
  obtain ⟨pool, hbreak, hclean⟩ := s.exists_breakOff
  match result with
  | .ok outcome ⟨memo, memory'⟩ =>
    rw [Eval.statementAt, Eval.bind_eq_ok] at heval
    obtain ⟨⟨node, stop⟩, x, hread, heval⟩ := heval
    obtain ⟨hdecode, -⟩ := Eval.read_eq_ok.mp hread
    cases Eval.statement_comes heval with
    | proceed hevents => exact .moved hending hevents
    | present hline => exact .shown hending hdecode hline
    | offer => exact Session.offer_turn hpool hending memo _ _
    | finish => exact .finished hending
  | .error (.pending offset function) ⟨memo, memory'⟩ =>
    rw [Session.settle, hbreak]
    exact .suspended hending (hclean hpool)
  | .error (.fault e ending) ⟨memo, memory'⟩ =>
    rw [Session.settle, hbreak]
    exact .failed hending (hclean hpool)

/-- A turn leaves the pool of choices with empty buffers only. -/
theorem Session.Turn.clean {step : Step} {s' : Session} (ht : Session.Turn h s step s')
    (hpool : s.choicePool.Clean) : s'.choicePool.Clean := by
  cases ht with
  | offered _ _ hclean => exact hclean
  | skipped _ hclean => exact hclean
  | suspended _ hclean => exact hclean
  | failed _ hclean => exact hclean
  | _ => exact hpool

theorem Session.Turn.eventPool {step : Step} {s' : Session} (ht : Session.Turn h s step s') :
    s'.eventPool = s.eventPool := by
  cases ht <;> rfl

end

/-! ## Advances -/

section

variable {σ : Type} (h : Host σ)

/-- Statements that lead on, one after another, and the events they deliver. -/
inductive Turns : Session → List Event → Session → Prop where
  | refl (s : Session) : Turns s [] s
  | step {s t u : Session} {more events : List Event} :
      Session.Turn h s (.on more) t → Turns t events u → Turns s (more ++ events) u

/-- An advance: statements that lead on, up to one that waits or is at fault. -/
inductive Advances (s : Session) : Reply → Session → Prop where
  | ok {t u : Session} {events more : List Event} :
      Turns h s events t → Session.Turn h t (.wait more) u → Advances s (.ok (events ++ more)) u
  | error {t u : Session} {events : List Event} {e : SessionError} {pool : Pool Event} :
      Turns h s events t → Session.Turn h t (.fault e) u → (u.eventPool.Clean → pool.Clean) →
      Advances s (.error e) { u with eventPool := pool }

variable {h}

/-- An advance from some events on is an advance, with its events behind those. -/
theorem Session.advanceFrom_advances {limit : Nat} {buffer : Buffer Event} {s s' : Session}
    {memory memory' : σ} {reply : Except SessionError (Buffer Event)} (hpool : s.choicePool.Clean)
    (hadvance : Session.advanceFrom (Session.step h) limit buffer s memory =
      some (reply, s', memory')) :
    ∃ r, Advances h s r s' ∧ reply.map Buffer.items = r.map (buffer.items ++ ·) := by
  induction limit generalizing buffer s memory with
  | zero => cases hadvance
  | succ limit ih =>
    have hturn := Session.step_turn (h := h) hpool memory
    rw [Session.advanceFrom] at hadvance
    generalize s.step h memory = x at hturn hadvance
    obtain ⟨step, t, memory₁⟩ := x
    cases step with
    | on more =>
      obtain ⟨r, hrest, hreply⟩ := ih (hturn.clean hpool) hadvance
      rw [hreply, Buffer.append]
      cases hrest with
      | @ok _ _ events last hturns hwait =>
        refine ⟨.ok ((more ++ events) ++ last), .ok (.step hturn hturns) hwait, ?_⟩
        show Except.ok _ = Except.ok _
        simp only [List.append_assoc]
      | error hturns hfault hclean => exact ⟨_, .error (.step hturn hturns) hfault hclean, rfl⟩
    | wait more =>
      cases hadvance
      exact ⟨_, .ok (.refl s) hturn, rfl⟩
    | fault e =>
      cases hadvance
      exact ⟨_, .error (.refl s) hturn fun hclean => hclean.give buffer, rfl⟩

/-- An advance of a running session performs statements until one waits or is at fault. -/
theorem Session.advance_advances {limit : Nat} {s s' : Session} {memory memory' : σ}
    {reply : Except SessionError (Buffer Event)} (hevents : s.eventPool.Clean)
    (hchoices : s.choicePool.Clean) (hrunning : s.status = .running)
    (hadvance : s.advance h limit memory = some (reply, s', memory')) :
    ∃ pool : Pool Event, pool.Clean ∧
      Advances h { s with eventPool := pool } (reply.map Buffer.items) s' := by
  rw [Session.advance, Session.advanceWith, if_pos hrunning] at hadvance
  obtain ⟨hitems, hpool⟩ := hevents.take
  generalize s.eventPool.take = taken at hadvance hitems hpool
  obtain ⟨buffer, pool⟩ := taken
  obtain ⟨r, hadvances, hreply⟩ := Session.advanceFrom_advances (by exact hchoices) hadvance
  refine ⟨pool, hpool, ?_⟩
  rw [hreply, hitems]
  cases r <;> exact hadvances

end

end Colloquy
