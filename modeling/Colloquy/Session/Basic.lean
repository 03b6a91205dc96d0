import Colloquy.Pool
import Colloquy.Session.Perform

/-!
# Sessions

A session plays a compiled script against a host, from one point where it waits to the next: after a
line, at a choice, at an awaited call, at the end.  `Session.advance` returns the events up to there.
A fault ends the playthrough; a refused operation changes nothing.

A script can go round without ever waiting, so an advance is given a limit on its statements and has no
result when it exceeds it.
-/

namespace Colloquy

/-- A playthrough of a script. -/
structure Session where
  script : Script
  /-- The offsets of the sections. -/
  sections : Catalog Nat
  status : Status
  /-- The offset of the statement that comes next or waits. -/
  pointer : Nat
  /-- The line on show ends the script, or the line at fault was to end it. -/
  ending : Bool
  /-- The options on offer. -/
  choices : Buffer Choice
  /-- The call whose result is awaited: its offset and function. -/
  pending : Option (Nat × String)
  memo : Memo
  eventPool : Pool Event
  choicePool : Pool Choice
  deriving DecidableEq, Repr

/-- What a statement does to a playthrough: it goes on, waits, or ends with a fault. -/
inductive Step where
  | on (events : List Event)
  | wait (events : List Event)
  | fault (error : SessionError)
  deriving DecidableEq, Repr

namespace Session

/-- The number of buffers a session keeps of each kind. -/
def poolLimit : Nat := 8

/-- A session of a script whose sections can be found. -/
def ofScript (script : Script) : Except SessionError Session :=
  match script.sectionTable with
  | .ok sections =>
    .ok ⟨script, sections, .idle, 0, false, .empty, none, .empty, .empty poolLimit, .empty poolLimit⟩
  | .error e => .error (.code e)

/-- Whether there is a section of a name. -/
def hasSection (s : Session) (name : String) : Bool := s.sections.contains name

/-- The function whose result is awaited. -/
def pendingFunction (s : Session) : Option String := s.pending.map Prod.snd

/-- Go to a statement.  Results of the statement before are forgotten. -/
def jump (s : Session) (target : Nat) : Session := { s with pointer := target, memo := .empty }

/-- Put the options on offer away. -/
def withdraw (s : Session) : Session :=
  { s with choices := .empty, choicePool := s.choicePool.give s.choices }

/-- Start at a section.  This is possible in every state except while a call is awaited. -/
def start (s : Session) (name : String) : Except SessionError Unit × Session :=
  if s.status = .awaitingCall then (.error (.invalidState .start s.status), s)
  else
    match s.sections.find? name with
    | none => (.error (.unknownSection name), s)
    | some entry => (.ok (), { s.withdraw.jump entry with ending := false, status := .running })

/-- End the playthrough. -/
def finish (s : Session) : Step × Session :=
  (.wait [.ended], { s with status := .ended, memo := .empty })

/-- Offer options, or go on if none is enabled. -/
def offer (s : Session) (next : Nat) (choices : List Choice) : Step × Session :=
  let (buffer, pool) := s.choicePool.take
  let offered := buffer.append choices
  if choices.any (·.enabled) then
    let (copy, pool) := pool.take
    (.wait [.choice (copy.append offered.items).items],
      { s with choices := offered, choicePool := pool.give s.choices, status := .awaitingChoice })
  else (.on [], { s with choicePool := pool.give offered }.jump next)

/-- Take in what a statement came to. -/
def take (s : Session) : Outcome → Step × Session
  | .proceed next events => (.on events, s.jump next)
  | .present next ending events => (.wait events, { s.jump next with ending })
  | .offer next choices => s.offer next choices
  | .finish => s.finish

/-- Break a statement off.  A choice has taken a buffer for its options by then, and does not hand it
back. -/
def breakOff (s : Session) : Session :=
  match s.script.decodeStatement s.pointer with
  | .ok (.choice .., _) => { s with choicePool := s.choicePool.take.2 }
  | _ => s

/-- Wait for the result of a call. -/
def suspend (s : Session) (offset : Nat) (function : String) : Step × Session :=
  (.wait [], { s with status := .awaitingCall, pending := some (offset, function) })

/-- End with a fault.  If the line at fault was to end the script, that stays on record. -/
def abort (s : Session) (e : SessionError) (ending : Bool) : Step × Session :=
  (.fault e, { s with status := .ended, ending, pending := none, memo := .empty })

/-- Take in how an evaluation went. -/
def settle {σ : Type} (s : Session) : EStateM.Result Interrupt (Stage σ) Outcome → Step × Session × σ
  | .ok outcome stage =>
    let (step, s) := { s with memo := stage.memo }.take outcome
    (step, s, stage.memory)
  | .error (.pending offset function) stage =>
    let (step, s) := { s.breakOff with memo := stage.memo }.suspend offset function
    (step, s, stage.memory)
  | .error (.fault e ending) stage =>
    let (step, s) := s.breakOff.abort e ending
    (step, s, stage.memory)

/-- Perform a statement. -/
def step {σ : Type} (h : Host σ) (s : Session) (memory : σ) : Step × Session × σ :=
  if s.ending then
    let (step, s) := { s with ending := false }.finish
    (step, s, memory)
  else s.settle (Eval.statementAt s.script h (Eval.expr s.script h) s.sections s.pointer ⟨s.memo, memory⟩)

/-- Perform statements with `step` until the session waits, at most `limit` of them, behind the events
so far. -/
def advanceFrom {σ : Type} (step : Session → σ → Step × Session × σ) :
    Nat → Buffer Event → Session → σ → Option (Except SessionError (Buffer Event) × Session × σ)
  | 0, _, _, _ => none
  | limit + 1, events, s, memory =>
    match step s memory with
    | (.on more, s, memory) => advanceFrom step limit (events.append more) s memory
    | (.wait more, s, memory) => some (.ok (events.append more), s, memory)
    | (.fault e, s, memory) =>
      some (.error e, { s with eventPool := s.eventPool.give events }, memory)

/-- Play on with `step` until the session waits, and return the events on the way. -/
def advanceWith {σ : Type} (step : Session → σ → Step × Session × σ) (limit : Nat) (s : Session)
    (memory : σ) : Option (Except SessionError (Buffer Event) × Session × σ) :=
  if s.status = .running then
    let (events, pool) := s.eventPool.take
    advanceFrom step limit events { s with eventPool := pool } memory
  else some (.error (.invalidState .advance s.status), s, memory)

/-- Play on against a host until the session waits, and return the events on the way. -/
def advance {σ : Type} (h : Host σ) (limit : Nat) (s : Session) (memory : σ) :
    Option (Except SessionError (Buffer Event) × Session × σ) :=
  advanceWith (step h) limit s memory

/-- Select one of the options on offer by its number. -/
def select (s : Session) (index : Nat) : Except SessionError Unit × Session :=
  if s.status ≠ .awaitingChoice then (.error (.invalidState .select s.status), s)
  else
    match s.choices.items[index]? with
    | none => (.error (.invalidChoice index s.choices.items.length), s)
    | some choice =>
      if choice.enabled then (.ok (), { s.withdraw.jump choice.next with status := .running })
      else (.error (.disabledChoice index), s)

/-- Deliver the result of the awaited call.  An advance goes on with it. -/
def complete (s : Session) (result : Except HostError Value) : Except SessionError Unit × Session :=
  match s.status, s.pending with
  | .awaitingCall, some (offset, function) =>
    match result with
    | .ok value =>
      (.ok (), { s with status := .running, pending := none, memo := s.memo.insert offset value })
    | .error e =>
      (.error (.ofHost function e), { s with status := .ended, pending := none, memo := .empty })
  | status, _ => (.error (.invalidState .complete status), { s with pending := none })

/-- Hand the options of an event back. -/
def reclaim (pool : Pool Choice) : Event → Pool Choice
  | .choice choices => pool.give (.ofList choices)
  | _ => pool

/-- Hand events back after use. -/
def recycle (s : Session) (events : Buffer Event) : Session :=
  { s with
    choicePool := events.items.foldl reclaim s.choicePool
    eventPool := s.eventPool.give events.clear }

end Session

end Colloquy
