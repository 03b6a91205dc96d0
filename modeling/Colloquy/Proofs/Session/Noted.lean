import Colloquy.Proofs.Session.History
import Colloquy.Proofs.Session.Pairing

/-!
# Sessions that keep notes

To say how often a node makes a request, evaluation is run with notes: which node asked the host for
what, what came back, and which values calls had.  The notes are kept for each execution of a statement
apart, from where the statement is entered to where it is left, together with the events it came to.

Notes never influence a session.  Without them the noted operations are the operations themselves
(`Session.notedRun_erase`).
-/

namespace Colloquy

open Code

/-! ## Notes -/

/-- What a host made of a request. -/
inductive Response where
  | granted (value : Value)
  /-- The result arrives later. -/
  | awaited
  | refused

/-- A note on a node, given by its offset. -/
inductive Note where
  /-- The node made a request of the host. -/
  | asked (offset : Nat) (request : Request) (response : Response)
  /-- The result arrived that the node waited for. -/
  | delivered (offset : Nat) (value : Value)
  /-- The node is a call and has a value. -/
  | valued (offset : Nat) (value : Value)

/-- The node that a note is about. -/
def Note.offset : Note → Nat
  | .asked o _ _ => o
  | .delivered o _ => o
  | .valued o _ => o

namespace Response

/-- What became of an assignment. -/
def ofSet : Except HostError Unit → Response
  | .ok _ => .granted .void
  | .error _ => .refused

/-- What became of a call. -/
def ofCall : Except HostError Value → Response
  | .ok v => .granted v
  | .error _ => .refused

/-- What became of an awaited call. -/
def ofAwait : Except HostError Answer → Response
  | .ok (.ready v) => .granted v
  | .ok .pending => .awaited
  | .error _ => .refused

end Response

namespace Host

variable {σ α : Type}

/-- Answer a request without a note. -/
def silently (m : StateM σ α) : StateM (σ × List Note) α := fun (memory, notes) =>
  let (a, memory) := m memory
  (a, memory, notes)

/-- Answer a request of a node and note what came of it. -/
def responding (offset : Nat) (r : Request) (f : α → Response) (m : StateM σ α) :
    StateM (σ × List Note) α := fun (memory, notes) =>
  let (a, memory) := m memory
  (a, memory, notes ++ [.asked offset r (f a)])

/-- The host that answers like another one and notes calls and assignments of a node. -/
def noted (h : Host σ) (offset : Nat) : Host (σ × List Note) where
  get name := silently (h.get name)
  set name value := responding offset (.set name value) .ofSet (h.set name value)
  call name args := responding offset (.call name args) .ofCall (h.call name args)
  await name args := responding offset (.await name args) .ofAwait (h.await name args)
  nameOf speaker := silently (h.nameOf speaker)

end Host

/-- The node is a call. -/
def Code.Node.isCall : Node → Bool
  | .call .. => true
  | _ => false

namespace Eval

variable {σ : Type}

/-- Keep a note. -/
def note (x : Note) : Eval (σ × List Note) Unit :=
  modify fun stage => { stage with memory := (stage.memory.1, stage.memory.2 ++ [x]) }

/-- The value of a node, with a note if it is the value of a call. -/
def valued (n : Node) (offset : Nat) (v : Value) : Eval (σ × List Note) Value := do
  if n.isCall then note (.valued offset v)
  return v

/-- The value of an expression that nests less than `fuel` deep, with notes. -/
def notedWithin (s : Script) (h : Host σ) : Nat → Nat → Eval (σ × List Note) Value
  | 0, offset => fail (.code (.unexpectedEnd offset))
  | fuel + 1, offset => do
    let (n, _) ← read (s.decodeExpr offset)
    let v ← node s (h.noted offset) (notedWithin s h fuel) offset n
    valued n offset v

/-- The value of the expression at an offset, with notes. -/
def notedExpr (s : Script) (h : Host σ) (offset : Nat) : Eval (σ × List Note) Value :=
  notedWithin s h (s.words.size + 1) offset

end Eval

/-! ## Executions -/

/-- The execution of a statement: what its nodes did, and the events it came to. -/
structure Execution where
  notes : List Note
  events : List Event

/-- The executions of statements that were left, and the notes on the one under way. -/
structure Chronicle where
  done : List Execution
  notes : List Note

namespace Chronicle

/-- Nothing has been executed. -/
def empty : Chronicle := ⟨[], []⟩

/-- The statement under way is left, with some events. -/
def leave (c : Chronicle) (events : List Event) : Chronicle := ⟨c.done ++ [⟨c.notes, events⟩], []⟩

end Chronicle

/-- The events that a step delivers. -/
def Step.events : Step → List Event
  | .on events => events
  | .wait events => events
  | .fault _ => []

namespace Session

variable {σ : Type} (h : Host σ)

/-- Perform a statement with notes.  It is left unless a call is awaited. -/
def notedStep (s : Session) (memory : σ × Chronicle) : Step × Session × (σ × Chronicle) :=
  let (memory, c) := memory
  if s.ending then
    let (step, s) := { s with ending := false }.finish
    (step, s, memory, c.leave step.events)
  else
    let (step, s', memory, notes) := s.settle (Eval.statementAt s.script (h.noted s.pointer)
      (Eval.notedExpr s.script h) s.sections s.pointer ⟨s.memo, memory, c.notes⟩)
    let c : Chronicle := { c with notes }
    (step, s', memory, if s'.status = .awaitingCall then c else c.leave step.events)

/-- What the delivery of a result adds to the notes.  One that failed ends the statement. -/
def notedDelivery (s : Session) (c : Chronicle) : Except HostError Value → Chronicle
  | .ok value =>
    match s.status, s.pending with
    | .awaitingCall, some (offset, _) => { c with notes := c.notes ++ [.delivered offset value] }
    | _, _ => c
  | .error _ => if s.status = .awaitingCall then c.leave [] else c

/-- Make a move with notes.  A start leaves the statement under way. -/
def notedMove (s : Session) (memory : σ × Chronicle) :
    Move → Option (Reply × Session × (σ × Chronicle))
  | .start name =>
    let (reply, s) := s.start name
    let c := match reply with
      | .ok _ => memory.2.leave []
      | .error _ => memory.2
    some (quietly reply, s, memory.1, c)
  | .advance limit =>
    match s.advanceWith (notedStep h) limit memory with
    | some (reply, s, memory) => some (reply.map Buffer.items, s, memory)
    | none => none
  | .select index =>
    let (reply, s) := s.select index
    some (quietly reply, s, memory)
  | .complete result =>
    let (reply, s') := s.complete result
    some (quietly reply, s', memory.1, s.notedDelivery memory.2 result)

/-- Make moves one after another, with notes. -/
def notedRun : Session → σ × Chronicle → List Move →
    Option (List Reply × Session × (σ × Chronicle))
  | s, memory, [] => some ([], s, memory)
  | s, memory, m :: ms => do
    let (reply, s, memory) ← s.notedMove h memory m
    let (replies, s, memory) ← notedRun s memory ms
    return (reply :: replies, s, memory)

end Session

/-! ## Without the notes -/

section

variable {σ α β : Type}

/-- A stage without notes. -/
def Stage.erase (x : Stage (σ × List Note)) : Stage σ := ⟨x.memo, x.memory.1⟩

/-- A result without notes. -/
def Eval.eraseResult : EStateM.Result Interrupt (Stage (σ × List Note)) α →
    EStateM.Result Interrupt (Stage σ) α
  | .ok a x => .ok a x.erase
  | .error e x => .error e x.erase

/-- Without its notes an evaluation is another one. -/
def Erases (m : Eval (σ × List Note) α) (n : Eval σ α) : Prop :=
  ∀ x, Eval.eraseResult (m x) = n x.erase

namespace Erases

theorem pure (a : α) : Erases (σ := σ) (Pure.pure a) (Pure.pure a) := fun _ => rfl

theorem throw (e : Interrupt) :
    Erases (σ := σ) (α := α) (MonadExcept.throw e) (MonadExcept.throw e) := fun _ => rfl

/-- Evaluations one after another come to the same without notes if both do. -/
theorem bind {m : Eval (σ × List Note) α} {n : Eval σ α} {f : α → Eval (σ × List Note) β}
    {k : α → Eval σ β} (hm : Erases m n) (hf : ∀ a, Erases (f a) (k a)) :
    Erases (m >>= f) (n >>= k) := by
  intro x
  have hx := hm x
  show Eval.eraseResult (EStateM.bind m f x) = EStateM.bind n k x.erase
  rw [EStateM.bind, EStateM.bind, ← hx]
  cases m x with
  | ok a y => exact hf a y
  | error e y => rfl

/-- A request is answered the same with notes. -/
theorem ask {m : StateM (σ × List Note) α} {n : StateM σ α}
    (h : ∀ memory notes, (m (memory, notes)).1 = (n memory).1 ∧
      (m (memory, notes)).2.1 = (n memory).2) : Erases (Eval.ask m) (Eval.ask n) := by
  rintro ⟨memo, memory, notes⟩
  obtain ⟨hanswer, hmemory⟩ := h memory notes
  show EStateM.Result.ok _ (Stage.mk memo _) = EStateM.Result.ok _ (Stage.mk memo _)
  rw [hanswer, hmemory]
  rfl

/-- A request of the host comes to the same without notes if the host's answer does. -/
theorem askFor {m : StateM (σ × List Note) (Except HostError α)} {n : StateM σ (Except HostError α)}
    (name : String) (h : ∀ memory notes, (m (memory, notes)).1 = (n memory).1 ∧
      (m (memory, notes)).2.1 = (n memory).2) : Erases (Eval.askFor name m) (Eval.askFor name n) := by
  refine (ask h).bind fun answer => ?_
  cases answer with
  | ok a => exact pure a
  | error e => exact throw _

/-- Coming to the same without notes is a relation between evaluations as it is asked for. -/
theorem pairing (h : Host σ) (offset : Nat) : Pairing Erases (h.noted offset) h where
  pure := pure
  fail e ending _ := throw (.fault e ending)
  bind := bind
  get _ := ask fun _ _ => ⟨rfl, rfl⟩

theorem remembered? (offset : Nat) :
    Erases (σ := σ) (Eval.remembered? offset) (Eval.remembered? offset) := fun _ => rfl

theorem remember (offset : Nat) (v : Value) :
    Erases (σ := σ) (Eval.remember offset v) (Eval.remember offset v) := fun _ => rfl

/-- A note of a value may follow an evaluation. -/
theorem valued {m : Eval (σ × List Note) Value} {n : Eval σ Value} (hm : Erases m n) (x : Node)
    (offset : Nat) : Erases (m >>= Eval.valued x offset) n := by
  rw [← bind_pure n]
  refine hm.bind fun v => ?_
  rw [Eval.valued]
  cases x.isCall with
  | true => exact fun _ => rfl
  | false => exact pure v

variable {h : Host σ} {eval : Nat → Eval (σ × List Note) Value} {eval' : Nat → Eval σ Value}

/-- A call comes to the same without notes, if its arguments do. -/
theorem call (offset : Nat) (name : String) (awaited : Bool) {args : List Nat}
    (hargs : ∀ o ∈ args, Erases (eval o) (eval' o)) :
    Erases (Eval.call (h.noted offset) eval offset name awaited args)
      (Eval.call h eval' offset name awaited args) := by
  refine (remembered? offset).bind fun found => ?_
  cases found with
  | some v => exact pure v
  | none =>
    refine ((pairing h offset).mapM hargs).bind fun values => ?_
    have hrequest : Erases (Eval.request (h.noted offset) offset name awaited values)
        (Eval.request h offset name awaited values) := by
      cases awaited with
      | false => exact askFor name fun _ _ => ⟨rfl, rfl⟩
      | true =>
        refine (askFor name fun _ _ => ⟨rfl, rfl⟩).bind fun answer => ?_
        cases answer with
        | ready v => exact pure v
        | pending => exact throw _
    exact hrequest.bind fun v => (remember offset v).bind fun _ => pure v

/-- So does an assignment, if its operand does. -/
theorem assign (S : Script) (offset : Nat) (op : AssignOp) (name : Nat) {operand : Nat}
    (ho : Erases (eval operand) (eval' operand)) :
    Erases (Eval.assign S (h.noted offset) eval offset op name operand)
      (Eval.assign S h eval' offset op name operand) := by
  refine (remembered? offset).bind fun found => ?_
  cases found with
  | some v => exact pure _
  | none =>
    refine ((pairing h offset).read _).bind fun name => ?_
    refine ((pairing h offset).assigned offset op name ho).bind fun value => ?_
    refine (askFor name fun _ _ => ⟨rfl, rfl⟩).bind fun _ => ?_
    exact (remember offset .void).bind fun _ => pure _

/-- So does an expression, by induction on the steps it is given. -/
theorem within (S : Script) (h : Host σ) (fuel offset : Nat) :
    Erases (Eval.notedWithin S h fuel offset) (Eval.within S h fuel offset) := by
  induction fuel generalizing offset with
  | zero => exact throw _
  | succ fuel ih =>
    rw [Eval.notedWithin, Eval.within]
    refine ((pairing h offset).read _).bind fun x => ?_
    refine valued ?_ x.1 offset
    exact (pairing h offset).node offset x.1 (fun o _ => ih o)
      (fun _ awaited args _ function => call offset function awaited fun o _ => ih o)
      (fun op name operand _ => assign S offset op name (ih operand))

/-- So does a statement. -/
theorem statementAt (S : Script) (h : Host σ) (sections : Catalog Nat) (offset : Nat) :
    Erases (Eval.statementAt S (h.noted offset) (Eval.notedExpr S h) sections offset)
      (Eval.statementAt S h (Eval.expr S h) sections offset) := by
  have hexpr : ∀ o, Erases (Eval.notedExpr S h o) (Eval.expr S h o) := fun o => within S h _ o
  refine ((pairing h offset).read _).bind fun x => ?_
  exact (pairing h offset).statement sections (fun v => askFor _ fun _ _ => ⟨rfl, rfl⟩)
    (fun o _ => hexpr o) (fun _ _ _ _ _ o _ => hexpr o)

end Erases

end

namespace Session

variable {σ : Type} {h : Host σ}

/-- What a host remembers besides a chronicle. -/
def erase {α : Type} (x : α × Session × (σ × Chronicle)) : α × Session × σ := (x.1, x.2.1, x.2.2.1)

/-- Settling a result does not look at notes. -/
theorem settle_eraseResult (s : Session)
    (x : EStateM.Result Interrupt (Stage (σ × List Note)) Outcome) :
    s.settle (Eval.eraseResult x) = ((s.settle x).1, (s.settle x).2.1, (s.settle x).2.2.1) := by
  match x with
  | .ok outcome stage => rfl
  | .error (.pending offset function) stage => rfl
  | .error (.fault e ending) stage => rfl

/-- A noted step is a step, without the notes. -/
theorem notedStep_erase (s : Session) (memory : σ × Chronicle) :
    erase (s.notedStep h memory) = s.step h memory.1 := by
  rw [notedStep, step]
  by_cases hending : s.ending = true
  · rw [if_pos hending, if_pos hending]
    rfl
  · rw [if_neg hending, if_neg hending]
    have herase := Erases.statementAt s.script h s.sections s.pointer ⟨s.memo, memory.1, memory.2.notes⟩
    rw [show Stage.mk s.memo memory.1 = Stage.erase ⟨s.memo, memory.1, memory.2.notes⟩ from rfl,
      ← herase, settle_eraseResult]
    rfl

/-- A noted advance is an advance, without the notes. -/
theorem advanceFrom_erase (limit : Nat) (events : Buffer Event) (s : Session)
    (memory : σ × Chronicle) :
    (advanceFrom (notedStep h) limit events s memory).map erase =
      advanceFrom (step h) limit events s memory.1 := by
  induction limit generalizing events s memory with
  | zero => rfl
  | succ limit ih =>
    rw [advanceFrom, advanceFrom, ← notedStep_erase s memory]
    obtain ⟨step, t, memory'⟩ := s.notedStep h memory
    cases step with
    | on more => exact ih (events.append more) t memory'
    | wait more => rfl
    | fault e => rfl

/-- A noted move is a move, without the notes. -/
theorem notedMove_erase (s : Session) (memory : σ × Chronicle) (m : Move) :
    (s.notedMove h memory m).map erase = s.move h memory.1 m := by
  cases m with
  | start name => rfl
  | advance limit =>
    have hadvance : (s.advanceWith (notedStep h) limit memory).map erase =
        s.advance h limit memory.1 := by
      rw [Session.advance, advanceWith, advanceWith]
      by_cases hrunning : s.status = .running
      · rw [if_pos hrunning, if_pos hrunning]
        exact advanceFrom_erase limit _ _ memory
      · rw [if_neg hrunning, if_neg hrunning]
        rfl
    rw [notedMove, Session.move, ← hadvance]
    cases s.advanceWith (notedStep h) limit memory <;> rfl
  | select index => rfl
  | complete result => rfl

/-- Without the notes, moves are made as they are. -/
theorem notedRun_erase (s : Session) (memory : σ × Chronicle) (moves : List Move) :
    (s.notedRun h memory moves).map erase = s.run h memory.1 moves := by
  induction moves generalizing s memory with
  | nil => rfl
  | cons m ms ih =>
    rw [notedRun, run, ← notedMove_erase s memory m]
    cases hmove : s.notedMove h memory m with
    | none => rfl
    | some x =>
      obtain ⟨reply, t, memory₁⟩ := x
      show ((t.notedRun h memory₁ ms) >>= fun y => some (reply :: y.1, y.2.1, y.2.2)).map erase =
        (t.run h memory₁.1 ms) >>= fun y => some (reply :: y.1, y.2.1, y.2.2)
      rw [← ih t memory₁]
      cases t.notedRun h memory₁ ms <;> rfl

end Session

end Colloquy
