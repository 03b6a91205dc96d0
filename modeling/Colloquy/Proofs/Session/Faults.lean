import Colloquy.Proofs.Session.Pairing

/-!
# Faults of evaluations

An expression, a text, a directive or a speaker can only fail over the stream, a kind, a variable or the
host: none of them names a section, and nothing that is evaluated refuses an operation.  Such faults are
called ordinary here, and they are followed from the parts of an evaluation to the whole.  What is left of a
line, its tags, is the one thing in it that can miss a section (`Eval.line_unknownSection`).
-/

namespace Colloquy

open Code

/-- The fault is over the stream, a kind, a variable or the host. -/
def SessionError.isOrdinary : SessionError → Bool
  | .unknownVariable _ | .kindMismatch .. | .host .. | .code _ => true
  | _ => false

theorem SessionError.isOrdinary_ofHost (name : String) (e : HostError) :
    (ofHost name e).isOrdinary = true := by
  cases e <;> rfl

theorem SessionError.isRefusal_of_isOrdinary {e : SessionError} (h : e.isOrdinary = true) :
    e.isRefusal = false := by
  cases e <;> first | rfl | cases h

/-- What holds of the faults of two evaluations holds of those of both in a row. -/
theorem Eval.faults_bind {σ α β : Type} {P : SessionError → Prop} {m : Eval σ α} {f : α → Eval σ β}
    (hm : ∀ x e ending y, m x = .error (.fault e ending) y → P e)
    (hf : ∀ a x e ending y, f a x = .error (.fault e ending) y → P e) (x : Stage σ) (e : SessionError)
    (ending : Bool) (y : Stage σ) (hrun : (m >>= f) x = .error (.fault e ending) y) : P e := by
  cases hfirst : m x with
  | ok a z =>
    rw [Eval.bind_of_ok hfirst] at hrun
    exact hf a z e ending y hrun
  | error e' z =>
    rw [Eval.bind_of_error hfirst] at hrun
    cases hrun
    exact hm x e ending y hfirst

/-- The evaluation stops with ordinary faults only. -/
def Eval.Ordinary {σ α : Type} (m : Eval σ α) : Prop :=
  ∀ x e ending y, m x = .error (.fault e ending) y → e.isOrdinary = true

namespace Eval.Ordinary

variable {σ α β : Type} {S : Script} {h : Host σ} {eval : Nat → Eval σ Value}

theorem pure (a : α) : Ordinary (Pure.pure a : Eval σ α) := by
  intro x e ending y hrun
  cases hrun

theorem fail {e : SessionError} (he : e.isOrdinary = true) : Ordinary (Eval.fail e : Eval σ α) := by
  intro x e' ending y hrun
  cases hrun
  exact he

/-- Two evaluations in turn fail as each of them does. -/
theorem bind {m : Eval σ α} {f : α → Eval σ β} (hm : Ordinary m) (hf : ∀ a, Ordinary (f a)) :
    Ordinary (m >>= f) := Eval.faults_bind hm hf

theorem map {m : Eval σ α} (hm : Ordinary m) (f : α → β) : Ordinary (m >>= fun a => Pure.pure (f a)) :=
  hm.bind fun a => pure (f a)

/-- An evaluation of each entry of a list fails as the evaluations of the entries do. -/
theorem mapM {f : α → Eval σ β} {xs : List α} (hf : ∀ x ∈ xs, Ordinary (f x)) : Ordinary (xs.mapM f) := by
  induction xs with
  | nil =>
    rw [List.mapM_nil]
    exact pure []
  | cons x xs ih =>
    rw [List.forall_mem_cons] at hf
    rw [List.mapM_cons]
    exact hf.1.bind fun y => (ih hf.2).map (y :: ·)

/-- The stream can only fail as an ordinary fault. -/
theorem read (x : Except CodeError α) : Ordinary (Eval.read x : Eval σ α) := by
  cases x with
  | ok a => exact pure a
  | error e => exact fail rfl

/-- So can a value of the wrong kind. -/
theorem demand (o : Nat) (x : Except KindMismatch α) : Ordinary (Eval.demand o x : Eval σ α) := by
  cases x with
  | ok a => exact pure a
  | error e => exact fail rfl

/-! ## Requests and results that are kept -/

theorem ask (m : StateM σ α) : Ordinary (Eval.ask m) := by
  intro x e ending y hrun
  cases hrun

/-- A host that refuses a request makes an ordinary fault. -/
theorem askFor (name : String) (m : StateM σ (Except HostError α)) : Ordinary (Eval.askFor name m) := by
  refine (ask m).bind fun r => ?_
  cases r with
  | ok a => exact pure a
  | error e => exact fail (SessionError.isOrdinary_ofHost name e)

theorem remembered? (o : Nat) : Ordinary (Eval.remembered? o : Eval σ (Option Value)) := by
  intro x e ending y hrun
  cases hrun

theorem remember (o : Nat) (v : Value) : Ordinary (Eval.remember o v : Eval σ Unit) := by
  intro x e ending y hrun
  cases hrun

/-- A variable that is read may be unknown. -/
theorem variableValue (name : String) : Ordinary (Eval.variableValue h name) := by
  refine (ask (h.get name)).bind fun v => ?_
  cases v with
  | some v => exact pure v
  | none => exact fail rfl

/-- A call fails as the host does. -/
theorem request (o : Nat) (name : String) (awaited : Bool) (args : List Value) :
    Ordinary (Eval.request h o name awaited args) := by
  cases awaited with
  | false => exact askFor name _
  | true =>
    refine (askFor name _).bind fun answer => ?_
    cases answer with
    | ready v => exact pure v
    | pending =>
      intro x e ending y hrun
      cases hrun

/-! ## Expressions -/

section

variable (heval : ∀ o, Ordinary (eval o))
include heval

theorem boolAt (o : Nat) : Ordinary (Eval.boolAt eval o) := (heval o).bind fun v => demand o v.asBool

theorem floatAt (o : Nat) : Ordinary (Eval.floatAt eval o) := (heval o).bind fun v => demand o v.asFloat

theorem unary (op : UnaryOp) (o : Nat) : Ordinary (Eval.unary eval op o) := by
  cases op with
  | negate => exact (floatAt heval o).map _
  | not => exact (boolAt heval o).map _

theorem arithmetic (f : Float → Float → Float) (left right : Nat) :
    Ordinary (Eval.arithmetic eval f left right) :=
  (floatAt heval left).bind fun _ => (floatAt heval right).map _

theorem comparison (f : Float → Float → Bool) (left right : Nat) :
    Ordinary (Eval.comparison eval f left right) :=
  (floatAt heval left).bind fun _ => (floatAt heval right).map _

/-- An operator of two operands may find values that are not of its kind. -/
theorem binary (op : BinaryOp) (left right : Nat) : Ordinary (Eval.binary eval op left right) := by
  cases op with
  | and =>
    refine (boolAt heval left).bind fun b => ?_
    cases b with
    | true => exact (boolAt heval right).map _
    | false => exact pure _
  | or =>
    refine (boolAt heval left).bind fun b => ?_
    cases b with
    | true => exact pure _
    | false => exact (boolAt heval right).map _
  | equal => exact (heval left).bind fun _ => (heval right).map _
  | notEqual => exact (heval left).bind fun _ => (heval right).map _
  | less | lessEqual | greater | greaterEqual => exact comparison heval _ left right
  | _ => exact arithmetic heval _ left right

/-- An assignment that computes fails as its variable, its kinds or its operand does. -/
theorem updated (o : Nat) (name : String) (f : Float → Float → Float) (operand : Nat) :
    Ordinary (Eval.updated h eval o name f operand) := by
  refine (variableValue name).bind fun v => ?_
  exact (demand o v.asFloat).bind fun x => (floatAt heval operand).map _

/-- A value that is assigned may not be of the variable's kind. -/
theorem assigned (o : Nat) (op : AssignOp) (name : String) (operand : Nat) :
    Ordinary (Eval.assigned h eval o op name operand) := by
  cases op with
  | set => exact heval operand
  | _ => exact updated heval o name _ operand

/-- An assignment fails as its value does, or as the host that is asked to keep it. -/
theorem assign (o : Nat) (op : AssignOp) (name operand : Nat) :
    Ordinary (Eval.assign S h eval o op name operand) := by
  refine (remembered? o).bind fun found => ?_
  cases found with
  | some v => exact pure Value.void
  | none =>
    refine (read _).bind fun name => ?_
    refine (assigned heval o op name operand).bind fun v => ?_
    exact (askFor name _).bind fun _ => (remember o .void).map fun _ => Value.void

/-- A call fails as its arguments do, or as its request. -/
theorem call (o : Nat) (name : String) (awaited : Bool) (args : List Nat) :
    Ordinary (Eval.call h eval o name awaited args) := by
  refine (remembered? o).bind fun found => ?_
  cases found with
  | some v => exact pure v
  | none =>
    refine (mapM fun o _ => heval o).bind fun values => ?_
    exact (request o name awaited values).bind fun v => (remember o v).map fun _ => v

/-- A node fails as its form does. -/
theorem node (o : Nat) (n : Node) : Ordinary (Eval.node S h eval o n) := by
  cases n with
  | float index => exact (read _).map _
  | string index => exact (read _).map _
  | «variable» name => exact (read _).bind fun x => variableValue x
  | call name awaited args => exact (read _).bind fun x => call heval o x awaited args
  | unary op operand => exact unary heval op operand
  | binary op left right => exact binary heval op left right
  | assign op name operand => exact assign heval o op name operand
  | _ => exact pure _

end

/-- An expression fails as its operands do, by recursion into them. -/
theorem within (fuel o : Nat) : Ordinary (Eval.within S h fuel o) := by
  induction fuel generalizing o with
  | zero => exact fail rfl
  | succ fuel ih => exact (read _).bind fun x => node ih o x.1

theorem expr (o : Nat) : Ordinary (Eval.expr S h o) := within _ o

/-! ## Parts of lines -/

/-- A text fails as its placeholders do. -/
theorem text (heval : ∀ o, Ordinary (eval o)) (xs : List TextNode) : Ordinary (Eval.text S eval xs) := by
  refine map (mapM fun x _ => ?_) String.join
  cases x with
  | text index => exact read _
  | expr offset => exact (heval offset).map _

/-- Directives fail as their numbers do. -/
theorem directives (heval : ∀ o, Ordinary (eval o)) (next : Nat) (ds : List Nat) :
    Ordinary (Eval.directives S eval next ds) := by
  induction ds generalizing next with
  | nil => exact pure _
  | cons d ds ih =>
    rw [Eval.directives]
    refine (read _).bind fun x => ?_
    obtain ⟨n, stop⟩ := x
    cases n with
    | goto target => exact ih target
    | auto => exact (ih next).map _
    | speed operand => exact (floatAt heval operand).bind fun rate => (ih next).map _
    | pause operand => exact (floatAt heval operand).bind fun seconds => (ih next).map _
    | _ => exact (heval d).bind fun _ => ih next

/-- A speaker fails as the host that is asked for a name. -/
theorem speaker (x : SpeakerNode) : Ordinary (Eval.speaker S h x) := by
  cases x with
  | id index => exact read _
  | «variable» index =>
    refine (read _).bind fun name => ?_
    exact (variableValue name).bind fun value => askFor _ _

end Eval.Ordinary

/-! ## Sections that a line misses -/

section

variable {σ α β : Type} {S : Script} {h : Host σ} {eval : Nat → Eval σ Value} {sections : Catalog Nat}
  {name : String} {ending : Bool} {x y : Stage σ}

/-- A section that is missed behind an ordinary evaluation is missed in what follows. -/
theorem Eval.Ordinary.of_bind {m : Eval σ α} {f : α → Eval σ β} (hm : Ordinary m)
    (hrun : (m >>= f) x = .error (.fault (.unknownSection name) ending) y) :
    ∃ a z, m x = .ok a z ∧ f a z = .error (.fault (.unknownSection name) ending) y := by
  cases hfirst : m x with
  | ok a z =>
    rw [Eval.bind_of_ok hfirst] at hrun
    exact ⟨a, z, rfl, hrun⟩
  | error e z =>
    rw [Eval.bind_of_error hfirst] at hrun
    cases hrun
    cases hm x _ ending y hfirst

/-- Tags miss a section only if one of them leads to it and there is none of that name. -/
theorem Eval.steer_unknownSection {tags : List Tag} {next : Nat} {before : Bool}
    (hrun : Eval.steer sections next before tags x = .error (.fault (.unknownSection name) ending) y) :
    .goto name ∈ tags ∧ sections.find? name = none := by
  induction tags generalizing next before with
  | nil => cases hrun
  | cons tag tags ih =>
    have htail : ∀ {next before}, Eval.steer sections next before tags x =
        .error (.fault (.unknownSection name) ending) y → .goto name ∈ tag :: tags ∧ sections.find? name = none :=
      fun hrun => (ih hrun).imp_left (List.mem_cons_of_mem _)
    cases tag with
    | goto target =>
      rw [Eval.steer, Eval.sectionAt] at hrun
      cases hfind : sections.find? target with
      | some n =>
        rw [hfind] at hrun
        exact htail hrun
      | none =>
        rw [hfind] at hrun
        cases hrun
        exact ⟨List.mem_cons_self .., hfind⟩
    | finish => exact htail hrun
    | _ => exact htail hrun

/-- A line misses only sections that its tags name. -/
theorem Eval.line_unknownSection (heval : ∀ o, Eval.Ordinary (eval o)) {l : LineNode}
    (hrun : Eval.line S h eval sections l x = .error (.fault (.unknownSection name) ending) y) :
    ∃ raw z, Eval.text S eval l.segments x = .ok raw z ∧ .goto name ∈ (interpolate raw).tags ∧
      sections.find? name = none := by
  rw [Eval.line] at hrun
  obtain ⟨raw, z, htext, hrun⟩ := (Eval.Ordinary.text heval l.segments).of_bind hrun
  obtain ⟨⟨events, next⟩, z', -, hrun⟩ := (Eval.Ordinary.directives heval l.next l.directives).of_bind hrun
  obtain ⟨speakers, z'', -, hrun⟩ :=
    (Eval.Ordinary.mapM fun p _ => Eval.Ordinary.speaker p).of_bind hrun
  refine ⟨raw, z, htext, ?_⟩
  cases hsteer : Eval.steer sections next false (interpolate raw).tags z'' with
  | ok a w =>
    rw [Eval.bind_of_ok hsteer] at hrun
    cases hrun
  | error e w =>
    rw [Eval.bind_of_error hsteer] at hrun
    cases hrun
    exact Eval.steer_unknownSection hsteer

end

end Colloquy
