import Colloquy.Host.Basic
import Colloquy.Registry

/-!
# Hosts of tables

A table host keeps its variables, functions and speaker names in tables.  Variables have the kind of
their first value for good: storing a value of another kind is refused.  A function is called or
awaited, never both, and what it answers depends on its arguments and on the calls made of it before.
-/

namespace Colloquy

/-- What a function answers, given the arguments of the calls before (first call first) and those of
the call at hand. -/
inductive Behaviour where
  | plain (run : List (List Value) → List Value → Except HostError Value)
  | awaited (run : List (List Value) → List Value → Except HostError Answer)

/-- A function of a table host and the arguments it was called with so far. -/
structure HostFunction where
  behaviour : Behaviour
  calls : List (List Value)

/-- A host that keeps everything in tables. -/
structure TableHost where
  /-- What the host exposes, for the compiler. -/
  registry : Registry
  values : Catalog Value
  functions : Catalog HostFunction
  speakerNames : Catalog String

namespace TableHost

/-- The host that exposes nothing. -/
def empty : TableHost := ⟨.empty, ∅, ∅, ∅⟩

/-- Add a variable of the kind of its first value. -/
def withVariable (m : TableHost) (name : String) (value : Value) : TableHost :=
  { m with
    registry := m.registry.addVariable ⟨name, value.kind⟩
    values := m.values.insert name value }

/-- Add a function with a behaviour. -/
def withBehaviour (m : TableHost) (f : FunctionDecl) (b : Behaviour) : TableHost :=
  { m with
    registry := m.registry.addFunction f
    functions := m.functions.insert f.name ⟨b, []⟩ }

/-- Add a function that is called, whatever its declaration says. -/
def withFunction (m : TableHost) (f : FunctionDecl)
    (run : List (List Value) → List Value → Except HostError Value) : TableHost :=
  m.withBehaviour { f with awaitable := false } (.plain run)

/-- Add a function that is awaited, whatever its declaration says. -/
def withAwaitable (m : TableHost) (f : FunctionDecl)
    (run : List (List Value) → List Value → Except HostError Answer) : TableHost :=
  m.withBehaviour { f with awaitable := true } (.awaited run)

/-- Give a speaker a name to show. -/
def withSpeakerName (m : TableHost) (speaker name : String) : TableHost :=
  { m with speakerNames := m.speakerNames.insert speaker name }

/-- The kind of a variable; `undefined` if there is none of that name. -/
def variableKind (m : TableHost) (name : String) : Kind :=
  match m.registry.findVariable? name with
  | some v => v.kind
  | none => .undefined

/-- The kind of a function's result; `undefined` if there is none of that name. -/
def returnKind (m : TableHost) (name : String) : Kind :=
  match m.registry.findFunction? name with
  | some f => f.returns
  | none => .undefined

/-- Store a value in a variable of its kind. -/
def set (name : String) (value : Value) : StateM TableHost (Except HostError Unit) := fun m =>
  let kind := m.variableKind name
  if !kind.isDefined then (.error (.unknownVariable name), m)
  else if value.kind ≠ kind then
    (.error (.failed
      ("cannot store " ++ value.kind.phrase ++ " in " ++ kind.name ++ " variable " ++ name)), m)
  else (.ok (), { m with values := m.values.insert name value })

/-- Remember a call of a function. -/
def noteCall (m : TableHost) (name : String) (f : HostFunction) (args : List Value) : TableHost :=
  { m with functions := m.functions.insert name { f with calls := f.calls ++ [args] } }

/-- Call a function. -/
def call (name : String) (args : List Value) : StateM TableHost (Except HostError Value) := fun m =>
  match m.functions.find? name with
  | none => (.error (.unknownFunction name), m)
  | some f =>
    match f.behaviour with
    | .plain run => (run f.calls args, m.noteCall name f args)
    | .awaited _ => (.error (.failed (name ++ " must be awaited")), m)

/-- Await a function. -/
def await (name : String) (args : List Value) : StateM TableHost (Except HostError Answer) :=
  fun m =>
    match m.functions.find? name with
    | none => (.error (.unknownFunction name), m)
    | some f =>
      match f.behaviour with
      | .awaited run => (run f.calls args, m.noteCall name f args)
      | .plain _ => (.error (.failed (name ++ " cannot be awaited")), m)

/-- The name to show for a speaker: the one it was given, or the speaker itself. -/
def nameOf (m : TableHost) (speaker : Value) : String :=
  (m.speakerNames.find? speaker.text).getD speaker.text

/-- A table host answers requests from its tables. -/
def host : Host TableHost where
  get name := fun m => (m.values.find? name, m)
  set := set
  call := call
  await := await
  nameOf speaker := fun m => (.ok (m.nameOf speaker), m)

/-- Whether a request makes a function of the host run: it is there, and is called or awaited as it
has to be. -/
def enters (m : TableHost) : Request → Bool
  | .call name _ =>
    match m.functions.find? name with
    | some ⟨.plain _, _⟩ => true
    | _ => false
  | .await name _ =>
    match m.functions.find? name with
    | some ⟨.awaited _, _⟩ => true
    | _ => false
  | _ => false

end TableHost

end Colloquy
