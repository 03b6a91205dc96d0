import Colloquy.Value

/-!
# Hosts

A host is the application that plays a script: it owns the variables, answers the calls and names the
speakers.  A session sees of it five requests, each of which may change what the host remembers.  Hosts
that answer from their own tables stand in `Colloquy.Host.Table`.
-/

namespace Colloquy

/-- Why a host refuses a request. -/
inductive HostError where
  | unknownVariable (name : String)
  | unknownFunction (name : String)
  | failed (reason : String)
  deriving DecidableEq, Repr

/-- A refusal in a sentence. -/
def HostError.message : HostError → String
  | .unknownVariable name => "Unknown variable " ++ name
  | .unknownFunction name => "Unknown function " ++ name
  | .failed reason => reason

/-- The answer to an awaited call: a result at once, or one that arrives later. -/
inductive Answer where
  | ready (value : Value)
  | pending
  deriving DecidableEq, Repr

/-- What a session asks of a host that remembers a `σ`. -/
structure Host (σ : Type) where
  /-- The value of a variable, if there is such a variable. -/
  get : String → StateM σ (Option Value)
  /-- Store a value in a variable. -/
  set : String → Value → StateM σ (Except HostError Unit)
  /-- Call a function and take its result. -/
  call : String → List Value → StateM σ (Except HostError Value)
  /-- Call a function whose result may arrive later. -/
  await : String → List Value → StateM σ (Except HostError Answer)
  /-- The name to show for a speaker that a variable holds. -/
  nameOf : Value → StateM σ (Except HostError String)

/-- The name to show for a speaker when nobody knows a better one: the value itself. -/
def Value.plainName (v : Value) : String := v.text

/-- A request that was made of a host. -/
inductive Request where
  | get (name : String)
  | set (name : String) (value : Value)
  | call (name : String) (args : List Value)
  | await (name : String) (args : List Value)
  | nameOf (speaker : Value)
  deriving DecidableEq, Repr

namespace Host

variable {σ : Type}

/-- Answer a request and note it behind the ones before. -/
def noting {α : Type} (r : Request) (m : StateM σ α) : StateM (σ × List Request) α :=
  fun (memory, log) =>
    let (a, memory) := m memory
    (a, memory, log ++ [r])

/-- The host that answers like another one and keeps a list of all requests in their order. -/
def recorded (h : Host σ) : Host (σ × List Request) where
  get name := noting (.get name) (h.get name)
  set name value := noting (.set name value) (h.set name value)
  call name args := noting (.call name args) (h.call name args)
  await name args := noting (.await name args) (h.await name args)
  nameOf speaker := noting (.nameOf speaker) (h.nameOf speaker)

end Host

end Colloquy
