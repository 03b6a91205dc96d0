import Colloquy.Code.Decode
import Colloquy.Number.Remainder
import Colloquy.Session.Fault

/-!
# Evaluation

Expressions are evaluated from the stream, with requests to a host on the way.  An awaited call may
suspend the evaluation; the statement is then evaluated again from its start once the result is there.
So that calls and assignments happen once all the same, the memo keeps the result of each under its
offset, and a second evaluation takes it from there.
-/

namespace Colloquy

open Code

/-- Results of calls and assignments by the offsets they stand at. -/
structure Memo where
  entries : List (Nat × Value)
  deriving DecidableEq, Repr

namespace Memo

/-- The memo without results. -/
def empty : Memo := ⟨[]⟩

/-- The result at an offset. -/
def find? (m : Memo) (offset : Nat) : Option Value := m.entries.lookup offset

/-- Keep a result. -/
def insert (m : Memo) (offset : Nat) (value : Value) : Memo := ⟨(offset, value) :: m.entries⟩

end Memo

/-- Why an evaluation stops before its end. -/
inductive Interrupt where
  /-- The call at an offset awaits its result. -/
  | pending (offset : Nat) (function : String)
  /-- A fault, and whether the line it stands in had ended the script before. -/
  | fault (error : SessionError) (ending : Bool)
  deriving DecidableEq, Repr

/-- What an evaluation changes: the memo and what the host remembers. -/
structure Stage (σ : Type) where
  memo : Memo
  memory : σ

/-- Evaluations keep their changes when they are interrupted. -/
abbrev Eval (σ : Type) := EStateM Interrupt (Stage σ)

namespace Eval

variable {σ : Type}

/-- Stop with a fault. -/
def fail {α : Type} (e : SessionError) (ending : Bool := false) : Eval σ α := throw (.fault e ending)

/-- Read from the stream. -/
def read {α : Type} : Except CodeError α → Eval σ α
  | .ok a => pure a
  | .error e => fail (.code e)

theorem read_string {S : Script} {i : Nat} {x : String} (hx : S.strings[i]? = some x) :
    (read (S.string i) : Eval σ String) = pure x := by
  rw [Script.string, hx]
  rfl

theorem read_float {S : Script} {i : Nat} {x : Float} (hx : S.floats[i]? = some x) :
    (read (S.float i) : Eval σ Float) = pure x := by
  rw [Script.float, hx]
  rfl

/-- Make a request of the host. -/
def ask {α : Type} (m : StateM σ α) : Eval σ α := fun stage =>
  let (a, memory) := m stage.memory
  .ok a { stage with memory }

/-- Make a request that the host may refuse on behalf of a name. -/
def askFor {α : Type} (name : String) (m : StateM σ (Except HostError α)) : Eval σ α := do
  match ← ask m with
  | .ok a => return a
  | .error e => fail (.ofHost name e)

/-- The result kept for an offset. -/
def remembered? (offset : Nat) : Eval σ (Option Value) := do return (← get).memo.find? offset

/-- Keep the result at an offset. -/
def remember (offset : Nat) (value : Value) : Eval σ Unit :=
  modify fun stage => { stage with memo := stage.memo.insert offset value }

/-- Take what is needed of a value, or report the offset it came from. -/
def demand {α : Type} (offset : Nat) : Except KindMismatch α → Eval σ α
  | .ok a => pure a
  | .error e => fail (.kindMismatch offset e)

variable (s : Script) (h : Host σ)

/-- The value of a variable. -/
def variableValue (name : String) : Eval σ Value := do
  match ← ask (h.get name) with
  | some v => return v
  | none => fail (.unknownVariable name)

section Nodes

variable (eval : Nat → Eval σ Value)

/-- The truth value of an expression. -/
def boolAt (offset : Nat) : Eval σ Bool := do demand offset (← eval offset).asBool

/-- The float of an expression. -/
def floatAt (offset : Nat) : Eval σ Float := do demand offset (← eval offset).asFloat

/-- Apply an operator to its operand. -/
def unary (op : UnaryOp) (operand : Nat) : Eval σ Value :=
  match op with
  | .negate => do return .float (-(← floatAt eval operand))
  | .not => do return .bool (!(← boolAt eval operand))

/-- Compute a float from two. -/
def arithmetic (f : Float → Float → Float) (left right : Nat) : Eval σ Value := do
  let x ← floatAt eval left
  let y ← floatAt eval right
  return .float (f x y)

/-- Compare two floats. -/
def comparison (f : Float → Float → Bool) (left right : Nat) : Eval σ Value := do
  let x ← floatAt eval left
  let y ← floatAt eval right
  return .bool (f x y)

/-- Apply an operator to its operands, the left one first.  `and` and `or` leave the right one alone
when the left one decides. -/
def binary (op : BinaryOp) (left right : Nat) : Eval σ Value :=
  match op with
  | .and => do if ← boolAt eval left then return .bool (← boolAt eval right) else return .bool false
  | .or => do if ← boolAt eval left then return .bool true else return .bool (← boolAt eval right)
  | .equal => do
    let x ← eval left
    let y ← eval right
    return .bool (x.same y)
  | .notEqual => do
    let x ← eval left
    let y ← eval right
    return .bool (!x.same y)
  | .add => arithmetic eval (· + ·) left right
  | .sub => arithmetic eval (· - ·) left right
  | .mul => arithmetic eval (· * ·) left right
  | .div => arithmetic eval (· / ·) left right
  | .mod => arithmetic eval Number.remainder left right
  | .less => comparison eval (fun x y => decide (x < y)) left right
  | .lessEqual => comparison eval (fun x y => decide (x ≤ y)) left right
  | .greater => comparison eval (fun x y => decide (x > y)) left right
  | .greaterEqual => comparison eval (fun x y => decide (x ≥ y)) left right

/-- Change the float of a variable; the variable is read before the operand. -/
def updated (offset : Nat) (name : String) (f : Float → Float → Float) (operand : Nat) :
    Eval σ Value := do
  let current ← demand offset (← variableValue h name).asFloat
  let x ← floatAt eval operand
  return .float (f current x)

/-- The value that an assignment stores. -/
def assigned (offset : Nat) (op : AssignOp) (name : String) (operand : Nat) : Eval σ Value :=
  match op with
  | .set => eval operand
  | .add => updated h eval offset name (· + ·) operand
  | .sub => updated h eval offset name (· - ·) operand
  | .mul => updated h eval offset name (· * ·) operand
  | .div => updated h eval offset name (· / ·) operand

/-- Assign to a variable, unless that has been done. -/
def assign (offset : Nat) (op : AssignOp) (name operand : Nat) : Eval σ Value := do
  if (← remembered? offset).isSome then return .void
  let name ← read (s.string name)
  let value ← assigned h eval offset op name operand
  askFor name (h.set name value)
  remember offset .void
  return .void

/-- Make a call of the host, or stop until its result is there. -/
def request (offset : Nat) (name : String) (awaited : Bool) (args : List Value) : Eval σ Value := do
  if awaited then
    match ← askFor name (h.await name args) with
    | .ready value => return value
    | .pending => throw (.pending offset name)
  else askFor name (h.call name args)

/-- Call a function, unless its result is there. -/
def call (offset : Nat) (name : String) (awaited : Bool) (args : List Nat) : Eval σ Value := do
  match ← remembered? offset with
  | some value => return value
  | none =>
    let args ← args.mapM eval
    let value ← request h offset name awaited args
    remember offset value
    return value

/-- The value of a node, given the values of expressions further on.  Directives have none: they act
through the line that carries them. -/
def node (offset : Nat) : Node → Eval σ Value
  | .float index => do return .float (← read (s.float index))
  | .string index => do return .string (← read (s.string index))
  | .bool value => return .bool value
  | .variable name => do variableValue h (← read (s.string name))
  | .call name awaited args => do
    let name ← read (s.string name)
    call h eval offset name awaited args
  | .unary op operand => unary eval op operand
  | .binary op left right => binary eval op left right
  | .assign op name operand => assign s h eval offset op name operand
  | .auto | .goto _ | .speed _ | .pause _ => return .void

end Nodes

/-- The value of an expression that nests less than `fuel` deep. -/
def within : Nat → Nat → Eval σ Value
  | 0, offset => fail (.code (.unexpectedEnd offset))
  | fuel + 1, offset => do
    let (n, _) ← read (s.decodeExpr offset)
    node s h (within fuel) offset n

/-- The value of the expression at an offset. -/
def expr (offset : Nat) : Eval σ Value := within s h (s.words.size + 1) offset

end Eval

end Colloquy
