import Colloquy.Number.Remainder
import Colloquy.Proofs.Session.Play
import Colloquy.Registry
import Colloquy.Story.Basic

/-!
# Telling a story

What a story means, without a script: its statements are told in their order, straight from the story.
What is left to tell (`Rest`) is a list of statements and the way on behind the last one.  A
conditional puts the statements of a branch in front of what is left, a jump replaces all of it, and
an option leads through its body to its target or to what is left.

Faults and options carry offsets in a session.  There are none here, and `0` stands in their place.
-/

namespace Colloquy

/-- The value of a literal. -/
def Literal.value : Literal → Value
  | .float x => .float x
  | .string x => .string x
  | .bool b => .bool b

/-- The defaults of parameters up to the first without one; void is no default. -/
def Parameter.defaults : List Parameter → List Value
  | [] => []
  | p :: ps =>
    match p.fallback with
    | none | some .void => []
    | some v => v :: defaults ps

/-- What a call of a function with a number of arguments takes for the others. -/
def Registry.defaults (r : Registry) (name : String) (given : Nat) : List Value :=
  match r.findFunction? name with
  | some f => Parameter.defaults (f.params.drop given)
  | none => []

/-- Telling asks a host, and may stop with a fault. -/
abbrev Tell (σ : Type) := EStateM SessionError σ

namespace Tell

variable {σ α : Type}

/-- Make a request of the host. -/
def ask (m : StateM σ α) : Tell σ α := fun memory =>
  let (a, memory) := m memory
  .ok a memory

/-- Make a request that the host may refuse on behalf of a name. -/
def askFor (name : String) (m : StateM σ (Except HostError α)) : Tell σ α := do
  match ← ask m with
  | .ok a => return a
  | .error e => throw (.ofHost name e)

/-- Take what is needed of a value. -/
def demand : Except KindMismatch α → Tell σ α
  | .ok a => return a
  | .error e => throw (.kindMismatch 0 e)

/-- The truth value of a value. -/
def truth (m : Tell σ Value) : Tell σ Bool := do demand (← m).asBool

/-- The float of a value. -/
def number (m : Tell σ Value) : Tell σ Float := do demand (← m).asFloat

/-! ## Expressions -/

/-- Apply an operator to its operand. -/
def unary (op : UnaryOp) (m : Tell σ Value) : Tell σ Value :=
  match op with
  | .negate => do return .float (-(← number m))
  | .not => do return .bool (!(← truth m))

/-- Compute a float from two. -/
def arithmetic (f : Float → Float → Float) (left right : Tell σ Value) : Tell σ Value := do
  let x ← number left
  let y ← number right
  return .float (f x y)

/-- Compare two floats. -/
def comparison (f : Float → Float → Bool) (left right : Tell σ Value) : Tell σ Value := do
  let x ← number left
  let y ← number right
  return .bool (f x y)

/-- Apply an operator to its operands, the left one first; `and` and `or` may leave the right one
alone. -/
def binary (op : BinaryOp) (left right : Tell σ Value) : Tell σ Value :=
  match op with
  | .and => do if ← truth left then return .bool (← truth right) else return .bool false
  | .or => do if ← truth left then return .bool true else return .bool (← truth right)
  | .equal => do
    let x ← left
    let y ← right
    return .bool (x.same y)
  | .notEqual => do
    let x ← left
    let y ← right
    return .bool (!x.same y)
  | .add => arithmetic (· + ·) left right
  | .sub => arithmetic (· - ·) left right
  | .mul => arithmetic (· * ·) left right
  | .div => arithmetic (· / ·) left right
  | .mod => arithmetic Number.remainder left right
  | .less => comparison (fun x y => decide (x < y)) left right
  | .lessEqual => comparison (fun x y => decide (x ≤ y)) left right
  | .greater => comparison (fun x y => decide (x > y)) left right
  | .greaterEqual => comparison (fun x y => decide (x ≥ y)) left right

variable (r : Registry) (h : Host σ)

/-- The value of a variable. -/
def variableValue (name : String) : Tell σ Value := do
  match ← ask (h.get name) with
  | some v => return v
  | none => throw (.unknownVariable name)

/-- Change the float of a variable; the variable is read before the operand. -/
def updated (name : String) (f : Float → Float → Float) (m : Tell σ Value) : Tell σ Value := do
  let current ← number (variableValue h name)
  let x ← number m
  return .float (f current x)

/-- The value that an assignment stores. -/
def assigned (op : AssignOp) (name : String) (m : Tell σ Value) : Tell σ Value :=
  match op with
  | .set => m
  | .add => updated h name (· + ·) m
  | .sub => updated h name (· - ·) m
  | .mul => updated h name (· * ·) m
  | .div => updated h name (· / ·) m

/-- Assign to a variable. -/
def assign (op : AssignOp) (name : String) (m : Tell σ Value) : Tell σ Value := do
  let value ← assigned h op name m
  askFor name (h.set name value)
  return .void

/-- Call a function.  Stories are told without waiting, so the answer has to be there at once. -/
def request (name : String) (awaited : Bool) (args : List Value) : Tell σ Value := do
  if awaited then
    match ← askFor name (h.await name args) with
    | .ready value => return value
    | .pending => throw (.host name (.failed "no answer"))
  else askFor name (h.call name args)

mutual

/-- The value of an expression. -/
def expr : Expr → Tell σ Value
  | .literal v _ => return v.value
  | .variable x => variableValue h x.name
  | .group e => expr e
  | .unary op e => unary op.val (expr e)
  | .binary op left right => binary op.val (expr left) (expr right)
  | .assign x op e => assign h op.val x.name (expr e)
  | .call f args awaited _ => do
    let values ← exprs args
    request h f.name awaited.isSome (values ++ r.defaults f.name args.length)

/-- The values of expressions. -/
def exprs : List Expr → Tell σ (List Value)
  | [] => return []
  | e :: es => do
    let v ← expr e
    return v :: (← exprs es)

end

/-! ## Parts of statements -/

/-- A stretch of text. -/
def segment : Segment → Tell σ String
  | .text t => return t.val
  | .placeholder e => do return (← expr r h e).text

/-- A text of stretches. -/
def text (segments : List Segment) : Tell σ String := do
  return String.join (← segments.mapM (segment r h))

/-- The value of a key: the last of its values; a key without values is a flag. -/
def hashValue : List Expr → Tell σ Value
  | [] => return .bool true
  | es => do return (← es.mapM (expr r h)).getLastD .void

/-- Hash data, later keys over earlier ones. -/
def hash : Catalog Value → List HashEntry → Tell σ (Catalog Value)
  | data, [] => return data
  | data, e :: es => do
    let value ← hashValue r h e.values
    hash (data.insert e.key.name value) es

/-- The name of a speaker. -/
def speaker : SpeakerRef → Tell σ String
  | .named x => return x.name
  | .variable x => do
    let value ← variableValue h x.name
    askFor "get_name" (h.nameOf value)

/-! ## The way through a story -/

/-- The way on behind the last statement. -/
inductive Exit where
  /-- The end of the story. -/
  | finish
  /-- On to a section. -/
  | enter (name : String)
  deriving DecidableEq, Repr

/-- What is left to tell. -/
structure Rest where
  stmts : List Stmt
  exit : Exit

/-- Tell a block first. -/
def Rest.push (rest : Rest) (b : List Stmt) : Rest := { rest with stmts := b ++ rest.stmts }

/-- Go to a section, if there is one to go to. -/
def Rest.to (rest : Rest) : Option String → Rest
  | some name => ⟨[], .enter name⟩
  | none => rest

/-- The events and the target of directives; the last `goto` decides. -/
def directives (target : Option String) : List (Spanned Directive) →
    Tell σ (List Event × Option String)
  | [] => return ([], target)
  | ⟨.goto x, _⟩ :: ds => directives (some x.name) ds
  | ⟨.auto, _⟩ :: ds => do
    let (events, target) ← directives target ds
    return (.auto :: events, target)
  | ⟨.speed e, _⟩ :: ds => do
    let rate ← number (expr r h e)
    let (events, target) ← directives target ds
    return (.speed rate :: events, target)
  | ⟨.pause e, _⟩ :: ds => do
    let seconds ← number (expr r h e)
    let (events, target) ← directives target ds
    return (.pause seconds :: events, target)

/-- The section of a name. -/
def findSection? (story : Story) (name : String) : Option Section :=
  story.find? fun s => s.name.name = name

/-- Where the tags of a line lead, and whether they end the story.  The last `goto` decides. -/
def steer (story : Story) (target : Option String) (ending : Bool) :
    List Tag → Tell σ (Option String × Bool)
  | [] => return (target, ending)
  | .goto name :: tags =>
    match findSection? story name with
    | some _ => steer story (some name) ending tags
    | none => throw (.unknownSection name)
  | .finish :: tags => steer story target true tags
  | _ :: tags => steer story target ending tags

/-- An option: what is shown, and what is told once it is selected. -/
structure Offer where
  text : String
  enabled : Bool
  rest : Rest

/-- What telling a statement comes to. -/
inductive Told where
  | proceed (rest : Rest) (events : List Event)
  | present (rest : Rest) (ending : Bool) (events : List Event)
  | offer (rest : Rest) (offers : List Offer)
  | finish

/-- A line without hash data. -/
def line (story : Story) (rest : Rest) (l : Line) : Tell σ Told := do
  let raw ← text r h l.text
  let (events, target) ← directives r h none l.directives
  let speakers ← l.speakers.mapM (speaker h)
  let timed := interpolate raw
  let (target, ending) ← steer story target false timed.tags
  return .present (rest.to target) ending (.line speakers timed.text timed.cues :: events)

/-- Whether the guard of an option holds. -/
def guard : Option Expr → Tell σ Bool
  | some e => truth (expr r h e)
  | none => return true

mutual

/-- The options of an item. -/
def item (rest : Rest) : ChoiceItem → Tell σ (List Offer)
  | .option g ss target body _ => do
    let enabled ← guard r h g
    let raw ← text r h ss
    return [⟨(interpolate raw).text, enabled, (rest.to (target.map Ident.name)).push (body.getD [])⟩]
  | .filter branches otherwise _ => firstItems rest (otherwiseItems rest otherwise) branches

/-- The options of items. -/
def items (rest : Rest) : List ChoiceItem → Tell σ (List Offer)
  | [] => return []
  | i :: is => do
    let first ← item rest i
    return first ++ (← items rest is)

/-- The options of the first branch whose condition holds, or those of `last`. -/
def firstItems (rest : Rest) (last : Tell σ (List Offer)) :
    List (Expr × List ChoiceItem) → Tell σ (List Offer)
  | [] => last
  | (e, is) :: branches => do
    if ← truth (expr r h e) then items rest is else firstItems rest last branches

/-- The options of the last branch. -/
def otherwiseItems (rest : Rest) : Option (List ChoiceItem) → Tell σ (List Offer)
  | none => return []
  | some is => items rest is

end

/-- The first branch whose condition holds, or `last`. -/
def firstBranch (last : List Stmt) : List (Expr × List Stmt) → Tell σ (List Stmt)
  | [] => return last
  | (e, b) :: branches => do
    if ← truth (expr r h e) then return b else firstBranch last branches

/-- Tell a statement, with what is left behind it.  The hash data of a line comes before the line. -/
def stmt (story : Story) (rest : Rest) : Stmt → Tell σ Told
  | .line l =>
    match l.hash with
    | some b => do
      let data ← hash r h ∅ b.entries
      return .proceed (rest.push [.line { l with hash := none }]) [.hash none data]
    | none => line r h story rest l
  | .instruction e => do
    let _ ← expr r h e
    return .proceed rest []
  | .goto x => return .proceed ⟨[], .enter x.name⟩ []
  | .finish _ => return .finish
  | .conditional branches otherwise _ => do
    let b ← firstBranch r h (otherwise.getD []) branches
    return .proceed (rest.push b) []
  | .choice is _ => do return .offer rest (← items r h rest is)
  | .hash b => do return .proceed rest [.hash none (← hash r h ∅ b.entries)]
  | .speaker x b _ => do return .proceed rest [.hash (some x.name) (← hash r h ∅ b.entries)]

/-- Tell the next statement.  Behind the last one the story ends or goes on with a section, and the
end of a section is the end of the story. -/
def next (story : Story) : Rest → Tell σ Told
  | ⟨x :: xs, exit⟩ => stmt r h story ⟨xs, exit⟩ x
  | ⟨[], .finish⟩ => return .finish
  | ⟨[], .enter name⟩ =>
    match findSection? story name with
    | some s => return .proceed ⟨s.body, .finish⟩ []
    | none => throw (.unknownSection name)

end Tell

/-! ## Playthroughs -/

/-- A playthrough of a story. -/
structure Telling where
  status : Status
  rest : Tell.Rest
  /-- The line on show ends the story. -/
  ending : Bool
  offers : List Tell.Offer

namespace Telling

variable {σ : Type} (r : Registry) (story : Story) (h : Host σ)

/-- The playthrough before it starts. -/
def idle : Telling := ⟨.idle, ⟨[], .finish⟩, false, []⟩

/-- An option as it is shown. -/
def shown (o : Tell.Offer) : Choice := ⟨0, o.text, o.enabled⟩

/-- Start at a section. -/
def start (t : Telling) (name : String) : Except SessionError Unit × Telling :=
  match Tell.findSection? story name with
  | none => (.error (.unknownSection name), t)
  | some _ => (.ok (), { t with status := .running, rest := ⟨[], .enter name⟩, ending := false })

/-- Take in what a statement came to.  A choice of which no option is enabled is passed over. -/
def take (t : Telling) : Tell.Told → Step × Telling
  | .proceed rest events => (.on events, { t with rest })
  | .present rest ending events => (.wait events, { t with rest, ending })
  | .offer rest offers =>
    if offers.any (·.enabled) then
      (.wait [.choice (offers.map shown)], { t with status := .awaitingChoice, offers })
    else (.on [], { t with rest })
  | .finish => (.wait [.ended], { t with status := .ended })

/-- Tell one statement, or end after a line that ends the story. -/
def step (t : Telling) (memory : σ) : Step × Telling × σ :=
  if t.ending then (.wait [.ended], { t with status := .ended, ending := false }, memory)
  else
    match Tell.next r h story t.rest memory with
    | .ok told memory =>
      let (step, t) := t.take told
      (step, t, memory)
    | .error e memory => (.fault e, { t with status := .ended }, memory)

/-- Tell statements until the playthrough waits, at most `limit` of them, behind the events so far. -/
def advanceFrom : Nat → List Event → Telling → σ → Option (Reply × Telling × σ)
  | 0, _, _, _ => none
  | limit + 1, events, t, memory =>
    match t.step r story h memory with
    | (.on more, t, memory) => advanceFrom limit (events ++ more) t memory
    | (.wait more, t, memory) => some (.ok (events ++ more), t, memory)
    | (.fault e, t, memory) => some (.error e, t, memory)

/-- Tell on until the playthrough waits, and return the events on the way. -/
def advance (limit : Nat) (t : Telling) (memory : σ) : Option (Reply × Telling × σ) :=
  if t.status = .running then advanceFrom r story h limit [] t memory
  else some (.error (.invalidState .advance t.status), t, memory)

/-- Select one of the options on offer by its number. -/
def select (t : Telling) (index : Nat) : Except SessionError Unit × Telling :=
  if t.status ≠ .awaitingChoice then (.error (.invalidState .select t.status), t)
  else
    match t.offers[index]? with
    | none => (.error (.invalidChoice index t.offers.length), t)
    | some o =>
      if o.enabled then (.ok (), { t with status := .running, rest := o.rest })
      else (.error (.disabledChoice index), t)

/-- Make a move.  Nothing is ever awaited, so there is nothing to complete. -/
def move (t : Telling) (memory : σ) : Move → Option (Reply × Telling × σ)
  | .start name =>
    let (reply, t) := t.start story name
    some (reply.map fun _ => [], t, memory)
  | .advance limit => t.advance r story h limit memory
  | .select index =>
    let (reply, t) := t.select index
    some (reply.map fun _ => [], t, memory)
  | .complete _ => some (.error (.invalidState .complete t.status), t, memory)

/-- Make moves one after another.  Each answer comes with what the host remembers after the move. -/
def play : Telling → σ → List Move → Option (List (Reply × σ))
  | _, _, [] => some []
  | t, memory, m :: ms => do
    let (reply, t, memory) ← t.move r story h memory m
    return (reply, memory) :: (← play t memory ms)

end Telling

end Colloquy
