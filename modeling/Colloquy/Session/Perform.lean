import Colloquy.Event
import Colloquy.Session.Eval

/-!
# Performing statements

A statement is evaluated in full before anything of it shows: `Eval.statement` ends with what the
statement comes to, and a suspended or faulty statement comes to nothing.  How expressions are
evaluated is left to a parameter `eval`; sessions take `Eval.expr` for it.
-/

namespace Colloquy

open Code

/-- What a statement comes to. -/
inductive Outcome where
  /-- Deliver events and go on. -/
  | proceed (next : Nat) (events : List Event)
  /-- Deliver a line, wait, and go on; or end, if the line says so. -/
  | present (next : Nat) (ending : Bool) (events : List Event)
  /-- Offer options, or go on if none can be selected. -/
  | offer (next : Nat) (choices : List Choice)
  | finish

/-- The state of a filter inside a choice. -/
structure Filter where
  /-- Whether options around the filter are offered. -/
  enclosing : Bool
  /-- Whether a branch was taken. -/
  taken : Bool
  /-- Whether options here are offered. -/
  active : Bool
  deriving DecidableEq, Repr

/-- Whether options are offered inside some filters, the innermost first. -/
def Filter.isOpen : List Filter → Bool
  | [] => true
  | f :: _ => f.active

namespace Eval

variable {σ : Type} (s : Script) (h : Host σ) (eval : Nat → Eval σ Value)

/-- The truth value of a condition. -/
def condition (offset : Nat) : Eval σ Bool := boolAt eval offset

/-- A condition that counts only in some case, and is left alone in all others. -/
def conditionIf (relevant : Bool) (offset : Nat) : Eval σ Bool :=
  if relevant then condition eval offset else pure false

/-- A stretch of text. -/
def segment : TextNode → Eval σ String
  | .text index => read (s.string index)
  | .expr offset => do return (← eval offset).text

/-- A text of stretches. -/
def text (segments : List TextNode) : Eval σ String := do
  return String.join (← segments.mapM (segment s eval))

/-- Hash data.  Of several values of a key the last counts, and a key without values has void. -/
def pairs : Catalog Value → List PairNode → Eval σ (Catalog Value)
  | data, [] => return data
  | data, p :: ps => do
    let values ← p.values.mapM eval
    let key ← read (s.string p.key)
    pairs (data.insert key (values.getLastD .void)) ps

/-! ## Lines -/

/-- The events and the target of directives; the last `goto` decides. -/
def directives (next : Nat) : List Nat → Eval σ (List Event × Nat)
  | [] => return ([], next)
  | d :: ds => do
    let (n, _) ← read (s.decodeExpr d)
    match n with
    | .goto target => directives target ds
    | .auto =>
      let (events, next) ← directives next ds
      return (.auto :: events, next)
    | .speed operand =>
      let rate ← floatAt eval operand
      let (events, next) ← directives next ds
      return (.speed rate :: events, next)
    | .pause operand =>
      let seconds ← floatAt eval operand
      let (events, next) ← directives next ds
      return (.pause seconds :: events, next)
    | _ =>
      let _ ← eval d
      directives next ds

/-- The name of a speaker. -/
def speaker : SpeakerNode → Eval σ String
  | .id index => read (s.speaker index)
  | .variable index => do
    let name ← read (s.string index)
    let value ← variableValue h name
    askFor "get_name" (h.nameOf value)

/-- The offset of a section that a line names, after tags that may have ended the script. -/
def sectionAt (sections : Catalog Nat) (ending : Bool) (name : String) : Eval σ Nat :=
  match sections.find? name with
  | some offset => pure offset
  | none => fail (.unknownSection name) ending

/-- Where the tags of a line send the script, and whether they end it.  A section that is missed is a
fault, and does not undo the tags before it. -/
def steer (sections : Catalog Nat) (next : Nat) (ending : Bool) : List Tag → Eval σ (Nat × Bool)
  | [] => return (next, ending)
  | .goto target :: tags => do steer sections (← sectionAt sections ending target) ending tags
  | .finish :: tags => steer sections next true tags
  | _ :: tags => steer sections next ending tags

/-- A line.  Its speakers come last: nothing after them can suspend, so they are named once. -/
def line (sections : Catalog Nat) (l : LineNode) : Eval σ Outcome := do
  let raw ← text s eval l.segments
  let (events, next) ← directives s eval l.next l.directives
  let speakers ← l.speakers.mapM (speaker s h)
  let timed := interpolate raw
  let (next, ending) ← steer sections next false timed.tags
  return .present next ending (.line speakers timed.text timed.cues :: events)

/-! ## Choices -/

/-- The options among the items of a choice that stand inside open filters, each with its text and
whether its guard holds. -/
def options : List Filter → List ItemNode → Eval σ (List Choice)
  | _, [] => return []
  | filters, .option next guard segments :: items => do
    if Filter.isOpen filters then
      let enabled ← match guard with
        | some offset => condition eval offset
        | none => pure true
      let raw ← text s eval segments
      let rest ← options filters items
      return ⟨next, (interpolate raw).text, enabled⟩ :: rest
    else options filters items
  | filters, .ifMarker offset :: items => do
    let enclosing := Filter.isOpen filters
    let hit ← conditionIf eval enclosing offset
    options (⟨enclosing, hit, hit⟩ :: filters) items
  | f :: filters, .elseIf offset :: items => do
    let hit ← conditionIf eval (f.enclosing && !f.taken) offset
    options ({ f with taken := f.taken || hit, active := hit } :: filters) items
  | f :: filters, .elseMarker :: items =>
    options ({ f with taken := true, active := f.enclosing && !f.taken } :: filters) items
  | _ :: filters, .endIf :: items => options filters items
  | [], _ :: items => options [] items

/-! ## Statements -/

/-- The target of the first condition that holds. -/
def firstBranch (otherwise : Nat) : List (Nat × Nat) → Eval σ Nat
  | [] => return otherwise
  | (offset, next) :: branches => do
    if ← condition eval offset then return next else firstBranch otherwise branches

/-- Evaluate a statement, given the values of its expressions. -/
def statement (sections : Catalog Nat) : Statement → Eval σ Outcome
  | .entry next _ => return .proceed next []
  | .finish => return .finish
  | .line l => line s h eval sections l
  | .instruction next offset => do
    let _ ← eval offset
    return .proceed next []
  | .conditional otherwise branches => do
    return .proceed (← firstBranch eval otherwise branches) []
  | .choice next items => do return .offer next (← options s eval [] items)
  | .hash next entries => do return .proceed next [.hash none (← pairs s eval ∅ entries)]
  | .speaker next index entries => do
    let data ← pairs s eval ∅ entries
    return .proceed next [.hash (some (← read (s.speaker index))) data]

/-- Evaluate the statement at an offset. -/
def statementAt (sections : Catalog Nat) (offset : Nat) : Eval σ Outcome := do
  let (statement, _) ← read (s.decodeStatement offset)
  Eval.statement s h eval sections statement

theorem statementAt_ok {sections : Catalog Nat} {offset stop : Nat} {node : Statement}
    (hdecode : s.decodeStatement offset = .ok (node, stop)) :
    statementAt s h eval sections offset = statement s h eval sections node := by
  rw [statementAt, hdecode]
  rfl

end Eval

end Colloquy
