import Colloquy.Proofs.Pool
import Colloquy.Session.Basic

/-!
# Playing a session

A playthrough is driven by moves, and answers each of them.  An advance that exceeds its limit has no
answer, and the playthrough goes no further.
-/

namespace Colloquy

/-- What a playthrough is asked to do. -/
inductive Move where
  | start (name : String)
  /-- Go on, over at most so many statements. -/
  | advance (limit : Nat)
  | select (index : Nat)
  | complete (result : Except HostError Value)

/-- The answer to a move: the events on the way, or why it failed. -/
abbrev Reply := Except SessionError (List Event)

namespace Session

variable {σ : Type}

/-- Make a move. -/
def move (h : Host σ) (s : Session) (memory : σ) : Move → Option (Reply × Session × σ)
  | .start name =>
    let (reply, s) := s.start name
    some (reply.map fun _ => [], s, memory)
  | .advance limit =>
    match s.advance h limit memory with
    | some (reply, s, memory) => some (reply.map Buffer.items, s, memory)
    | none => none
  | .select index =>
    let (reply, s) := s.select index
    some (reply.map fun _ => [], s, memory)
  | .complete result =>
    let (reply, s) := s.complete result
    some (reply.map fun _ => [], s, memory)

/-- Make moves one after another.  Each answer comes with what the host remembers after the move. -/
def play (h : Host σ) : Session → σ → List Move → Option (List (Reply × σ))
  | _, _, [] => some []
  | s, memory, m :: ms => do
    let (reply, s, memory) ← s.move h memory m
    return (reply, memory) :: (← play h s memory ms)

/-- A statement that is broken off leaves the session as it is, but for a buffer. -/
theorem exists_breakOff (s : Session) : ∃ pool, s.breakOff = { s with choicePool := pool } ∧
    (s.choicePool.Clean → pool.Clean) := by
  rw [breakOff]
  split
  · exact ⟨_, rfl, fun hclean => hclean.take.2⟩
  · exact ⟨_, rfl, id⟩

end Session

end Colloquy
