import Colloquy.Event

/-!
# The typewriter

A line is revealed the way a typewriter writes it: up to the next cue, then what the cue asks for, and
so on to the end of the text.  A cue past the end fires at the end, and one that was passed already
fires at once.  The tags that steer the script rather than the reveal ask for nothing.
-/

namespace Colloquy

/-- What a tag asks for while a line is revealed. -/
def Tag.events : Tag → List Event
  | .auto => [.auto]
  | .pause none | .prompt => [.prompt]
  | .page => [.prompt, .scroll]
  | .pause (some seconds) => [.pause seconds]
  | .speed rate => [.speed rate]
  | .scroll => [.scroll]
  | .goto _ | .finish => []

namespace Typewriter

/-- A step of the reveal. -/
inductive Step where
  /-- Show the first `count` visible characters. -/
  | reveal (count : Nat)
  | event (event : Event)
  deriving DecidableEq, Repr

/-- A step, and the number of characters shown after it. -/
structure Frame where
  step : Step
  shown : Nat
  deriving DecidableEq, Repr

/-- The frames of a cue when `shown` characters are out. -/
def cueFrames (shown : Nat) (c : Cue) : List Frame := c.tag.events.map fun e => ⟨.event e, shown⟩

/-- The frames of a timeline over `length` visible characters, `shown` of which are out. -/
def framesFrom (length : Nat) : Nat → List Cue → List Frame
  | shown, [] => if shown < length then [⟨.reveal length, length⟩] else []
  | shown, c :: cs =>
    let target := min c.offset length
    if target ≤ shown then cueFrames shown c ++ framesFrom length shown cs
    else ⟨.reveal target, target⟩ :: (cueFrames target c ++ framesFrom length target cs)

/-- The frames of a text with a timeline. -/
def frames (text : String) (timeline : List Cue) : List Frame :=
  framesFrom (visibleLength text) 0 timeline

end Typewriter

end Colloquy
