import Colloquy.Catalog
import Colloquy.Text.Quoted
import Colloquy.Timeline.Cue
import Colloquy.Value

/-!
# Events

What a playthrough asks its host to present, in the order of the story.
-/

namespace Colloquy

/-- An option offered to the player, and where the script goes on if it is selected. -/
structure Choice where
  next : Nat
  text : String
  enabled : Bool
  deriving DecidableEq, Repr

/-- Events of a playthrough. -/
inductive Event where
  | line (speakers : List String) (text : String) (timeline : List Cue)
  | choice (choices : List Choice)
  | hash (speaker : Option String) (data : Catalog Value)
  | ended
  | speed (rate : Float)
  | pause (seconds : Float)
  | auto
  | prompt
  | scroll
  deriving DecidableEq, Repr

/-- A value in hash data: texts are quoted. -/
def Value.renderQuoted : Value → String
  | .string s => Text.quoted s
  | v => v.text

namespace Event

/-- A choice with its number; a disabled one stands between parentheses. -/
def renderChoice (index : Nat) (c : Choice) : String :=
  toString index ++ ") " ++ if c.enabled then c.text else "(" ++ c.text ++ ")"

/-- An event on one line. -/
def render : Event → String
  | .line speakers text timeline =>
    ", ".intercalate speakers ++ ": " ++ text ++
      if timeline.isEmpty then "" else " [" ++ ", ".intercalate (timeline.map Cue.render) ++ "]"
  | .choice choices => "choice: " ++ " | ".intercalate (choices.mapIdx renderChoice)
  | .hash speaker data =>
    let pairs := data.entries.map fun (key, value) => key ++ ": " ++ value.renderQuoted
    let speaker := match speaker with
      | some s => s ++ " "
      | none => ""
    "hash " ++ speaker ++ "#\x7b" ++ ", ".intercalate pairs ++ "\x7d"
  | .ended => "end"
  | .speed x => "speed " ++ Number.plain x
  | .pause x => "pause " ++ Number.plain x
  | .auto => "auto"
  | .prompt => "prompt"
  | .scroll => "scroll"

end Event

end Colloquy
