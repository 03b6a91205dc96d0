import Colloquy.Number.Printed
import Colloquy.Number.Read
import Colloquy.Timeline.Markup

/-!
# Control tags and timelines

Some groups control how a line is played: they are taken out of the text and put on its timeline, each
at the number of visible characters in front of it.  All other groups are markup for the renderer and
stay in the text.
-/

namespace Colloquy

/-- A control tag. -/
inductive Tag where
  | auto
  | finish
  | goto (target : String)
  /-- A pause of some seconds, or until the player goes on. -/
  | pause (seconds : Option Float)
  | speed (rate : Float)
  | prompt
  | scroll
  | page
  deriving DecidableEq, Repr

namespace Tag

/-- A tag as text. -/
def render : Tag → String
  | .auto => "auto"
  | .finish => "end"
  | .goto target => "goto=" ++ target
  | .pause none => "pause"
  | .pause (some seconds) => "pause=" ++ Number.plain seconds
  | .speed rate => "speed=" ++ Number.plain rate
  | .prompt => "prompt"
  | .scroll => "scroll"
  | .page => "page"

/-- Whether playback waits for the player before it goes on past a tag. -/
def awaits : Tag → Bool
  | .pause none | .prompt | .page => true
  | _ => false

/-- The names of the control tags. -/
def reserved : List String := ["auto", "end", "goto", "pause", "speed", "prompt", "scroll", "page"]

/-- The tag of a name and an argument, if the argument is one the tag takes. -/
def of? (name : String) (argument : Option String) : Option Tag :=
  match name, argument with
  | "auto", none => some .auto
  | "end", none => some .finish
  | "goto", some target => if target.isEmpty then none else some (.goto target)
  | "pause", none => some (.pause none)
  | "pause", some seconds => (Number.parse? seconds).map fun x => .pause (some x)
  | "speed", some rate => (Number.parse? rate).map .speed
  | "prompt", none => some .prompt
  | "scroll", none => some .scroll
  | "page", none => some .page
  | _, _ => none

/-- The name in a group: what stands before the first equals sign, without blanks around it. -/
def nameOf (body : List Char) : String := String.ofList (Text.trim (body.takeWhile (· ≠ '=')))

/-- The argument in a group: what stands after the first equals sign, without blanks around it. -/
def argumentOf (body : List Char) : Option String :=
  match body.dropWhile (· ≠ '=') with
  | _ :: argument => some (String.ofList (Text.trim argument))
  | [] => none

/-- Whether a group is a control tag, well formed or not. -/
def isControl (body : List Char) : Bool := reserved.contains (nameOf body)

/-- The tag of a group, if it is well formed. -/
def ofGroup? (body : List Char) : Option Tag := of? (nameOf body) (argumentOf body)

end Tag

/-- A tag on a timeline: it fires when `offset` visible characters are shown. -/
structure Cue where
  tag : Tag
  offset : Nat
  deriving DecidableEq, Repr

/-- A cue as text. -/
def Cue.render (c : Cue) : String := c.tag.render ++ "@" ++ toString c.offset

/-- A text without its control tags, and their timeline. -/
structure TimedText where
  text : String
  cues : List Cue
  deriving DecidableEq, Repr

/-- Whether a piece is a control tag. -/
def Piece.isControl : Piece → Bool
  | .char _ => false
  | .group body => Tag.isControl body

/-- The cues of the control tags among pieces, with `shown` visible characters in front.  Malformed
tags give none. -/
def cuesFrom : Nat → List Piece → List Cue
  | _, [] => []
  | shown, .char _ :: ps => cuesFrom (shown + 1) ps
  | shown, .group body :: ps =>
    if Tag.isControl body then
      ((Tag.ofGroup? body).map fun tag => (⟨tag, shown⟩ : Cue)).toList ++ cuesFrom shown ps
    else cuesFrom shown ps

/-- Take the control tags out of a text and put them on its timeline. -/
def interpolate (text : String) : TimedText :=
  let ps := pieces text.toList
  ⟨String.ofList (piecesText (ps.filter fun p => !p.isControl)), cuesFrom 0 ps⟩

/-- The tags of a timed text in order. -/
def TimedText.tags (t : TimedText) : List Tag := t.cues.map Cue.tag

end Colloquy
