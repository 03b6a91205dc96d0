import Colloquy.Code.Listing
import Colloquy.Diagnostic
import Colloquy.Timeline.Typewriter

/-!
# What the player sees

Events, calls, listings and diagnostics as the console prints them.  A line is printed the way the
typewriter reveals it, with what its cues ask for in between.
-/

namespace Colloquy.Console

/-- A part of a printed line. -/
inductive LinePart where
  | text (slice : List Char)
  | event (event : Event)

/-- The parts of a line whose first `shown` characters are printed: each reveal prints what is new
since the one before, and the rest of the line comes last. -/
def lineParts (text : String) : Nat → List Typewriter.Step → List LinePart
  | shown, [] => [.text (text.toList.drop shown)]
  | shown, .reveal count :: steps =>
    let stop := (revealed text count).length
    .text ((text.toList.take stop).drop shown) :: lineParts text stop steps
  | shown, .event e :: steps => .event e :: lineParts text shown steps

/-- A part of a line as printed. -/
def LinePart.render : LinePart → String
  | .text slice => String.ofList slice
  | .event e => "<" ++ e.render ++ ">"

/-- A line as printed. -/
def renderLine (speakers : List String) (text : String) (timeline : List Cue) : String :=
  let steps := (Typewriter.frames text timeline).map (·.step)
  (if speakers.isEmpty then "" else ", ".intercalate speakers ++ ": ")
    ++ String.join ((lineParts text 0 steps).map LinePart.render) ++ "\n"

/-- An option with its number. -/
def renderOption (index : Nat) (c : Choice) : String := "  " ++ toString index ++ ") " ++ c.text ++ "\n"

/-- An event as printed. -/
def renderEvent : Event → String
  | .line speakers text timeline => renderLine speakers text timeline
  | .choice choices => String.join (choices.mapIdx renderOption)
  | .ended => "-- end --\n"
  | e => e.render ++ "\n"

/-- A call as echoed. -/
def renderCall (name : String) (args : List Value) : String :=
  "call " ++ name ++ "(" ++ ", ".intercalate (args.map fun v => v.toJson.compact) ++ ")\n"

/-- A refusal as printed. -/
def renderRefusal (message : String) : String := "\n  × " ++ message ++ "\n\n"

/-- A row of a listing as printed. -/
def renderRow (r : ListingRow) : String :=
  match r.entry with
  | .ok (code, operands) => Text.padded 4 r.offset ++ " | " ++ code.name ++ " " ++ operands ++ "\n"
  | .error e => "Error reading code: " ++ e.message ++ "\n"

/-- The listing of a script under a title. -/
def renderListing (title : String) (s : Script) : String :=
  "== " ++ title ++ " ==\n" ++ String.join (s.listing.map renderRow)

/-- Records for tools. -/
def renderRecords (records : List DiagnosticRecord) : String :=
  (Json.array (records.map DiagnosticRecord.toJson)).pretty ++ "\n"

/-- A record for the player, with lines and columns counted from one. -/
def renderRecord (r : DiagnosticRecord) : String :=
  let line := r.line + 1
  let column := r.columnStart + 1
  r.severity.name ++ s!" at {line}:{column}: " ++ r.message ++ "\n"

end Colloquy.Console
