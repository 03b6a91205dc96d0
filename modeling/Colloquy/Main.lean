import Colloquy.Console.Command

/-!
# The command

Reading files and lines, and printing.
-/

open Colloquy Colloquy.Console

namespace Colloquy.Main

/-- More statements than any script performs between two questions. -/
def limit : Nat := 1 <<< 62

/-- The text of a file, if it can be read. -/
def readFile? (path : String) : IO (Option String) :=
  try return some (← IO.FS.readFile path) catch _ => return none

/-- Print and show at once. -/
def say (text : String) : IO Unit := do
  IO.print text
  (← IO.getStdout).flush

/-- Play from a turn to the end. -/
partial def converse : Turn → IO UInt32
  | .stop exit output => do
    say output
    return exit.toUInt32
  | .ask output game => do
    say output
    let line ← (← IO.getStdin).getLine
    if line.isEmpty then return 0 else converse (game.answer limit (typed line))
  | .busy => return failed.toUInt32

/-- Store the script of a plan, if that is wanted. -/
def store (p : Plan) : IO Bool :=
  match p.stored with
  | none => return true
  | some (path, text) => try IO.FS.writeFile path text; return true catch _ => return false

/-- Carry out a plan. -/
def carryOut (p : Plan) : IO UInt32 := do
  say p.report
  unless ← store p do return failed.toUInt32
  match p.task with
  | .exit code output =>
    say output
    return code.toUInt32
  | .play entry => converse (Game.start limit p.script p.registry entry)

end Colloquy.Main

open Colloquy.Main

/-- Run a command line. -/
def main (args : List String) : IO UInt32 := do
  match Options.parse? args with
  | none =>
    IO.eprintln usage
    return failed.toUInt32
  | some o =>
    let registry ← match o.registry with
      | some path => do pure ((← readFile? path).bind Registry.parse?)
      | none => pure (some .empty)
    match registry, ← readFile? o.file with
    | some registry, some source => carryOut (o.plan registry source)
    | _, _ =>
      IO.eprintln "The files cannot be read"
      return failed.toUInt32
