import Colloquy.Compiler.Compile
import Colloquy.Console.Game
import Colloquy.Console.Options

/-!
# Commands

A command compiles a script, reports what there is to report, and then stores, lists or plays it.  The
steps up to the game depend only on the options and the files; `Command.run` joins them with a game on a
given input.
-/

namespace Colloquy.Console

/-- What follows the report on a script. -/
inductive Task where
  | exit (code : Nat) (output : String)
  | play (entry : String)

/-- What a command does with a script: print the report, store the script if there is a file for it, and
go on. -/
structure Plan where
  report : String
  stored : Option (String × String)
  task : Task
  script : Script
  registry : Registry

/-- The exit code for a script with errors. -/
def rejected : Nat := 70

/-- The exit code for everything else that goes wrong. -/
def failed : Nat := 1

/-- The report on a compilation. -/
def Options.report (o : Options) (records : List DiagnosticRecord) : String :=
  if o.jsonDiagnostics then renderRecords records else String.join (records.map renderRecord)

/-- What to do with a script without errors. -/
def Options.task (o : Options) (script : Script) : Task :=
  if o.disassemble then .exit 0 (renderListing o.file script)
  else if o.jsonDiagnostics then .exit 0 ""
  else .play o.entry

/-- Compile a source and decide what to do with it. -/
def Options.plan (o : Options) (registry : Registry) (source : String) : Plan :=
  let c := compileText registry { strictWarnings := o.strict } none source
  let report := o.report (c.records source)
  if c.hasErrors then ⟨report, none, .exit rejected "", c.script, registry⟩
  else
    ⟨report, o.emit.map fun path => (path, c.script.render), o.task c.script, c.script, registry⟩

/-- The registry that the options name, given the files that can be read. -/
def Options.registry? (o : Options) (read : String → Option String) : Option Registry :=
  match o.registry with
  | some path => do Registry.parse? (← read path)
  | none => some .empty

/-- The plan of a command line, given the files that can be read. -/
def plan? (read : String → Option String) (args : List String) : Option Plan := do
  let o ← Options.parse? args
  let registry ← o.registry? read
  return o.plan registry (← read o.file)

/-- What a finished command leaves behind. -/
structure Finished where
  exit : Nat
  output : String
  stored : Option (String × String)

/-- Carry out what follows the report. -/
def Plan.finish (p : Plan) (limit : Nat) (input : String) : Option Finished :=
  match p.task with
  | .exit code output => some ⟨code, p.report ++ output, p.stored⟩
  | .play entry =>
    ((Game.start limit p.script p.registry entry).run limit (inputLines input)).map
      fun (exit, output) => ⟨exit, p.report ++ output, p.stored⟩

/-- Run a command on the files that can be read, the paths that can be written and an input. -/
def run (limit : Nat) (read : String → Option String) (writable : String → Bool) (input : String)
    (args : List String) : Option Finished :=
  match plan? read args with
  | none => some ⟨failed, "", none⟩
  | some p =>
    if p.stored.all fun (path, _) => writable path then p.finish limit input
    else some ⟨failed, p.report, none⟩

end Colloquy.Console
