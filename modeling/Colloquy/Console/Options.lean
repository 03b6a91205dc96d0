/-!
# Command lines

The arguments of the command: one script, and options before or behind it.  The options are looked for
one after another, each at its first place, so the value of an option may itself look like an option.
Whatever is left over makes the command line unusable.
-/

namespace Colloquy.Console

/-- What a command line asks for. -/
structure Options where
  /-- The file that lists what scripts may use. -/
  registry : Option String
  /-- The section to start at. -/
  entry : String
  /-- The file to store the compiled script in. -/
  emit : Option String
  /-- Print a listing in place of playing. -/
  disassemble : Bool
  /-- Warnings are errors. -/
  strict : Bool
  /-- Print what is reported as a document. -/
  jsonDiagnostics : Bool
  /-- The script. -/
  file : String
  deriving DecidableEq, Repr

/-- Take an option and its value out of some arguments.  An option at the end has no value. -/
def takeValue? (flag : String) : List String → Option (Option String × List String)
  | [] => some (none, [])
  | arg :: args =>
    if arg = flag then
      match args with
      | [] => none
      | value :: rest => some (some value, rest)
    else (takeValue? flag args).map fun (value, rest) => (value, arg :: rest)

/-- Take an option without a value out of some arguments. -/
def takeFlag (flag : String) (args : List String) : Bool × List String :=
  (args.contains flag, args.erase flag)

/-- Whether an argument has the form of an option. -/
def isFlag (arg : String) : Bool := arg.toList.take 2 = ['-', '-']

/-- Take the first argument that is not an option. -/
def takeFile : List String → Option String × List String
  | [] => (none, [])
  | arg :: args =>
    if isFlag arg then
      let (file, rest) := takeFile args
      (file, arg :: rest)
    else (some arg, args)

/-- Read a command line. -/
def Options.parse? (args : List String) : Option Options := do
  let (registry, args) ← takeValue? "--registry" args
  let (entry, args) ← takeValue? "--section" args
  let (emit, args) ← takeValue? "--emit" args
  let (disassemble, args) := takeFlag "--disassemble" args
  let (strict, args) := takeFlag "--strict" args
  let (jsonDiagnostics, args) := takeFlag "--json-diagnostics" args
  match takeFile args with
  | (some file, []) =>
    return ⟨registry, entry.getD "start", emit, disassemble, strict, jsonDiagnostics, file⟩
  | _ => none

/-- How the command is used. -/
def usage : String :=
  "Usage: colloquy [--registry <file>] [--section <name>] [--disassemble] " ++
    "[--emit <file>] [--strict] [--json-diagnostics] <script>"

end Colloquy.Console
