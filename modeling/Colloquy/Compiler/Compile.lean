import Colloquy.Compiler.Lowering
import Colloquy.Parser.Story

/-!
# Compiling

From a story, or from its source, to a script and all that is reported on the way.  There is always a
script, even when errors make parts of it meaningless.
-/

namespace Colloquy

/-- A script and what was reported while it was made. -/
structure Compilation where
  script : Script
  diagnostics : List Diagnostic
  options : CompileOptions

namespace Compilation

/-- Whether anything reported counts as an error. -/
def hasErrors (c : Compilation) : Bool :=
  c.diagnostics.any fun d => c.options.strictWarnings || d.severity = .error

/-- The diagnostics as records of a source. -/
def records (c : Compilation) (source : String) : List DiagnosticRecord :=
  let index := LineIndex.ofSource source
  c.diagnostics.map (Diagnostic.toRecord index)

end Compilation

/-- The draft nothing is lowered into yet. -/
def Draft.empty : Draft := ⟨.empty, ∅, []⟩

/-- Compile a story. -/
def compile (r : Registry) (o : CompileOptions) (s : Story) : Compilation :=
  let draft := ((Lower.story r o s).run .empty).2
  let (script, unresolved) := draft.assembly.finish
  let unknown := unresolved.map fun m => CompileError.unknownSection m.source.name m.source.span
  ⟨script, (draft.errors ++ unknown).map .compile, o⟩

/-- Scan, parse and compile a source.  Statements before the first section belong to a section of the
name `implicit`, if one is given. -/
def compileText (r : Registry) (o : CompileOptions) (implicit : Option String) (source : String) :
    Compilation :=
  let items := scan source
  let (story, errors) := parseTokens implicit (tokensOf items)
  let c := compile r o story
  { c with diagnostics :=
      (errorsOf items).map .scan ++ errors.map .parse ++ c.diagnostics }

end Colloquy
