import Colloquy.Catalog
import Colloquy.Value

/-!
# Registries

A registry lists what a host exposes to scripts: variables with their kinds, and functions with the
kinds and defaults of their parameters.  Scripts are checked against one before they run.  Registry
files list the definitions; in memory they are found by name, and the last of several definitions of
one name stays.
-/

namespace Colloquy

/-- A variable that scripts may read and assign. -/
structure VariableDecl where
  name : String
  kind : Kind
  deriving DecidableEq, Repr

/-- A parameter of a function.  Calls may leave out parameters at the end that have defaults. -/
structure Parameter where
  kind : Kind
  fallback : Option Value
  deriving DecidableEq, Repr

/-- A function that scripts may call. -/
structure FunctionDecl where
  name : String
  returns : Kind
  params : List Parameter
  /-- Whether calls must be awaited. -/
  awaitable : Bool
  deriving DecidableEq, Repr

namespace FunctionDecl

/-- The number of parameters up to the last one without a default. -/
def requiredFrom : List Parameter → Nat
  | [] => 0
  | p :: ps =>
    match requiredFrom ps with
    | 0 => if p.fallback.isNone then 1 else 0
    | n => n + 1

/-- The number of arguments a call must supply. -/
def requiredArity (f : FunctionDecl) : Nat := requiredFrom f.params

/-- The number of arguments a call may supply. -/
def maxArity (f : FunctionDecl) : Nat := f.params.length

end FunctionDecl

/-- What a host exposes to scripts. -/
structure Registry where
  variableDecls : Catalog VariableDecl
  functions : Catalog FunctionDecl
  deriving DecidableEq, Repr, Inhabited

namespace Registry

/-- The registry without definitions. -/
def empty : Registry := ⟨∅, ∅⟩

/-- Add a variable under its name. -/
def addVariable (r : Registry) (v : VariableDecl) : Registry :=
  { r with variableDecls := r.variableDecls.insert v.name v }

/-- Add a function under its name. -/
def addFunction (r : Registry) (f : FunctionDecl) : Registry :=
  { r with functions := r.functions.insert f.name f }

/-- The variable of a name. -/
def findVariable? (r : Registry) (name : String) : Option VariableDecl := r.variableDecls.find? name

/-- The function of a name. -/
def findFunction? (r : Registry) (name : String) : Option FunctionDecl := r.functions.find? name

end Registry

/-! ## Registry files -/

/-- A default in a file: a value, or nothing for `null`. -/
def Parameter.fallbackOfJson? : Option Json → Option (Option Value)
  | none | some .null => some none
  | some j => (Value.ofJson? j).map some

/-- A parameter: `type`, and `default` if it has one. -/
def Parameter.ofJson? (j : Json) : Option Parameter := do
  match ← j.record? ["type", "default"] with
  | [some kind, fallback] => return ⟨← Kind.ofJson? kind, ← fallbackOfJson? fallback⟩
  | _ => none

/-- A parameter as a document. -/
def Parameter.toJson (p : Parameter) : Json :=
  .object (("type", .string p.kind.name) ::
    match p.fallback with
    | none => []
    | some v => [("default", v.toJson)])

/-- A variable: `name` and `type`. -/
def VariableDecl.ofJson? (j : Json) : Option VariableDecl := do
  match ← j.record? ["name", "type"] with
  | [some name, some kind] => return ⟨← name.asString?, ← Kind.ofJson? kind⟩
  | _ => none

/-- A variable as a document. -/
def VariableDecl.toJson (v : VariableDecl) : Json :=
  .object [("name", .string v.name), ("type", .string v.kind.name)]

/-- A field that may be left out. -/
def optionalField {α : Type} (absent : α) (read : Json → Option α) : Option Json → Option α
  | none => some absent
  | some j => read j

/-- A function: `name`, `returns`, and optionally `params` and `awaitable`. -/
def FunctionDecl.ofJson? (j : Json) : Option FunctionDecl := do
  match ← j.record? ["name", "returns", "params", "awaitable"] with
  | [some name, some returns, params, awaitable] =>
    return ⟨← name.asString?, ← Kind.ofJson? returns,
      ← optionalField [] (Json.asListOf? Parameter.ofJson?) params,
      ← optionalField false Json.asBool? awaitable⟩
  | _ => none

/-- A function as a document. -/
def FunctionDecl.toJson (f : FunctionDecl) : Json :=
  .object [("name", .string f.name), ("returns", .string f.returns.name),
    ("params", .array (f.params.map Parameter.toJson)), ("awaitable", .bool f.awaitable)]

namespace Registry

/-- A registry: the lists `variables` and `functions`, either of which may be left out. -/
def ofJson? (j : Json) : Option Registry := do
  match ← j.record? ["variables", "functions"] with
  | [vars, functions] =>
    return ⟨.ofNamed (·.name) (← optionalField [] (Json.asListOf? VariableDecl.ofJson?) vars),
      .ofNamed (·.name) (← optionalField [] (Json.asListOf? FunctionDecl.ofJson?) functions)⟩
  | _ => none

/-- A registry as a document, with its definitions in the order of their names. -/
def toJson (r : Registry) : Json :=
  .object [("variables", .array (r.variableDecls.values.map VariableDecl.toJson)),
    ("functions", .array (r.functions.values.map FunctionDecl.toJson))]

/-- Read a registry file. -/
def parse? (text : String) : Option Registry := do ofJson? (← Json.parse? text)

/-- The text of a registry file. -/
def render (r : Registry) : String := r.toJson.compact

end Registry

end Colloquy
