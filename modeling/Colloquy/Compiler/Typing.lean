import Colloquy.Diagnostic
import Colloquy.Registry
import Colloquy.Story.Basic

/-!
# Typing

The kinds of expressions against a registry.  An expression that fails to check is of the undefined
kind, and nothing is reported against an undefined operand, so that one mistake gives one diagnostic.
-/

namespace Colloquy

/-- The kind of an expression, and what is wrong with it. -/
structure Verdict where
  kind : Kind
  errors : List CompileError
  deriving DecidableEq, Repr

/-- The kind of a literal. -/
def Literal.kind : Literal → Kind
  | .float _ => .float
  | .string _ => .string
  | .bool _ => .bool

/-- The kind of a unary operator's operand and of its result. -/
def UnaryOp.kind : UnaryOp → Kind
  | .not => .bool
  | .negate => .float

/-- The kind of both operands; the equalities take operands of any one kind. -/
def BinaryOp.operandKind? : BinaryOp → Option Kind
  | .add | .sub | .mul | .div | .mod => some .float
  | .less | .lessEqual | .greater | .greaterEqual => some .float
  | .and | .or => some .bool
  | .equal | .notEqual => none

/-- The kind of a binary operator's result. -/
def BinaryOp.resultKind : BinaryOp → Kind
  | .add | .sub | .mul | .div | .mod => .float
  | _ => .bool

namespace Typing

/-- The error of an expression of another kind than expected; an undefined one has its error
already. -/
def mismatch (expected actual : Kind) (foundAt : Span) : List CompileError :=
  if actual.isDefined && actual != expected then [.kindMismatch ⟨expected, actual⟩ foundAt] else []

/-- The verdict on a variable. -/
def ofVariable (r : Registry) (x : Ident) : Verdict :=
  match r.findVariable? x.name with
  | some v => ⟨v.kind, []⟩
  | none => ⟨.undefined, [.unknownVariable x.name x.span]⟩

/-- The errors of a variable that must be of a kind. -/
def variableOf (r : Registry) (x : Ident) (expected : Kind) : List CompileError :=
  let v := ofVariable r x
  v.errors ++ mismatch expected v.kind x.span

/-- The errors of the defaults that a call with `supplied` arguments takes, each of which must be of
the kind of its parameter. -/
def defaults (name : String) (foundAt : Span) (supplied : Nat) (params : List Parameter) :
    List CompileError :=
  (params.mapIdx fun index p => (index, p)).flatMap fun (index, p) =>
    match p.fallback with
    | some v =>
      if supplied ≤ index ∧ v.kind ≠ p.kind then
        [.invalidDefault name index ⟨p.kind, v.kind⟩ foundAt]
      else []
    | none => []

/-- All that is reported of the defaults of a call is that a default has the wrong kind. -/
theorem exists_of_mem_defaults {name : String} {foundAt : Span} {supplied : Nat}
    {params : List Parameter} {e : CompileError} (h : e ∈ defaults name foundAt supplied params) :
    ∃ index kinds, e = .invalidDefault name index kinds foundAt := by
  obtain ⟨⟨index, p⟩, -, h⟩ := List.mem_flatMap.mp h
  cases hfallback : p.fallback with
  | none => simp [hfallback] at h
  | some v =>
    simp only [hfallback] at h
    split at h
    · exact ⟨index, _, List.mem_singleton.mp h⟩
    · cases h

/-- Whether a call has a number of arguments that its function takes. -/
def arityFits (f : FunctionDecl) (supplied : Nat) : Bool :=
  f.requiredArity ≤ supplied && supplied ≤ f.maxArity

/-- The errors of a call apart from those of its arguments. -/
def callErrors (f : FunctionDecl) (supplied : Nat) (awaited : Bool) (foundAt : Span) :
    List CompileError :=
  (if arityFits f supplied then []
    else [.arityMismatch f.name f.requiredArity f.maxArity supplied foundAt])
  ++ (if awaited = f.awaitable then [] else [.awaitMismatch f.name f.awaitable foundAt])
  ++ defaults f.name foundAt supplied f.params

/-- The kind of a call. -/
def callKind (f : FunctionDecl) (supplied : Nat) (awaited : Bool) : Kind :=
  if arityFits f supplied && awaited == f.awaitable then f.returns else .undefined

mutual

/-- The verdict on an expression. -/
def infer (r : Registry) : Expr → Verdict
  | .literal v _ => ⟨v.kind, []⟩
  | .variable x => ofVariable r x
  | .group e => infer r e
  | .unary op e =>
    let v := infer r e
    ⟨op.val.kind, v.errors ++ mismatch op.val.kind v.kind e.span⟩
  | .binary op left right =>
    let v := infer r left
    let w := infer r right
    match op.val.operandKind? with
    | some k =>
      ⟨op.val.resultKind, v.errors ++ mismatch k v.kind left.span
        ++ (w.errors ++ mismatch k w.kind right.span)⟩
    | none =>
      ⟨op.val.resultKind, v.errors ++ w.errors
        ++ if v.kind.isDefined then mismatch v.kind w.kind right.span else []⟩
  | .assign x op value =>
    let target := ofVariable r x
    let v := infer r value
    match op.val with
    | .set =>
      ⟨.void, target.errors ++ v.errors
        ++ if target.kind.isDefined then mismatch target.kind v.kind value.span else []⟩
    | _ =>
      ⟨.void, target.errors ++ mismatch .float target.kind x.span
        ++ (v.errors ++ mismatch .float v.kind value.span)⟩
  | .call callee args awaited close =>
    match r.findFunction? callee.name with
    | none => ⟨.undefined, .unknownFunction callee.name callee.span :: inferArgs r [] args⟩
    | some f =>
      let span := (Expr.call callee args awaited close).span
      ⟨callKind f args.length awaited.isSome,
        callErrors f args.length awaited.isSome span ++ inferArgs r f.params args⟩

/-- The errors of arguments against the parameters they stand for. -/
def inferArgs (r : Registry) : List Parameter → List Expr → List CompileError
  | _, [] => []
  | [], e :: es => (infer r e).errors ++ inferArgs r [] es
  | p :: ps, e :: es =>
    let v := infer r e
    v.errors ++ mismatch p.kind v.kind e.span ++ inferArgs r ps es

end

/-- The errors of an expression that must be of a kind. -/
def exprOf (r : Registry) (e : Expr) (expected : Kind) : List CompileError :=
  let v := infer r e
  v.errors ++ mismatch expected v.kind e.span

end Typing

end Colloquy
