import Colloquy.Proofs.Layout.WellFormed
import Colloquy.Proofs.Soundness.Statement

/-!
# Calls hand over all arguments

A call may leave out parameters at the end that have defaults, and its words are filled up with them, so what
a host gets does not depend on how a call was written.  In a script from whose compilation nothing worse than
warnings came every call, however deep it is nested, names a function of the registry and hands over arguments
for its parameters in order, each of the kind of its parameter (`compile_fullArity`).

Typing counts the arguments that a call has to supply (`FunctionDecl.requiredArity`), and the lowering fills a
call up as long as there are defaults (`Parameter.fallbacks`).  Behind the arguments that have to be there all
parameters have defaults (`isSome_of_requiredFrom_le`), so the two agree.
-/

namespace Colloquy

open Code

/-! ## Arities -/

/-- Behind the parameters that have to be supplied, all have defaults. -/
theorem FunctionDecl.isSome_of_requiredFrom_le {ps : List Parameter} {n : Nat} (h : requiredFrom ps ≤ n) :
    ∀ p ∈ ps.drop n, p.fallback.isSome = true := by
  induction ps generalizing n with
  | nil => simp
  | cons p ps ih =>
    rw [requiredFrom] at h
    cases n with
    | zero =>
      cases hps : requiredFrom ps with
      | zero =>
        rw [List.drop_zero, List.forall_mem_cons]
        refine ⟨?_, fun q hq => ih (n := 0) (by rw [hps]) q hq⟩
        by_contra hnone
        simp only [hps] at h
        rw [if_pos (by simpa using hnone)] at h
        omega
      | succ k => simp [hps] at h
    | succ n =>
      rw [List.drop_succ_cons]
      refine ih ?_
      cases hps : requiredFrom ps with
      | zero => omega
      | succ k =>
        simp only [hps] at h
        omega

/-- Where all have defaults, a call is filled up, unless one that is left out has void for its default. -/
theorem Parameter.length_fallbacks {ps : List Parameter} (h : ∀ p ∈ ps, p.fallback.isSome = true)
    (hvoid : ∀ p ∈ ps.drop (fallbacks ps).length, p.fallback ≠ some .void) :
    (fallbacks ps).length = ps.length := by
  induction ps with
  | nil => rfl
  | cons p ps ih =>
    rw [List.forall_mem_cons] at h
    obtain ⟨v, hv⟩ := Option.isSome_iff_exists.mp h.1
    rw [fallbacks, hv, Option.bind_some] at hvoid ⊢
    cases v with
    | void => exact absurd hv (hvoid p (List.mem_cons_self ..))
    | _ => exact congrArg (· + 1) (ih h.2 hvoid)

/-! ## Calls in a script -/

namespace Script

variable (S : Script) (r : Registry)

/-- The kind of a node against a registry.  Directives have none. -/
def nodeKind? : Node → Option Kind
  | .float _ => some .float
  | .string _ => some .string
  | .bool _ => some .bool
  | .variable i => (S.strings[i]?.bind r.findVariable?).map (·.kind)
  | .call i _ _ => (S.strings[i]?.bind r.findFunction?).map (·.returns)
  | .unary op _ => some op.kind
  | .binary op _ _ => some op.resultKind
  | .assign .. => some .void
  | .auto | .goto _ | .speed _ | .pause _ => none

/-- The kind of the expression at an offset. -/
def kind? (o : Nat) : Option Kind :=
  match S.decodeExpr o with
  | .ok (n, _) => S.nodeKind? r n
  | .error _ => none

/-- The expression at an offset is of the kind of a parameter, or of the undefined kind, which only what the
registry itself declares as undefined is (`kind?_undefined`). -/
def Suits (o : Nat) (p : Parameter) : Prop := S.kind? r o = some p.kind ∨ S.kind? r o = some .undefined

/-- A call fits its function: it is awaited if it has to be, and its arguments suit the first parameters.
There is one for each parameter, unless a parameter that is left out has void for its default, which no
literal stands for. -/
structure FullCall (f : FunctionDecl) (awaited : Bool) (args : List Nat) : Prop where
  awaited : awaited = f.awaitable
  suits : List.Forall₂ (S.Suits r) args (f.params.take args.length)
  full : (∀ p ∈ f.params.drop args.length, p.fallback ≠ some .void) → args.length = f.maxArity

/-- All calls in an expression name functions of the registry and fit them. -/
inductive FullExpr : Nat → Prop where
  | node {o stop : Nat} {n : Node} : S.decodeExpr o = .ok (n, stop) →
      (∀ i awaited args, n = .call i awaited args → ∃ name f, S.strings[i]? = some name ∧
        r.findFunction? name = some f ∧ S.FullCall r f awaited args) →
      (∀ e ∈ n.operands, FullExpr e) → FullExpr o

end Script

section

variable {P : Float → Prop} {S : Script} {r : Registry} {s t : Nat}

theorem Script.kind?_of_ok {o stop : Nat} {n : Node} (h : S.decodeExpr o = .ok (n, stop)) :
    S.kind? r o = S.nodeKind? r n := by
  rw [kind?, h]

/-- Only a variable or a function that the registry declares as undefined is of the undefined kind. -/
theorem Script.kind?_undefined {o : Nat} (h : S.kind? r o = some .undefined) :
    (∃ i stop v, S.decodeExpr o = .ok (.variable i, stop) ∧
      S.strings[i]?.bind r.findVariable? = some v ∧ v.kind = .undefined) ∨
    ∃ i awaited args stop f, S.decodeExpr o = .ok (.call i awaited args, stop) ∧
      S.strings[i]?.bind r.findFunction? = some f ∧ f.returns = .undefined := by
  cases hdecode : S.decodeExpr o with
  | error e =>
    rw [kind?, hdecode] at h
    cases h
  | ok result =>
    obtain ⟨n, stop⟩ := result
    rw [kind?_of_ok hdecode] at h
    cases n with
    | «variable» i =>
      obtain ⟨v, hv, hkind⟩ := Option.map_eq_some_iff.mp h
      exact .inl ⟨i, stop, v, rfl, hv, hkind⟩
    | call i awaited args =>
      obtain ⟨f, hf, hkind⟩ := Option.map_eq_some_iff.mp h
      exact .inr ⟨i, awaited, args, stop, f, rfl, hf, hkind⟩
    | unary op _ => cases op <;> cases h
    | binary op _ _ => cases op <;> cases h
    | _ => cases h

/-- An expression that is no call is full if those inside it are. -/
theorem Script.FullExpr.of_ne_call {o stop : Nat} {n : Node} (h : S.decodeExpr o = .ok (n, stop))
    (hcall : ∀ i awaited args, n ≠ .call i awaited args) (hoperands : ∀ e ∈ n.operands, S.FullExpr r e) :
    S.FullExpr r o :=
  .node h (fun i awaited args heq => absurd heq (hcall i awaited args)) hoperands

theorem LiteralAt.kind? {v : Literal} (h : LiteralAt P S v s t) : S.kind? r s = some v.kind := by
  obtain ⟨node, hdecode, hnode⟩ := h.nodeAt (endWithin S S.words.size)
  rw [Script.kind?_of_ok hdecode]
  cases hnode <;> rfl

/-- A literal has no calls in it. -/
theorem LiteralAt.full {v : Literal} (h : LiteralAt P S v s t) : S.FullExpr r s := by
  obtain ⟨node, hdecode, hnode⟩ := h.nodeAt (endWithin S S.words.size)
  refine .of_ne_call hdecode ?_ ?_
  · rintro i awaited args rfl
    cases hnode
  · cases hnode <;> simp [Node.operands]

/-- The literals that a call is filled up with suit the parameters they stand for. -/
theorem suits_fallbacks {ps : List Parameter} {os : List Nat}
    (h : Row (Operand (LiteralAt P S)) (Parameter.fallbacks ps) os s t)
    (hps : ∀ p ∈ ps, ∀ v, p.fallback = some v → v.kind = p.kind) :
    List.Forall₂ (S.Suits r) os (ps.take os.length) := by
  induction ps generalizing os s with
  | nil =>
    rw [Parameter.fallbacks] at h
    cases h
    exact .nil
  | cons p ps ih =>
    rw [List.forall_mem_cons] at hps
    obtain ⟨kind, fallback⟩ := p
    rw [Parameter.fallbacks] at h
    cases fallback with
    | none =>
      cases h
      exact .nil
    | some v =>
      have hkind : v.kind = kind := hps.1 v rfl
      cases v with
      | void =>
        cases h
        exact .nil
      | _ =>
        cases h with
        | cons hv hrest =>
          obtain ⟨rfl, hv⟩ := hv
          exact .cons (.inl (hv.kind?.trans (congrArg some hkind))) (ih hrest hps.2)

/-- The kind of an expression that was checked is the one that was inferred. -/
theorem ExprAt.kind? (hS : S.words.size < UInt32.size) : (e : Expr) → {s t : Nat} → ExprAt P S r e s t →
    Harmless (Typing.infer r e).errors → S.kind? r s = some (Typing.infer r e).kind
  | .literal v _, s, t, he, _ => by
    rw [ExprAt] at he
    rw [Typing.infer]
    exact he.kind?
  | .variable x, s, t, he, herrors => by
    rw [Typing.infer] at herrors ⊢
    obtain ⟨v, hv, hkind⟩ := Typing.exists_variable herrors
    obtain ⟨i, hdecode, hx⟩ := he.decode_variable
    rw [Script.kind?_of_ok hdecode, Script.nodeKind?, hx, Option.bind_some, hv, hkind]
    rfl
  | .group e, s, t, he, herrors => by
    rw [ExprAt] at he
    rw [Typing.infer] at herrors ⊢
    exact ExprAt.kind? hS e he herrors
  | .unary op e, s, t, he, _ => by
    rw [Typing.infer]
    exact Script.kind?_of_ok (he.decode_unary hS).1
  | .binary op left right, s, t, he, herrors => by
    obtain ⟨m, hdecode, -, -⟩ := he.decode_binary hS
    rw [(Typing.of_binary herrors).1]
    exact Script.kind?_of_ok hdecode
  | .assign x op value, s, t, he, herrors => by
    obtain ⟨i, hdecode, -, -⟩ := he.decode_assign hS
    rw [(Typing.of_assign herrors).1]
    exact Script.kind?_of_ok hdecode
  | .call callee args awaited close, s, t, he, herrors => by
    obtain ⟨i, os, ps, m, hdecode, hname, -, -⟩ := he.decode_call hS
    obtain ⟨f, hf, -, hkind, -⟩ := Typing.of_call herrors
    rw [Script.kind?_of_ok hdecode, Script.nodeKind?, hname, Option.bind_some, hf, hkind]
    rfl

/-- A call that was checked fits its function. -/
theorem Script.FullCall.of_harmless {callee : Ident} {args : List Expr} {awaited : Option Span} {close : Span}
    (herrors : Harmless (Typing.infer r (.call callee args awaited close)).errors) {f : FunctionDecl}
    (hf : r.findFunction? callee.name = some f) {os ps : List Nat} {m : Nat}
    (hlength : args.length = os.length)
    (hargs : List.Forall₂ (S.Suits r) os (f.params.take os.length))
    (hfill : Row (Operand (LiteralAt P S)) (r.fallbacks callee.name args.length) ps m t) :
    S.FullCall r f awaited.isSome (os ++ ps) := by
  obtain ⟨f', hf', hawaited, -, hrequired, hle, -, hdefaults⟩ := Typing.of_call herrors
  rw [hf] at hf'
  cases hf'
  rw [Registry.fallbacks, hf] at hfill
  refine ⟨hawaited, ?_, fun hvoid => ?_⟩
  · rw [List.length_append, List.take_add, ← hlength]
    rw [← hlength] at hargs
    exact List.rel_append hargs (suits_fallbacks hfill hdefaults)
  · have hfilled : (Parameter.fallbacks (f.params.drop args.length)).length =
        (f.params.drop args.length).length := by
      refine Parameter.length_fallbacks (FunctionDecl.isSome_of_requiredFrom_le hrequired) ?_
      rwa [List.drop_drop, hfill.length_eq, hlength, ← List.length_append]
    rw [List.length_append, ← hlength, ← hfill.length_eq, hfilled, List.length_drop, FunctionDecl.maxArity]
    omega

mutual

/-- All calls in an expression that was checked fit their functions. -/
theorem ExprAt.full (hS : S.words.size < UInt32.size) : (e : Expr) → {s t : Nat} → ExprAt P S r e s t →
    Harmless (Typing.infer r e).errors → S.FullExpr r s
  | .literal v _, s, t, he, _ => by
    rw [ExprAt] at he
    exact he.full
  | .variable x, s, t, he, _ => by
    obtain ⟨i, hdecode, -⟩ := he.decode_variable
    exact .of_ne_call hdecode (by simp) (by simp [Node.operands])
  | .group e, s, t, he, herrors => by
    rw [ExprAt] at he
    rw [Typing.infer] at herrors
    exact ExprAt.full hS e he herrors
  | .unary op e, s, t, he, herrors => by
    rw [Typing.infer] at herrors
    obtain ⟨hdecode, he⟩ := he.decode_unary hS
    refine .of_ne_call hdecode (by simp) ?_
    simpa [Node.operands] using ExprAt.full hS e he (harmless_append.mp herrors).1
  | .binary op left right, s, t, he, herrors => by
    obtain ⟨m, hdecode, hl, hr⟩ := he.decode_binary hS
    obtain ⟨-, hleft, hright, -⟩ := Typing.of_binary herrors
    refine .of_ne_call hdecode (by simp) ?_
    simpa [Node.operands] using ⟨ExprAt.full hS left hl hleft, ExprAt.full hS right hr hright⟩
  | .assign x op value, s, t, he, herrors => by
    obtain ⟨i, hdecode, -, hv⟩ := he.decode_assign hS
    refine .of_ne_call hdecode (by simp) ?_
    simpa [Node.operands] using ExprAt.full hS value hv (Typing.of_assign herrors).2.1
  | .call callee args awaited close, s, t, he, herrors => by
    obtain ⟨i, os, ps, m, hdecode, hname, hargs, hfill⟩ := he.decode_call hS
    obtain ⟨f, hf, -, -, -, hle, hgiven, -⟩ := Typing.of_call herrors
    obtain ⟨hfull, hsuits⟩ := ExprsAt.full hS args hargs hle hgiven
    refine .node hdecode ?_ ?_
    · rintro _ _ _ ⟨rfl, rfl, rfl⟩
      exact ⟨callee.name, f, hname, hf, .of_harmless herrors hf hargs.length_eq hsuits hfill⟩
    · intro o ho
      rcases List.mem_append.mp ho with ho | ho
      · exact hfull o ho
      · obtain ⟨v, _, _, _, rfl, hv⟩ := hfill.exists_of_mem ho
        exact hv.full

/-- The same of the arguments of a call, which suit the first parameters. -/
theorem ExprsAt.full (hS : S.words.size < UInt32.size) : (es : List Expr) → {ps : List Parameter} →
    {os : List Nat} → {s t : Nat} → Row (Operand (ExprAt P S r)) es os s t → es.length ≤ ps.length →
    Harmless (Typing.inferArgs r ps es) →
    (∀ o ∈ os, S.FullExpr r o) ∧ List.Forall₂ (S.Suits r) os (ps.take os.length)
  | [], ps, os, s, t, hes, _, _ => by
    cases hes
    exact ⟨by simp, .nil⟩
  | e :: es, [], os, s, t, _, hle, _ => by
    rw [List.length_cons, List.length_nil] at hle
    omega
  | e :: es, p :: ps, os, s, t, hes, hle, herrors => by
    rw [Typing.inferArgs] at herrors
    simp only [harmless_append] at herrors
    obtain ⟨⟨he', hkind⟩, hes'⟩ := herrors
    cases hes with
    | cons he hes =>
      obtain ⟨rfl, he⟩ := he
      obtain ⟨hfull, hsuits⟩ := ExprsAt.full hS es hes (Nat.le_of_succ_le_succ hle) hes'
      rw [List.forall_mem_cons]
      refine ⟨⟨ExprAt.full hS e he he', hfull⟩, .cons ?_ hsuits⟩
      rw [Script.Suits, ExprAt.kind? hS e he he']
      by_cases hdefined : (Typing.infer r e).kind = .undefined
      · exact .inr (congrArg some hdefined)
      · exact .inl (congrArg some (Typing.kind_eq_of_harmless hkind hdefined))

end

end

/-! ## Whole scripts -/

/-- All calls in an expression of a statement fit their functions, if nothing worse than warnings was
reported. -/
theorem RootAt.full {P : Float → Prop} {A : Artifact} {r : Registry} {s : Nat} (hA : A.Fits)
    (hharmless : Harmless A.errors) (h : RootAt P A r s) : A.script.FullExpr r s := by
  have hexpr : ∀ {e s t}, CheckedAt P A r e s t → A.script.FullExpr r s := fun he =>
    ExprAt.full hA.addressable.words _ he.expr (he.checked.harmless hharmless)
  cases h with
  | checked he => exact hexpr he
  | flag hv => exact hv.full
  | directive hd =>
    cases hd with
    | auto hdecode => exact .of_ne_call hdecode (by simp) (by simp [Node.operands])
    | speed hdecode he | pause hdecode he =>
      refine .of_ne_call hdecode (by simp) ?_
      simpa [Node.operands] using hexpr he.checkedAt
    | goto hdecode => exact .of_ne_call hdecode (by simp) (by simp [Node.operands])
  | goto _ hdecode => exact .of_ne_call hdecode (by simp) (by simp [Node.operands])

/-- In a script from whose compilation nothing worse than warnings came, every call in every statement names a
function of the registry and fits it. -/
theorem compile_fullArity (r : Registry) (o : CompileOptions) (story : Story)
    (haddressable : (compile r o story).script.Addressable)
    (hchecked : ∀ d ∈ (compile r o story).diagnostics, d.severity ≠ .error) :
    ∃ xs, (compile r o story).script.Walk 0 xs (compile r o story).script.words.size ∧
      ∀ p ∈ xs, ∀ e ∈ p.2.exprs, (compile r o story).script.FullExpr r e := by
  obtain ⟨A, labels, hA⟩ := exists_compiled_of_any r o story haddressable
  obtain ⟨xs, hxs⟩ := hA.exists_laid
  rw [← hA.script]
  exact ⟨xs, hxs.walk, fun p hp e he =>
    ((hxs.stands p hp).roots e he).full hA.fits (hA.harmless hchecked)⟩

/-- A registry with a function that has a default, and one that has to be awaited. -/
def cellar : Registry :=
  (Registry.empty.addFunction ⟨"measure", .float, [], true⟩).addFunction
    ⟨"pour", .string, [⟨.float, none⟩, ⟨.string, some (.string "cup")⟩], false⟩

/-- A story in which the argument of a call is a call. -/
def toast : Story := (parse none "=== a\nAnn: Cheers! \x7bpour(await measure())\x7d\n").1

/-- The script of the story. -/
def toastScript : Script := (compile cellar {} toast).script

/-- The outer call hands over the result of the inner one and the default. -/
theorem fullArity_of_toast : (∃ xs, toastScript.Walk 0 xs toastScript.words.size ∧
    ∀ p ∈ xs, ∀ e ∈ p.2.exprs, toastScript.FullExpr cellar e) ∧
      toastScript.decodeExpr 12 = .ok (.call 2 false [16, 20], 22) :=
  ⟨compile_fullArity cellar {} toast (by decide +kernel) (by decide +kernel), by decide +kernel⟩

/-- A registry with a variable of the undefined kind and a parameter of the void kind with a default. -/
def vague : Registry :=
  ((Registry.empty.addVariable ⟨"u", .undefined⟩).addFunction
    ⟨"f", .void, [⟨.float, none⟩], false⟩).addFunction ⟨"g", .void, [⟨.void, some .void⟩], false⟩

/-- A story with calls of both functions. -/
def vagueStory : Story := (parse none "=== a\n~ f(u)\n~ g()\n").1

/-- The script of the story. -/
def vagueScript : Script := (compile vague {} vagueStory).script

/-- Nothing is wrong with the calls.  The first hands over an argument of the undefined kind for a float, and
the second no argument for its parameter. -/
theorem not_fullArity_of_vague : (compile vague {} vagueStory).diagnostics = [] ∧
    vagueScript.decodeExpr 5 = .ok (.call 1 false [9], 11) ∧ vagueScript.strings[1]? = some "f" ∧
    (vague.findFunction? "f").map (·.params) = some [⟨.float, none⟩] ∧
    vagueScript.kind? vague 9 = some .undefined ∧
    vagueScript.decodeExpr 13 = .ok (.call 3 false [], 17) ∧ vagueScript.strings[3]? = some "g" ∧
    (vague.findFunction? "g").map FunctionDecl.maxArity = some 1 := by
  decide +kernel

end Colloquy
