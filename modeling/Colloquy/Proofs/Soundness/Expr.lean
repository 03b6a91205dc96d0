import Colloquy.Proofs.Soundness.Safe
import Colloquy.Proofs.Telling.Expr

/-!
# Expressions that were checked are safe

Where typing has nothing to say against an expression, the words of the expression evaluate to a value of
the kind that was inferred, or wait for a call (`ExprAt.safe`).  Nothing is reported against an operand
of the undefined kind, but such an operand has no value, so its kind never matters.

A call hands its arguments over together with the defaults behind them, and all of them are of the kinds
of their parameters.
-/

namespace Colloquy

open Code

/-! ## What typing says -/

/-- Nothing that was reported is worse than a warning. -/
def Harmless (errors : List CompileError) : Prop := ∀ e ∈ errors, e.severity ≠ .error

@[simp] theorem harmless_append {xs ys : List CompileError} :
    Harmless (xs ++ ys) ↔ Harmless xs ∧ Harmless ys := List.forall_mem_append

theorem not_harmless_of_severity {e : CompileError} (he : e.severity = .error)
    (es : List CompileError) : ¬ Harmless (e :: es) :=
  fun h => h e (List.mem_cons_self ..) he

namespace Typing

variable {r : Registry}

/-- A kind that passes as another one is that kind, unless it is undefined. -/
theorem kind_eq_of_harmless {k k' : Kind} {span : Span} (h : Harmless (mismatch k k' span))
    (hdefined : k' ≠ .undefined) : k' = k := by
  by_contra hne
  have hcond : (k'.isDefined && k' != k) = true := by simp [Kind.isDefined, hdefined, hne]
  rw [mismatch, if_pos hcond] at h
  exact not_harmless_of_severity rfl _ h

theorem value_kind_of_harmless {v : Value} {k k' : Kind} {span : Span}
    (h : Harmless (mismatch k k' span)) (hv : v.kind = k') : v.kind = k := by
  rw [← hv] at h
  exact kind_eq_of_harmless h v.kind_ne_undefined

/-- A variable that was checked is in the registry. -/
theorem exists_variable {x : Ident} (h : Harmless (ofVariable r x).errors) :
    ∃ v, r.findVariable? x.name = some v ∧ (ofVariable r x).kind = v.kind := by
  rw [ofVariable] at h ⊢
  cases hx : r.findVariable? x.name with
  | some v => exact ⟨v, rfl, rfl⟩
  | none =>
    rw [hx] at h
    exact absurd h (not_harmless_of_severity rfl _)

/-- The defaults that a call takes are of the kinds of their parameters. -/
theorem kind_of_default {name : String} {span : Span} {given : Nat} {ps : List Parameter}
    (h : Harmless (defaults name span given ps)) {p : Parameter} (hp : p ∈ ps.drop given) {v : Value}
    (hv : p.fallback = some v) : v.kind = p.kind := by
  obtain ⟨i, hi⟩ := List.mem_iff_getElem?.mp hp
  rw [List.getElem?_drop] at hi
  obtain ⟨hlt, rfl⟩ := List.getElem?_eq_some_iff.mp hi
  by_contra hne
  refine h (.invalidDefault name (given + i) ⟨ps[given + i].kind, v.kind⟩ span) ?_ rfl
  rw [defaults, List.mem_flatMap]
  refine ⟨(given + i, ps[given + i]), List.mem_mapIdx.mpr ⟨given + i, hlt, rfl⟩, ?_⟩
  simp [hv, hne]

/-- A call that was checked has a number of arguments that its function takes, and is awaited if it has
to be. -/
theorem of_callErrors {f : FunctionDecl} {given : Nat} {awaited : Bool} {span : Span}
    (h : Harmless (callErrors f given awaited span)) :
    f.requiredArity ≤ given ∧ given ≤ f.params.length ∧ awaited = f.awaitable ∧
      callKind f given awaited = f.returns ∧ Harmless (defaults f.name span given f.params) := by
  rw [callErrors, harmless_append, harmless_append] at h
  obtain ⟨⟨harity, hawait⟩, hdefaults⟩ := h
  have hfits : arityFits f given = true := by
    by_contra hnot
    rw [if_neg hnot] at harity
    exact not_harmless_of_severity rfl _ harity
  have hawaited : awaited = f.awaitable := by
    by_contra hnot
    rw [if_neg hnot] at hawait
    exact not_harmless_of_severity rfl _ hawait
  obtain ⟨hrequired, hle⟩ : f.requiredArity ≤ given ∧ given ≤ f.params.length := by
    rwa [arityFits, Bool.and_eq_true, decide_eq_true_eq, decide_eq_true_eq] at hfits
  refine ⟨hrequired, hle, hawaited, ?_, hdefaults⟩
  rw [callKind, hfits, hawaited, beq_self_eq_true, Bool.and_self, if_pos rfl]

/-! ### Expressions by their forms -/

/-- Operands of a binary operator are of the kind that it takes, if it takes one. -/
theorem of_binary {op : Spanned BinaryOp} {left right : Expr}
    (h : Harmless (infer r (.binary op left right)).errors) :
    (infer r (.binary op left right)).kind = op.val.resultKind ∧
      Harmless (infer r left).errors ∧ Harmless (infer r right).errors ∧
      ∀ k, op.val.operandKind? = some k →
        (∀ v : Value, v.kind = (infer r left).kind → v.kind = k) ∧
          ∀ v : Value, v.kind = (infer r right).kind → v.kind = k := by
  rw [infer] at h ⊢
  cases hop : op.val.operandKind? with
  | some k =>
    simp only [hop, harmless_append] at h ⊢
    obtain ⟨⟨hleft, hkind⟩, hright, hkind'⟩ := h
    refine ⟨trivial, hleft, hright, ?_⟩
    rintro _ ⟨rfl⟩
    exact ⟨fun v hv => value_kind_of_harmless hkind hv,
      fun v hv => value_kind_of_harmless hkind' hv⟩
  | none =>
    simp only [hop, harmless_append] at h ⊢
    exact ⟨trivial, h.1.1, h.1.2, by simp⟩

/-- What is assigned is of the kind of the variable, and a variable that is changed in place is a
float. -/
theorem of_assign {x : Ident} {op : Spanned AssignOp} {value : Expr}
    (h : Harmless (infer r (.assign x op value)).errors) :
    (infer r (.assign x op value)).kind = .void ∧ Harmless (infer r value).errors ∧
      ∃ y, r.findVariable? x.name = some y ∧ (y.kind ≠ .undefined →
        (op.val = .set ∨ y.kind = .float) ∧
          ∀ v : Value, v.kind = (infer r value).kind → v.kind = y.kind) := by
  by_cases hop : op.val = .set
  · rw [infer] at h ⊢
    simp only [hop, harmless_append] at h ⊢
    obtain ⟨⟨htarget, hvalue⟩, hkind⟩ := h
    obtain ⟨y, hy, hykind⟩ := exists_variable htarget
    refine ⟨trivial, hvalue, y, hy, fun hdefined => ⟨.inl trivial, fun v hv => ?_⟩⟩
    rw [hykind, if_pos (by simp [Kind.isDefined, hdefined])] at hkind
    exact value_kind_of_harmless hkind hv
  · have hinfer : infer r (.assign x op value) =
        ⟨.void, (ofVariable r x).errors ++ mismatch .float (ofVariable r x).kind x.span ++
          ((infer r value).errors ++ mismatch .float (infer r value).kind value.span)⟩ := by
      rw [infer]
      cases hcase : op.val with
      | set => exact absurd hcase hop
      | _ => rfl
    rw [hinfer] at h ⊢
    simp only [harmless_append] at h
    obtain ⟨⟨htarget, hfloat⟩, hvalue, hkind⟩ := h
    obtain ⟨y, hy, hykind⟩ := exists_variable htarget
    refine ⟨rfl, hvalue, y, hy, fun hdefined => ?_⟩
    rw [hykind] at hfloat
    have hyfloat : y.kind = .float := kind_eq_of_harmless hfloat hdefined
    rw [hyfloat]
    exact ⟨.inr rfl, fun v hv => value_kind_of_harmless hkind hv⟩

/-- The function of a call is in the registry, and the call fits it. -/
theorem of_call {callee : Ident} {args : List Expr} {awaited : Option Span} {close : Span}
    (h : Harmless (infer r (.call callee args awaited close)).errors) :
    ∃ f, r.findFunction? callee.name = some f ∧ awaited.isSome = f.awaitable ∧
      (infer r (.call callee args awaited close)).kind = f.returns ∧
      f.requiredArity ≤ args.length ∧ args.length ≤ f.params.length ∧
      Harmless (inferArgs r f.params args) ∧
      ∀ p ∈ f.params.drop args.length, ∀ v, p.fallback = some v → v.kind = p.kind := by
  rw [infer] at h ⊢
  cases hf : r.findFunction? callee.name with
  | none =>
    simp only [hf] at h
    exact absurd h (not_harmless_of_severity rfl _)
  | some f =>
    simp only [hf, harmless_append] at h ⊢
    obtain ⟨hcall, hargs⟩ := h
    obtain ⟨hrequired, hle, hawaited, hkind, hdefaults⟩ := of_callErrors hcall
    exact ⟨f, rfl, hawaited, hkind, hrequired, hle, hargs,
      fun p hp v hv => kind_of_default hdefaults hp hv⟩

end Typing

/-- The literals that a call is filled up with are of the kinds of the parameters they stand for. -/
theorem Parameter.fallbacks_kinds {ps : List Parameter}
    (hps : ∀ p ∈ ps, ∀ v, p.fallback = some v → v.kind = p.kind) :
    (Parameter.fallbacks ps).map Literal.kind <+: ps.map Parameter.kind := by
  induction ps with
  | nil => exact List.nil_prefix
  | cons p ps ih =>
    rw [List.forall_mem_cons] at hps
    obtain ⟨kind, fallback⟩ := p
    rw [Parameter.fallbacks]
    cases fallback with
    | none => exact List.nil_prefix
    | some v =>
      have hkind : v.kind = kind := hps.1 v rfl
      cases v with
      | void => exact List.nil_prefix
      | _ => exact List.cons_prefix_cons.mpr ⟨hkind, ih hps.2⟩

/-! ## What evaluation makes of it -/

section

variable {σ : Type} {P : Float → Prop} {S : Script} {r : Registry} {h : Host σ} {I : σ → Prop}
  {F : SessionError → Prop} {s t : Nat}

/-- A literal evaluates to a value of its kind. -/
theorem LiteralAt.safe {v : Literal} (hv : LiteralAt P S v s t) (fuel : Nat) :
    Safe S r I F (fun w => w.kind = v.kind) (Eval.within S h (fuel + 1) s) := by
  obtain ⟨node, hdecode, hnode⟩ := hv.nodeAt (endWithin S S.words.size)
  rw [Eval.within_succ hdecode]
  cases hnode with
  | @float x y i hy =>
    rw [Eval.node, Eval.read_float hy, pure_bind]
    exact .pure rfl
  | string hx =>
    rw [Eval.node, Eval.read_string hx, pure_bind]
    exact .pure rfl
  | bool b => exact .pure rfl

/-- So does each of a row of literals. -/
theorem LiteralAt.safe_row {vs : List Literal} {os : List Nat}
    (hrow : Row (Operand (LiteralAt P S)) vs os s t) (fuel : Nat) :
    Safe S r I F (fun ws => ws.map Value.kind = vs.map Literal.kind)
      (os.mapM (Eval.within S h (fuel + 1))) := by
  induction hrow with
  | nil s =>
    rw [List.mapM_nil]
    exact .pure rfl
  | cons hv _ ih =>
    obtain ⟨rfl, hv⟩ := hv
    exact Safe.cons_kinds (hv.safe fuel) ih

mutual

/-- The words of an expression evaluate to a value of the kind that was inferred. -/
theorem ExprAt.safe_within (hS : S.words.size < UInt32.size) (hserves : h.Serves r I) :
    (e : Expr) → {s t fuel : Nat} → ExprAt P S r e s t → t ≤ s + fuel →
      Harmless (Typing.infer r e).errors →
      Safe S r I F (fun v => v.kind = (Typing.infer r e).kind) (Eval.within S h fuel s)
  | e, s, t, 0, he, hfuel, _ => by
    have := he.bounds.1
    omega
  | .literal v _, s, t, fuel + 1, he, hfuel, _ => by
    rw [ExprAt] at he
    rw [Typing.infer]
    exact he.safe fuel
  | .variable x, s, t, fuel + 1, he, hfuel, herrors => by
    rw [Typing.infer] at herrors ⊢
    obtain ⟨v, hv, hkind⟩ := Typing.exists_variable herrors
    obtain ⟨i, hdecode, hx⟩ := he.decode_variable
    rw [Eval.within_succ hdecode, Eval.node, Eval.read_string hx, pure_bind, hkind]
    exact .variableValue hserves hv
  | .group e, s, t, fuel + 1, he, hfuel, herrors => by
    rw [ExprAt] at he
    rw [Typing.infer] at herrors ⊢
    exact ExprAt.safe_within hS hserves e he hfuel herrors
  | .unary op e, s, t, fuel + 1, he, hfuel, herrors => by
    rw [Typing.infer] at herrors ⊢
    obtain ⟨hoperand, hkind⟩ := harmless_append.mp herrors
    obtain ⟨hdecode, he⟩ := he.decode_unary hS
    rw [Eval.within_succ hdecode, Eval.node]
    have hvalue : Safe S r I F _ (Eval.within S h fuel (s + 1)) :=
      ExprAt.safe_within hS hserves e he (by omega) hoperand
    exact .unary (hvalue.mono fun v hv => Typing.value_kind_of_harmless hkind hv)
  | .binary op left right, s, t, fuel + 1, he, hfuel, herrors => by
    obtain ⟨m, hdecode, hl, hr⟩ := he.decode_binary hS
    have hm := hl.bounds.1
    have ht := hr.bounds.1
    obtain ⟨hkind, hleft, hright, hkinds⟩ := Typing.of_binary herrors
    rw [Eval.within_succ hdecode, Eval.node, hkind]
    have hvalue : Safe S r I F _ (Eval.within S h fuel (s + 1)) :=
      ExprAt.safe_within hS hserves left hl (by omega) hleft
    have hvalue' : Safe S r I F _ (Eval.within S h fuel m) :=
      ExprAt.safe_within hS hserves right hr (by omega) hright
    exact .binary (hvalue.mono fun v hv k hk => (hkinds k hk).1 v hv)
      (hvalue'.mono fun v hv k hk => (hkinds k hk).2 v hv)
  | .assign x op value, s, t, fuel + 1, he, hfuel, herrors => by
    obtain ⟨i, hdecode, hx, hv⟩ := he.decode_assign hS
    have hcallee : S.callee? s = none := by rw [Script.callee?, hdecode]
    obtain ⟨hkind, hvalue, y, hy, hfits⟩ := Typing.of_assign herrors
    rw [Eval.within_succ hdecode, Eval.node, hkind]
    -- a variable of the undefined kind would pass as any other, but the host has a value for it
    intro stage hstage
    obtain ⟨hop, hkinds⟩ := hfits (hserves.kind_ne_undefined hstage.memory hy)
    have hsafe : Safe S r I F _ (Eval.within S h fuel (s + 2)) :=
      ExprAt.safe_within hS hserves value hv (by omega) hvalue
    exact Safe.assign hserves hcallee hx hy hop (hsafe.mono hkinds) stage hstage
  | .call callee args awaited close, s, t, fuel + 1, he, hfuel, herrors => by
    have hlt := he.bounds.1
    obtain ⟨i, os, ps, m, hdecode, hname, hargs, hfill⟩ := he.decode_call hS
    have hm := hargs.length_le fun _ _ _ _ h => h.2.bounds.1
    have ht := hfill.length_le fun _ _ _ _ h => by have := h.2.bounds.1; omega
    have hcallee : S.callee? s = some callee.name := by
      rw [Script.callee?, hdecode]
      exact hname
    obtain ⟨f, hf, hawaited, hkind, -, hle, hgiven, hdefaults⟩ := Typing.of_call herrors
    rw [Eval.within_succ hdecode, Eval.node, Eval.read_string hname, pure_bind, hkind, hawaited]
    have hvalues : Safe S r I F _ (os.mapM (Eval.within S h fuel)) :=
      ExprsAt.safe_within hS hserves args hargs (by omega) hle hgiven
    -- a call has more than one word, so there is fuel left for the defaults
    obtain ⟨k, rfl⟩ : ∃ k, fuel = k + 1 := ⟨fuel - 1, by omega⟩
    have hall := hvalues.append_kinds (LiteralAt.safe_row hfill k)
    refine .call hserves hcallee hf (hall.mono fun vs hvs => ?_)
    -- the arguments stand for the first parameters, the defaults for the next ones
    rw [FunctionDecl.Takes, hvs, Registry.fallbacks, hf]
    conv_rhs => rw [← List.take_append_drop args.length f.params, List.map_append]
    rw [List.prefix_append_right_inj]
    exact Parameter.fallbacks_kinds hdefaults

/-- The arguments of a call evaluate to values of the kinds of its first parameters. -/
theorem ExprsAt.safe_within (hS : S.words.size < UInt32.size) (hserves : h.Serves r I) :
    (es : List Expr) → {ps : List Parameter} → {os : List Nat} → {s t fuel : Nat} →
      Row (Operand (ExprAt P S r)) es os s t → t ≤ s + fuel → es.length ≤ ps.length →
      Harmless (Typing.inferArgs r ps es) →
      Safe S r I F (fun vs => vs.map Value.kind = (ps.take es.length).map Parameter.kind)
        (os.mapM (Eval.within S h fuel))
  | [], ps, os, s, t, fuel, hes, hfuel, _, _ => by
    cases hes
    rw [List.mapM_nil]
    exact .pure rfl
  | e :: es, [], os, s, t, fuel, hes, hfuel, hle, _ => by
    rw [List.length_cons, List.length_nil] at hle
    omega
  | e :: es, p :: ps, os, s, t, fuel, hes, hfuel, hle, herrors => by
    rw [Typing.inferArgs] at herrors
    simp only [harmless_append] at herrors
    obtain ⟨⟨he', hkind⟩, hes'⟩ := herrors
    cases hes with
    | @cons _ o _ os _ m _ he hes =>
      obtain ⟨rfl, he⟩ := he
      have hm := he.bounds.1
      have ht := hes.length_le fun _ _ _ _ h => h.2.bounds.1
      have hvalue : Safe S r I F _ (Eval.within S h fuel o) :=
        ExprAt.safe_within hS hserves e he (by omega) he'
      rw [List.length_cons, List.take_succ_cons, List.map_cons]
      refine Safe.cons_kinds (hvalue.mono fun v hv => Typing.value_kind_of_harmless hkind hv) ?_
      exact ExprsAt.safe_within hS hserves es hes (by omega) (Nat.le_of_succ_le_succ hle) hes'

end

/-- An expression that was checked evaluates to a value of its kind. -/
theorem ExprAt.safe (hS : S.words.size < UInt32.size) (hserves : h.Serves r I) {e : Expr}
    (he : ExprAt P S r e s t) (herrors : Harmless (Typing.infer r e).errors) :
    Safe S r I F (fun v => v.kind = (Typing.infer r e).kind) (Eval.expr S h s) := by
  have := he.bounds
  exact he.safe_within hS hserves e (by omega) herrors

end

end Colloquy
