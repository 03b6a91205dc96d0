import Colloquy.Proofs.Number.Sign
import Colloquy.Proofs.Telling.Follow

/-!
# Expressions are evaluated as they are told

The words of an expression (`ExprAt`) are evaluated to the value the story gives the expression, with
the same requests in the same order.  Floats other than negative zero are the same in the pool as in
the story, and calls find the defaults of the registry behind their arguments.
-/

namespace Colloquy

open Code

/-- The literals that calls are filled up with are the defaults of the registry. -/
theorem Parameter.value_fallbacks (ps : List Parameter) :
    (Parameter.fallbacks ps).map Literal.value = Parameter.defaults ps := by
  induction ps with
  | nil => rfl
  | cons p ps ih =>
    obtain ⟨kind, fallback⟩ := p
    rw [Parameter.fallbacks, Parameter.defaults]
    cases fallback with
    | none => rfl
    | some v =>
      cases v with
      | void => rfl
      | _ => simp [Lower.literalOf?, Literal.value, ih]

/-- The defaults that a call is filled up with have the values that the story takes for them. -/
theorem Registry.value_fallbacks (r : Registry) (name : String) (given : Nat) :
    (r.fallbacks name given).map Literal.value = r.defaults name given := by
  rw [Registry.fallbacks, Registry.defaults]
  cases r.findFunction? name with
  | none => rfl
  | some f => exact Parameter.value_fallbacks _

section

variable {σ : Type} {S : Script} {r : Registry} {h : Host σ} {s t : Nat}

/-- The value of a node once it is decoded. -/
theorem Eval.within_succ {node : Node} (hdecode : S.decodeExpr s = .ok (node, t)) (fuel : Nat) :
    Eval.within S h (fuel + 1) s = Eval.node S h (Eval.within S h fuel) s node := by
  rw [Eval.within, hdecode]
  rfl

/-- A literal has its value. -/
theorem LiteralAt.follows {v : Literal} (hv : LiteralAt Number.Unsigned S v s t) (fuel : Nat) :
    Follows s t Eq (Eval.within S h (fuel + 1) s) (pure v.value) := by
  obtain ⟨rfl, _⟩ := hv.bounds
  obtain ⟨node, hdecode, hnode⟩ := hv.nodeAt (endWithin S S.words.size)
  rw [Eval.within_succ hdecode]
  cases hnode with
  | @float x y i hy hsame hx hPy =>
    obtain rfl := Number.eq_of_sameFloat hsame hx hPy
    rw [Eval.node, Eval.read_float hy, pure_bind]
    exact .pure rfl (by omega)
  | string hx =>
    rw [Eval.node, Eval.read_string hx, pure_bind]
    exact .pure rfl (by omega)
  | bool b => exact .pure rfl (by omega)

/-- A row of literals is evaluated to their values, and nothing is asked for. -/
theorem LiteralAt.follows_row {vs : List Literal} {os : List Nat}
    (hrow : Row (Operand (LiteralAt Number.Unsigned S)) vs os s t) (fuel : Nat) :
    Follows s t Eq (os.mapM (Eval.within S h (fuel + 1))) (pure (vs.map Literal.value)) := by
  induction hrow with
  | nil s =>
    rw [List.mapM_nil]
    exact .pure rfl (Nat.le_refl _)
  | @cons v o vs os s m t hv _ ih =>
    obtain ⟨rfl, hv⟩ := hv
    have hall := (hv.follows (h := h) fuel).cons ih
    rw [pure_bind, pure_bind] at hall
    rw [List.mapM_cons]
    exact hall

mutual

/-- The words of an expression are evaluated to its value. -/
theorem ExprAt.follows_within (hS : S.words.size < UInt32.size) (hprompt : h.Prompt) :
    (e : Expr) → {s t fuel : Nat} → ExprAt Number.Unsigned S r e s t → t ≤ s + fuel →
      Follows s t Eq (Eval.within S h fuel s) (Tell.expr r h e)
  | e, s, t, 0, he, hfuel => by
    have := he.bounds.1
    omega
  | .literal v _, s, t, fuel + 1, he, hfuel => by
    rw [ExprAt] at he
    rw [Tell.expr]
    exact he.follows fuel
  | .variable x, s, t, fuel + 1, he, hfuel => by
    have hlt := he.bounds.1
    obtain ⟨i, hdecode, hx⟩ := he.decode_variable
    rw [Eval.within_succ hdecode, Eval.node, Eval.read_string hx, pure_bind, Tell.expr]
    exact (Follows.variableValue h x.name).within (Nat.le_refl _) (by omega)
  | .group e, s, t, fuel + 1, he, hfuel => by
    rw [ExprAt] at he
    rw [Tell.expr]
    exact ExprAt.follows_within hS hprompt e he hfuel
  | .unary op e, s, t, fuel + 1, he, hfuel => by
    obtain ⟨hdecode, he⟩ := he.decode_unary hS
    rw [Eval.within_succ hdecode, Eval.node, Tell.expr]
    have hoperand : Follows (s + 1) t Eq (Eval.within S h fuel (s + 1)) _ :=
      ExprAt.follows_within hS hprompt e he (by omega)
    exact (hoperand.unary op.val).lower (by omega)
  | .binary op left right, s, t, fuel + 1, he, hfuel => by
    obtain ⟨m, hdecode, hl, hr⟩ := he.decode_binary hS
    have hm := hl.bounds.1
    have ht := hr.bounds.1
    rw [Eval.within_succ hdecode, Eval.node, Tell.expr]
    have hleft : Follows (s + 1) m Eq (Eval.within S h fuel (s + 1)) _ :=
      ExprAt.follows_within hS hprompt left hl (by omega)
    have hright : Follows m t Eq (Eval.within S h fuel m) _ :=
      ExprAt.follows_within hS hprompt right hr (by omega)
    exact (hleft.binary op.val hright (by omega)).lower (by omega)
  | .assign x op value, s, t, fuel + 1, he, hfuel => by
    obtain ⟨i, hdecode, hx, hv⟩ := he.decode_assign hS
    have ht := hv.bounds.1
    rw [Eval.within_succ hdecode, Eval.node, Tell.expr]
    have hvalue : Follows (s + 2) t Eq (Eval.within S h fuel (s + 2)) _ :=
      ExprAt.follows_within hS hprompt value hv (by omega)
    exact (hvalue.lower (show s ≤ s + 2 by omega)).assign h op.val hx (Nat.le_refl _) (by omega)
  | .call f args awaited close, s, t, fuel + 1, he, hfuel => by
    have hlt := he.bounds.1
    obtain ⟨i, os, ps, m, hdecode, hf, hargs, hfill⟩ := he.decode_call hS
    have hm := hargs.length_le fun _ _ _ _ h => h.2.bounds.1
    have ht := hfill.length_le fun _ _ _ _ h => by have := h.2.bounds.1; omega
    rw [Eval.within_succ hdecode, Eval.node, Eval.read_string hf, pure_bind, Tell.expr]
    have hvalues : Follows (s + 4) m Eq (os.mapM (Eval.within S h fuel)) _ :=
      ExprsAt.follows_within hS hprompt args hargs (by omega)
    obtain ⟨k, rfl⟩ : ∃ k, fuel = k + 1 := ⟨fuel - 1, by omega⟩
    have hdefaults := LiteralAt.follows_row (h := h) hfill k
    rw [r.value_fallbacks] at hdefaults
    have hall := hvalues.append hdefaults
    rw [← List.mapM_append] at hall
    have hcall := (hall.lower (show s ≤ s + 4 by omega)).call hprompt f.name awaited.isSome
      (Nat.le_refl _) hlt
    simpa only [bind_assoc, pure_bind] using hcall

/-- A row of operands is evaluated from left to right. -/
theorem ExprsAt.follows_within (hS : S.words.size < UInt32.size) (hprompt : h.Prompt) :
    (es : List Expr) → {os : List Nat} → {s t fuel : Nat} →
      Row (Operand (ExprAt Number.Unsigned S r)) es os s t → t ≤ s + fuel →
      Follows s t Eq (os.mapM (Eval.within S h fuel)) (Tell.exprs r h es)
  | [], os, s, t, fuel, hes, hfuel => by
    cases hes
    rw [List.mapM_nil, Tell.exprs]
    exact .pure rfl (Nat.le_refl _)
  | e :: es, os, s, t, fuel, hes, hfuel => by
    cases hes with
    | @cons _ o _ os _ m _ he hes =>
      obtain ⟨rfl, he⟩ := he
      have hm := he.bounds.1
      have ht := hes.length_le fun _ _ _ _ h => h.2.bounds.1
      rw [List.mapM_cons, Tell.exprs]
      exact (ExprAt.follows_within hS hprompt e he (by omega)).cons
        (ExprsAt.follows_within hS hprompt es hes (by omega))

end

/-- The expression at an offset is evaluated to its value. -/
theorem ExprAt.follows (hS : S.words.size < UInt32.size) (hprompt : h.Prompt) {e : Expr}
    (he : ExprAt Number.Unsigned S r e s t) :
    Follows s t Eq (Eval.expr S h s) (Tell.expr r h e) := by
  have := he.bounds
  exact he.follows_within hS hprompt e (by omega)

end

end Colloquy
