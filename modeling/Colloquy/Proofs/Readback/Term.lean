import Colloquy.Proofs.Layout.Walk

/-!
# Expressions read back

A `Term` is an expression as a script holds it: parentheses are gone and calls have all their
arguments.  `Script.Spells e s t` decodes the node at `s` and its operands in turn: each operand starts
where the words of the node or the operand before it end, and the last one ends at `t`.  So a term is
read from a script in one way, up to floats that share a place in the pool.
-/

namespace Colloquy

open Code

/-- An expression as a script holds it. -/
inductive Term where
  | literal (value : Literal)
  | variable (name : String)
  | unary (op : UnaryOp) (operand : Term)
  | binary (op : BinaryOp) (left right : Term)
  | assign (op : AssignOp) (name : String) (value : Term)
  | call (name : String) (awaited : Bool) (args : List Term)
  | auto
  | speed (operand : Term)
  | pause (operand : Term)
  /-- A jump to a section; without a name, to one that there is not. -/
  | goto (target : Option String)

/-! ## The terms of a story -/

section

variable (r : Registry)

mutual

/-- The term of an expression: parentheses are dropped, and a call gets the defaults of the parameters
that it leaves out. -/
def Expr.term : Expr → Term
  | .literal v _ => .literal v
  | .variable x => .variable x.name
  | .group e => e.term
  | .unary op e => .unary op.val e.term
  | .binary op left right => .binary op.val left.term right.term
  | .assign x op value => .assign op.val x.name value.term
  | .call f args awaited _ => .call f.name awaited.isSome
      (Expr.terms args ++ (r.fallbacks f.name args.length).map .literal)

/-- The terms of expressions. -/
def Expr.terms : List Expr → List Term
  | [] => []
  | e :: es => e.term :: Expr.terms es

end

variable (g : Ident → Option String)

/-- The term of a directive; `g` says which section a name stands for. -/
def Directive.term : Directive → Term
  | .auto => .auto
  | .speed e => .speed (e.term r)
  | .pause e => .pause (e.term r)
  | .goto x => .goto (g x)

end

/-! ## The terms of a script -/

namespace Script

variable (S : Script)

/-- A jump leads to the entry of its section, or to the end of the script if there is none. -/
def Enters : Option String → Nat → Prop
  | some name, n => ∃ next i t, S.decodeStatement n = .ok (.entry next i, t) ∧
      S.strings[i]? = some name
  | none, n => S.decodeStatement n = .ok (.finish, S.words.size)

mutual

/-- The words between two offsets are those of a term. -/
inductive Spells : Term → Nat → Nat → Prop where
  | literal {v : Literal} {node : Node} {s t : Nat} : S.decodeExpr s = .ok (node, t) →
      LiteralNode (fun _ => True) S v node → Spells (.literal v) s t
  | variable {x : String} {i s t : Nat} : S.decodeExpr s = .ok (.variable i, t) →
      S.strings[i]? = some x → Spells (.variable x) s t
  | unary {op : UnaryOp} {e : Term} {s t : Nat} : S.decodeExpr s = .ok (.unary op (s + 1), t) →
      Spells e (s + 1) t → Spells (.unary op e) s t
  | binary {op : BinaryOp} {left right : Term} {s m t : Nat} :
      S.decodeExpr s = .ok (.binary op (s + 1) m, t) → Spells left (s + 1) m → Spells right m t →
      Spells (.binary op left right) s t
  | assign {op : AssignOp} {x : String} {e : Term} {i s t : Nat} :
      S.decodeExpr s = .ok (.assign op i (s + 2), t) → S.strings[i]? = some x →
      Spells e (s + 2) t → Spells (.assign op x e) s t
  | call {f : String} {awaited : Bool} {args : List Term} {os : List Nat} {i s t : Nat} :
      S.decodeExpr s = .ok (.call i awaited os, t) → S.strings[i]? = some f →
      SpellsAll args os (s + 4) t → Spells (.call f awaited args) s t
  | auto {s t : Nat} : S.decodeExpr s = .ok (.auto, t) → Spells .auto s t
  | speed {e : Term} {s t : Nat} : S.decodeExpr s = .ok (.speed (s + 1), t) →
      Spells e (s + 1) t → Spells (.speed e) s t
  | pause {e : Term} {s t : Nat} : S.decodeExpr s = .ok (.pause (s + 1), t) →
      Spells e (s + 1) t → Spells (.pause e) s t
  | goto {x : Option String} {n s t : Nat} : S.decodeExpr s = .ok (.goto n, t) → S.Enters x n →
      Spells (.goto x) s t

/-- Operands one after another, given by their offsets. -/
inductive SpellsAll : List Term → List Nat → Nat → Nat → Prop where
  | nil (s : Nat) : SpellsAll [] [] s s
  | cons {e : Term} {es : List Term} {os : List Nat} {s m t : Nat} :
      Spells e s m → SpellsAll es os m t → SpellsAll (e :: es) (s :: os) s t

end

end Script

section

variable {P : Float → Prop} {S : Script} {r : Registry} {s m t : Nat}

/-- Terms spelled one behind the other are spelled together. -/
theorem Script.SpellsAll.append {es fs : List Term} {os ps : List Nat} (h : S.SpellsAll es os s m)
    (h' : S.SpellsAll fs ps m t) : S.SpellsAll (es ++ fs) (os ++ ps) s t := by
  induction es generalizing s os with
  | nil =>
    cases h
    exact h'
  | cons e es ih =>
    cases h with
    | cons he hes => exact .cons he (ih hes)

/-- A term is decoded up to its end. -/
theorem Script.Spells.decodes {e : Term} (h : S.Spells e s t) :
    ∃ node, S.decodeExpr s = .ok (node, t) := by
  cases h <;> exact ⟨_, by assumption⟩

/-- Which floats a literal may have is not needed to read it back. -/
theorem LiteralNode.anyFloat {v : Literal} {node : Node} (h : LiteralNode P S v node) :
    LiteralNode (fun _ => True) S v node := by
  cases h with
  | float hy hsame _ _ => exact .float hy hsame trivial trivial
  | string hx => exact .string hx
  | bool b => exact .bool b

theorem LiteralAt.spells {v : Literal} (h : LiteralAt P S v s t) : S.Spells (.literal v) s t := by
  obtain ⟨node, hnode, hv⟩ := h.nodeAt (endWithin S S.words.size)
  exact .literal hnode hv.anyFloat

/-- A row of literals is spelled literal by literal. -/
theorem LiteralAt.spells_row {vs : List Literal} {os : List Nat}
    (h : Row (Operand (LiteralAt P S)) vs os s t) : S.SpellsAll (vs.map .literal) os s t := by
  induction h with
  | nil s => exact .nil s
  | cons hv _ ih =>
    obtain ⟨rfl, hv⟩ := hv
    exact .cons hv.spells ih

mutual

/-- The words of an expression are those of its term. -/
theorem ExprAt.spells (hS : S.words.size < UInt32.size) : (e : Expr) → {s t : Nat} →
    ExprAt P S r e s t → S.Spells (e.term r) s t
  | .literal v _, s, t, h => by
    rw [ExprAt] at h
    rw [Expr.term]
    exact h.spells
  | .variable x, s, t, h => by
    obtain ⟨i, hdecode, hx⟩ := h.decode_variable
    rw [Expr.term]
    exact .variable hdecode hx
  | .group e, s, t, h => by
    rw [ExprAt] at h
    rw [Expr.term]
    exact ExprAt.spells hS e h
  | .unary op e, s, t, h => by
    obtain ⟨hdecode, he⟩ := h.decode_unary hS
    rw [Expr.term]
    exact .unary hdecode (ExprAt.spells hS e he)
  | .binary op left right, s, t, h => by
    obtain ⟨m, hdecode, hleft, hright⟩ := h.decode_binary hS
    rw [Expr.term]
    exact .binary hdecode (ExprAt.spells hS left hleft) (ExprAt.spells hS right hright)
  | .assign x op value, s, t, h => by
    obtain ⟨i, hdecode, hx, hvalue⟩ := h.decode_assign hS
    rw [Expr.term]
    exact .assign hdecode hx (ExprAt.spells hS value hvalue)
  | .call f args awaited close, s, t, h => by
    obtain ⟨i, os, ps, m, hdecode, hf, hargs, hfill⟩ := h.decode_call hS
    rw [Expr.term]
    exact .call hdecode hf ((ExprAt.spells_row hS args hargs).append (LiteralAt.spells_row hfill))

/-- A row of expressions is spelled term by term. -/
theorem ExprAt.spells_row (hS : S.words.size < UInt32.size) : (es : List Expr) → {os : List Nat} →
    {s t : Nat} → Row (Operand (ExprAt P S r)) es os s t → S.SpellsAll (Expr.terms r es) os s t
  | [], os, s, t, h => by
    cases h
    rw [Expr.terms]
    exact .nil s
  | e :: es, os, s, t, h => by
    cases h with
    | cons he hes =>
      obtain ⟨rfl, he⟩ := he
      rw [Expr.terms]
      exact .cons (ExprAt.spells hS e he) (ExprAt.spells_row hS es hes)

end

end

end Colloquy
