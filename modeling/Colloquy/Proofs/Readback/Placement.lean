import Colloquy.Proofs.Readback.Still

/-!
# Where directives and jumps stand

An expression of a story is a value: the parser reads directives and jumps as parts of a line and as
statements of their own, never inside an expression.  So in a compiled script their nodes are the roots of
the directives of a line, and a jump may also be an instruction, which then leads where the jump does
(`compileText_placed`).  Together with what is known of assignments, no node that acts is ever inside
another expression.
-/

namespace Colloquy

open Code

/-! ## Scripts -/

/-- The node is a directive of a line, or a jump. -/
def Code.Node.isDirective : Node → Bool
  | .auto | .goto _ | .speed _ | .pause _ => true
  | _ => false

namespace Script

variable (S : Script)

/-- There is no directive and no jump in an expression. -/
inductive Undirected : Nat → Prop where
  | node {s t : Nat} {x : Node} : S.decodeExpr s = .ok (x, t) → x.isDirective = false →
      (∀ e ∈ x.operands, Undirected e) → Undirected s

/-- Neither an assignment nor a directive nor a jump is in an expression. -/
def Inert (e : Nat) : Prop := S.StillExpr e ∧ S.Undirected e

/-- An expression is a directive or a jump, and its operands are inert. -/
def Directs (e : Nat) : Prop :=
  ∃ x t, S.decodeExpr e = .ok (x, t) ∧ x.isDirective = true ∧ ∀ o ∈ x.operands, S.Inert o

/-- The expressions of a statement are inert, except for the directives of a line, and for an instruction
that assigns an inert value or jumps where it leads. -/
def Placed : Statement → Prop
  | .line l => (∀ e ∈ l.segments.flatMap TextNode.exprs, S.Inert e) ∧ ∀ e ∈ l.directives, S.Directs e
  | .instruction next e => S.Inert e ∨ (∃ t, S.decodeExpr e = .ok (.goto next, t)) ∨
      ∃ op name value t, S.decodeExpr e = .ok (.assign op name value, t) ∧ S.Inert value
  | node => ∀ e ∈ node.exprs, S.Inert e

/-- Nothing inside an expression without directives is one. -/
theorem Undirected.operand {S : Script} {s t o : Nat} {x : Node} (h : S.Undirected s)
    (hdecode : S.decodeExpr s = .ok (x, t)) (ho : o ∈ x.operands) : S.Undirected o := by
  cases h with
  | node hnode _ hoperands =>
    rw [hdecode] at hnode
    cases hnode
    exact hoperands o ho

end Script

/-! ## Expressions -/

section

variable {P : Float → Prop} {S : Script} {r : Registry} {s t : Nat}

theorem LiteralAt.undirected {v : Literal} (h : LiteralAt P S v s t) : S.Undirected s := by
  obtain ⟨node, hdecode, hnode⟩ := h.nodeAt (endWithin S S.words.size)
  cases hnode <;> exact .node hdecode rfl (by simp [Node.operands])

mutual

/-- No expression of a story holds a directive or a jump. -/
theorem ExprAt.undirected (hS : S.words.size < UInt32.size) : (e : Expr) → {s t : Nat} →
    ExprAt P S r e s t → S.Undirected s
  | .literal v _, s, t, h => by
    rw [ExprAt] at h
    exact h.undirected
  | .variable x, s, t, h => by
    obtain ⟨i, hdecode, -⟩ := h.decode_variable
    exact .node hdecode rfl (by simp [Node.operands])
  | .group e, s, t, h => by
    rw [ExprAt] at h
    exact ExprAt.undirected hS e h
  | .unary op e, s, t, h => by
    obtain ⟨hdecode, he⟩ := h.decode_unary hS
    refine .node hdecode rfl ?_
    simpa [Node.operands] using ExprAt.undirected hS e he
  | .binary op left right, s, t, h => by
    obtain ⟨m, hdecode, hleft, hright⟩ := h.decode_binary hS
    refine .node hdecode rfl ?_
    simpa [Node.operands] using ⟨ExprAt.undirected hS left hleft, ExprAt.undirected hS right hright⟩
  | .assign x op value, s, t, h => by
    obtain ⟨i, hdecode, -, hvalue⟩ := h.decode_assign hS
    refine .node hdecode rfl ?_
    simpa [Node.operands] using ExprAt.undirected hS value hvalue
  | .call f args awaited close, s, t, h => by
    obtain ⟨i, os, ps, m, hdecode, -, hargs, hfill⟩ := h.decode_call hS
    refine .node hdecode rfl ?_
    intro o ho
    rcases List.mem_append.mp ho with ho | ho
    · exact ExprsAt.undirected hS args hargs o ho
    · obtain ⟨v, _, _, _, rfl, hv⟩ := hfill.exists_of_mem ho
      exact hv.undirected

/-- No operand of a row of expressions is a directive or a jump. -/
theorem ExprsAt.undirected (hS : S.words.size < UInt32.size) : (es : List Expr) → {os : List Nat} →
    {s t : Nat} → Row (Operand (ExprAt P S r)) es os s t → ∀ o ∈ os, S.Undirected o
  | [], os, s, t, h => by
    cases h
    simp
  | e :: es, os, s, t, h => by
    cases h with
    | cons he hes =>
      obtain ⟨rfl, he⟩ := he
      rw [List.forall_mem_cons]
      exact ⟨ExprAt.undirected hS e he, ExprsAt.undirected hS es hes⟩

end

end

/-! ## Statements -/

section

variable {P : Float → Prop} {A : Artifact} {r : Registry} {K : Nat → Prop} {s t : Nat}

/-- Nor is an expression that a statement holds. -/
theorem HeldAt.undirected (hS : A.script.words.size < UInt32.size) (h : HeldAt P A r s) :
    A.script.Undirected s := by
  cases h with
  | checked he => exact he.expr.undirected hS
  | flag hv => exact hv.undirected

/-- A directive without an assignment is one whose operands are inert. -/
theorem DirectiveAt.directs (hS : A.script.words.size < UInt32.size) {d : Spanned Directive} {o : Nat}
    (h : DirectiveAt P A r d o s t) (hstill : A.script.StillExpr o) : A.script.Directs o := by
  cases h with
  | auto hdecode => exact ⟨_, _, hdecode, rfl, by simp [Node.operands]⟩
  | goto hdecode => exact ⟨_, _, hdecode, rfl, by simp [Node.operands]⟩
  | speed hdecode he | pause hdecode he =>
    refine ⟨_, _, hdecode, rfl, ?_⟩
    intro o ho
    refine ⟨hstill.operand hdecode ho, ?_⟩
    obtain rfl := List.mem_singleton.mp ho
    exact he.expr.undirected hS

/-- An expression that is an instruction is inert, or it assigns an inert value. -/
theorem CheckedAt.instructs (hS : A.script.words.size < UInt32.size) {e : Expr}
    (h : CheckedAt P A r e s t) (hinstructs : A.script.Instructs s) : A.script.Inert s ∨
      ∃ op name value t, A.script.decodeExpr s = .ok (.assign op name value, t) ∧
        A.script.Inert value := by
  have hundirected := h.expr.undirected hS
  rcases hinstructs with hstill | ⟨op, name, value, t, hdecode, hstill⟩
  · exact .inl ⟨hstill, hundirected⟩
  · refine .inr ⟨op, name, value, t, hdecode, hstill, ?_⟩
    exact hundirected.operand hdecode (List.mem_singleton_self _)

/-- What stands for something of a story has its directives and jumps in their places, if it has its
assignments there. -/
theorem Stands.placed (hS : A.script.words.size < UInt32.size) {E : Nat → String → Prop}
    {node : Statement} (h : Stands P A r E K s node) (hquiet : A.script.Quiet node) :
    A.script.Placed node := by
  cases h with
  | entry | finish => simp [Script.Placed, Statement.exprs]
  | hash _ hpairs => exact fun e he => ⟨hquiet e he, (PairAt.held hpairs e he).undirected hS⟩
  | node hnode _ =>
    cases hnode with
    | line _ _ htext _ hdirectives =>
      obtain ⟨htextStill, hstill⟩ := List.forall_mem_append.mp hquiet
      refine ⟨fun e he => ⟨htextStill e he, (SegmentAt.held htext e he).undirected hS⟩, ?_⟩
      intro e he
      obtain ⟨d, _, _, _, hd⟩ := hdirectives.exists_of_mem he
      exact hd.directs hS (hstill e he)
    | instruction he => exact (he.instructs hS hquiet).imp_right .inr
    | goto _ hdecode => exact .inr (.inl ⟨_, hdecode⟩)
    | finish => simp [Script.Placed, Statement.exprs]
    | conditional hbranches =>
      intro e he
      refine ⟨hquiet e he, ?_⟩
      obtain ⟨p, hp, rfl⟩ := List.mem_map.mp he
      obtain ⟨b, _, _, _, hcondition, _⟩ := hbranches.exists_of_mem hp
      exact hcondition.expr.undirected hS
    | choice _ hitems =>
      intro e he
      refine ⟨hquiet e he, ?_⟩
      obtain ⟨item, hitem, he⟩ := List.mem_flatMap.mp he
      exact ((hitems.entries _ item hitem).held e he).undirected hS
    | hash hpairs | speaker _ hpairs =>
      exact fun e he => ⟨hquiet e he, (PairAt.held hpairs e he).undirected hS⟩

end

/-! ## Compiled scripts -/

/-- Reading the script of a source from its start to its end, with or without errors, every node that
acts is found in its place: directives are those of lines, jumps are directives of lines or instructions
that lead where they jump, assignments are instructions, and nothing of it is inside another
expression. -/
theorem compileText_placed (r : Registry) (o : CompileOptions) (implicit : Option String)
    (source : String) (haddressable : (compileText r o implicit source).script.Addressable) :
    ∃ xs, (compileText r o implicit source).script.Walk 0 xs
        (compileText r o implicit source).script.words.size ∧
      ∀ p ∈ xs, (compileText r o implicit source).script.Placed p.2 := by
  rw [compileText_script] at haddressable ⊢
  have hquiet := compile_quiet r o implicit source haddressable
  obtain ⟨A, labels, hA⟩ := exists_compiled_of_any r o (parse implicit source).1 haddressable
  obtain ⟨xs, hxs⟩ := hA.exists_laid
  rw [← hA.script] at hquiet ⊢
  exact ⟨xs, hxs.walk, fun p hp =>
    (hxs.stands p hp).placed hA.fits.addressable.words (hquiet xs hxs.walk p hp)⟩

/-- A ferry takes its fare, asks for speed, stumbles, and leaves for a shore that there is not. -/
def ferryScript : Script :=
  (compileText (Registry.empty.addVariable ⟨"gold", .float⟩) {} none
    "=== pier\n~ gold -= 2\nAnn: You have \x7bgold\x7d. <<speed 1 + 1, goto pier>>\n~ oops(\n-> shore\n").script

/-- The ferry has a directive, a jump and an assignment, each where it may stand. -/
theorem placed_at_ferry : ferryScript.Addressable ∧
    ∃ xs, ferryScript.Walk 0 xs ferryScript.words.size ∧ ∀ p ∈ xs, ferryScript.Placed p.2 := by
  have haddressable : ferryScript.Addressable := by decide +kernel
  unfold ferryScript at haddressable ⊢
  exact ⟨haddressable, compileText_placed _ {} none _ haddressable⟩

end Colloquy
