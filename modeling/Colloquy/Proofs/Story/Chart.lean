import Colloquy.Proofs.Layout.Statement

/-!
# Charts of stories

The chart of a story lists its statements in the order in which they are lowered: a statement comes
before those in its blocks.  Each is marked with how control reaches it in its own block, so the
statements behind one that control does not go on from are marked as cut off
(`Stmt.marked_eq_reached`).  A statement names sections in four ways: as a goto, in the directives and
the tags of a line, and as the target of an option.
-/

namespace Colloquy

open Lower (Reach)

/-! ## Marks -/

/-- How control reaches what follows a statement that is reached so itself.  Only the first statement
behind the cut is marked with its cause. -/
def Lower.Reach.behind (x : Stmt) : Reach → Reach
  | .reached => Reach.after x .reached
  | _ => .reported

/-- A statement is reached if the one in front of it is, and control goes on from there. -/
theorem Lower.Reach.behind_eq_reached {reach : Reach} {x : Stmt} :
    reach.behind x = .reached ↔ reach = .reached ∧ x.isTerminal = false := by
  cases reach with
  | reached => cases h : x.isTerminal <;> simp [Reach.behind, Reach.after, h]
  | _ => simp [Reach.behind]

/-- The statements of a block, the first of them reached as given. -/
def Stmt.marked : Reach → List Stmt → List (Reach × Stmt)
  | _, [] => []
  | reach, x :: xs => (reach, x) :: Stmt.marked (reach.behind x) xs

/-- The marked statements of a block are those of the block. -/
theorem Stmt.mem_of_mem_marked {reach : Reach} {b : List Stmt} {p : Reach × Stmt}
    (h : p ∈ Stmt.marked reach b) : p.2 ∈ b := by
  induction b generalizing reach with
  | nil => cases h
  | cons x b ih =>
    rcases List.mem_cons.mp h with rfl | h
    · exact List.mem_cons_self ..
    · exact List.mem_cons_of_mem _ (ih h)

/-- A statement is marked as reached if the block is and no statement in front of it is terminal. -/
theorem Stmt.marked_eq_reached {reach : Reach} {b : List Stmt} {i : Nat} {p : Reach × Stmt}
    (h : (Stmt.marked reach b)[i]? = some p) :
    p.1 = .reached ↔ reach = .reached ∧ ∀ x ∈ b.take i, x.isTerminal = false := by
  induction b generalizing reach i with
  | nil => simp [Stmt.marked] at h
  | cons x b ih =>
    cases i with
    | zero =>
      obtain rfl : (reach, x) = p := by simpa [Stmt.marked] using h
      simp
    | succ i =>
      rw [Stmt.marked, List.getElem?_cons_succ] at h
      rw [ih h, Reach.behind_eq_reached, List.take_succ_cons, List.forall_mem_cons, and_assoc]

/-! ## Charts -/

/-- A statement reached as given and the statements inside it. -/
def Stmt.chart (reach : Reach) (x : Stmt) : List (Reach × Stmt) :=
  (reach, x) :: x.blocks.attach.flatMap fun p =>
    (Stmt.marked .reached p.1.2).attach.flatMap fun y => y.1.2.chart y.1.1
termination_by sizeOf x
decreasing_by
  have := Stmt.sizeOf_blocks x p.1 p.2
  have := List.sizeOf_lt_of_mem (Stmt.mem_of_mem_marked y.2)
  omega

/-- The statements of a block, the first of them reached as given, and those inside them. -/
def Stmt.chartFrom (reach : Reach) (b : List Stmt) : List (Reach × Stmt) :=
  (Stmt.marked reach b).flatMap fun p => p.2.chart p.1

/-- The statements inside a statement. -/
def Stmt.inside (x : Stmt) : List (Reach × Stmt) :=
  x.blocks.flatMap fun p => Stmt.chartFrom .reached p.2

/-- The statements of a story. -/
def Story.chart (story : Story) : List (Reach × Stmt) :=
  story.flatMap fun x => Stmt.chartFrom .reached x.body

/-- A chart starts with its statement, and what is inside comes behind it. -/
theorem Stmt.chart_eq (reach : Reach) (x : Stmt) : x.chart reach = (reach, x) :: x.inside := by
  rw [Stmt.chart]
  simp only [flatMap_attach _ fun y : Reach × Stmt => y.2.chart y.1]
  rw [flatMap_attach _ fun p : Option Ident × List Stmt =>
    (Stmt.marked .reached p.2).flatMap fun y => y.2.chart y.1]
  rfl

@[simp] theorem Stmt.chartFrom_nil (reach : Reach) : Stmt.chartFrom reach [] = [] := rfl

/-- The chart of a block is that of its first statement and that of the others, which are cut off if
control does not go on from the first one. -/
theorem Stmt.chartFrom_cons (reach : Reach) (x : Stmt) (b : List Stmt) :
    Stmt.chartFrom reach (x :: b) =
      (reach, x) :: (x.inside ++ Stmt.chartFrom (reach.behind x) b) := by
  rw [Stmt.chartFrom, Stmt.marked, List.flatMap_cons, Stmt.chart_eq]
  rfl

/-! ## Names of sections -/

/-- The section that a directive names. -/
def Directive.target? : Directive → Option Ident
  | .goto x => some x
  | _ => none

mutual

/-- The sections that the options of an item name. -/
def ChoiceItem.targets : ChoiceItem → List Ident
  | .option _ _ target _ _ => target.toList
  | .filter branches otherwise _ =>
    ChoiceItem.branchTargets branches ++ ChoiceItem.otherwiseTargets otherwise

/-- The sections that the options of items name. -/
def ChoiceItem.allTargets : List ChoiceItem → List Ident
  | [] => []
  | i :: is => i.targets ++ ChoiceItem.allTargets is

/-- The sections that the options in the branches of a filter name. -/
def ChoiceItem.branchTargets : List (Expr × List ChoiceItem) → List Ident
  | [] => []
  | (_, is) :: rest => ChoiceItem.allTargets is ++ ChoiceItem.branchTargets rest

/-- The sections that the options in the last branch of a filter name. -/
def ChoiceItem.otherwiseTargets : Option (List ChoiceItem) → List Ident
  | none => []
  | some is => ChoiceItem.allTargets is

end

/-- The sections that a statement names, apart from the statements inside it. -/
def Stmt.names : Stmt → List Ident
  | .line l => l.text.flatMap Lower.inlineTargets ++ l.directives.filterMap (·.val.target?)
  | .goto x => [x]
  | .choice items _ => ChoiceItem.allTargets items
  | _ => []

/-- The sections that statements name. -/
def Stmt.allNames (ps : List (Reach × Stmt)) : List Ident := ps.flatMap fun p => p.2.names

/-- All names of sections in a story, each as often as it is written there. -/
def Story.references (story : Story) : List Ident := Stmt.allNames story.chart

@[simp] theorem Stmt.allNames_nil : Stmt.allNames [] = [] := rfl

@[simp] theorem Stmt.allNames_cons (p : Reach × Stmt) (ps : List (Reach × Stmt)) :
    Stmt.allNames (p :: ps) = p.2.names ++ Stmt.allNames ps := List.flatMap_cons

@[simp] theorem Stmt.allNames_append (ps qs : List (Reach × Stmt)) :
    Stmt.allNames (ps ++ qs) = Stmt.allNames ps ++ Stmt.allNames qs := List.flatMap_append

/-! ## What is cut off -/

/-- What is reported of a statement that is reached so: the first one behind the cut is. -/
def Lower.Reach.warning? (x : Stmt) : Reach → Option CompileError
  | .cut terminatedAt => some (.unreachableStatement x.span terminatedAt)
  | _ => none

/-- What is reported of the statements that are cut off. -/
def Stmt.warnings (o : CompileOptions) (ps : List (Reach × Stmt)) : List CompileError :=
  if o.unreachableWarnings then ps.filterMap fun p => p.1.warning? p.2 else []

@[simp] theorem Stmt.warnings_nil (o : CompileOptions) : Stmt.warnings o [] = [] := by
  simp [Stmt.warnings]

/-- The warnings of two rows of statements are those of the first and those of the second. -/
theorem Stmt.warnings_append (o : CompileOptions) (ps qs : List (Reach × Stmt)) :
    Stmt.warnings o (ps ++ qs) = Stmt.warnings o ps ++ Stmt.warnings o qs := by
  unfold Stmt.warnings
  split
  · exact List.filterMap_append
  · rfl

end Colloquy
