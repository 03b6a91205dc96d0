import Colloquy.Compiler.Lowering

/-!
# What the expressions and filters of a story meet

`Meets E F` says that `E` holds of every expression that a statement holds, and `F` of the number of
branches of every filter.  The expression of an instruction may be an assignment; then `E` holds of the
value it assigns.

One such `E` is `Expr.Floats P`: a predicate holds of every float written in an expression.
-/

namespace Colloquy

/-! ## Floats -/

section

variable (P : Float → Prop)

/-- Of a literal. -/
def Literal.Floats : Literal → Prop
  | .float x => P x
  | _ => True

/-- Of the default of a parameter. -/
def Parameter.Floats (p : Parameter) : Prop :=
  ∀ v, p.fallback.bind Lower.literalOf? = some v → v.Floats P

/-- Of all defaults of a registry. -/
def Registry.Floats (r : Registry) : Prop :=
  ∀ name f, r.findFunction? name = some f → ∀ p ∈ f.params, p.Floats P

mutual

/-- Of an expression. -/
def Expr.Floats : Expr → Prop
  | .literal v _ => v.Floats P
  | .variable _ => True
  | .group e => e.Floats
  | .unary _ e => e.Floats
  | .binary _ l r => l.Floats ∧ r.Floats
  | .assign _ _ e => e.Floats
  | .call _ args _ _ => Expr.AllFloats args

/-- Of expressions. -/
def Expr.AllFloats : List Expr → Prop
  | [] => True
  | e :: es => e.Floats ∧ Expr.AllFloats es

end

/-- The floats of a list of expressions have a property if those of each expression have it. -/
theorem Expr.allFloats_iff {es : List Expr} : Expr.AllFloats P es ↔ ∀ e ∈ es, e.Floats P := by
  induction es with
  | nil => simp [Expr.AllFloats]
  | cons e es ih => rw [Expr.AllFloats, ih, List.forall_mem_cons]

end

section

variable {P : Float → Prop}

/-- A property that every float has is one of a literal. -/
theorem Literal.floats_all (h : ∀ x, P x) (v : Literal) : v.Floats P := by
  cases v with
  | float x => exact h x
  | _ => trivial

/-- So is it of the defaults of a registry. -/
theorem Registry.floats_all (h : ∀ x, P x) (r : Registry) : r.Floats P :=
  fun _ _ _ _ _ v _ => v.floats_all h

mutual

/-- What holds of every float holds of those in an expression. -/
theorem Expr.floats_all (h : ∀ x, P x) : (e : Expr) → e.Floats P
  | .literal v _ => by
    rw [Expr.Floats]
    exact v.floats_all h
  | .variable _ => by rw [Expr.Floats]; trivial
  | .group e => by
    rw [Expr.Floats]
    exact e.floats_all h
  | .unary _ e => by
    rw [Expr.Floats]
    exact e.floats_all h
  | .binary _ left right => by
    rw [Expr.Floats]
    exact ⟨left.floats_all h, right.floats_all h⟩
  | .assign _ _ e => by
    rw [Expr.Floats]
    exact e.floats_all h
  | .call _ args _ _ => by
    rw [Expr.Floats]
    exact Expr.allFloats_all h args

/-- So it does of those in expressions. -/
theorem Expr.allFloats_all (h : ∀ x, P x) : (es : List Expr) → Expr.AllFloats P es
  | [] => by rw [Expr.AllFloats]; trivial
  | e :: es => by
    rw [Expr.AllFloats]
    exact ⟨e.floats_all h, Expr.allFloats_all h es⟩

end

end

/-! ## Parts of statements -/

variable (E : Expr → Prop)

/-- Of a stretch of text. -/
def Segment.Meets : Segment → Prop
  | .text _ => True
  | .placeholder e => E e

/-- Of a directive. -/
def Directive.Meets : Directive → Prop
  | .speed e => E e
  | .pause e => E e
  | _ => True

/-- Of hash data. -/
def HashBlock.Meets (h : HashBlock) : Prop := ∀ e ∈ h.entries, ∀ v ∈ e.values, E v

/-- Of a line. -/
structure Line.Meets (l : Line) : Prop where
  text : ∀ s ∈ l.text, s.Meets E
  directives : ∀ d ∈ l.directives, d.val.Meets E
  hash : ∀ h, l.hash = some h → h.Meets E

/-! ## Statements -/

/-- Of the expression of an instruction, or of the value that it assigns. -/
def Expr.Instructs : Expr → Prop
  | .assign _ _ value => E value
  | e => E e

variable (F : Nat → Prop)

mutual

/-- Of a statement. -/
def Stmt.Meets : Stmt → Prop
  | .line l => l.Meets E
  | .instruction e => e.Instructs E
  | .goto _ => True
  | .finish _ => True
  | .conditional branches otherwise _ =>
    Stmt.BranchesMeet branches ∧ Stmt.OtherwiseMeets otherwise
  | .choice items _ => ChoiceItem.AllMeet items
  | .hash h => h.Meets E
  | .speaker _ h _ => h.Meets E

/-- Of statements. -/
def Stmt.AllMeet : List Stmt → Prop
  | [] => True
  | s :: ss => s.Meets ∧ Stmt.AllMeet ss

/-- Of the branches of a conditional. -/
def Stmt.BranchesMeet : List (Expr × List Stmt) → Prop
  | [] => True
  | (e, b) :: rest => (E e ∧ Stmt.AllMeet b) ∧ Stmt.BranchesMeet rest

/-- Of the last branch of a conditional. -/
def Stmt.OtherwiseMeets : Option (List Stmt) → Prop
  | none => True
  | some b => Stmt.AllMeet b

/-- Of an item. -/
def ChoiceItem.Meets : ChoiceItem → Prop
  | .option guard text _ body _ => (∀ e, guard = some e → E e) ∧ (∀ s ∈ text, s.Meets E) ∧
      Stmt.OtherwiseMeets body
  | .filter branches otherwise _ => F branches.length ∧
      ChoiceItem.BranchesMeet branches ∧ ChoiceItem.OtherwiseMeets otherwise

/-- Of items. -/
def ChoiceItem.AllMeet : List ChoiceItem → Prop
  | [] => True
  | i :: is => i.Meets ∧ ChoiceItem.AllMeet is

/-- Of the branches of a filter. -/
def ChoiceItem.BranchesMeet : List (Expr × List ChoiceItem) → Prop
  | [] => True
  | (e, is) :: rest => (E e ∧ ChoiceItem.AllMeet is) ∧ ChoiceItem.BranchesMeet rest

/-- Of the last branch of a filter. -/
def ChoiceItem.OtherwiseMeets : Option (List ChoiceItem) → Prop
  | none => True
  | some is => ChoiceItem.AllMeet is

end

/-- Of a story. -/
def Story.Meets (s : Story) : Prop := ∀ x ∈ s, Stmt.AllMeet E F x.body

variable {E F}

/-- A list of statements meets something if each statement does. -/
theorem Stmt.allMeet_iff {xs : List Stmt} : Stmt.AllMeet E F xs ↔ ∀ x ∈ xs, x.Meets E F := by
  induction xs with
  | nil => simp [Stmt.AllMeet]
  | cons x xs ih => rw [Stmt.AllMeet, ih, List.forall_mem_cons]

/-- The branches of a conditional meet what each of them does. -/
theorem Stmt.branchesMeet_iff {bs : List (Expr × List Stmt)} :
    Stmt.BranchesMeet E F bs ↔ ∀ b ∈ bs, E b.1 ∧ Stmt.AllMeet E F b.2 := by
  induction bs with
  | nil => simp [Stmt.BranchesMeet]
  | cons b bs ih => rw [Stmt.BranchesMeet, ih, List.forall_mem_cons]

/-- A block that is not there behind the branches meets what an empty one does. -/
theorem Stmt.otherwiseMeets_iff {b : Option (List Stmt)} :
    Stmt.OtherwiseMeets E F b ↔ Stmt.AllMeet E F (b.getD []) := by
  cases b with
  | none => simp [Stmt.OtherwiseMeets, Stmt.AllMeet]
  | some b => rw [Stmt.OtherwiseMeets, Option.getD_some]

/-- Items meet what each of them does. -/
theorem ChoiceItem.allMeet_iff {is : List ChoiceItem} :
    ChoiceItem.AllMeet E F is ↔ ∀ i ∈ is, i.Meets E F := by
  induction is with
  | nil => simp [ChoiceItem.AllMeet]
  | cons i is ih => rw [ChoiceItem.AllMeet, ih, List.forall_mem_cons]

/-- The branches of a filter meet what each of them does. -/
theorem ChoiceItem.branchesMeet_iff {bs : List (Expr × List ChoiceItem)} :
    ChoiceItem.BranchesMeet E F bs ↔ ∀ b ∈ bs, E b.1 ∧ ChoiceItem.AllMeet E F b.2 := by
  induction bs with
  | nil => simp [ChoiceItem.BranchesMeet]
  | cons b bs ih => rw [ChoiceItem.BranchesMeet, ih, List.forall_mem_cons]

/-- The floats of an assignment are those of the value it assigns. -/
theorem Expr.Instructs.floats {P : Float → Prop} {e : Expr} (h : e.Instructs (Expr.Floats P)) :
    e.Floats P := by
  cases e with
  | assign x op value =>
    rw [Expr.Floats]
    exact h
  | _ => exact h

/-! ## Predicates that hold of all expressions -/

/-- What holds of all expressions is met by a part of a text. -/
theorem Segment.meets_all (h : ∀ e, E e) (s : Segment) : s.Meets E := by
  cases s with
  | text t => trivial
  | placeholder e => exact h e

/-- What holds of every expression is met by a directive. -/
theorem Directive.meets_all (h : ∀ e, E e) (d : Directive) : d.Meets E := by
  cases d with
  | speed e => exact h e
  | pause e => exact h e
  | _ => trivial

/-- So is it by hash data. -/
theorem HashBlock.meets_all (h : ∀ e, E e) (b : HashBlock) : b.Meets E :=
  fun _ _ v _ => h v

/-- So is it by a line, in its text, its directives and its hash data. -/
theorem Line.meets_all (h : ∀ e, E e) (l : Line) : l.Meets E where
  text s _ := s.meets_all h
  directives d _ := d.val.meets_all h
  hash b _ := b.meets_all h

mutual

/-- What holds of all expressions and numbers is met by a statement, by recursion into its blocks. -/
theorem Stmt.meets_all (h : ∀ e, E e) (hF : ∀ n, F n) : (x : Stmt) → x.Meets E F
  | .line l => by
    rw [Stmt.Meets]
    exact l.meets_all h
  | .instruction e => by
    rw [Stmt.Meets]
    cases e <;> exact h _
  | .goto _ => by rw [Stmt.Meets]; trivial
  | .finish _ => by rw [Stmt.Meets]; trivial
  | .conditional branches otherwise _ => by
    rw [Stmt.Meets]
    exact ⟨Stmt.branchesMeet_all h hF branches, Stmt.otherwiseMeets_all h hF otherwise⟩
  | .choice items _ => by
    rw [Stmt.Meets]
    exact ChoiceItem.allMeet_all h hF items
  | .hash b => by
    rw [Stmt.Meets]
    exact b.meets_all h
  | .speaker _ b _ => by
    rw [Stmt.Meets]
    exact b.meets_all h

/-- So it is by statements. -/
theorem Stmt.allMeet_all (h : ∀ e, E e) (hF : ∀ n, F n) : (xs : List Stmt) → Stmt.AllMeet E F xs
  | [] => by rw [Stmt.AllMeet]; trivial
  | x :: xs => by
    rw [Stmt.AllMeet]
    exact ⟨x.meets_all h hF, Stmt.allMeet_all h hF xs⟩

/-- So it is by the branches of a conditional. -/
theorem Stmt.branchesMeet_all (h : ∀ e, E e) (hF : ∀ n, F n) :
    (bs : List (Expr × List Stmt)) → Stmt.BranchesMeet E F bs
  | [] => by rw [Stmt.BranchesMeet]; trivial
  | (e, b) :: rest => by
    rw [Stmt.BranchesMeet]
    exact ⟨⟨h e, Stmt.allMeet_all h hF b⟩, Stmt.branchesMeet_all h hF rest⟩

/-- So it is by the block behind them. -/
theorem Stmt.otherwiseMeets_all (h : ∀ e, E e) (hF : ∀ n, F n) :
    (b : Option (List Stmt)) → Stmt.OtherwiseMeets E F b
  | none => by rw [Stmt.OtherwiseMeets]; trivial
  | some b => by
    rw [Stmt.OtherwiseMeets]
    exact Stmt.allMeet_all h hF b

/-- So it is by an item of a choice. -/
theorem ChoiceItem.meets_all (h : ∀ e, E e) (hF : ∀ n, F n) : (i : ChoiceItem) → i.Meets E F
  | .option guard text _ body _ => by
    rw [ChoiceItem.Meets]
    exact ⟨fun e _ => h e, fun s _ => s.meets_all h, Stmt.otherwiseMeets_all h hF body⟩
  | .filter branches otherwise _ => by
    rw [ChoiceItem.Meets]
    exact ⟨hF _, ChoiceItem.branchesMeet_all h hF branches,
      ChoiceItem.otherwiseMeets_all h hF otherwise⟩

/-- So it is by items. -/
theorem ChoiceItem.allMeet_all (h : ∀ e, E e) (hF : ∀ n, F n) :
    (is : List ChoiceItem) → ChoiceItem.AllMeet E F is
  | [] => by rw [ChoiceItem.AllMeet]; trivial
  | i :: is => by
    rw [ChoiceItem.AllMeet]
    exact ⟨i.meets_all h hF, ChoiceItem.allMeet_all h hF is⟩

/-- So it is by the branches of a filter. -/
theorem ChoiceItem.branchesMeet_all (h : ∀ e, E e) (hF : ∀ n, F n) :
    (bs : List (Expr × List ChoiceItem)) → ChoiceItem.BranchesMeet E F bs
  | [] => by rw [ChoiceItem.BranchesMeet]; trivial
  | (e, is) :: rest => by
    rw [ChoiceItem.BranchesMeet]
    exact ⟨⟨h e, ChoiceItem.allMeet_all h hF is⟩, ChoiceItem.branchesMeet_all h hF rest⟩

/-- So it is by the items behind them. -/
theorem ChoiceItem.otherwiseMeets_all (h : ∀ e, E e) (hF : ∀ n, F n) :
    (o : Option (List ChoiceItem)) → ChoiceItem.OtherwiseMeets E F o
  | none => by rw [ChoiceItem.OtherwiseMeets]; trivial
  | some is => by
    rw [ChoiceItem.OtherwiseMeets]
    exact ChoiceItem.allMeet_all h hF is

end

/-- What holds of all expressions and numbers is met by a story. -/
theorem Story.meets_all (h : ∀ e, E e) (hF : ∀ n, F n) (s : Story) : s.Meets E F :=
  fun x _ => Stmt.allMeet_all h hF x.body

end Colloquy
