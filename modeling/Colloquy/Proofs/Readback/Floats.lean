import Colloquy.Proofs.Diagnostic.Flow
import Colloquy.Proofs.Layout.Pools
import Colloquy.Proofs.Readback.Still

/-!
# The floats of a story

The lowering of a story asks for a place for each float in turn: for the floats that are written in the
story, and for those among the defaults that fill up its calls.  `Story.floats` lists them in the order of
the compiled script.  Every step of a lowering places the floats of what it lowers behind those before
(`Lower.Asks`), so the pool of a compiled script is the one that this list makes (`compile_floatPool`).
-/

namespace Colloquy

open Code

/-! ## Lists of floats -/

/-- The float of a literal. -/
def Literal.floats : Literal → List Float
  | .float x => [x]
  | _ => []

mutual

/-- The floats in a term, in order. -/
def Term.floats : Term → List Float
  | .literal v => v.floats
  | .unary _ e | .assign _ _ e | .speed e | .pause e => e.floats
  | .binary _ left right => left.floats ++ right.floats
  | .call _ _ args => Term.allFloats args
  | .variable _ | .auto | .goto _ => []

/-- The floats in terms, in order. -/
def Term.allFloats : List Term → List Float
  | [] => []
  | e :: es => e.floats ++ Term.allFloats es

end

/-- The floats in a clause, in order. -/
def Clause.floats (c : Clause) : List Float := Term.allFloats c.terms

/-- The floats of a story in the order of its compiled script, with those of the defaults that fill up
its calls. -/
def Story.floats (r : Registry) (story : Story) : List Float :=
  story.flatMap fun x => (x.clauses r story.target).flatMap Clause.floats

namespace Term

@[simp] theorem allFloats_nil : allFloats [] = [] := by rw [allFloats]

/-- The floats of terms are those of each term in turn. -/
theorem allFloats_eq (es : List Term) : allFloats es = es.flatMap floats := by
  induction es with
  | nil => rw [allFloats, List.flatMap_nil]
  | cons e es ih => rw [allFloats, ih, List.flatMap_cons]

theorem allFloats_append (es fs : List Term) : allFloats (es ++ fs) = allFloats es ++ allFloats fs := by
  rw [allFloats_eq, allFloats_eq, allFloats_eq, List.flatMap_append]

theorem allFloats_flatMap {α : Type} (f : α → List Term) (xs : List α) :
    allFloats (xs.flatMap f) = xs.flatMap fun x => allFloats (f x) := by
  simp only [allFloats_eq, List.flatMap_assoc]

theorem allFloats_map {α : Type} (f : α → Term) (xs : List α) :
    allFloats (xs.map f) = xs.flatMap fun x => (f x).floats := by
  rw [allFloats_eq, List.flatMap_map]

@[simp] theorem allFloats_singleton (e : Term) : allFloats [e] = e.floats := by
  rw [allFloats, allFloats, List.append_nil]

/-- The floats of literals that stand for terms are their own. -/
theorem allFloats_literals (vs : List Literal) :
    allFloats (vs.map .literal) = vs.flatMap Literal.floats := by
  rw [allFloats_map]
  simp only [floats]

end Term

/-! ## Steps that ask for places -/

/-- Places for some floats were asked for one after another, and places for some texts and speakers. -/
structure Draft.Asked (floats : List Float) (d d' : Draft) : Prop where
  floats : d'.assembly.script.floats =
    Assembly.internAll Assembly.sameFloat d.assembly.script.floats floats
  strings : ∃ xs, d'.assembly.script.strings =
    Assembly.internAll (· == ·) d.assembly.script.strings xs
  speakers : ∃ xs, d'.assembly.script.speakers =
    Assembly.internAll (· == ·) d.assembly.script.speakers xs

namespace Lower

variable {α β : Type} {r : Registry} {o : CompileOptions} {g : Ident → Option String}

/-- A step of a lowering asks for places for these floats, one after another. -/
def Asks (floats : List Float) (m : Lower α) : Prop := ∀ d : Draft, d.Asked floats (m d).2

/-- A step of a lowering asks for no place for a float. -/
abbrev Floatless (m : Lower α) : Prop := Asks [] m

namespace Asks

variable {m : Lower α} {f : α → Lower β} {xs ys : List Float}

/-- A step that leaves the pools alone. -/
theorem of_frame (h : ∀ d, (m d).2.assembly.script.floats = d.assembly.script.floats ∧
    (m d).2.assembly.script.strings = d.assembly.script.strings ∧
    (m d).2.assembly.script.speakers = d.assembly.script.speakers) : Floatless m := by
  intro d
  obtain ⟨hfloats, hstrings, hspeakers⟩ := h d
  exact ⟨hfloats, ⟨[], hstrings⟩, [], hspeakers⟩

theorem pure (a : α) : Floatless (Pure.pure a : Lower α) := .of_frame fun _ => ⟨rfl, rfl, rfl⟩

/-- One step after another: the second is known for all results that the first one can have. -/
theorem bind (hm : Asks xs m) (hf : ∀ d, Asks ys (f (m d).1)) : Asks (xs ++ ys) (m >>= f) := by
  intro d
  have h := hm d
  have h' := hf d (m d).2
  obtain ⟨as, hstrings⟩ := h.strings
  obtain ⟨bs, hstrings'⟩ := h'.strings
  obtain ⟨cs, hspeakers⟩ := h.speakers
  obtain ⟨ds, hspeakers'⟩ := h'.speakers
  refine ⟨?_, ⟨as ++ bs, ?_⟩, cs ++ ds, ?_⟩
  · rw [Assembly.internAll_append, ← h.floats]
    exact h'.floats
  · rw [Assembly.internAll_append, ← hstrings]
    exact hstrings'
  · rw [Assembly.internAll_append, ← hspeakers]
    exact hspeakers'

/-- A step without floats in front of another one. -/
theorem after (hm : Floatless m) (hf : ∀ a, Asks ys (f a)) : Asks ys (m >>= f) :=
  hm.bind fun _ => hf _

/-- A step without floats behind another one. -/
theorem before (hm : Asks xs m) (hf : ∀ a, Floatless (f a)) : Asks xs (m >>= f) := by
  have h := hm.bind fun d => hf (m d).1
  rwa [List.append_nil] at h

/-- A step for each entry of a list asks for the floats of the entries in their order. -/
theorem forM {as : List α} {f : α → Lower Unit} {floats : α → List Float}
    (h : ∀ a ∈ as, Asks (floats a) (f a)) : Asks (as.flatMap floats) (as.forM f) := by
  induction as with
  | nil => exact .pure ()
  | cons a as ih =>
    rw [List.forall_mem_cons] at h
    rw [List.flatMap_cons]
    exact h.1.bind fun _ => ih h.2

/-- A step for each entry of a list asks for nothing if none of the steps does. -/
theorem forM_floatless {as : List α} {f : α → Lower Unit} (h : ∀ a ∈ as, Floatless (f a)) :
    Floatless (as.forM f) := by
  have hforM : Asks (as.flatMap fun _ => []) (as.forM f) := forM h
  rwa [List.flatMap_eq_nil_iff.mpr fun _ _ => rfl] at hforM

/-- What is done with the draft itself. -/
theorem get_bind {f : Draft → Lower β} (h : ∀ d, Asks xs (f d)) : Asks xs ((get : Lower Draft) >>= f) :=
  fun d => h d d

end Asks

/-! ## Emitting -/

theorem emit_asks (w : UInt32) : Floatless (emit w) := .of_frame fun _ => ⟨rfl, rfl, rfl⟩

theorem emitCount_asks (n : Nat) : Floatless (emitCount n) := emit_asks _

theorem emitTarget_asks (l : Label) : Floatless (emitTarget l) := .of_frame fun _ => ⟨rfl, rfl, rfl⟩

theorem freshLabel_asks : Floatless freshLabel := .of_frame fun _ => ⟨rfl, rfl, rfl⟩

theorem bindLabel_asks (l : Label) : Floatless (bindLabel l) := .of_frame fun _ => ⟨rfl, rfl, rfl⟩

/-- Redirecting a label leaves the pools as they are. -/
theorem redirect_asks (l target : Label) : Floatless (update (·.redirect l target)) := by
  refine .of_frame fun d => ?_
  show (d.assembly.redirect l target).script.floats = _ ∧
    (d.assembly.redirect l target).script.strings = _ ∧ (d.assembly.redirect l target).script.speakers = _
  unfold Assembly.redirect
  split <;> exact ⟨rfl, rfl, rfl⟩

theorem fill_asks (n : Nat) (w : UInt32) : Floatless (update (·.fill n w)) :=
  .of_frame fun _ => ⟨rfl, rfl, rfl⟩

theorem reserve_asks : Floatless (fetch Assembly.reserve) := .of_frame fun _ => ⟨rfl, rfl, rfl⟩

theorem report_asks (errors : List CompileError) : Floatless (report errors) :=
  .of_frame fun _ => ⟨rfl, rfl, rfl⟩

theorem mention_asks (l : Label) (x : Ident) : Floatless (update (·.mention l x)) :=
  .of_frame fun _ => ⟨rfl, rfl, rfl⟩

theorem string_asks (s : String) : Floatless (string s) := fun _ => ⟨rfl, ⟨[s], rfl⟩, [], rfl⟩

theorem speaker_asks (s : String) : Floatless (speaker s) := fun _ => ⟨rfl, ⟨[], rfl⟩, [s], rfl⟩

theorem float_asks (x : Float) : Asks [x] (fetch (·.float x)) := fun _ => ⟨rfl, ⟨[], rfl⟩, [], rfl⟩

/-! ## Expressions -/

/-- A literal asks for its float, if it is one. -/
theorem literal_asks (v : Literal) : Asks v.floats (literal v) := by
  cases v with
  | float x => exact (float_asks x).before fun _ => (emit_asks _).after fun _ => emit_asks _
  | string s => exact (string_asks s).after fun _ => (emit_asks _).after fun _ => emit_asks _
  | bool b => exact (emit_asks _).after fun _ => emit_asks _

/-- Defaults ask for the floats among them, up to one that no literal stands for. -/
theorem defaults_asks (ps : List Parameter) :
    Asks ((Parameter.fallbacks ps).flatMap Literal.floats) (defaults ps) := by
  induction ps with
  | nil => exact .pure 0
  | cons p ps ih =>
    unfold defaults Parameter.fallbacks
    cases p.fallback.bind literalOf? with
    | none => exact .pure 0
    | some v => exact (literal_asks v).bind fun _ => ih.before fun _ => .pure _

/-- A call asks for the floats among the defaults that fill it up. -/
theorem fallbacks_asks (r : Registry) (name : String) (given : Nat) :
    Asks ((r.fallbacks name given).flatMap Literal.floats) (fallbacks r name given) := by
  unfold fallbacks Registry.fallbacks
  cases r.findFunction? name with
  | none => exact .pure 0
  | some f => exact defaults_asks _

mutual

/-- The lowering of an expression asks for the floats of its term. -/
theorem expr_asks (r : Registry) : (e : Expr) → Asks (e.term r).floats (expr r e)
  | .literal v _ => by
    rw [Expr.term, Term.floats, expr]
    exact literal_asks v
  | .variable x => by
    rw [Expr.term, Term.floats, expr]
    exact (string_asks _).after fun _ => (emit_asks _).after fun _ => emit_asks _
  | .group e => by
    rw [Expr.term, expr]
    exact expr_asks r e
  | .unary op e => by
    rw [Expr.term, Term.floats, expr]
    exact (emit_asks _).after fun _ => expr_asks r e
  | .binary op left right => by
    rw [Expr.term, Term.floats, expr]
    exact (emit_asks _).after fun _ => (expr_asks r left).bind fun _ => expr_asks r right
  | .assign x op value => by
    rw [Expr.term, Term.floats, expr]
    refine (string_asks _).after fun _ => (emit_asks _).after fun _ => (emit_asks _).after fun _ => ?_
    exact expr_asks r value
  | .call callee args awaited _ => by
    rw [Expr.term, Term.floats, Term.allFloats_append, Term.allFloats_literals, expr]
    refine (string_asks _).after fun _ => (emit_asks _).after fun _ => (emit_asks _).after fun _ => ?_
    refine (emit_asks _).after fun _ => reserve_asks.after fun _ => (exprs_asks r args).bind fun _ => ?_
    exact (fallbacks_asks r _ _).before fun _ => fill_asks _ _

/-- Expressions ask for the floats of each in turn. -/
theorem exprs_asks (r : Registry) : (es : List Expr) → Asks (Term.allFloats (Expr.terms r es)) (exprs r es)
  | [] => by
    rw [Expr.terms, Term.allFloats, exprs]
    exact .pure ()
  | e :: es => by
    rw [Expr.terms, Term.allFloats, exprs]
    exact (expr_asks r e).bind fun _ => exprs_asks r es

end

theorem checkedExpr_asks (r : Registry) (e : Expr) : Asks (e.term r).floats (checkedExpr r e) :=
  (report_asks _).after fun _ => expr_asks r e

theorem checkKind_asks (r : Registry) (e : Expr) (k : Kind) : Floatless (checkKind r e k) := report_asks _

/-! ## Parts of statements -/

/-- A section that is named gets its label without asking for a float. -/
theorem sectionLabel_asks (x : Ident) : Floatless (sectionLabel x) := by
  refine .get_bind fun d => ?_
  split
  · exact (mention_asks _ _).after fun _ => .pure _
  · refine freshLabel_asks.after fun l => Asks.after (.of_frame fun _ => ⟨rfl, rfl, rfl⟩) fun _ => ?_
    exact (mention_asks l x).after fun _ => .pure l

/-- A segment of a text asks for the floats of its expression, if it holds one. -/
theorem segment_asks (r : Registry) (s : Segment) :
    Asks (Term.allFloats (s.part r).terms) (segment r s) := by
  cases s with
  | text t =>
    rw [Segment.part, TextPart.terms, Term.allFloats_nil]
    exact (string_asks _).after fun _ => (emit_asks _).after fun _ => emit_asks _
  | placeholder e =>
    rw [Segment.part, TextPart.terms, Term.allFloats_singleton]
    exact (report_asks _).after fun _ => (emit_asks _).after fun _ => expr_asks r e

theorem segments_asks (r : Registry) (ss : List Segment) :
    Asks (Term.allFloats ((ss.map (Segment.part r)).flatMap TextPart.terms)) (segments r ss) := by
  rw [List.flatMap_map, Term.allFloats_flatMap]
  exact (emitCount_asks _).after fun _ => .forM fun s _ => segment_asks r s

theorem mentionInline_asks (ss : List Segment) : Floatless (mentionInline ss) :=
  .forM_floatless fun x _ => (sectionLabel_asks x).after fun _ => .pure ()

/-- A key asks for the floats of its values. -/
theorem entry_asks (r : Registry) (e : HashEntry) :
    Asks (Term.allFloats (e.part r).values) (entry r e) := by
  refine (string_asks _).after fun key => ?_
  rw [HashEntry.part]
  split
  · rw [Term.allFloats_singleton, Term.floats]
    exact (emitCount_asks _).after fun _ => (emit_asks _).after fun _ => literal_asks _
  · rw [Term.allFloats_map]
    exact (emitCount_asks _).after fun _ => (emit_asks _).after fun _ =>
      .forM fun v _ => checkedExpr_asks r v

/-- Keys ask for the floats of the values of each in turn, whatever keys stand before them. -/
theorem entries_asks (r : Registry) (before : List Ident) (es : List HashEntry) :
    Asks (es.flatMap fun e => Term.allFloats (e.part r).values) (entries r before es) := by
  induction es generalizing before with
  | nil => exact .pure ()
  | cons e es ih =>
    rw [List.flatMap_cons]
    exact (report_asks _).after fun _ => (entry_asks r e).bind fun _ => ih _

theorem hash_asks (r : Registry) (h : HashBlock) :
    Asks (Term.allFloats ((h.parts r).flatMap PairPart.values)) (hash r h) := by
  rw [HashBlock.parts, List.flatMap_map, Term.allFloats_flatMap]
  exact (emitCount_asks _).after fun _ => entries_asks r [] h.entries

/-- A speaker asks for no float. -/
theorem speakerRef_asks (r : Registry) (s : SpeakerRef) : Floatless (speakerRef r s) := by
  cases s with
  | named x => exact (speaker_asks _).after fun _ => (emit_asks _).after fun _ => emit_asks _
  | «variable» x =>
    refine (report_asks _).after fun _ => (string_asks _).after fun _ => ?_
    exact (emit_asks _).after fun _ => emit_asks _

/-- A directive asks for the float that it sets, if it sets one. -/
theorem directive_asks (r : Registry) (g : Ident → Option String) (x : Directive) :
    Asks (x.term r g).floats (directive r x) := by
  cases x with
  | auto =>
    rw [Directive.term, Term.floats]
    exact emit_asks _
  | speed e | pause e =>
    rw [Directive.term, Term.floats]
    exact (checkKind_asks r e _).after fun _ => (emit_asks _).after fun _ => expr_asks r e
  | goto x =>
    rw [Directive.term, Term.floats]
    exact (sectionLabel_asks x).after fun l => (emit_asks _).after fun _ => emitTarget_asks l

/-- The hash data of a line ask for the floats of their values. -/
theorem lineHash_asks (r : Registry) (h : Option HashBlock) :
    Asks ((h.toList.map fun h => Clause.hash (h.parts r)).flatMap Clause.floats) (lineHash r h) := by
  cases h with
  | none => exact .pure ()
  | some b =>
    rw [Option.toList_some, List.map_singleton, List.flatMap_singleton, Clause.floats, Clause.terms]
    refine freshLabel_asks.after fun l => (emit_asks _).after fun _ => (emitTarget_asks l).after fun _ => ?_
    exact (hash_asks r b).before fun _ => bindLabel_asks l

/-- A line asks for the floats of its text and directives, and then for those of its hash data. -/
theorem line_asks (r : Registry) (g : Ident → Option String) (l : Line) (next : Label) :
    Asks ((l.clauses r g).flatMap Clause.floats) (line r l next) := by
  rw [Line.clauses, List.flatMap_append, List.flatMap_singleton, Clause.floats, Clause.terms,
    Term.allFloats_append, Term.allFloats_map]
  refine (lineHash_asks r l.hash).bind fun _ => (emit_asks _).after fun _ => ?_
  refine (emitTarget_asks next).after fun _ => (emitCount_asks _).after fun _ => ?_
  refine Asks.after (.forM_floatless fun s _ => speakerRef_asks r s) fun _ => ?_
  refine (segments_asks r l.text).bind fun _ => (mentionInline_asks l.text).after fun _ => ?_
  exact (emitCount_asks _).after fun _ => .forM fun d _ => directive_asks r g d.val

/-! ## Choices -/

theorem optionExit_asks (next : Label) (x : Option Ident) : Floatless (optionExit next x) := by
  cases x with
  | none => exact .pure next
  | some y => exact sectionLabel_asks y

/-- A guard asks for the floats of its expression, if there is one. -/
theorem guard_asks (r : Registry) (e : Option Expr) :
    Asks (Term.allFloats (e.map (Expr.term r)).toList) (Lower.guard r e) := by
  cases e with
  | none =>
    rw [Option.map_none, Option.toList_none, Term.allFloats_nil]
    exact emit_asks _
  | some e =>
    rw [Option.map_some, Option.toList_some, Term.allFloats_singleton]
    exact (checkKind_asks r e _).after fun _ => (emit_asks _).after fun _ => expr_asks r e

theorem condition_asks (r : Registry) (marker : Code.ChoiceMarker) (e : Expr) :
    Asks (e.term r).floats (condition r marker e) :=
  (emit_asks _).after fun _ => (checkKind_asks r e _).after fun _ => expr_asks r e

theorem optionEntry_asks (exit : Label) (body : Option (List Stmt)) : Floatless (optionEntry exit body) := by
  cases body with
  | none => exact (emitTarget_asks _).after fun _ => .pure _
  | some b => exact freshLabel_asks.after fun l => (emitTarget_asks l).after fun _ => .pure _

/-- The floats of entries of a choice. -/
def entryFloats (ps : List ItemPart) : List Float := Term.allFloats (ps.flatMap ItemPart.terms)

/-- The floats of entries are those of the first with those of the others behind them. -/
theorem entryFloats_append (ps qs : List ItemPart) :
    entryFloats (ps ++ qs) = entryFloats ps ++ entryFloats qs := by
  rw [entryFloats, List.flatMap_append, Term.allFloats_append]
  rfl

/-- The floats of an entry stand in front of those of the others. -/
theorem entryFloats_cons (p : ItemPart) (ps : List ItemPart) :
    entryFloats (p :: ps) = Term.allFloats p.terms ++ entryFloats ps := by
  rw [entryFloats, List.flatMap_cons, Term.allFloats_append]
  rfl

theorem entryFloats_nil : entryFloats [] = [] := Term.allFloats_nil

mutual

/-- An item of a choice asks for the floats of its entries, in their order. -/
theorem item_asks (r : Registry) (next : Label) : (i : ChoiceItem) →
    Asks (entryFloats (i.entries r)) (item r next i)
  | .option guard text target body _ => by
    rw [ChoiceItem.entries, entryFloats_cons, entryFloats_nil, List.append_nil, ItemPart.terms,
      Term.allFloats_append, item]
    refine (optionExit_asks next target).after fun exit => (emit_asks _).after fun _ => ?_
    refine (optionEntry_asks exit body).after fun bodies => (guard_asks r guard).bind fun _ => ?_
    exact (segments_asks r text).before fun _ => .pure _
  | .filter branches otherwise _ => by
    have hend : entryFloats [.endIf] = [] := Term.allFloats_nil
    rw [ChoiceItem.entries, entryFloats_append, entryFloats_append, hend, List.append_nil, item]
    have hmark : ∀ e, (ItemPart.ifMarker e).terms = [e] := fun _ => rfl
    refine (filterBranches_asks r next .ifMarker hmark branches).bind fun _ => ?_
    exact (filterOtherwise_asks r next otherwise).before fun _ => (emit_asks _).after fun _ => .pure _

/-- Items ask for the floats of the entries of each in turn. -/
theorem items_asks (r : Registry) (next : Label) : (is : List ChoiceItem) →
    Asks (entryFloats (ChoiceItem.allEntries r is)) (items r next is)
  | [] => by
    rw [ChoiceItem.allEntries, entryFloats_nil, items]
    exact .pure _
  | i :: is => by
    rw [ChoiceItem.allEntries, entryFloats_append, items]
    exact (item_asks r next i).bind fun _ => (items_asks r next is).before fun _ => .pure _

/-- The branches of a filter ask for the floats of their conditions and of their entries, whatever entry
stands for a condition. -/
theorem filterBranches_asks (r : Registry) (next : Label) (marker : Code.ChoiceMarker)
    {mark : Term → ItemPart} (hmark : ∀ e, (mark e).terms = [e]) : (bs : List (Expr × List ChoiceItem)) →
      Asks (entryFloats (ChoiceItem.branchEntries r mark bs)) (filterBranches r next marker bs)
  | [] => by
    rw [ChoiceItem.branchEntries, entryFloats_nil, filterBranches]
    exact .pure _
  | (e, is) :: bs => by
    rw [ChoiceItem.branchEntries, entryFloats_cons, hmark, Term.allFloats_singleton, entryFloats_append,
      filterBranches]
    have hmark' : ∀ e, (ItemPart.elseIf e).terms = [e] := fun _ => rfl
    refine (condition_asks r marker e).bind fun _ => (items_asks r next is).bind fun _ => ?_
    exact (filterBranches_asks r next _ hmark' bs).before fun _ => .pure _

/-- The items behind the branches of a filter ask for the floats of their entries. -/
theorem filterOtherwise_asks (r : Registry) (next : Label) : (o : Option (List ChoiceItem)) →
    Asks (entryFloats (ChoiceItem.otherwiseEntries r o)) (filterOtherwise r next o)
  | none => by
    rw [ChoiceItem.otherwiseEntries, entryFloats_nil, filterOtherwise]
    exact .pure _
  | some is => by
    have hmark : ItemPart.elseMarker.terms = [] := rfl
    rw [ChoiceItem.otherwiseEntries, entryFloats_cons, hmark, Term.allFloats_nil, List.nil_append,
      filterOtherwise]
    exact (emit_asks _).after fun _ => (items_asks r next is).before fun _ => .pure _

end

/-! ## Blocks -/

/-- The lowering of a statement asks for the floats of its clauses. -/
def StmtAsks (r : Registry) (o : CompileOptions) (g : Ident → Option String) (x : Stmt) : Prop :=
  ∀ next, Asks ((x.clauses r g).flatMap Clause.floats) (stmt r o next x)

/-- A statement that is cut off is reported without asking for a float. -/
theorem reportReach_asks (x : Stmt) (reach : Reach) : Floatless (reportReach o x reach) := by
  unfold reportReach
  split
  · split
    · exact (report_asks _).after fun _ => .pure _
    · exact .pure _
  · exact .pure _

/-- The label behind a statement is chosen without asking for a float. -/
theorem successor_asks (exit : Label) (ss : List Stmt) : Floatless (successor exit ss) := by
  cases ss with
  | nil => exact .pure exit
  | cons s ss => exact freshLabel_asks

/-- Statements ask for the floats of their clauses, each statement behind those before it. -/
theorem stmts_asks {xs : List Stmt} (hx : ∀ x ∈ xs, StmtAsks r o g x) (exit current : Label)
    (reach : Reach) :
    Asks ((Stmt.allClauses r g xs).flatMap Clause.floats) (stmts r o exit xs current reach) := by
  induction xs generalizing current reach with
  | nil =>
    unfold stmts
    rw [Stmt.allClauses, List.flatMap_nil]
    exact .pure ()
  | cons x xs ih =>
    rw [List.forall_mem_cons] at hx
    unfold stmts
    rw [Stmt.allClauses, List.flatMap_append]
    refine (reportReach_asks x reach).after fun reach => (successor_asks exit xs).after fun next => ?_
    exact (bindLabel_asks current).after fun _ => (hx.1 next).bind fun _ => ih hx.2 next _

/-- A block between its labels asks for the floats of its clauses. -/
theorem block_asks {b : List Stmt} (hb : ∀ x ∈ b, StmtAsks r o g x) (entry exit : Label) :
    Asks ((Stmt.allClauses r g b).flatMap Clause.floats) (block r o entry exit b) := by
  cases b with
  | nil =>
    unfold block
    rw [Stmt.allClauses, List.flatMap_nil]
    exact redirect_asks entry exit
  | cons x xs =>
    -- a block is its statements from the first on, which is reached
    have hstmts := stmts_asks hb exit entry .reached
    unfold stmts at hstmts
    unfold block
    exact hstmts

/-- Blocks ask for the floats of their clauses, one block behind another. -/
theorem blocks_asks {bs : List (Option Ident × List Stmt)} {ls : List BodyLabels}
    (hlength : bs.length = ls.length) (hb : ∀ p ∈ bs, ∀ x ∈ p.2, StmtAsks r o g x) :
    Asks ((blockClauses r g bs).flatMap Clause.floats) (blocks r o (bs.map Prod.snd) ls) := by
  induction bs generalizing ls with
  | nil => exact .pure ()
  | cons p bs ih =>
    cases ls with
    | nil => cases hlength
    | cons l ls =>
      rw [List.forall_mem_cons] at hb
      rw [blockClauses, List.flatMap_cons, List.flatMap_append]
      exact (block_asks hb.1 l.entry l.exit).bind fun _ => ih (Nat.succ.inj hlength) hb.2

/-! ## Statements -/

/-- Labels are taken without asking for a float. -/
theorem freshLabels_asks (n : Nat) : Floatless (freshLabels n) := by
  induction n with
  | zero => exact .pure []
  | succ n ih => exact freshLabel_asks.after fun _ => ih.after fun _ => .pure _

/-- Conditions ask for the floats of their expressions, whatever labels they lead to. -/
theorem conditions_asks (r : Registry) {bs : List (Expr × List Stmt)} {ls : List Label}
    (hlength : bs.length = ls.length) :
    Asks (Term.allFloats (bs.map fun b => b.1.term r)) (conditions r bs ls) := by
  induction bs generalizing ls with
  | nil =>
    rw [List.map_nil, Term.allFloats_nil]
    exact .pure ()
  | cons b bs ih =>
    cases ls with
    | nil => cases hlength
    | cons l ls =>
      rw [List.map_cons, Term.allFloats]
      refine (checkKind_asks r b.1 _).after fun _ => (expr_asks r b.1).bind fun _ => ?_
      exact (emitTarget_asks l).after fun _ => ih (Nat.succ.inj hlength)

/-- A conditional asks for the floats of its conditions and then for those of its blocks. -/
theorem conditional_asks {branches : List (Expr × List Stmt)} {otherwise : Option (List Stmt)} {span : Span}
    (hx : ∀ p ∈ (Stmt.conditional branches otherwise span).blocks, ∀ x ∈ p.2, StmtAsks r o g x) :
    StmtAsks r o g (.conditional branches otherwise span) := by
  intro next
  rw [Stmt.blocks, List.forall_mem_append, List.forall_mem_singleton] at hx
  have hsnd : branches.map Prod.snd
      = (branches.map fun b => ((none : Option Ident), b.2)).map Prod.snd := by
    rw [List.map_map]
    rfl
  have hlast : blockClauses r g [(none, otherwise.getD [])] = Stmt.allClauses r g (otherwise.getD []) :=
    List.append_nil _
  have hhash : ∀ l, Stmt.conditional branches otherwise span = .line l → l.hash = none := by simp
  rw [Stmt.clauses_eq hhash, List.flatMap_cons, Stmt.blocks, blockClauses_append, hlast,
    List.flatMap_append]
  unfold stmt
  show Asks ([] ++ _) _
  refine (freshLabels_asks branches.length).bind fun d => freshLabel_asks.after fun last => ?_
  refine (emit_asks _).after fun _ => (emitTarget_asks last).after fun _ => (emitCount_asks _).after fun _ => ?_
  refine (conditions_asks r ?_).bind fun _ => ?_
  · rw [length_freshLabels]
  · rw [branchBodies_eq, otherwiseBody_eq, hsnd]
    refine (blocks_asks ?_ hx.1).bind fun _ => block_asks hx.2 last next
    rw [List.length_map, List.length_map, length_freshLabels]

/-- A choice asks for the floats of its entries and then for those of the bodies of its options. -/
theorem choice_asks {is : List ChoiceItem} {span : Span}
    (hx : ∀ p ∈ (Stmt.choice is span).blocks, ∀ x ∈ p.2, StmtAsks r o g x) :
    StmtAsks r o g (.choice is span) := by
  intro next
  have hhash : ∀ l, Stmt.choice is span = .line l → l.hash = none := by simp
  rw [Stmt.clauses_eq hhash, List.flatMap_cons]
  unfold stmt
  refine (report_asks _).after fun _ => (emit_asks _).after fun _ => (emitTarget_asks next).after fun _ => ?_
  refine reserve_asks.after fun count => (items_asks r next is).bind fun d => ?_
  rw [optionBodies_eq, consume]
  refine (fill_asks count _).after fun _ => Asks.before (.before (blocks_asks ?_ hx) fun _ => .pure _)
    fun _ => .pure _
  exact (length_items r next is d).symm

/-- A statement without blocks that is no line. -/
theorem StmtAsks.leaf {x : Stmt} (hline : ∀ l, x ≠ .line l) (hx : x.blocks = [])
    (h : ∀ next, Asks (x.clause r g).floats (stmt r o next x)) : StmtAsks r o g x := by
  intro next
  rw [Stmt.clauses_eq fun l hl => absurd hl (hline l), hx, List.flatMap_cons]
  have hnil : (blockClauses r g []).flatMap Clause.floats = [] := rfl
  rw [hnil, List.append_nil]
  exact h next

/-- The lowering of a statement asks for the floats of its clauses, in order. -/
theorem stmt_asks (r : Registry) (o : CompileOptions) (g : Ident → Option String) (x : Stmt) :
    StmtAsks r o g x := by
  induction x using Stmt.induction with
  | step x ih =>
    cases x with
    | conditional branches otherwise span => exact conditional_asks ih
    | choice items span => exact choice_asks ih
    | line l =>
      intro next
      unfold stmt
      rw [Stmt.clauses]
      exact line_asks r g l next
    | goto x =>
      refine .leaf (by simp) rfl fun next => ?_
      unfold stmt
      have hfloats : (Stmt.clause r g (.goto x)).floats = [] := by
        rw [Stmt.clause, Clause.floats, Clause.terms, Term.allFloats_singleton, Term.floats]
      rw [hfloats]
      exact (sectionLabel_asks x).after fun l => (emit_asks _).after fun _ =>
        (emitTarget_asks l).after fun _ => (emit_asks _).after fun _ => emitTarget_asks l
    | instruction e =>
      refine .leaf (by simp) rfl fun next => ?_
      unfold stmt
      rw [Stmt.clause, Clause.floats, Clause.terms, Term.allFloats_singleton]
      exact (report_asks _).after fun _ => (emit_asks _).after fun _ =>
        (emitTarget_asks next).after fun _ => expr_asks r e
    | finish span =>
      refine .leaf (by simp) rfl fun next => ?_
      unfold stmt
      exact emit_asks _
    | hash h =>
      refine .leaf (by simp) rfl fun next => ?_
      unfold stmt
      exact (emit_asks _).after fun _ => (emitTarget_asks next).after fun _ => hash_asks r h
    | speaker x h span =>
      refine .leaf (by simp) rfl fun next => ?_
      unfold stmt
      exact (speaker_asks _).after fun i => (emit_asks _).after fun _ =>
        (emitTarget_asks next).after fun _ => (emit_asks i).after fun _ => hash_asks r h

/-! ## Sections -/

/-- What stands behind the last statement of a section asks for no float. -/
theorem sectionEnd_asks (exit : Label) : Floatless (sectionEnd exit) := by
  refine .get_bind fun d => ?_
  split
  · exact (bindLabel_asks exit).after fun _ => emit_asks _
  · exact .pure ()

/-- A section asks for the floats of its clauses. -/
theorem sectionBody_asks (r : Registry) (o : CompileOptions) (g : Ident → Option String) (x : Section)
    (l : Label) : Asks ((x.clauses r g).flatMap Clause.floats) (sectionBody r o x l) := by
  have hentry : (Clause.entry x.name.name).floats = [] := Term.allFloats_nil
  rw [Section.clauses, List.flatMap_cons, hentry, List.nil_append]
  refine freshLabel_asks.after fun body => freshLabel_asks.after fun exit => ?_
  refine (string_asks _).after fun name => (bindLabel_asks l).after fun _ => ?_
  refine (emit_asks _).after fun _ => (emitTarget_asks body).after fun _ => (emit_asks name).after fun _ => ?_
  exact (block_asks (fun y _ => stmt_asks r o g y) body exit).before fun _ => sectionEnd_asks exit

/-- Sections ask for the floats of their clauses, one section behind another. -/
theorem sectionBodies_asks (r : Registry) (o : CompileOptions) (g : Ident → Option String)
    {story : Story} {ls : List Label} (hlength : story.length = ls.length) :
    Asks (story.flatMap fun x => (x.clauses r g).flatMap Clause.floats) (sectionBodies r o story ls) := by
  induction story generalizing ls with
  | nil => exact .pure ()
  | cons x xs ih =>
    cases ls with
    | nil => cases hlength
    | cons l ls =>
      rw [List.flatMap_cons]
      exact (sectionBody_asks r o g x l).bind fun _ => ih (Nat.succ.inj hlength)

/-- A section is declared without asking for a float. -/
theorem declare_asks (x : Section) : Floatless (declare x) := by
  refine freshLabel_asks.after fun l => .get_bind fun d => ?_
  split
  · exact (report_asks _).after fun _ => .pure l
  · exact Asks.after (.of_frame fun _ => ⟨rfl, rfl, rfl⟩) fun _ => .pure l

/-- Sections are declared without asking for a float. -/
theorem declareAll_asks (xs : List Section) : Floatless (declareAll xs) := by
  induction xs with
  | nil => exact .pure []
  | cons x xs ih => exact (declare_asks x).after fun _ => ih.after fun _ => .pure _

/-- Each section that is declared gets a label. -/
theorem length_declareAll (xs : List Section) (d : Draft) : xs.length = (declareAll xs d).1.length := by
  induction xs generalizing d with
  | nil => rfl
  | cons x xs ih =>
    have hrun : (declareAll (x :: xs) d).1 = (declare x d).1 :: (declareAll xs (declare x d).2).1 := rfl
    rw [hrun, List.length_cons, List.length_cons, ih]

/-- A story asks for its floats. -/
theorem story_asks (r : Registry) (o : CompileOptions) (story : Story) :
    Asks (story.floats r) (Lower.story r o story) := by
  show Asks ([] ++ _) _
  exact (declareAll_asks story).bind fun d => sectionBodies_asks r o _ (length_declareAll story d)

end Lower

/-! ## Compiled stories -/

/-- The floats of a compiled script are those of its story, each class of same floats once. -/
theorem compile_floatPool (r : Registry) (o : CompileOptions) (story : Story) :
    (compile r o story).script.floats = Assembly.internAll Assembly.sameFloat #[] (story.floats r) :=
  (Lower.story_asks r o story .empty).floats

/-- No pool of a compiled script has an entry twice; of two zeros of different sign it has one. -/
theorem compile_distinct (r : Registry) (o : CompileOptions) (story : Story) :
    Assembly.Distinct Assembly.sameFloat (compile r o story).script.floats ∧
      Assembly.Distinct (· == ·) (compile r o story).script.strings ∧
      Assembly.Distinct (· == ·) (compile r o story).script.speakers := by
  have h := Lower.story_asks r o story .empty
  obtain ⟨xs, hstrings⟩ := h.strings
  obtain ⟨ys, hspeakers⟩ := h.speakers
  refine ⟨?_, ?_, ?_⟩
  · rw [compile_floatPool]
    exact Assembly.Distinct.nil.internAll Assembly.sameFloat_classes _
  · exact hstrings ▸ Assembly.Distinct.nil.internAll Assembly.beq_classes xs
  · exact hspeakers ▸ Assembly.Distinct.nil.internAll Assembly.beq_classes ys

end Colloquy
