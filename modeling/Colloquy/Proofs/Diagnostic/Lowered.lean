import Colloquy.Compiler.Compile
import Colloquy.Diagnostic
import Colloquy.Proofs.Story.Spans

/-!
# Where compile errors stand

What the compiler reports points at spans of the story it compiles.  The checks of expressions report at
the spans of expressions and names (`Typing.infer_on`), and each step of a lowering keeps the draft's
errors, and the mentions of sections that may turn into errors at its end, among the spans of the story
(`Points`).  So all that a compilation reports starts and stops where the story does (`compile_on`).
-/

namespace Colloquy

/-- A compile error points at offsets with a property. -/
def CompileError.On (P : Nat → Prop) (e : CompileError) : Prop := (Diagnostic.compile e).span.On P

/-- Of all that is reported. -/
def ErrorsOn (P : Nat → Prop) (errors : List CompileError) : Prop := ∀ e ∈ errors, e.On P

namespace ErrorsOn

variable {P : Nat → Prop} {xs ys : List CompileError}

theorem nil : ErrorsOn P [] := fun _ he => absurd he List.not_mem_nil

theorem single {e : CompileError} (h : e.On P) : ErrorsOn P [e] := List.forall_mem_singleton.mpr h

theorem append (hx : ErrorsOn P xs) (hy : ErrorsOn P ys) : ErrorsOn P (xs ++ ys) :=
  List.forall_mem_append.mpr ⟨hx, hy⟩

/-- Errors of which a test chooses one part or the other stand where those of both parts do. -/
theorem ite {b : Prop} [Decidable b] (hx : ErrorsOn P xs) (hy : ErrorsOn P ys) :
    ErrorsOn P (if b then xs else ys) := by
  split
  · exact hx
  · exact hy

end ErrorsOn

variable {P : Nat → Prop}

/-! ## Checks of expressions -/

namespace Typing

theorem mismatch_on {s : Span} (h : s.On P) (expected actual : Kind) :
    ErrorsOn P (mismatch expected actual s) := .ite (.single h) .nil

/-- A variable that is looked up is reported at its own name. -/
theorem ofVariable_on {r : Registry} {x : Ident} (h : x.span.On P) : ErrorsOn P (ofVariable r x).errors := by
  unfold ofVariable
  split
  · exact .nil
  · exact .single h

theorem variableOf_on {r : Registry} {x : Ident} (h : x.span.On P) (expected : Kind) :
    ErrorsOn P (variableOf r x expected) := (ofVariable_on h).append (mismatch_on h _ _)

/-- A call that leaves out a parameter without a default is reported at the span it is given. -/
theorem defaults_on {s : Span} (h : s.On P) (name : String) (supplied : Nat) (params : List Parameter) :
    ErrorsOn P (defaults name s supplied params) := by
  intro e he
  obtain ⟨index, kinds, rfl⟩ := exists_of_mem_defaults he
  exact h

/-- What is wrong with a call as a whole is reported at the span of the call. -/
theorem callErrors_on {s : Span} (h : s.On P) (f : FunctionDecl) (supplied : Nat) (awaited : Bool) :
    ErrorsOn P (callErrors f supplied awaited s) := by
  refine ErrorsOn.append (.append ?_ ?_) (defaults_on h _ _ _)
  · exact .ite .nil (.single h)
  · exact .ite .nil (.single h)

mutual

/-- What is reported of an expression points into it. -/
theorem infer_on (r : Registry) : (e : Expr) → e.On P → ErrorsOn P (infer r e).errors
  | .literal v _, _ => by
    rw [infer]
    exact .nil
  | .variable x, .variable hx => by
    rw [infer]
    exact ofVariable_on hx
  | .group e, .group he => by
    rw [infer]
    exact infer_on r e he
  | .unary op e, .unary _ he => by
    rw [infer]
    exact (infer_on r e he).append (mismatch_on he.span _ _)
  | .binary op left right, .binary hleft hright => by
    have hl := infer_on r left hleft
    have hr := infer_on r right hright
    rw [infer]
    split
    · exact (hl.append (mismatch_on hleft.span _ _)).append (hr.append (mismatch_on hright.span _ _))
    · exact (hl.append hr).append (.ite (mismatch_on hright.span _ _) .nil)
  | .assign x op value, .assign hx hvalue => by
    have hv := infer_on r value hvalue
    have htarget : ErrorsOn P (ofVariable r x).errors := ofVariable_on hx
    rw [infer]
    split
    · exact (htarget.append hv).append (.ite (mismatch_on hvalue.span _ _) .nil)
    · exact (htarget.append (mismatch_on hx _ _)).append (hv.append (mismatch_on hvalue.span _ _))
  | .call callee args awaited close, .call hcallee hargs hawaited hclose => by
    have hspan := (Expr.On.call hcallee hargs hawaited hclose).span
    rw [infer]
    split
    · exact List.forall_mem_cons.mpr ⟨hcallee, inferArgs_on r [] args hargs⟩
    · exact (callErrors_on hspan _ _ _).append (inferArgs_on r _ args hargs)

/-- What is reported of arguments points into them. -/
theorem inferArgs_on (r : Registry) : (ps : List Parameter) → (es : List Expr) → (∀ e ∈ es, e.On P) →
    ErrorsOn P (inferArgs r ps es)
  | _, [], _ => by
    rw [inferArgs]
    exact .nil
  | [], e :: es, h => by
    rw [List.forall_mem_cons] at h
    rw [inferArgs]
    exact (infer_on r e h.1).append (inferArgs_on r [] es h.2)
  | p :: ps, e :: es, h => by
    rw [List.forall_mem_cons] at h
    rw [inferArgs]
    exact ((infer_on r e h.1).append (mismatch_on h.1.span _ _)).append (inferArgs_on r ps es h.2)

end

theorem exprOf_on {r : Registry} {e : Expr} (h : e.On P) (expected : Kind) :
    ErrorsOn P (exprOf r e expected) := (infer_on r e h).append (mismatch_on h.span _ _)

end Typing

/-- What a draft reports and mentions points at offsets with a property. -/
structure Draft.On (P : Nat → Prop) (d : Draft) : Prop where
  errors : ErrorsOn P d.errors
  mentions : ∀ m ∈ d.assembly.mentions, m.source.span.On P

namespace Lower

variable {α β : Type} {r : Registry} {o : CompileOptions}

/-- A step of a lowering reports and mentions only what points at offsets with a property. -/
def Points (P : Nat → Prop) (m : Lower α) : Prop := ∀ d : Draft, d.On P → (m d).2.On P

namespace Points

variable {m : Lower α}

theorem pure (a : α) : Points P (Pure.pure a : Lower α) := fun _ hd => hd

theorem bind {f : α → Lower β} (hm : Points P m) (hf : ∀ a, Points P (f a)) : Points P (m >>= f) :=
  fun d hd => hf (m d).1 (m d).2 (hm d hd)

/-- A step for each entry of a list points where the steps for the entries do. -/
theorem forM {xs : List β} {f : β → Lower Unit} (h : ∀ x ∈ xs, Points P (f x)) :
    Points P (xs.forM f) := by
  induction xs with
  | nil => exact .pure ()
  | cons x xs ih =>
    rw [List.forall_mem_cons] at h
    exact h.1.bind fun _ => ih h.2

/-- An operation of the assembly that mentions nothing. -/
theorem update {f : Assembly → Assembly} (h : ∀ a, (f a).mentions = a.mentions) :
    Points P (Lower.update f) := fun d hd => ⟨hd.errors, (h d.assembly).symm ▸ hd.mentions⟩

theorem fetch {f : Assembly → α × Assembly} (h : ∀ a, (f a).2.mentions = a.mentions) :
    Points P (Lower.fetch f) := fun d hd => ⟨hd.errors, (h d.assembly).symm ▸ hd.mentions⟩

/-- What is done with the draft itself. -/
theorem get_bind {f : Draft → Lower β} (h : ∀ d, d.On P → Points P (f d)) :
    Points P ((get : Lower Draft) >>= f) := fun d hd => h d hd d hd

end Points

/-! ## Emitting -/

theorem emit_points (w : UInt32) : Points P (emit w) := .update fun _ => rfl

theorem emitCount_points (n : Nat) : Points P (emitCount n) := emit_points _

theorem emitTarget_points (l : Label) : Points P (emitTarget l) := .update fun _ => rfl

theorem freshLabel_points : Points P freshLabel := .fetch fun _ => rfl

theorem bindLabel_points (l : Label) : Points P (bindLabel l) := .update fun _ => rfl

/-- A label that is redirected moves no mention, so nothing new is pointed at. -/
theorem redirect_points (l target : Label) : Points P (update (·.redirect l target)) := by
  refine .update fun a => ?_
  unfold Assembly.redirect
  split <;> rfl

theorem fill_points (n : Nat) (w : UInt32) : Points P (update (·.fill n w)) := .update fun _ => rfl

theorem reserve_points : Points P (fetch Assembly.reserve) := .fetch fun _ => rfl

theorem string_points (s : String) : Points P (string s) := .fetch fun _ => rfl

theorem speaker_points (s : String) : Points P (speaker s) := .fetch fun _ => rfl

theorem report_points {errors : List CompileError} (h : ErrorsOn P errors) : Points P (report errors) :=
  fun _ hd => ⟨hd.errors.append h, hd.mentions⟩

/-! ## Expressions -/

/-- A literal is laid down without a report. -/
theorem literal_points (v : Literal) : Points P (literal v) := by
  cases v with
  | float x =>
    have hfloat : Points P (fetch (·.float x)) := .fetch fun _ => rfl
    exact hfloat.bind fun _ => (emit_points _).bind fun _ => emit_points _
  | string s => exact (string_points s).bind fun _ => (emit_points _).bind fun _ => emit_points _
  | bool b => exact (emit_points _).bind fun _ => emit_points _

/-- Defaults are laid down without a report, also where they stop at one that no literal stands for. -/
theorem defaults_points (ps : List Parameter) : Points P (defaults ps) := by
  induction ps with
  | nil => exact .pure 0
  | cons p ps ih =>
    unfold defaults
    split
    · exact .pure 0
    · exact (literal_points _).bind fun _ => ih.bind fun _ => .pure _

/-- What fills up a call comes from the registry, and nothing is reported for it. -/
theorem fallbacks_points (r : Registry) (name : String) (given : Nat) :
    Points P (fallbacks r name given) := by
  unfold fallbacks
  split
  · exact defaults_points _
  · exact .pure 0

mutual

/-- The words of an expression are laid down without a report; what is wrong with it is found by its
check. -/
theorem expr_points (r : Registry) : (e : Expr) → Points P (expr r e)
  | .literal v _ => by
    unfold expr
    exact literal_points v
  | .variable x => by
    unfold expr
    exact (string_points _).bind fun _ => (emit_points _).bind fun _ => emit_points _
  | .group e => by
    unfold expr
    exact expr_points r e
  | .unary op e => by
    unfold expr
    exact (emit_points _).bind fun _ => expr_points r e
  | .binary op left right => by
    unfold expr
    exact (emit_points _).bind fun _ => (expr_points r left).bind fun _ => expr_points r right
  | .assign x op value => by
    unfold expr
    refine (string_points _).bind fun _ => (emit_points _).bind fun _ => (emit_points _).bind fun _ => ?_
    exact expr_points r value
  | .call callee args awaited _ => by
    unfold expr
    refine (string_points _).bind fun _ => (emit_points _).bind fun _ => (emit_points _).bind fun _ => ?_
    refine (emit_points _).bind fun _ => reserve_points.bind fun _ => (exprs_points r args).bind fun _ => ?_
    exact (fallbacks_points r _ _).bind fun _ => fill_points _ _

/-- So are those of expressions one after another. -/
theorem exprs_points (r : Registry) : (es : List Expr) → Points P (exprs r es)
  | [] => by
    unfold exprs
    exact .pure ()
  | e :: es => by
    unfold exprs
    exact (expr_points r e).bind fun _ => exprs_points r es

end

theorem checkedExpr_points {e : Expr} (h : e.On P) : Points P (checkedExpr r e) :=
  (report_points (Typing.infer_on r e h)).bind fun _ => expr_points r e

theorem checkKind_points {e : Expr} (h : e.On P) (k : Kind) : Points P (checkKind r e k) :=
  report_points (Typing.exprOf_on h k)

/-! ## Sections as targets -/

/-- A mention stands where the name of the section does. -/
theorem mention_points (l : Label) {x : Ident} (h : x.span.On P) : Points P (update (·.mention l x)) := by
  refine fun d hd => ⟨hd.errors, fun m hm => ?_⟩
  rcases Array.mem_push.mp hm with hm | rfl
  · exact hd.mentions m hm
  · exact h

/-- A section that is named gets a label, and a mention where it is named. -/
theorem sectionLabel_points {x : Ident} (h : x.span.On P) : Points P (sectionLabel x) := by
  refine .get_bind fun d _ => ?_
  split
  · exact (mention_points _ h).bind fun _ => .pure _
  · refine freshLabel_points.bind fun l => Points.bind (fun d hd => ?_) fun _ => ?_
    · exact ⟨hd.errors, hd.mentions⟩
    · exact (mention_points l h).bind fun _ => .pure l

/-! ## Parts of statements -/

/-- A segment of a text points where its expression does, if it holds one. -/
theorem segment_points {s : Segment} (h : s.On P) : Points P (segment r s) := by
  cases s with
  | text t => exact (string_points _).bind fun _ => (emit_points _).bind fun _ => emit_points _
  | placeholder e =>
    refine (report_points (Typing.infer_on r e h)).bind fun _ => ?_
    exact (emit_points _).bind fun _ => expr_points r e

theorem segments_points {ss : List Segment} (h : ∀ s ∈ ss, s.On P) : Points P (segments r ss) :=
  (emitCount_points _).bind fun _ => .forM fun s hs => segment_points (h s hs)

/-- A section that a tag jumps to is mentioned where the text of the tag stands. -/
theorem inlineTargets_on {s : Segment} (h : s.On P) : ∀ x ∈ inlineTargets s, x.span.On P := by
  cases s with
  | text t =>
    intro x hx
    obtain ⟨tag, -, htag⟩ := List.mem_filterMap.mp hx
    split at htag <;> cases htag
    exact h
  | placeholder e => simp [inlineTargets]

/-- The tags in the fixed parts of a text mention sections at the spans of those parts. -/
theorem mentionInline_points {ss : List Segment} (h : ∀ s ∈ ss, s.On P) : Points P (mentionInline ss) := by
  refine .forM fun x hx => ?_
  obtain ⟨s, hs, hx⟩ := List.mem_flatMap.mp hx
  exact (sectionLabel_points (inlineTargets_on (h s hs) x hx)).bind fun _ => .pure ()

/-- A key is reported where it is written, for a second use of it or for a value that does not fit. -/
theorem entryErrors_on {before : List Ident} {e : HashEntry} (h : e.On P) :
    ErrorsOn P (entryErrors before e) := by
  have hcover : ∀ (vs : List Expr) (s : Span), s.On P → (∀ v ∈ vs, v.On P) →
      (vs.foldl (fun s v => s.cover v.span) s).On P := by
    intro vs
    induction vs with
    | nil => exact fun s hs _ => hs
    | cons v vs ih =>
      intro s hs hvs
      rw [List.forall_mem_cons] at hvs
      exact ih _ (hs.cover hvs.1.span) hvs.2
  refine ErrorsOn.append ?_ (.ite (.single (hcover _ _ h.key h.values)) .nil)
  split
  · exact .single h.key
  · exact .nil

/-- A key with its values points where they are written. -/
theorem entry_points {e : HashEntry} (h : e.On P) : Points P (entry r e) := by
  refine (string_points _).bind fun key => ?_
  split
  · exact (emitCount_points _).bind fun _ => (emit_points _).bind fun _ => literal_points _
  · refine (emitCount_points _).bind fun _ => (emit_points _).bind fun _ => ?_
    exact .forM fun v hv => checkedExpr_points (h.values v hv)

/-- Keys with their values point where they are written, whatever keys stand before them. -/
theorem entries_points {es : List HashEntry} (h : ∀ e ∈ es, e.On P) (before : List Ident) :
    Points P (entries r before es) := by
  induction es generalizing before with
  | nil => exact .pure ()
  | cons e es ih =>
    rw [List.forall_mem_cons] at h
    exact (report_points (entryErrors_on h.1)).bind fun _ => (entry_points h.1).bind fun _ => ih h.2 _

theorem hash_points {h : HashBlock} (hh : h.On P) : Points P (hash r h) :=
  (emitCount_points _).bind fun _ => entries_points hh.entries []

/-- A speaker points at its name, which a variable may have to stand for. -/
theorem speakerRef_points {s : SpeakerRef} (h : s.ident.span.On P) : Points P (speakerRef r s) := by
  cases s with
  | named x => exact (speaker_points _).bind fun _ => (emit_points _).bind fun _ => emit_points _
  | «variable» x =>
    refine (report_points (Typing.variableOf_on h _)).bind fun _ => (string_points _).bind fun _ => ?_
    exact (emit_points _).bind fun _ => emit_points _

/-- A directive points at its section or at its number. -/
theorem directive_points {x : Directive} (h : x.On P) : Points P (directive r x) := by
  cases x with
  | auto => exact emit_points _
  | speed e => exact (checkKind_points h _).bind fun _ => (emit_points _).bind fun _ => expr_points r e
  | pause e => exact (checkKind_points h _).bind fun _ => (emit_points _).bind fun _ => expr_points r e
  | goto x =>
    exact (sectionLabel_points h).bind fun l => (emit_points _).bind fun _ => emitTarget_points l

/-- The hash data of a line point where they are written, if there are any. -/
theorem lineHash_points {h : Option HashBlock} (hh : ∀ b, h = some b → b.On P) :
    Points P (lineHash r h) := by
  cases h with
  | none => exact .pure ()
  | some b =>
    refine freshLabel_points.bind fun l => (emit_points _).bind fun _ => (emitTarget_points l).bind fun _ => ?_
    exact (hash_points (hh b rfl)).bind fun _ => bindLabel_points l

/-- A line points where its speakers, its text, its hash data and its directives do. -/
theorem line_points {l : Line} (h : l.On P) (next : Label) : Points P (line r l next) := by
  refine (lineHash_points h.hash).bind fun _ => (emit_points _).bind fun _ => ?_
  refine (emitTarget_points next).bind fun _ => (emitCount_points _).bind fun _ => ?_
  refine (Points.forM fun s hs => speakerRef_points (h.speakers s hs)).bind fun _ => ?_
  refine (segments_points h.text).bind fun _ => (mentionInline_points h.text).bind fun _ => ?_
  exact (emitCount_points _).bind fun _ => .forM fun d hd => directive_points (h.directives d hd)

/-! ## Choices -/

theorem choiceErrors_on {s : Span} (h : s.On P) (items : List ChoiceItem) :
    ErrorsOn P (choiceErrors items s) := .ite (.single h) (.ite .nil (.single h))

/-- An option that leads to a section mentions it where its name is written. -/
theorem optionExit_points {x : Option Ident} (h : ∀ y, x = some y → y.span.On P) (next : Label) :
    Points P (optionExit next x) := by
  cases x with
  | none => exact .pure next
  | some y => exact sectionLabel_points (h y rfl)

/-- A guard points where its expression does, if there is one. -/
theorem guard_points {g : Option Expr} (h : ∀ e, g = some e → e.On P) : Points P (Lower.guard r g) := by
  cases g with
  | none => exact emit_points _
  | some e =>
    exact (checkKind_points (h e rfl) _).bind fun _ => (emit_points _).bind fun _ => expr_points r e

theorem condition_points {e : Expr} (h : e.On P) (marker : Code.ChoiceMarker) :
    Points P (condition r marker e) :=
  (emit_points _).bind fun _ => (checkKind_points h _).bind fun _ => expr_points r e

/-- The entry of an option lays down a label and reports nothing. -/
theorem optionEntry_points (exit : Label) (body : Option (List Stmt)) :
    Points P (optionEntry exit body) := by
  cases body with
  | none => exact (emitTarget_points _).bind fun _ => .pure _
  | some b => exact freshLabel_points.bind fun l => (emitTarget_points l).bind fun _ => .pure _

mutual

/-- An item of a choice points where its parts do: the rules for items, branches and what stands behind
them follow each other's recursion. -/
theorem item_points (r : Registry) (next : Label) : (i : ChoiceItem) → i.On P → Points P (item r next i)
  | .option guard text target body _, .option hguard htext htarget _ => by
    unfold item
    refine (optionExit_points htarget next).bind fun exit => (emit_points _).bind fun _ => ?_
    refine (optionEntry_points exit body).bind fun bodies => (guard_points hguard).bind fun _ => ?_
    exact (segments_points htext).bind fun _ => .pure _
  | .filter branches otherwise _, .filter hconditions hbodies hotherwise => by
    unfold item
    refine (filterBranches_points r next _ branches hconditions hbodies).bind fun inside => ?_
    refine (filterOtherwise_points r next otherwise hotherwise).bind fun last => ?_
    exact (emit_points _).bind fun _ => .pure _

/-- Items point where each of them does. -/
theorem items_points (r : Registry) (next : Label) : (is : List ChoiceItem) → (∀ i ∈ is, i.On P) →
    Points P (items r next is)
  | [], _ => by
    unfold items
    exact .pure _
  | i :: is, h => by
    rw [List.forall_mem_cons] at h
    unfold items
    exact (item_points r next i h.1).bind fun _ => (items_points r next is h.2).bind fun _ => .pure _

/-- Branches of a filter point where their conditions and items do. -/
theorem filterBranches_points (r : Registry) (next : Label) (marker : Code.ChoiceMarker) :
    (bs : List (Expr × List ChoiceItem)) → (∀ b ∈ bs, b.1.On P) → (∀ b ∈ bs, ∀ i ∈ b.2, i.On P) →
    Points P (filterBranches r next marker bs)
  | [], _, _ => by
    unfold filterBranches
    exact .pure _
  | (e, is) :: bs, hconditions, hbodies => by
    rw [List.forall_mem_cons] at hconditions hbodies
    unfold filterBranches
    refine (condition_points hconditions.1 marker).bind fun _ => ?_
    refine (items_points r next is hbodies.1).bind fun _ => ?_
    exact (filterBranches_points r next _ bs hconditions.2 hbodies.2).bind fun _ => .pure _

/-- The items behind the branches of a filter point where they stand. -/
theorem filterOtherwise_points (r : Registry) (next : Label) : (o : Option (List ChoiceItem)) →
    (∀ is, o = some is → ∀ i ∈ is, i.On P) → Points P (filterOtherwise r next o)
  | none, _ => by
    unfold filterOtherwise
    exact .pure _
  | some is, h => by
    unfold filterOtherwise
    exact (emit_points _).bind fun _ => (items_points r next is (h is rfl)).bind fun _ => .pure _

end

/-! ## Statements -/

/-- The conditions of a statement point where their expressions do, whatever labels they lead to. -/
theorem conditions_points {bs : List (Expr × List Stmt)} (h : ∀ b ∈ bs, b.1.On P) (ls : List Label) :
    Points P (conditions r bs ls) := by
  induction bs generalizing ls with
  | nil => exact .pure ()
  | cons b bs ih =>
    rw [List.forall_mem_cons] at h
    cases ls with
    | nil => exact .pure ()
    | cons l ls =>
      refine (checkKind_points h.1 _).bind fun _ => (expr_points r b.1).bind fun _ => ?_
      exact (emitTarget_points l).bind fun _ => ih h.2 ls

/-- Labels are taken without a report. -/
theorem freshLabels_points (n : Nat) : Points P (freshLabels n) := by
  induction n with
  | zero => exact .pure []
  | succ n ih => exact freshLabel_points.bind fun _ => ih.bind fun _ => .pure _

/-- A statement that is cut off is reported where it stands. -/
theorem reportReach_points {s : Stmt} (h : s.On P) (reach : Reach) : Points P (reportReach o s reach) := by
  cases reach with
  | cut terminatedAt =>
    have herror : CompileError.On P (.unreachableStatement s.span terminatedAt) := h.span
    rw [reportReach]
    split
    · exact (report_points (.single herror)).bind fun _ => .pure _
    · exact .pure _
  | _ => exact .pure _

/-- The label behind a statement is chosen without a report. -/
theorem successor_points (exit : Label) (ss : List Stmt) : Points P (successor exit ss) := by
  cases ss with
  | nil => exact .pure exit
  | cons s ss => exact freshLabel_points

mutual

/-- A statement points where its parts do, by recursion into its blocks. -/
theorem stmt_points (r : Registry) (o : CompileOptions) (next : Label) : (s : Stmt) → s.On P →
    Points P (stmt r o next s)
  | .line l, .line hl => by
    unfold stmt
    exact line_points hl next
  | .instruction e, .instruction he => by
    unfold stmt
    refine (report_points (Typing.infer_on r e he)).bind fun _ => (emit_points _).bind fun _ => ?_
    exact (emitTarget_points next).bind fun _ => expr_points r e
  | .goto x, .goto hx => by
    unfold stmt
    refine (sectionLabel_points hx).bind fun l => (emit_points _).bind fun _ => ?_
    exact (emitTarget_points l).bind fun _ => (emit_points _).bind fun _ => emitTarget_points l
  | .finish _, _ => by
    unfold stmt
    exact emit_points _
  | .conditional branches otherwise _, .conditional hconditions hbodies hotherwise _ => by
    unfold stmt
    refine (freshLabels_points _).bind fun entries => freshLabel_points.bind fun last => ?_
    refine (emit_points _).bind fun _ => (emitTarget_points last).bind fun _ => ?_
    refine (emitCount_points _).bind fun _ => (conditions_points hconditions entries).bind fun _ => ?_
    refine (branchBodies_points r o next branches hbodies entries).bind fun _ => ?_
    exact otherwiseBody_points r o last next otherwise hotherwise
  | .choice is span, .choice his hspan => by
    unfold stmt
    refine (report_points (choiceErrors_on hspan is)).bind fun _ => (emit_points _).bind fun _ => ?_
    refine (emitTarget_points next).bind fun _ => reserve_points.bind fun count => ?_
    refine (items_points r next is his).bind fun list => (fill_points count _).bind fun _ => ?_
    exact (optionBodies_points r o is his list.bodies).bind fun _ => .pure ()
  | .hash h, .hash hh => by
    unfold stmt
    exact (emit_points _).bind fun _ => (emitTarget_points next).bind fun _ => hash_points hh
  | .speaker x h _, .speaker hh _ => by
    unfold stmt
    refine (speaker_points _).bind fun i => (emit_points _).bind fun _ => ?_
    exact (emitTarget_points next).bind fun _ => (emit_points i).bind fun _ => hash_points hh

/-- Statements point where each of them does, from whatever label and reach they start. -/
theorem stmts_points (r : Registry) (o : CompileOptions) (exit : Label) : (ss : List Stmt) →
    (∀ s ∈ ss, s.On P) → (current : Label) → (reach : Reach) →
    Points P (stmts r o exit ss current reach)
  | [], _, _, _ => by
    unfold stmts
    exact .pure ()
  | s :: ss, h, current, reach => by
    rw [List.forall_mem_cons] at h
    unfold stmts
    refine (reportReach_points h.1 reach).bind fun reach => (successor_points exit ss).bind fun next => ?_
    refine (bindLabel_points current).bind fun _ => (stmt_points r o next s h.1).bind fun _ => ?_
    exact stmts_points r o exit ss h.2 next _

/-- A block between its labels points where its statements do. -/
theorem block_points (r : Registry) (o : CompileOptions) (entry exit : Label) : (ss : List Stmt) →
    (∀ s ∈ ss, s.On P) → Points P (block r o entry exit ss)
  | [], _ => by
    unfold block
    exact redirect_points entry exit
  | s :: ss, h => by
    rw [List.forall_mem_cons] at h
    unfold block
    refine (successor_points exit ss).bind fun next => (bindLabel_points entry).bind fun _ => ?_
    exact (stmt_points r o next s h.1).bind fun _ => stmts_points r o exit ss h.2 next _

/-- The blocks of a conditional's branches point where their statements do. -/
theorem branchBodies_points (r : Registry) (o : CompileOptions) (exit : Label) :
    (bs : List (Expr × List Stmt)) → (∀ b ∈ bs, ∀ s ∈ b.2, s.On P) → (ls : List Label) →
    Points P (branchBodies r o exit bs ls)
  | [], _, _ => by
    unfold branchBodies
    exact .pure ()
  | _ :: _, _, [] => by
    unfold branchBodies
    exact .pure ()
  | (_, body) :: bs, h, l :: ls => by
    rw [List.forall_mem_cons] at h
    unfold branchBodies
    exact (block_points r o l exit body h.1).bind fun _ => branchBodies_points r o exit bs h.2 ls

/-- The block behind the branches points where its statements do, if there is one. -/
theorem otherwiseBody_points (r : Registry) (o : CompileOptions) (entry exit : Label) :
    (b : Option (List Stmt)) → (∀ ss, b = some ss → ∀ s ∈ ss, s.On P) →
    Points P (otherwiseBody r o entry exit b)
  | none, _ => by
    unfold otherwiseBody
    exact redirect_points entry exit
  | some ss, h => by
    unfold otherwiseBody
    exact block_points r o entry exit ss (h ss rfl)

/-- The bodies in an item of a choice point where their statements do. -/
theorem itemBodies_points (r : Registry) (o : CompileOptions) : (i : ChoiceItem) → i.On P →
    (ls : List BodyLabels) → Points P (itemBodies r o i ls)
  | .option _ _ _ body _, .option _ _ _ hbody, ls => by
    unfold itemBodies
    exact optionBody_points r o body hbody ls
  | .filter branches otherwise _, .filter _ hbodies hotherwise, ls => by
    unfold itemBodies
    refine (filterBodies_points r o branches hbodies ls).bind fun ls => ?_
    exact elseBodies_points r o otherwise hotherwise ls

/-- The body of an option points where its statements do, if there is one. -/
theorem optionBody_points (r : Registry) (o : CompileOptions) : (b : Option (List Stmt)) →
    (∀ ss, b = some ss → ∀ s ∈ ss, s.On P) → (ls : List BodyLabels) →
    Points P (optionBody r o b ls)
  | none, _, ls => by
    unfold optionBody
    exact .pure ls
  | some _, _, [] => by
    unfold optionBody
    exact .pure []
  | some ss, h, l :: ls => by
    unfold optionBody
    exact (block_points r o l.entry l.exit ss (h ss rfl)).bind fun _ => .pure ls

/-- The bodies of options point where their statements do. -/
theorem optionBodies_points (r : Registry) (o : CompileOptions) : (is : List ChoiceItem) →
    (∀ i ∈ is, i.On P) → (ls : List BodyLabels) → Points P (optionBodies r o is ls)
  | [], _, ls => by
    unfold optionBodies
    exact .pure ls
  | i :: is, h, ls => by
    rw [List.forall_mem_cons] at h
    unfold optionBodies
    exact (itemBodies_points r o i h.1 ls).bind fun ls => optionBodies_points r o is h.2 ls

/-- The bodies in the branches of a filter point where their statements do. -/
theorem filterBodies_points (r : Registry) (o : CompileOptions) :
    (bs : List (Expr × List ChoiceItem)) → (∀ b ∈ bs, ∀ i ∈ b.2, i.On P) → (ls : List BodyLabels) →
    Points P (filterBodies r o bs ls)
  | [], _, ls => by
    unfold filterBodies
    exact .pure ls
  | (_, is) :: bs, h, ls => by
    rw [List.forall_mem_cons] at h
    unfold filterBodies
    exact (optionBodies_points r o is h.1 ls).bind fun ls => filterBodies_points r o bs h.2 ls

/-- The bodies behind the branches of a filter point where their statements do. -/
theorem elseBodies_points (r : Registry) (o : CompileOptions) : (b : Option (List ChoiceItem)) →
    (∀ is, b = some is → ∀ i ∈ is, i.On P) → (ls : List BodyLabels) → Points P (elseBodies r o b ls)
  | none, _, ls => by
    unfold elseBodies
    exact .pure ls
  | some is, h, ls => by
    unfold elseBodies
    exact optionBodies_points r o is (h is rfl) ls

end

/-! ## Sections -/

/-- A section whose name is taken is reported at its name. -/
theorem declare_points {s : Section} (h : s.name.span.On P) : Points P (declare s) := by
  refine freshLabel_points.bind fun l => .get_bind fun d _ => ?_
  split
  · next first _ =>
    have herror : CompileError.On P (.duplicateSection s.name.name s.name.span first) := h
    exact (report_points (.single herror)).bind fun _ => .pure l
  · exact Points.bind (fun d hd => ⟨hd.errors, hd.mentions⟩) fun _ => .pure l

/-- Sections that are declared point at their names. -/
theorem declareAll_points {ss : List Section} (h : ∀ s ∈ ss, s.On P) : Points P (declareAll ss) := by
  induction ss with
  | nil => exact .pure []
  | cons s ss ih =>
    rw [List.forall_mem_cons] at h
    exact (declare_points h.1.name).bind fun _ => (ih h.2).bind fun _ => .pure _

/-- What stands behind the last statement of a section reports nothing. -/
theorem sectionEnd_points (exit : Label) : Points P (sectionEnd exit) := by
  refine .get_bind fun d _ => ?_
  split
  · exact (bindLabel_points exit).bind fun _ => emit_points _
  · exact .pure ()

/-- The body of a section points where its statements do. -/
theorem sectionBody_points {s : Section} (h : s.On P) (l : Label) : Points P (sectionBody r o s l) := by
  refine freshLabel_points.bind fun body => freshLabel_points.bind fun exit => ?_
  refine (string_points _).bind fun name => (bindLabel_points l).bind fun _ => (emit_points _).bind fun _ => ?_
  refine (emitTarget_points body).bind fun _ => (emit_points name).bind fun _ => ?_
  exact (block_points r o body exit s.body h.body).bind fun _ => sectionEnd_points exit

/-- The bodies of sections point where their statements do. -/
theorem sectionBodies_points {ss : List Section} (h : ∀ s ∈ ss, s.On P) (ls : List Label) :
    Points P (sectionBodies r o ss ls) := by
  induction ss generalizing ls with
  | nil => exact .pure ()
  | cons s ss ih =>
    rw [List.forall_mem_cons] at h
    cases ls with
    | nil => exact .pure ()
    | cons l ls => exact (sectionBody_points h.1 l).bind fun _ => ih h.2 ls

theorem story_points {s : Story} (h : s.On P) : Points P (story r o s) :=
  (declareAll_points h).bind fun labels => sectionBodies_points h labels

end Lower

/-- All that is reported of a story points at spans in it. -/
theorem compile_on (r : Registry) (o : CompileOptions) {s : Story} (h : s.On P) :
    ∀ d ∈ (compile r o s).diagnostics, d.span.On P := by
  have hempty : Draft.empty.On P := ⟨.nil, by simp [Draft.empty, Assembly.empty]⟩
  have hdraft := Lower.story_points (r := r) (o := o) h _ hempty
  intro d hd
  obtain ⟨e, he, rfl⟩ := List.mem_map.mp hd
  rcases List.mem_append.mp he with he | he
  · exact hdraft.errors e he
  · obtain ⟨m, hm, rfl⟩ := List.mem_map.mp he
    exact hdraft.mentions m (Array.mem_toList_iff.mp (List.mem_filter.mp hm).1)

end Colloquy
