import Colloquy.Compiler.Compile
import Colloquy.Proofs.Catalog
import Colloquy.Proofs.Layout.Lowered
import Colloquy.Proofs.Story.Chart

/-!
# What a lowering notes

Where control goes is checked in two ways while a story is lowered: a name of a section is noted where it
is used, to be looked up when all is laid down, and errors are reported of sections that have a name
already and of statements that are cut off.  `Notes names errors m` says that a step of a lowering adds
exactly these names and exactly these errors, whatever it reports besides.  The rules for it follow the
recursion of the lowering, so a statement notes what its chart does (`stmt_notes`).
-/

namespace Colloquy

/-- The error is about a section: it is declared again, or none has the name. -/
def CompileError.isSectional : CompileError → Bool
  | .unknownSection .. | .duplicateSection .. => true
  | _ => false

/-- The error is about a statement that is cut off. -/
def CompileError.isUnreachable : CompileError → Bool
  | .unreachableStatement .. => true
  | _ => false

/-- The error is about where control goes. -/
def CompileError.isFlow (e : CompileError) : Bool := e.isSectional || e.isUnreachable

/-- The compile error in a diagnostic, if it is of one sort. -/
def Diagnostic.compileError? (p : CompileError → Bool) : Diagnostic → Option CompileError
  | .compile e => if p e then some e else none
  | _ => none

/-- Among the diagnostics of compile errors a choice of errors finds the errors it chooses. -/
theorem Diagnostic.filterMap_compileError? (p : CompileError → Bool) (errors : List CompileError) :
    (errors.map Diagnostic.compile).filterMap (Diagnostic.compileError? p) = errors.filter p := by
  rw [List.filterMap_map, ← List.filterMap_eq_filter]
  exact List.filterMap_congr fun e _ => by simp [Diagnostic.compileError?, Option.guard]

/-- No error is about where control goes. -/
def Flowless (errors : List CompileError) : Prop := ∀ e ∈ errors, e.isFlow = false

namespace Flowless

variable {xs ys : List CompileError}

theorem nil : Flowless [] := fun _ he => absurd he List.not_mem_nil

theorem single {e : CompileError} (h : e.isFlow = false) : Flowless [e] := List.forall_mem_singleton.mpr h

theorem append (hx : Flowless xs) (hy : Flowless ys) : Flowless (xs ++ ys) :=
  List.forall_mem_append.mpr ⟨hx, hy⟩

/-- Errors of which a test chooses one part or the other are not of control flow if neither part is. -/
theorem ite {b : Prop} [Decidable b] (hx : Flowless xs) (hy : Flowless ys) :
    Flowless (if b then xs else ys) := by
  split
  · exact hx
  · exact hy

/-- Of errors that have nothing to do with control flow, no error has. -/
theorem filter (h : Flowless xs) : xs.filter CompileError.isFlow = [] :=
  List.filter_eq_nil_iff.mpr fun e he => by simp [h e he]

end Flowless

/-! ## Checks of expressions -/

namespace Typing

theorem mismatch_flowless (expected actual : Kind) (s : Span) : Flowless (mismatch expected actual s) :=
  .ite (.single rfl) .nil

/-- A variable that is looked up is no matter of control flow. -/
theorem ofVariable_flowless (r : Registry) (x : Ident) : Flowless (ofVariable r x).errors := by
  unfold ofVariable
  split
  · exact .nil
  · exact .single rfl

/-- Nor is one that is looked up for its kind. -/
theorem variableOf_flowless (r : Registry) (x : Ident) (expected : Kind) :
    Flowless (variableOf r x expected) :=
  (ofVariable_flowless r x).append (mismatch_flowless _ _ _)

/-- Nor are the parameters that a call leaves out. -/
theorem defaults_flowless (name : String) (s : Span) (supplied : Nat) (params : List Parameter) :
    Flowless (defaults name s supplied params) := by
  intro e he
  obtain ⟨index, kinds, rfl⟩ := exists_of_mem_defaults he
  rfl

/-- Nor is what is wrong with a call as a whole. -/
theorem callErrors_flowless (f : FunctionDecl) (supplied : Nat) (awaited : Bool) (s : Span) :
    Flowless (callErrors f supplied awaited s) :=
  .append (.append (.ite .nil (.single rfl)) (.ite .nil (.single rfl))) (defaults_flowless _ _ _ _)

mutual

/-- Expressions lead nowhere. -/
theorem infer_flowless (r : Registry) : (e : Expr) → Flowless (infer r e).errors
  | .literal v _ => by
    rw [infer]
    exact .nil
  | .variable x => by
    rw [infer]
    exact ofVariable_flowless r x
  | .group e => by
    rw [infer]
    exact infer_flowless r e
  | .unary op e => by
    rw [infer]
    exact (infer_flowless r e).append (mismatch_flowless _ _ _)
  | .binary op left right => by
    have hl := infer_flowless r left
    have hr := infer_flowless r right
    rw [infer]
    split
    · exact (hl.append (mismatch_flowless _ _ _)).append (hr.append (mismatch_flowless _ _ _))
    · exact (hl.append hr).append (.ite (mismatch_flowless _ _ _) .nil)
  | .assign x op value => by
    have hx := ofVariable_flowless r x
    have hv := infer_flowless r value
    rw [infer]
    split
    · exact (hx.append hv).append (.ite (mismatch_flowless _ _ _) .nil)
    · exact (hx.append (mismatch_flowless _ _ _)).append (hv.append (mismatch_flowless _ _ _))
  | .call callee args awaited close => by
    rw [infer]
    split
    · exact List.forall_mem_cons.mpr ⟨rfl, inferArgs_flowless r [] args⟩
    · exact (callErrors_flowless _ _ _ _).append (inferArgs_flowless r _ args)

/-- Nor are the arguments of a call. -/
theorem inferArgs_flowless (r : Registry) : (ps : List Parameter) → (es : List Expr) →
    Flowless (inferArgs r ps es)
  | _, [] => by
    rw [inferArgs]
    exact .nil
  | [], e :: es => by
    rw [inferArgs]
    exact (infer_flowless r e).append (inferArgs_flowless r [] es)
  | p :: ps, e :: es => by
    rw [inferArgs]
    exact ((infer_flowless r e).append (mismatch_flowless _ _ _)).append (inferArgs_flowless r ps es)

end

theorem exprOf_flowless (r : Registry) (e : Expr) (expected : Kind) : Flowless (exprOf r e expected) :=
  (infer_flowless r e).append (mismatch_flowless _ _ _)

end Typing

/-! ## Notes -/

/-- Each mention is one of the label that the sections of the draft have for its name. -/
def Draft.Named (d : Draft) : Prop :=
  ∀ m ∈ d.assembly.mentions, ∃ e, d.sections.find? m.source.name = some e ∧ e.label = m.label

/-- A draft becomes another one that mentions more names and has more errors about where control goes. -/
structure Draft.Noted (names : List Ident) (errors : List CompileError) (d d' : Draft) : Prop where
  names : d'.assembly.mentions.toList.map Mention.source
    = d.assembly.mentions.toList.map Mention.source ++ names
  errors : d'.errors.filter CompileError.isFlow = d.errors.filter CompileError.isFlow ++ errors
  named : d.Named → d'.Named

namespace Lower

variable {α β : Type} {r : Registry} {o : CompileOptions}

/-- A step of a lowering adds these names and these errors about where control goes. -/
def Notes (names : List Ident) (errors : List CompileError) (m : Lower α) : Prop :=
  ∀ d : Draft, d.Noted names errors (m d).2

/-- A step of a lowering adds neither names nor errors about where control goes. -/
abbrev Silent (m : Lower α) : Prop := Notes [] [] m

namespace Notes

variable {m : Lower α} {f : α → Lower β} {xs ys : List Ident} {es fs : List CompileError}

/-- A step that leaves mentions, errors and sections alone. -/
theorem of_frame (h : ∀ d, (m d).2.assembly.mentions = d.assembly.mentions ∧
    (m d).2.errors = d.errors ∧ (m d).2.sections = d.sections) : Silent m := by
  intro d
  obtain ⟨hmentions, herrors, hsections⟩ := h d
  refine ⟨by rw [hmentions, List.append_nil], by rw [herrors, List.append_nil], fun hd => ?_⟩
  rw [Draft.Named, hmentions, hsections]
  exact hd

theorem pure (a : α) : Silent (Pure.pure a : Lower α) := .of_frame fun _ => ⟨rfl, rfl, rfl⟩

/-- One step after another: the second is known for all results that the first one can have. -/
theorem bind (hm : Notes xs es m) (hf : ∀ d, Notes ys fs (f (m d).1)) :
    Notes (xs ++ ys) (es ++ fs) (m >>= f) := by
  intro d
  have h := hm d
  have h' := hf d (m d).2
  refine ⟨?_, ?_, fun hd => h'.named (h.named hd)⟩
  · rw [← List.append_assoc, ← h.names]
    exact h'.names
  · rw [← List.append_assoc, ← h.errors]
    exact h'.errors

/-- A silent step in front of another one. -/
theorem after (hm : Silent m) (hf : ∀ a, Notes ys fs (f a)) : Notes ys fs (m >>= f) :=
  hm.bind fun _ => hf _

/-- A silent step behind another one. -/
theorem before (hm : Notes xs es m) (hf : ∀ a, Silent (f a)) : Notes xs es (m >>= f) := by
  have h := hm.bind fun d => hf (m d).1
  rwa [List.append_nil, List.append_nil] at h

/-- A step for each entry of a list notes the names of the entries in their order. -/
theorem forM {as : List α} {f : α → Lower Unit} {names : α → List Ident}
    (h : ∀ a ∈ as, Notes (names a) [] (f a)) : Notes (as.flatMap names) [] (as.forM f) := by
  induction as with
  | nil => exact .pure ()
  | cons a as ih =>
    rw [List.forall_mem_cons] at h
    rw [List.flatMap_cons]
    exact h.1.bind fun _ => ih h.2

/-- A step for each entry of a list notes nothing if none of the steps does. -/
theorem forM_silent {as : List α} {f : α → Lower Unit} (h : ∀ a ∈ as, Silent (f a)) :
    Silent (as.forM f) := by
  have hall := Notes.forM h
  rwa [List.flatMap_eq_nil_iff.mpr fun _ _ => rfl] at hall

end Notes

/-! ## Emitting -/

theorem emit_silent (w : UInt32) : Silent (emit w) := .of_frame fun _ => ⟨rfl, rfl, rfl⟩

theorem emitCount_silent (n : Nat) : Silent (emitCount n) := emit_silent _

theorem emitTarget_silent (l : Label) : Silent (emitTarget l) := .of_frame fun _ => ⟨rfl, rfl, rfl⟩

theorem freshLabel_silent : Silent freshLabel := .of_frame fun _ => ⟨rfl, rfl, rfl⟩

theorem bindLabel_silent (l : Label) : Silent (bindLabel l) := .of_frame fun _ => ⟨rfl, rfl, rfl⟩

/-- Redirecting a label moves no mention. -/
theorem redirect_silent (l target : Label) : Silent (update (·.redirect l target)) := by
  refine .of_frame fun d => ⟨?_, rfl, rfl⟩
  show (d.assembly.redirect l target).mentions = _
  unfold Assembly.redirect
  split <;> rfl

theorem reserve_silent : Silent (fetch Assembly.reserve) := .of_frame fun _ => ⟨rfl, rfl, rfl⟩

theorem fill_silent (n : Nat) (w : UInt32) : Silent (update (·.fill n w)) :=
  .of_frame fun _ => ⟨rfl, rfl, rfl⟩

theorem string_silent (s : String) : Silent (string s) := .of_frame fun _ => ⟨rfl, rfl, rfl⟩

theorem speaker_silent (s : String) : Silent (speaker s) := .of_frame fun _ => ⟨rfl, rfl, rfl⟩

/-- A report notes the errors of control flow in it. -/
theorem report_notes {errors es : List CompileError} (h : errors.filter CompileError.isFlow = es) :
    Notes [] es (report errors) := by
  intro d
  refine ⟨(List.append_nil _).symm, ?_, id⟩
  show (d.errors ++ errors).filter CompileError.isFlow = _
  rw [List.filter_append, h]

/-- A report without errors of control flow notes nothing. -/
theorem report_silent {errors : List CompileError} (h : Flowless errors) : Silent (report errors) :=
  report_notes h.filter

/-! ## Expressions -/

/-- A literal notes nothing. -/
theorem literal_silent (v : Literal) : Silent (literal v) := by
  cases v with
  | float x =>
    have hfloat : Silent (fetch (·.float x)) := .of_frame fun _ => ⟨rfl, rfl, rfl⟩
    exact hfloat.after fun _ => (emit_silent _).after fun _ => emit_silent _
  | string s => exact (string_silent s).after fun _ => (emit_silent _).after fun _ => emit_silent _
  | bool b => exact (emit_silent _).after fun _ => emit_silent _

/-- Defaults note nothing. -/
theorem defaults_silent (ps : List Parameter) : Silent (defaults ps) := by
  induction ps with
  | nil => exact .pure 0
  | cons p ps ih =>
    unfold defaults
    split
    · exact .pure 0
    · exact (literal_silent _).after fun _ => ih.after fun _ => .pure _

/-- What fills up a call notes nothing. -/
theorem fallbacks_silent (r : Registry) (name : String) (given : Nat) :
    Silent (fallbacks r name given) := by
  unfold fallbacks
  split
  · exact defaults_silent _
  · exact .pure 0

mutual

/-- An expression notes nothing, by recursion into its operands. -/
theorem expr_silent (r : Registry) : (e : Expr) → Silent (expr r e)
  | .literal v _ => by
    unfold expr
    exact literal_silent v
  | .variable x => by
    unfold expr
    exact (string_silent _).after fun _ => (emit_silent _).after fun _ => emit_silent _
  | .group e => by
    unfold expr
    exact expr_silent r e
  | .unary op e => by
    unfold expr
    exact (emit_silent _).after fun _ => expr_silent r e
  | .binary op left right => by
    unfold expr
    exact (emit_silent _).after fun _ => (expr_silent r left).after fun _ => expr_silent r right
  | .assign x op value => by
    unfold expr
    refine (string_silent _).after fun _ => (emit_silent _).after fun _ => (emit_silent _).after fun _ => ?_
    exact expr_silent r value
  | .call callee args awaited _ => by
    unfold expr
    refine (string_silent _).after fun _ => (emit_silent _).after fun _ => (emit_silent _).after fun _ => ?_
    refine (emit_silent _).after fun _ => reserve_silent.after fun _ => ?_
    refine (exprs_silent r args).after fun _ => ?_
    exact (fallbacks_silent r _ _).after fun _ => fill_silent _ _

/-- Expressions note nothing. -/
theorem exprs_silent (r : Registry) : (es : List Expr) → Silent (exprs r es)
  | [] => by
    unfold exprs
    exact .pure ()
  | e :: es => by
    unfold exprs
    exact (expr_silent r e).after fun _ => exprs_silent r es

end

theorem checkedExpr_silent (r : Registry) (e : Expr) : Silent (checkedExpr r e) :=
  (report_silent (Typing.infer_flowless r e)).after fun _ => expr_silent r e

theorem checkKind_silent (r : Registry) (e : Expr) (k : Kind) : Silent (checkKind r e k) :=
  report_silent (Typing.exprOf_flowless r e k)

/-! ## Sections as targets -/

/-- Naming a section notes the name, under the label that the sections have for it from then on. -/
theorem sectionLabel_notes (x : Ident) : Notes [x] [] (sectionLabel x) := by
  have hsources : ∀ (a : Assembly) (l : Label) (x : Ident),
      (a.mention l x).mentions.toList.map Mention.source = a.mentions.toList.map Mention.source ++ [x] := by
    intro a l x
    rw [Assembly.mention, Array.toList_push, List.map_append]
    rfl
  intro d
  cases hx : d.sections.find? x.name with
  | some e =>
    have hrun : (sectionLabel x d).2 = (update (·.mention e.label x) d).2 := by
      simp only [sectionLabel, bind_apply, get_apply, hx]
      rfl
    rw [hrun]
    refine ⟨hsources _ _ _, (List.append_nil _).symm, ?_⟩
    intro hd m hm
    rcases Array.mem_push.mp hm with hm | rfl
    · exact hd m hm
    · exact ⟨e, hx, rfl⟩
  | none =>
    have hrun : (sectionLabel x d).2 = (update (·.mention (freshLabel d).1 x)
        { (freshLabel d).2 with
          sections := d.sections.insert x.name ⟨(freshLabel d).1, none⟩ }).2 := by
      simp only [sectionLabel, bind_apply, get_apply, hx]
      rfl
    rw [hrun]
    refine ⟨hsources _ _ _, (List.append_nil _).symm, ?_⟩
    intro hd m hm
    rcases Array.mem_push.mp hm with hm | rfl
    · obtain ⟨e, he, hlabel⟩ := hd m hm
      refine ⟨e, ?_, hlabel⟩
      show (d.sections.insert _ _).find? _ = _
      rw [Catalog.find?_insert_of_ne _ _ (by rintro heq; rw [heq, hx] at he; cases he)]
      exact he
    · exact ⟨_, Catalog.find?_insert_self _ _ _, rfl⟩

/-! ## Parts of statements -/

/-- A segment of a text notes nothing: the sections in its tags are noted apart from it. -/
theorem segment_silent (r : Registry) (s : Segment) : Silent (segment r s) := by
  cases s with
  | text t => exact (string_silent _).after fun _ => (emit_silent _).after fun _ => emit_silent _
  | placeholder e =>
    refine (report_silent (Typing.infer_flowless r e)).after fun _ => ?_
    exact (emit_silent _).after fun _ => expr_silent r e

theorem segments_silent (r : Registry) (ss : List Segment) : Silent (segments r ss) :=
  (emitCount_silent _).after fun _ => .forM_silent fun s _ => segment_silent r s

/-- The tags in the fixed parts of a text note the sections that they lead to. -/
theorem mentionInline_notes (ss : List Segment) :
    Notes (ss.flatMap inlineTargets) [] (mentionInline ss) := by
  have hnotes : ∀ x ∈ ss.flatMap inlineTargets, Notes [x] [] (do discard (sectionLabel x)) :=
    fun x _ => (sectionLabel_notes x).before fun _ => .pure ()
  have h := Notes.forM hnotes
  rwa [List.flatMap_singleton'] at h

/-- What is wrong with a key is no matter of control flow. -/
theorem entryErrors_flowless (before : List Ident) (e : HashEntry) : Flowless (entryErrors before e) := by
  refine .append ?_ (.ite (.single rfl) .nil)
  split
  · exact .single rfl
  · exact .nil

/-- A key with its values notes nothing. -/
theorem entry_silent (r : Registry) (e : HashEntry) : Silent (entry r e) := by
  refine (string_silent _).after fun key => ?_
  split
  · exact (emitCount_silent _).after fun _ => (emit_silent _).after fun _ => literal_silent _
  · exact (emitCount_silent _).after fun _ => (emit_silent _).after fun _ =>
      .forM_silent fun v _ => checkedExpr_silent r v

/-- Keys with their values note nothing, whatever keys stand before them. -/
theorem entries_silent (r : Registry) (before : List Ident) (es : List HashEntry) :
    Silent (entries r before es) := by
  induction es generalizing before with
  | nil => exact .pure ()
  | cons e es ih =>
    refine (report_silent (entryErrors_flowless before e)).after fun _ => ?_
    exact (entry_silent r e).after fun _ => ih _

theorem hash_silent (r : Registry) (h : HashBlock) : Silent (hash r h) :=
  (emitCount_silent _).after fun _ => entries_silent r [] h.entries

/-- A speaker notes nothing. -/
theorem speakerRef_silent (r : Registry) (s : SpeakerRef) : Silent (speakerRef r s) := by
  cases s with
  | named x => exact (speaker_silent _).after fun _ => (emit_silent _).after fun _ => emit_silent _
  | «variable» x =>
    refine (report_silent (Typing.variableOf_flowless r x _)).after fun _ => ?_
    refine (string_silent _).after fun _ => ?_
    exact (emit_silent _).after fun _ => emit_silent _

/-- A directive notes the section that it leads to. -/
theorem directive_notes (r : Registry) (x : Directive) : Notes x.target?.toList [] (directive r x) := by
  cases x with
  | auto => exact emit_silent _
  | speed e => exact (checkKind_silent r e _).after fun _ => (emit_silent _).after fun _ => expr_silent r e
  | pause e => exact (checkKind_silent r e _).after fun _ => (emit_silent _).after fun _ => expr_silent r e
  | goto x => exact (sectionLabel_notes x).before fun l => (emit_silent _).after fun _ => emitTarget_silent l

/-- The hash data of a line note nothing. -/
theorem lineHash_silent (r : Registry) (h : Option HashBlock) : Silent (lineHash r h) := by
  cases h with
  | none => exact .pure ()
  | some b =>
    refine freshLabel_silent.after fun l => (emit_silent _).after fun _ => ?_
    refine (emitTarget_silent l).after fun _ => ?_
    exact (hash_silent r b).after fun _ => bindLabel_silent l

/-- A line notes the sections in its text and then those of its directives. -/
theorem line_notes (r : Registry) (l : Line) (next : Label) :
    Notes (Stmt.names (.line l)) [] (line r l next) := by
  refine (lineHash_silent r l.hash).after fun _ => (emit_silent _).after fun _ => ?_
  refine (emitTarget_silent next).after fun _ => (emitCount_silent _).after fun _ => ?_
  refine Notes.after (.forM_silent fun s _ => speakerRef_silent r s) fun _ => ?_
  refine (segments_silent r l.text).after fun _ => (mentionInline_notes l.text).bind fun _ => ?_
  have hdirectives := Notes.forM fun d (_ : d ∈ l.directives) => directive_notes r d.val
  rw [← List.filterMap_eq_flatMap_toList] at hdirectives
  exact (emitCount_silent _).after fun _ => hdirectives

/-! ## Choices -/

theorem choiceErrors_flowless (items : List ChoiceItem) (s : Span) : Flowless (choiceErrors items s) :=
  .ite (.single rfl) (.ite .nil (.single rfl))

/-- An option notes the section that it leads to. -/
theorem optionExit_notes (next : Label) (x : Option Ident) : Notes x.toList [] (optionExit next x) := by
  cases x with
  | none => exact .pure next
  | some y => exact sectionLabel_notes y

/-- A guard notes nothing. -/
theorem guard_silent (r : Registry) (g : Option Expr) : Silent (Lower.guard r g) := by
  cases g with
  | none => exact emit_silent _
  | some e => exact (checkKind_silent r e _).after fun _ => (emit_silent _).after fun _ => expr_silent r e

/-- A condition in a choice notes nothing. -/
theorem condition_silent (r : Registry) (marker : Code.ChoiceMarker) (e : Expr) :
    Silent (condition r marker e) :=
  (emit_silent _).after fun _ => (checkKind_silent r e _).after fun _ => expr_silent r e

/-- The entry of an option notes nothing. -/
theorem optionEntry_silent (exit : Label) (body : Option (List Stmt)) : Silent (optionEntry exit body) := by
  cases body with
  | none => exact (emitTarget_silent _).after fun _ => .pure _
  | some b => exact freshLabel_silent.after fun l => (emitTarget_silent l).after fun _ => .pure _

mutual

/-- An item of a choice notes the sections that its options lead to. -/
theorem item_notes (r : Registry) (next : Label) : (i : ChoiceItem) → Notes i.targets [] (item r next i)
  | .option guard text target body _ => by
    unfold item
    rw [ChoiceItem.targets]
    refine (optionExit_notes next target).before fun exit => (emit_silent _).after fun _ => ?_
    refine (optionEntry_silent exit body).after fun bodies => (guard_silent r guard).after fun _ => ?_
    exact (segments_silent r text).after fun _ => .pure _
  | .filter branches otherwise _ => by
    unfold item
    rw [ChoiceItem.targets]
    refine (filterBranches_notes r next _ branches).bind fun _ => ?_
    exact (filterOtherwise_notes r next otherwise).before fun _ => (emit_silent _).after fun _ => .pure _

/-- Items note those of each in turn. -/
theorem items_notes (r : Registry) (next : Label) : (is : List ChoiceItem) →
    Notes (ChoiceItem.allTargets is) [] (items r next is)
  | [] => by
    unfold items
    exact .pure _
  | i :: is => by
    unfold items
    rw [ChoiceItem.allTargets]
    exact (item_notes r next i).bind fun _ => (items_notes r next is).before fun _ => .pure _

/-- So do the branches of a filter. -/
theorem filterBranches_notes (r : Registry) (next : Label) (marker : Code.ChoiceMarker) :
    (bs : List (Expr × List ChoiceItem)) →
      Notes (ChoiceItem.branchTargets bs) [] (filterBranches r next marker bs)
  | [] => by
    unfold filterBranches
    exact .pure _
  | (e, is) :: bs => by
    unfold filterBranches
    rw [ChoiceItem.branchTargets]
    refine (condition_silent r marker e).after fun _ => (items_notes r next is).bind fun _ => ?_
    exact (filterBranches_notes r next _ bs).before fun _ => .pure _

/-- So do the items behind the branches of a filter. -/
theorem filterOtherwise_notes (r : Registry) (next : Label) : (o : Option (List ChoiceItem)) →
    Notes (ChoiceItem.otherwiseTargets o) [] (filterOtherwise r next o)
  | none => by
    unfold filterOtherwise
    exact .pure _
  | some is => by
    unfold filterOtherwise
    rw [ChoiceItem.otherwiseTargets]
    exact (emit_silent _).after fun _ => (items_notes r next is).before fun _ => .pure _

end

/-! ## Blocks -/

/-- What the lowering of a statement notes, apart from how the statement itself is reached. -/
def StmtNotes (r : Registry) (o : CompileOptions) (x : Stmt) : Prop :=
  ∀ next, Notes (x.names ++ Stmt.allNames x.inside) (Stmt.warnings o x.inside) (stmt r o next x)

/-- The mark of a statement tells how the lowering of its block has come to it.  Without warnings no
cut is ever reported. -/
def Follows (o : CompileOptions) (mark reach : Reach) : Prop := o.unreachableWarnings = true → reach = mark

/-- A statement that is cut off is noted, if its mark in the chart agrees with how it is reached; and the
marks agree behind it. -/
theorem reportReach_notes {x : Stmt} {mark reach : Reach} (h : Follows o mark reach) :
    Notes [] (Stmt.warnings o [(mark, x)]) (reportReach o x reach) ∧
      ∀ d, Follows o (mark.behind x) ((reportReach o x reach d).1.after x) := by
  by_cases ho : o.unreachableWarnings = true
  · obtain rfl := h ho
    rw [Stmt.warnings, if_pos ho]
    cases reach with
    | reached => exact ⟨.pure _, fun _ _ => rfl⟩
    | reported => exact ⟨.pure _, fun _ _ => rfl⟩
    | cut terminatedAt =>
      have hreport : Notes [] [.unreachableStatement x.span terminatedAt]
          (report [.unreachableStatement x.span terminatedAt]) := report_notes rfl
      rw [reportReach, if_pos ho]
      exact ⟨hreport.before fun _ => .pure _, fun _ _ => rfl⟩
  · rw [Stmt.warnings, if_neg ho]
    refine ⟨?_, fun _ h => absurd h ho⟩
    cases reach with
    | cut terminatedAt =>
      rw [reportReach, if_neg ho]
      exact .pure _
    | _ => exact .pure _

/-- The label behind a statement is chosen without a note. -/
theorem successor_silent (exit : Label) (ss : List Stmt) : Silent (successor exit ss) := by
  cases ss with
  | nil => exact .pure exit
  | cons s ss => exact freshLabel_silent

/-- Statements note what their chart does, if its first mark agrees with how they are reached. -/
theorem stmts_notes {xs : List Stmt} (hx : ∀ x ∈ xs, StmtNotes r o x) (exit current : Label)
    {mark reach : Reach} (h : Follows o mark reach) :
    Notes (Stmt.allNames (Stmt.chartFrom mark xs)) (Stmt.warnings o (Stmt.chartFrom mark xs))
      (stmts r o exit xs current reach) := by
  induction xs generalizing current mark reach with
  | nil =>
    unfold stmts
    rw [Stmt.chartFrom_nil, Stmt.warnings_nil]
    exact .pure ()
  | cons x xs ih =>
    rw [List.forall_mem_cons] at hx
    obtain ⟨hreport, hfollows⟩ := reportReach_notes (x := x) h
    have hcons : (mark, x) :: (x.inside ++ Stmt.chartFrom (mark.behind x) xs)
        = [(mark, x)] ++ (x.inside ++ Stmt.chartFrom (mark.behind x) xs) := rfl
    unfold stmts
    rw [Stmt.chartFrom_cons, hcons, Stmt.allNames_append, Stmt.allNames_append, Stmt.warnings_append,
      Stmt.warnings_append]
    have hrest : ∀ d next, Notes (Stmt.allNames (Stmt.chartFrom (mark.behind x) xs))
        (Stmt.warnings o (Stmt.chartFrom (mark.behind x) xs))
        (stmts r o exit xs next ((reportReach o x reach d).1.after x)) :=
      fun d next => ih hx.2 next (hfollows d)
    have hstmt := hx.1
    rw [show Stmt.allNames [(mark, x)] = [] ++ x.names by simp, List.append_assoc]
    refine hreport.bind fun d => (successor_silent exit xs).after fun next => ?_
    refine (bindLabel_silent current).after fun _ => ?_
    rw [← List.append_assoc]
    exact (hstmt next).bind fun _ => hrest d next

/-- A block notes what its chart does: a block is reached from its first statement on. -/
theorem block_notes {b : List Stmt} (hb : ∀ x ∈ b, StmtNotes r o x) (entry exit : Label) :
    Notes (Stmt.allNames (Stmt.chartFrom .reached b)) (Stmt.warnings o (Stmt.chartFrom .reached b))
      (block r o entry exit b) := by
  cases b with
  | nil =>
    unfold block
    rw [Stmt.chartFrom_nil, Stmt.warnings_nil]
    exact redirect_silent entry exit
  | cons x xs =>
    -- a block is its statements from the first on, which is reached
    have hfollows : Follows o .reached .reached := fun _ => rfl
    have hstmts := stmts_notes hb exit entry hfollows
    unfold stmts at hstmts
    unfold block
    exact hstmts

/-- Blocks note what their charts do, one behind another. -/
theorem blocks_notes {bs : List (List Stmt)} {ls : List BodyLabels} (hlength : bs.length = ls.length)
    (hb : ∀ b ∈ bs, ∀ x ∈ b, StmtNotes r o x) :
    Notes (Stmt.allNames (bs.flatMap (Stmt.chartFrom .reached)))
      (Stmt.warnings o (bs.flatMap (Stmt.chartFrom .reached))) (blocks r o bs ls) := by
  induction bs generalizing ls with
  | nil =>
    rw [List.flatMap_nil, Stmt.warnings_nil]
    exact .pure ()
  | cons b bs ih =>
    cases ls with
    | nil => cases hlength
    | cons l ls =>
      rw [List.forall_mem_cons] at hb
      rw [List.flatMap_cons, Stmt.allNames_append, Stmt.warnings_append]
      exact (block_notes hb.1 l.entry l.exit).bind fun _ => ih (Nat.succ.inj hlength) hb.2

/-! ## Statements -/

/-- Labels are taken without a note. -/
theorem freshLabels_silent (n : Nat) : Silent (freshLabels n) := by
  induction n with
  | zero => exact .pure []
  | succ n ih => exact freshLabel_silent.after fun _ => ih.after fun _ => .pure _

/-- The conditions of a statement note nothing. -/
theorem conditions_silent (r : Registry) (bs : List (Expr × List Stmt)) (ls : List Label) :
    Silent (conditions r bs ls) := by
  induction bs generalizing ls with
  | nil => exact .pure ()
  | cons b bs ih =>
    cases ls with
    | nil => exact .pure ()
    | cons l ls =>
      refine (checkKind_silent r b.1 _).after fun _ => (expr_silent r b.1).after fun _ => ?_
      exact (emitTarget_silent l).after fun _ => ih ls

/-- A conditional notes what its blocks do. -/
theorem conditional_notes {branches : List (Expr × List Stmt)} {otherwise : Option (List Stmt)} {span : Span}
    (hx : ∀ p ∈ (Stmt.conditional branches otherwise span).blocks, ∀ x ∈ p.2, StmtNotes r o x) :
    StmtNotes r o (.conditional branches otherwise span) := by
  intro next
  have hinside : (Stmt.conditional branches otherwise span).inside
      = (branches.map Prod.snd).flatMap (Stmt.chartFrom .reached)
        ++ Stmt.chartFrom .reached (otherwise.getD []) := by
    simp [Stmt.inside, Stmt.blocks, List.flatMap_map]
  have hbranches : ∀ b ∈ branches.map Prod.snd, ∀ x ∈ b, StmtNotes r o x := by
    intro b hb
    obtain ⟨c, hc, rfl⟩ := List.mem_map.mp hb
    exact hx (none, c.2) (List.mem_append_left _ (List.mem_map_of_mem hc))
  have hlast := hx (none, otherwise.getD []) (List.mem_append_right _ (List.mem_singleton_self _))
  unfold stmt
  rw [hinside, Stmt.allNames_append, Stmt.warnings_append]
  show Notes ([] ++ _) ([] ++ _) _
  refine (freshLabels_silent branches.length).bind fun d => ?_
  refine freshLabel_silent.after fun last => (emit_silent _).after fun _ => ?_
  refine (emitTarget_silent last).after fun _ => (emitCount_silent _).after fun _ => ?_
  refine (conditions_silent r branches _).after fun _ => ?_
  rw [branchBodies_eq, otherwiseBody_eq]
  refine (blocks_notes ?_ hbranches).bind fun _ => block_notes hlast last next
  rw [List.length_map, List.length_map, length_freshLabels]

/-- A choice notes the targets of its options and then what the bodies of them do. -/
theorem choice_notes {is : List ChoiceItem} {span : Span}
    (hx : ∀ p ∈ (Stmt.choice is span).blocks, ∀ x ∈ p.2, StmtNotes r o x) :
    StmtNotes r o (.choice is span) := by
  intro next
  have hbodies : ∀ b ∈ (ChoiceItem.allBodies is).map Prod.snd, ∀ x ∈ b, StmtNotes r o x := by
    intro b hb
    obtain ⟨p, hp, rfl⟩ := List.mem_map.mp hb
    exact hx p hp
  have hinside : (Stmt.choice is span).inside
      = ((ChoiceItem.allBodies is).map Prod.snd).flatMap (Stmt.chartFrom .reached) := by
    rw [List.flatMap_map]
    rfl
  unfold stmt
  rw [hinside]
  refine (report_silent (choiceErrors_flowless is span)).after fun _ => (emit_silent _).after fun _ => ?_
  refine (emitTarget_silent next).after fun _ => reserve_silent.after fun count => ?_
  refine (items_notes r next is).bind fun d => (fill_silent count _).after fun _ => ?_
  rw [optionBodies_eq, consume]
  refine Notes.before (.before (blocks_notes ?_ hbodies) fun _ => .pure _) fun _ => .pure _
  rw [List.length_map, length_items]

/-- A statement without blocks. -/
theorem StmtNotes.leaf {x : Stmt} (hx : x.blocks = []) (h : ∀ next, Notes x.names [] (stmt r o next x)) :
    StmtNotes r o x := by
  intro next
  rw [Stmt.inside, hx, List.flatMap_nil, Stmt.warnings_nil, Stmt.allNames_nil, List.append_nil]
  exact h next

/-- The lowering of a statement notes the names in it and in the statements inside it, and reports those
of them that are cut off. -/
theorem stmt_notes (r : Registry) (o : CompileOptions) (x : Stmt) : StmtNotes r o x := by
  induction x using Stmt.induction with
  | step x ih =>
    cases x with
    | conditional branches otherwise span => exact conditional_notes ih
    | choice items span => exact choice_notes ih
    | line l =>
      refine .leaf rfl fun next => ?_
      unfold stmt
      exact line_notes r l next
    | goto x =>
      refine .leaf rfl fun next => ?_
      unfold stmt
      exact (sectionLabel_notes x).before fun l => (emit_silent _).after fun _ =>
        (emitTarget_silent l).after fun _ => (emit_silent _).after fun _ => emitTarget_silent l
    | instruction e =>
      refine .leaf rfl fun next => ?_
      unfold stmt
      exact (report_silent (Typing.infer_flowless r e)).after fun _ => (emit_silent _).after fun _ =>
        (emitTarget_silent next).after fun _ => expr_silent r e
    | finish span =>
      refine .leaf rfl fun next => ?_
      unfold stmt
      exact emit_silent _
    | hash h =>
      refine .leaf rfl fun next => ?_
      unfold stmt
      exact (emit_silent _).after fun _ => (emitTarget_silent next).after fun _ => hash_silent r h
    | speaker x h span =>
      refine .leaf rfl fun next => ?_
      unfold stmt
      exact (speaker_silent _).after fun i => (emit_silent _).after fun _ =>
        (emitTarget_silent next).after fun _ => (emit_silent i).after fun _ => hash_silent r h

/-! ## Sections -/

/-- What stands behind the last statement of a section notes nothing. -/
theorem sectionEnd_silent (exit : Label) : Silent (sectionEnd exit) := by
  intro d
  have hcases : sectionEnd exit d = (if d.assembly.isAwaited exit then do
      bindLabel exit
      emit Code.StatementCode.finish.word
    else Pure.pure ()) d := rfl
  rw [hcases]
  split
  · exact ((bindLabel_silent exit).after fun _ => emit_silent _) d
  · exact Notes.pure () d

/-- A section notes what the chart of its body does. -/
theorem sectionBody_notes (r : Registry) (o : CompileOptions) (s : Section) (l : Label) :
    Notes (Stmt.allNames (Stmt.chartFrom .reached s.body))
      (Stmt.warnings o (Stmt.chartFrom .reached s.body)) (sectionBody r o s l) := by
  refine freshLabel_silent.after fun body => freshLabel_silent.after fun exit => ?_
  refine (string_silent _).after fun name => (bindLabel_silent l).after fun _ => ?_
  refine (emit_silent _).after fun _ => ?_
  refine (emitTarget_silent body).after fun _ => (emit_silent name).after fun _ => ?_
  exact (block_notes (fun x _ => stmt_notes r o x) body exit).before fun _ => sectionEnd_silent exit

/-- The lowering of sections notes all names in them, and reports the statements that are cut off. -/
theorem sectionBodies_notes (r : Registry) (o : CompileOptions) {story : Story} {ls : List Label}
    (hlength : story.length = ls.length) :
    Notes story.references (Stmt.warnings o story.chart) (sectionBodies r o story ls) := by
  induction story generalizing ls with
  | nil =>
    rw [Story.references, Story.chart, List.flatMap_nil, Stmt.warnings_nil]
    exact .pure ()
  | cons s ss ih =>
    cases ls with
    | nil => cases hlength
    | cons l ls =>
      have hrest := ih (Nat.succ.inj hlength)
      rw [Story.references, Story.chart, List.flatMap_cons, Stmt.allNames_append, Stmt.warnings_append]
      exact (sectionBody_notes r o s l).bind fun _ => hrest

end Lower

end Colloquy
