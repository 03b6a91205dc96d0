import Colloquy.Compiler.Typing

/-!
# The rules of typing

`HasKind r e k` are the rules by which an expression is of a kind, stated without saying how they are checked.
`Typing.infer` decides them (`Typing.infer_decides`): it reports nothing exactly if an expression has a kind,
and then that kind is the one it infers.

Nothing is reported against an operand of the undefined kind.  That hides no mistake, because an expression
of which nothing was reported is of a defined kind (`Typing.kind_ne_undefined`), as long as the registry
declares none that is not.
-/

namespace Colloquy

/-- No variable and no result of a function is declared to be of the undefined kind. -/
structure Registry.Defined (r : Registry) : Prop where
  variableKinds : ∀ v ∈ r.variableDecls.values, v.kind ≠ .undefined
  results : ∀ f ∈ r.functions.values, f.returns ≠ .undefined

instance (r : Registry) : Decidable r.Defined :=
  decidable_of_iff ((∀ v ∈ r.variableDecls.values, v.kind ≠ .undefined) ∧
      ∀ f ∈ r.functions.values, f.returns ≠ .undefined)
    ⟨fun ⟨hv, hf⟩ => ⟨hv, hf⟩, fun h => ⟨h.variableKinds, h.results⟩⟩

/-- What is found under a key is one of the entries. -/
theorem Catalog.mem_values_of_find? {α : Type} {c : Catalog α} {key : String} {a : α}
    (h : c.find? key = some a) : a ∈ c.values := by
  obtain ⟨es⟩ := c
  replace h : es.lookup key = some a := h
  show a ∈ es.map Prod.snd
  induction es with
  | nil => cases h
  | cons e es ih =>
    rw [List.lookup_cons] at h
    split at h
    · obtain rfl := Option.some.inj h
      exact List.mem_cons_self ..
    · exact List.mem_cons_of_mem _ (ih h)

/-! ## The rules -/

section

variable (r : Registry)

mutual

/-- An expression is of a kind. -/
inductive HasKind : Expr → Kind → Prop where
  | float (x : Float) (span : Span) : HasKind (.literal (.float x) span) .float
  | string (s : String) (span : Span) : HasKind (.literal (.string s) span) .string
  | bool (b : Bool) (span : Span) : HasKind (.literal (.bool b) span) .bool
  | variable {x : Ident} {v : VariableDecl} : r.findVariable? x.name = some v →
      HasKind (.variable x) v.kind
  | group {e : Expr} {k : Kind} : HasKind e k → HasKind (.group e) k
  | not {op : Spanned UnaryOp} {e : Expr} : op.val = .not → HasKind e .bool →
      HasKind (.unary op e) .bool
  | negate {op : Spanned UnaryOp} {e : Expr} : op.val = .negate → HasKind e .float →
      HasKind (.unary op e) .float
  | arithmetic {op : Spanned BinaryOp} {left right : Expr} : op.val ∈ [.add, .sub, .mul, .div, .mod] →
      HasKind left .float → HasKind right .float → HasKind (.binary op left right) .float
  | comparison {op : Spanned BinaryOp} {left right : Expr} :
      op.val ∈ [.less, .lessEqual, .greater, .greaterEqual] →
      HasKind left .float → HasKind right .float → HasKind (.binary op left right) .bool
  | connective {op : Spanned BinaryOp} {left right : Expr} : op.val ∈ [.and, .or] →
      HasKind left .bool → HasKind right .bool → HasKind (.binary op left right) .bool
  | equality {op : Spanned BinaryOp} {left right : Expr} {k : Kind} : op.val ∈ [.equal, .notEqual] →
      HasKind left k → HasKind right k → HasKind (.binary op left right) .bool
  | set {x : Ident} {v : VariableDecl} {op : Spanned AssignOp} {value : Expr} : op.val = .set →
      r.findVariable? x.name = some v → HasKind value v.kind → HasKind (.assign x op value) .void
  | update {x : Ident} {v : VariableDecl} {op : Spanned AssignOp} {value : Expr} : op.val ≠ .set →
      r.findVariable? x.name = some v → v.kind = .float → HasKind value .float →
      HasKind (.assign x op value) .void
  | call {callee : Ident} {f : FunctionDecl} {args : List Expr} {awaited : Option Span} {close : Span} :
      r.findFunction? callee.name = some f → f.requiredArity ≤ args.length →
      args.length ≤ f.maxArity → awaited.isSome = f.awaitable → HaveKinds f.params args →
      (∀ p ∈ f.params.drop args.length, ∀ v, p.fallback = some v → v.kind = p.kind) →
      HasKind (.call callee args awaited close) f.returns

/-- Arguments are of the kinds of the parameters they stand for. -/
inductive HaveKinds : List Parameter → List Expr → Prop where
  | nil (ps : List Parameter) : HaveKinds ps []
  | cons {p : Parameter} {ps : List Parameter} {e : Expr} {es : List Expr} :
      HasKind e p.kind → HaveKinds ps es → HaveKinds (p :: ps) (e :: es)

end

end

namespace Typing

variable {r : Registry}

/-! ## Single checks -/

/-- A defined kind passes as another one only if it is that kind. -/
theorem mismatch_eq_nil {expected actual : Kind} (h : actual ≠ .undefined) (span : Span) :
    mismatch expected actual span = [] ↔ actual = expected := by
  rw [mismatch]
  by_cases heq : actual = expected
  · simp [heq]
  · simp [heq, h, Kind.isDefined]

/-- Nothing is reported of a variable just if the registry has it. -/
theorem ofVariable_eq_nil {x : Ident} : (ofVariable r x).errors = [] ↔
    ∃ v, r.findVariable? x.name = some v ∧ (ofVariable r x).kind = v.kind := by
  rw [ofVariable]
  cases r.findVariable? x.name with
  | some v => simp
  | none => simp

/-- A variable of which nothing was reported is of a defined kind. -/
theorem ofVariable_ne_undefined (hr : r.Defined) {x : Ident} (h : (ofVariable r x).errors = []) :
    (ofVariable r x).kind ≠ .undefined := by
  obtain ⟨v, hv, hkind⟩ := ofVariable_eq_nil.mp h
  rw [hkind]
  exact hr.variableKinds v (Catalog.mem_values_of_find? hv)

/-- Nothing is wrong with the defaults that a call takes if they are of the kinds of their parameters. -/
theorem defaults_eq_nil {name : String} {span : Span} {given : Nat} {ps : List Parameter} :
    defaults name span given ps = [] ↔
      ∀ p ∈ ps.drop given, ∀ v, p.fallback = some v → v.kind = p.kind := by
  have hdrop : ∀ p, p ∈ ps.drop given ↔ ∃ i, given ≤ i ∧ ps[i]? = some p := by
    intro p
    rw [List.mem_iff_getElem?]
    constructor
    · rintro ⟨i, hi⟩
      rw [List.getElem?_drop] at hi
      exact ⟨given + i, Nat.le_add_right _ _, hi⟩
    · rintro ⟨i, hle, hi⟩
      refine ⟨i - given, ?_⟩
      rw [List.getElem?_drop, Nat.add_sub_cancel' hle, hi]
  rw [defaults, List.flatMap_eq_nil_iff]
  constructor
  · intro h p hp v hv
    obtain ⟨i, hle, hi⟩ := (hdrop p).mp hp
    obtain ⟨hlt, rfl⟩ := List.getElem?_eq_some_iff.mp hi
    have hnil := h (i, ps[i]) (List.mem_mapIdx.mpr ⟨i, hlt, rfl⟩)
    simpa [hv, hle] using hnil
  · rintro h ⟨i, p⟩ hmem
    obtain ⟨_, hlt, heq⟩ := List.mem_mapIdx.mp hmem
    cases heq
    cases hv : ps[i].fallback with
    | none => simp [hv]
    | some v =>
      by_cases hle : given ≤ i
      · have hp := (hdrop ps[i]).mpr ⟨i, hle, List.getElem?_eq_getElem hlt⟩
        simp [hv, h _ hp v hv]
      · simp [hv, hle]

/-- Nothing is wrong with a call as such if it has a number of arguments that its function takes, is awaited
if it has to be, and takes defaults of the right kinds. -/
theorem callErrors_eq_nil {f : FunctionDecl} {given : Nat} {awaited : Bool} {span : Span} :
    callErrors f given awaited span = [] ↔ f.requiredArity ≤ given ∧ given ≤ f.maxArity ∧
      awaited = f.awaitable ∧
        ∀ p ∈ f.params.drop given, ∀ v, p.fallback = some v → v.kind = p.kind := by
  have harity : (if arityFits f given then []
      else [CompileError.arityMismatch f.name f.requiredArity f.maxArity given span]) = [] ↔
        f.requiredArity ≤ given ∧ given ≤ f.maxArity := by
    simp [arityFits]
  have hawait : (if awaited = f.awaitable then []
      else [CompileError.awaitMismatch f.name f.awaitable span]) = [] ↔ awaited = f.awaitable := by
    simp
  rw [callErrors, List.append_eq_nil_iff, List.append_eq_nil_iff, harity, hawait, defaults_eq_nil,
    and_assoc, and_assoc]

/-- A call of which nothing was reported is of the kind that its function returns. -/
theorem callKind_eq {f : FunctionDecl} {given : Nat} {awaited : Bool} {span : Span}
    (h : callErrors f given awaited span = []) : callKind f given awaited = f.returns := by
  obtain ⟨hrequired, hle, hawaited, -⟩ := callErrors_eq_nil.mp h
  rw [callKind, if_pos]
  simp [arityFits, hrequired, hle, hawaited]

/-! ## Defined kinds -/

/-- An expression of which nothing was reported is of a defined kind. -/
theorem kind_ne_undefined (hr : r.Defined) (e : Expr) (h : (infer r e).errors = []) :
    (infer r e).kind ≠ .undefined := by
  match e with
  | .literal v _ =>
    rw [infer]
    cases v <;> simp [Literal.kind]
  | .variable x =>
    rw [infer] at h ⊢
    exact ofVariable_ne_undefined hr h
  | .group e =>
    rw [infer] at h ⊢
    exact kind_ne_undefined hr e h
  | .unary op e =>
    rw [infer]
    cases op.val <;> simp [UnaryOp.kind]
  | .binary op left right =>
    rw [infer]
    split
    · cases op.val <;> simp [BinaryOp.resultKind]
    · cases op.val <;> simp [BinaryOp.resultKind]
  | .assign x op value =>
    rw [infer]
    split
    · simp
    · simp
  | .call callee args awaited close =>
    rw [infer] at h ⊢
    cases hf : r.findFunction? callee.name with
    | none => simp [hf] at h
    | some f =>
      simp only [hf, List.append_eq_nil_iff] at h ⊢
      rw [callKind_eq h.1]
      exact hr.results f (Catalog.mem_values_of_find? hf)

/-! ## Verdicts against the rules -/

/-- The verdict on an expression agrees with the rules. -/
def Agrees (r : Registry) (e : Expr) : Prop :=
  ∀ k, HasKind r e k ↔ (infer r e).errors = [] ∧ (infer r e).kind = k

/-- An expression passes as one of a kind exactly if it is of that kind. -/
theorem Agrees.exprOf_eq_nil (hr : r.Defined) {e : Expr} (h : Agrees r e) (k : Kind) :
    (infer r e).errors ++ mismatch k (infer r e).kind e.span = [] ↔ HasKind r e k := by
  rw [h k, List.append_eq_nil_iff]
  exact and_congr_right fun herrors => mismatch_eq_nil (kind_ne_undefined hr e herrors) _

/-- The check of a literal agrees with the rules. -/
theorem agrees_literal (v : Literal) (span : Span) : Agrees r (.literal v span) := by
  intro k
  rw [infer]
  constructor
  · intro h
    cases h <;> exact ⟨rfl, rfl⟩
  · rintro ⟨-, rfl⟩
    cases v with
    | float x => exact .float x span
    | string s => exact .string s span
    | bool b => exact .bool b span

/-- So does that of a variable. -/
theorem agrees_variable (x : Ident) : Agrees r (.variable x) := by
  intro k
  rw [infer, ofVariable_eq_nil]
  constructor
  · intro h
    cases h with
    | @«variable» _ v hv => rw [ofVariable, hv]; exact ⟨⟨v, rfl, rfl⟩, rfl⟩
  · rintro ⟨⟨v, hv, hkind⟩, rfl⟩
    rw [hkind]
    exact .variable hv

/-- So does that of an expression in parentheses. -/
theorem Agrees.group {e : Expr} (h : Agrees r e) : Agrees r (.group e) := by
  intro k
  rw [infer, ← h k]
  constructor
  · intro hk
    cases hk with
    | group hk => exact hk
  · exact .group

/-- So does that of an operator with its operand. -/
theorem Agrees.unary (hr : r.Defined) {e : Expr} (h : Agrees r e) (op : Spanned UnaryOp) :
    Agrees r (.unary op e) := by
  intro k
  rw [infer, h.exprOf_eq_nil hr]
  constructor
  · intro hk
    cases hk with
    | not hop he => rw [hop]; exact ⟨he, rfl⟩
    | negate hop he => rw [hop]; exact ⟨he, rfl⟩
  · rintro ⟨he, rfl⟩
    cases hop : op.val with
    | not => rw [hop] at he; exact .not hop he
    | negate => rw [hop] at he; exact .negate hop he

/-- The rules of binary operators by the kind that their operands have to be of. -/
theorem hasKind_binary {op : Spanned BinaryOp} {left right : Expr} {k : Kind} :
    HasKind r (.binary op left right) k ↔ k = op.val.resultKind ∧
      ∃ k', (∀ k'', op.val.operandKind? = some k'' → k' = k'') ∧ HasKind r left k' ∧
        HasKind r right k' := by
  constructor
  · intro h
    cases h with
    | arithmetic hop hleft hright =>
      have hkinds : op.val.resultKind = .float ∧ op.val.operandKind? = some .float := by
        revert hop
        cases op.val <;> simp [BinaryOp.resultKind, BinaryOp.operandKind?]
      exact ⟨hkinds.1.symm, .float, fun _ h => Option.some.inj (hkinds.2.symm.trans h), hleft, hright⟩
    | comparison hop hleft hright =>
      have hkinds : op.val.resultKind = .bool ∧ op.val.operandKind? = some .float := by
        revert hop
        cases op.val <;> simp [BinaryOp.resultKind, BinaryOp.operandKind?]
      exact ⟨hkinds.1.symm, .float, fun _ h => Option.some.inj (hkinds.2.symm.trans h), hleft, hright⟩
    | connective hop hleft hright =>
      have hkinds : op.val.resultKind = .bool ∧ op.val.operandKind? = some .bool := by
        revert hop
        cases op.val <;> simp [BinaryOp.resultKind, BinaryOp.operandKind?]
      exact ⟨hkinds.1.symm, .bool, fun _ h => Option.some.inj (hkinds.2.symm.trans h), hleft, hright⟩
    | @equality _ _ _ k' hop hleft hright =>
      have hkinds : op.val.resultKind = .bool ∧ op.val.operandKind? = none := by
        revert hop
        cases op.val <;> simp [BinaryOp.resultKind, BinaryOp.operandKind?]
      exact ⟨hkinds.1.symm, k', fun _ h => absurd (hkinds.2.symm.trans h) (by simp), hleft, hright⟩
  · rintro ⟨rfl, k', hk, hleft, hright⟩
    cases hop : op.val with
    | add | sub | mul | div | mod =>
      obtain rfl := hk .float (by rw [hop]; rfl)
      exact .arithmetic (by simp [hop]) hleft hright
    | less | lessEqual | greater | greaterEqual =>
      obtain rfl := hk .float (by rw [hop]; rfl)
      exact .comparison (by simp [hop]) hleft hright
    | and | or =>
      obtain rfl := hk .bool (by rw [hop]; rfl)
      exact .connective (by simp [hop]) hleft hright
    | equal | notEqual => exact .equality (by simp [hop]) hleft hright

/-- Operands pass exactly if they are of the kinds that the operator takes. -/
theorem Agrees.binary (hr : r.Defined) {left right : Expr} (hleft : Agrees r left)
    (hright : Agrees r right) (op : Spanned BinaryOp) : Agrees r (.binary op left right) := by
  intro k
  rw [hasKind_binary, infer]
  cases hop : op.val.operandKind? with
  | some k' =>
    show _ ↔ _ ++ _ ++ _ = [] ∧ _
    rw [List.append_eq_nil_iff, hleft.exprOf_eq_nil hr, hright.exprOf_eq_nil hr, and_comm,
      @eq_comm _ k]
    apply and_congr_left'
    constructor
    · rintro ⟨k'', hk, hkinds⟩
      rwa [hk k' rfl] at hkinds
    · intro hkinds
      exact ⟨k', fun _ h => Option.some.inj h, hkinds⟩
  | none =>
    -- The left operand decides the kind that the right one has to be of.
    show _ ↔ _ ++ _ ++ _ = [] ∧ _
    rw [List.append_eq_nil_iff, List.append_eq_nil_iff, and_comm, @eq_comm _ k]
    apply and_congr_left'
    constructor
    · rintro ⟨k', -, hl, hr'⟩
      obtain ⟨hle, rfl⟩ := (hleft k').mp hl
      obtain ⟨hre, hkind⟩ := (hright _).mp hr'
      refine ⟨⟨hle, hre⟩, ?_⟩
      simp [hkind, mismatch]
    · rintro ⟨⟨hle, hre⟩, hmismatch⟩
      have hdefined := kind_ne_undefined hr left hle
      rw [if_pos (by simpa [Kind.isDefined] using hdefined),
        mismatch_eq_nil (kind_ne_undefined hr right hre)] at hmismatch
      exact ⟨_, by simp, (hleft _).mpr ⟨hle, rfl⟩, (hright _).mpr ⟨hre, hmismatch⟩⟩

/-- So does that of an assignment: its variable has the kind of the value, a float if it computes. -/
theorem Agrees.assign (hr : r.Defined) {value : Expr} (h : Agrees r value) (x : Ident)
    (op : Spanned AssignOp) : Agrees r (.assign x op value) := by
  intro k
  rw [infer]
  split
  case h_1 hop =>
    show _ ↔ _ ++ _ ++ _ = [] ∧ _
    rw [List.append_eq_nil_iff, List.append_eq_nil_iff]
    constructor
    · intro hk
      cases hk with
      | @set _ v _ _ _ hv hvalue =>
        obtain ⟨hve, hkind⟩ := (h v.kind).mp hvalue
        simp [ofVariable, hv, hve, hkind, mismatch]
      | update hne => exact absurd hop hne
    · rintro ⟨⟨⟨htarget, hve⟩, hmismatch⟩, rfl⟩
      have hdefined := ofVariable_ne_undefined hr htarget
      rw [if_pos (by simpa [Kind.isDefined] using hdefined),
        mismatch_eq_nil (kind_ne_undefined hr value hve)] at hmismatch
      obtain ⟨v, hv, hkind⟩ := ofVariable_eq_nil.mp htarget
      exact .set hop hv ((h v.kind).mpr ⟨hve, hmismatch.trans hkind⟩)
  case h_2 hop =>
    show _ ↔ _ ++ _ ++ _ = [] ∧ _
    rw [List.append_eq_nil_iff, List.append_eq_nil_iff, h.exprOf_eq_nil hr]
    constructor
    · intro hk
      cases hk with
      | set hset => exact absurd hset hop
      | update _ hv hfloat hvalue => simp [ofVariable, hv, hfloat, mismatch, hvalue]
    · rintro ⟨⟨⟨htarget, hmismatch⟩, hvalue⟩, rfl⟩
      rw [mismatch_eq_nil (ofVariable_ne_undefined hr htarget)] at hmismatch
      obtain ⟨v, hv, hkind⟩ := ofVariable_eq_nil.mp htarget
      exact .update hop hv (hkind.symm.trans hmismatch) hvalue

/-- The verdict on a call agrees with the rules if the one on its arguments does. -/
theorem Agrees.call {args : List Expr}
    (h : ∀ ps : List Parameter, args.length ≤ ps.length →
      (inferArgs r ps args = [] ↔ HaveKinds r ps args))
    (callee : Ident) (awaited : Option Span) (close : Span) :
    Agrees r (.call callee args awaited close) := by
  intro k
  rw [infer]
  cases hf : r.findFunction? callee.name with
  | none =>
    refine iff_of_false (fun hk => ?_) (by simp)
    cases hk with
    | call hf' => simp [hf] at hf'
  | some f =>
    show _ ↔ callErrors f _ _ (Expr.call callee args awaited close).span ++ _ = [] ∧
      callKind f args.length awaited.isSome = k
    rw [List.append_eq_nil_iff]
    constructor
    · intro hk
      cases hk with
      | call hf' hrequired hle hawaited hargs hdefaults =>
        obtain rfl := Option.some.inj (hf.symm.trans hf')
        have hcall : callErrors f args.length awaited.isSome
            (Expr.call callee args awaited close).span = [] :=
          callErrors_eq_nil.mpr ⟨hrequired, hle, hawaited, hdefaults⟩
        exact ⟨⟨hcall, (h _ hle).mpr hargs⟩, callKind_eq hcall⟩
    · rintro ⟨⟨hcall, hargs⟩, rfl⟩
      obtain ⟨hrequired, hle, hawaited, hdefaults⟩ := callErrors_eq_nil.mp hcall
      rw [callKind_eq hcall]
      exact .call hf hrequired hle hawaited ((h _ hle).mp hargs) hdefaults

mutual

/-- The verdict on every expression agrees with the rules. -/
theorem agrees (hr : r.Defined) (e : Expr) : Agrees r e := by
  match e with
  | .literal v span => exact agrees_literal v span
  | .variable x => exact agrees_variable x
  | .group e => exact (agrees hr e).group
  | .unary op e => exact (agrees hr e).unary hr op
  | .binary op left right => exact (agrees hr left).binary hr (agrees hr right) op
  | .assign x op value => exact (agrees hr value).assign hr x op
  | .call callee args awaited close =>
    exact .call (inferArgs_eq_nil hr args) callee awaited close

/-- Nothing is reported of arguments just if each suits its parameter. -/
theorem inferArgs_eq_nil (hr : r.Defined) (args : List Expr) (ps : List Parameter)
    (hle : args.length ≤ ps.length) : inferArgs r ps args = [] ↔ HaveKinds r ps args := by
  match args, ps with
  | [], ps =>
    rw [inferArgs]
    exact iff_of_true rfl (.nil ps)
  | e :: es, p :: ps =>
    rw [inferArgs, List.append_eq_nil_iff, (agrees hr e).exprOf_eq_nil hr,
      inferArgs_eq_nil hr es ps (Nat.le_of_succ_le_succ hle)]
    constructor
    · rintro ⟨he, hes⟩
      exact .cons he hes
    · intro h
      cases h with
      | cons he hes => exact ⟨he, hes⟩

end

/-! ## What is reported -/

/-- No reported mismatch is one of the undefined kind. -/
def NamesKinds (errors : List CompileError) : Prop :=
  ∀ m span, .kindMismatch m span ∈ errors → m.actual ≠ .undefined

@[simp] theorem namesKinds_nil : NamesKinds [] := nofun

/-- Two lists of errors name kinds just if both do. -/
@[simp] theorem namesKinds_append {xs ys : List CompileError} :
    NamesKinds (xs ++ ys) ↔ NamesKinds xs ∧ NamesKinds ys := by
  simp only [NamesKinds, List.mem_append]
  constructor
  · intro h
    exact ⟨fun m span hm => h m span (.inl hm), fun m span hm => h m span (.inr hm)⟩
  · rintro ⟨hxs, hys⟩ m span (hm | hm)
    · exact hxs m span hm
    · exact hys m span hm

/-- An operand of the undefined kind is no mismatch. -/
@[simp] theorem namesKinds_mismatch (expected actual : Kind) (span : Span) :
    NamesKinds (mismatch expected actual span) := by
  rw [mismatch]
  split
  case isTrue h =>
    intro m s hm
    cases List.mem_singleton.mp hm
    intro hactual
    simp [show actual = .undefined from hactual, Kind.isDefined] at h
  case isFalse => exact namesKinds_nil

@[simp] theorem namesKinds_ofVariable (x : Ident) : NamesKinds (ofVariable r x).errors := by
  intro m span hm
  rw [ofVariable] at hm
  split at hm <;> simp at hm

/-- What is wrong with a call as a whole is no mismatch. -/
@[simp] theorem namesKinds_callErrors (f : FunctionDecl) (given : Nat) (awaited : Bool) (span : Span) :
    NamesKinds (callErrors f given awaited span) := by
  intro m s hm
  simp only [callErrors, defaults, List.mem_append, List.mem_flatMap] at hm
  rcases hm with (hm | hm) | ⟨⟨i, p⟩, -, hm⟩
  · split at hm <;> simp at hm
  · split at hm <;> simp at hm
  · simp only at hm
    split at hm
    · split at hm <;> simp at hm
    · simp at hm

mutual

/-- No mismatch that a check reports is one of the undefined kind. -/
theorem namesKinds_infer (e : Expr) : NamesKinds (infer r e).errors := by
  match e with
  | .literal v _ => simp [infer]
  | .variable x => simp [infer]
  | .group e => simpa [infer] using namesKinds_infer e
  | .unary op e => simpa [infer] using namesKinds_infer e
  | .binary op left right =>
    have hleft := namesKinds_infer left
    have hright := namesKinds_infer right
    rw [infer]
    split
    · simp [hleft, hright]
    · simp only [namesKinds_append]
      refine ⟨⟨hleft, hright⟩, ?_⟩
      split <;> simp
  | .assign x op value =>
    have hvalue := namesKinds_infer value
    rw [infer]
    split
    · simp only [namesKinds_append]
      refine ⟨⟨namesKinds_ofVariable x, hvalue⟩, ?_⟩
      split <;> simp
    · simp [hvalue]
  | .call callee args awaited close =>
    rw [infer]
    split
    · intro m span hm
      cases hm with
      | tail _ hm => exact namesKinds_inferArgs [] args m span hm
    · simp [namesKinds_inferArgs _ args]

/-- Nor is one that is reported of arguments. -/
theorem namesKinds_inferArgs (ps : List Parameter) (args : List Expr) :
    NamesKinds (inferArgs r ps args) := by
  match args, ps with
  | [], _ => simp [inferArgs]
  | e :: es, [] => simp [inferArgs, namesKinds_infer e, namesKinds_inferArgs [] es]
  | e :: es, p :: ps => simp [inferArgs, namesKinds_infer e, namesKinds_inferArgs ps es]

end

/-! ## The verdict decides the rules -/

/-- Nothing is reported against an expression exactly if the rules give it a kind.  That kind is the one
that is inferred, and it is defined, so the undefined kind is inferred only where something was reported,
and no mismatch that is reported is one of the undefined kind. -/
theorem infer_decides (r : Registry) (hr : r.Defined) (e : Expr) :
    ((infer r e).errors = [] ↔ ∃ k, HasKind r e k) ∧
      (∀ k, HasKind r e k → (infer r e).kind = k ∧ k ≠ .undefined) ∧
      ((infer r e).kind = .undefined → (infer r e).errors ≠ []) ∧
      ∀ m span, .kindMismatch m span ∈ (infer r e).errors → m.actual ≠ .undefined := by
  have hagrees := agrees hr e
  refine ⟨⟨fun h => ⟨_, (hagrees _).mpr ⟨h, rfl⟩⟩, ?_⟩, ?_, ?_, namesKinds_infer e⟩
  · rintro ⟨k, hk⟩
    exact ((hagrees k).mp hk).1
  · intro k hk
    obtain ⟨herrors, rfl⟩ := (hagrees k).mp hk
    exact ⟨rfl, kind_ne_undefined hr e herrors⟩
  · intro hkind herrors
    exact kind_ne_undefined hr e herrors hkind

/-- A stall knows the price of a good for a number of pieces, one if none is given. -/
def stall : Registry :=
  Registry.empty.addFunction ⟨"price", .float, [⟨.string, none⟩, ⟨.float, some (.float 1)⟩], true⟩

/-- A buyer at the stall has some gold. -/
def bazaar : Registry := stall.addVariable ⟨"gold", .float⟩

/-- The gold that a cloak costs is taken away: `gold -= await price("cloak")`. -/
def purchase : Expr :=
  .assign ⟨"gold", ⟨0, 4⟩⟩ ⟨.sub, ⟨5, 2⟩⟩
    (.call ⟨"price", ⟨14, 5⟩⟩ [.literal (.string "cloak") ⟨20, 7⟩] (some ⟨8, 5⟩) ⟨27, 1⟩)

/-- The purchase is well typed, but not where there is no gold. -/
theorem infer_decides_purchase : bazaar.Defined ∧ HasKind bazaar purchase .void ∧
    stall.Defined ∧ ¬ ∃ k, HasKind stall purchase k := by
  have hbazaar : bazaar.Defined := by decide +kernel
  have hstall : stall.Defined := by decide +kernel
  obtain ⟨hknown, hkind, -⟩ := infer_decides bazaar hbazaar purchase
  obtain ⟨k, hk⟩ := hknown.mp (by decide +kernel)
  obtain rfl : Kind.void = k := (hkind k hk).1
  refine ⟨hbazaar, hk, hstall, fun h => ?_⟩
  exact absurd ((infer_decides stall hstall purchase).1.mpr h) (by decide +kernel)

end Typing

end Colloquy
