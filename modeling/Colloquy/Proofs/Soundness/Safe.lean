import Colloquy.Proofs.Session.Pairing
import Colloquy.Proofs.Soundness.Host

/-!
# Safe evaluations

`Safe S r I F Q m` says that an evaluation `m` of the script `S` goes well against a host that serves
the registry `r`: it ends with a result that satisfies `Q`, waits for a call, or stops with one of the
faults `F`.  However it ends, the host goes on serving and the results in the memo are of the kinds
that their functions declare, so the statement can be evaluated again.

There is one rule for each way evaluations are put together.  The rules for operators, calls and
assignments ask for operands of the kinds that typing finds.
-/

namespace Colloquy

open Code

/-! ## Results of calls -/

/-- The function that the node at an offset calls, if it is a call. -/
def Script.callee? (S : Script) (o : Nat) : Option String :=
  match S.decodeExpr o with
  | .ok (.call i _ _, _) => S.strings[i]?
  | _ => none

/-- The results of calls are of the kinds that their functions declare. -/
def Memo.Fits (S : Script) (r : Registry) (memo : Memo) : Prop :=
  ∀ o v name f, memo.find? o = some v → S.callee? o = some name → r.findFunction? name = some f →
    v.kind = f.returns

namespace Memo.Fits

variable {S : Script} {r : Registry} {memo : Memo}

theorem empty : Memo.empty.Fits S r := by
  intro o v name f hfind
  cases hfind

/-- A result of the kind that its function declares may be put into a memo. -/
theorem insert (hmemo : memo.Fits S r) {o : Nat} {v : Value}
    (hv : ∀ name f, S.callee? o = some name → r.findFunction? name = some f → v.kind = f.returns) :
    (memo.insert o v).Fits S r := by
  intro o' v' name f hfind
  rw [Memo.find?_insert] at hfind
  by_cases heq : o' = o
  · rw [if_pos heq] at hfind
    cases hfind
    rw [heq]
    exact hv name f
  · rw [if_neg heq] at hfind
    exact hmemo o' v' name f hfind

end Memo.Fits

section

variable {σ α β : Type} (S : Script) (r : Registry) (I : σ → Prop)

/-- The host serves, and the results that are kept fit. -/
structure Stage.Sound (x : Stage σ) : Prop where
  memory : I x.memory
  memo : x.memo.Fits S r

/-- How a safe evaluation ends. -/
inductive Safe.Ends (F : SessionError → Prop) (Q : α → Prop) :
    EStateM.Result Interrupt (Stage σ) α → Prop where
  | ok {a : α} {x : Stage σ} : Q a → x.Sound S r I → Ends F Q (.ok a x)
  /-- The call that is awaited is one of the function that is named. -/
  | pending {o : Nat} {function : String} {x : Stage σ} : S.callee? o = some function →
      x.Sound S r I → Ends F Q (.error (.pending o function) x)
  | fault {e : SessionError} {ending : Bool} {x : Stage σ} : F e → x.Sound S r I →
      Ends F Q (.error (.fault e ending) x)

/-- An evaluation ends well wherever it starts. -/
def Safe (F : SessionError → Prop) (Q : α → Prop) (m : Eval σ α) : Prop :=
  ∀ x, x.Sound S r I → Safe.Ends S r I F Q (m x)

end

namespace Safe

variable {σ α β : Type} {S : Script} {r : Registry} {I : σ → Prop} {F : SessionError → Prop}
  {Q Q' : α → Prop} {m : Eval σ α}

theorem pure {a : α} (ha : Q a) : Safe S r I F Q (Pure.pure a) := fun _ hx => .ok ha hx

theorem fail {e : SessionError} {ending : Bool} (he : F e) : Safe S r I F Q (Eval.fail e ending) :=
  fun _ hx => .fault he hx

/-- One evaluation after another.  What follows may depend on where the first one started. -/
theorem bind_at {P : β → Prop} {f : α → Eval σ β} {x : Stage σ} (hx : x.Sound S r I)
    (hm : Safe S r I F Q m) (hf : ∀ a y, m x = .ok a y → Q a → Safe S r I F P (f a)) :
    Ends S r I F P ((m >>= f) x) := by
  have hends := hm x hx
  generalize hres : m x = res at hends
  cases hends with
  | ok ha hy =>
    rw [Eval.bind_of_ok hres]
    exact hf _ _ hres ha _ hy
  | pending hcallee hy =>
    rw [Eval.bind_of_error hres]
    exact .pending hcallee hy
  | fault he hy =>
    rw [Eval.bind_of_error hres]
    exact .fault he hy

theorem bind {P : β → Prop} {f : α → Eval σ β} (hm : Safe S r I F Q m)
    (hf : ∀ a, Q a → Safe S r I F P (f a)) : Safe S r I F P (m >>= f) :=
  fun _ hx => bind_at hx hm fun a _ _ ha => hf a ha

theorem map {P : β → Prop} {f : α → β} (hm : Safe S r I F Q m) (hf : ∀ a, Q a → P (f a)) :
    Safe S r I F P (m >>= fun a => Pure.pure (f a)) :=
  hm.bind fun a ha => .pure (hf a ha)

theorem mono (hm : Safe S r I F Q m) (hQ : ∀ a, Q a → Q' a) : Safe S r I F Q' m := by
  have hmap := hm.map hQ
  rwa [bind_pure] at hmap

/-- A safe evaluation of each entry of a list is safe. -/
theorem mapM {f : β → Eval σ α} {bs : List β} (hf : ∀ b ∈ bs, Safe S r I F (fun _ => True) (f b)) :
    Safe S r I F (fun _ => True) (bs.mapM f) := by
  induction bs with
  | nil =>
    rw [List.mapM_nil]
    exact .pure trivial
  | cons b bs ih =>
    rw [List.forall_mem_cons] at hf
    rw [List.mapM_cons]
    exact hf.1.bind fun _ _ => (ih hf.2).map fun _ _ => trivial

/-- A list is put together from its first value and the others. -/
theorem cons_kinds {f : β → Eval σ Value} {b : β} {bs : List β} {k : Kind} {ks : List Kind}
    (hf : Safe S r I F (fun v => v.kind = k) (f b))
    (hfs : Safe S r I F (fun vs => vs.map Value.kind = ks) (bs.mapM f)) :
    Safe S r I F (fun vs => vs.map Value.kind = k :: ks) ((b :: bs).mapM f) := by
  rw [List.mapM_cons]
  refine hf.bind fun v hv => hfs.map fun vs hvs => ?_
  rw [List.map_cons, hv, hvs]

/-- Two lists that come to values of some kinds come to those of both together. -/
theorem append_kinds {f : β → Eval σ Value} {bs cs : List β} {ks ls : List Kind}
    (hbs : Safe S r I F (fun vs => vs.map Value.kind = ks) (bs.mapM f))
    (hcs : Safe S r I F (fun vs => vs.map Value.kind = ls) (cs.mapM f)) :
    Safe S r I F (fun vs => vs.map Value.kind = ks ++ ls) ((bs ++ cs).mapM f) := by
  rw [List.mapM_append]
  refine hbs.bind fun vs hvs => hcs.map fun ws hws => ?_
  rw [List.map_append, hvs, hws]

/-! ## Operators -/

section

variable {eval : Nat → Eval σ Value} {o left right : Nat}

/-- A truth value is taken safely from an operand that is one. -/
theorem boolAt (ho : Safe S r I F (fun v => v.kind = .bool) (eval o)) :
    Safe S r I F (fun _ => True) (Eval.boolAt eval o) := by
  refine ho.bind fun v hv => ?_
  cases v with
  | bool b => exact .pure trivial
  | _ => cases hv

/-- A float is taken safely from an operand that is one. -/
theorem floatAt (ho : Safe S r I F (fun v => v.kind = .float) (eval o)) :
    Safe S r I F (fun _ => True) (Eval.floatAt eval o) := by
  refine ho.bind fun v hv => ?_
  cases v with
  | float x => exact .pure trivial
  | _ => cases hv

/-- An operator of one operand is safe on one of its kind. -/
theorem unary {op : UnaryOp} (ho : Safe S r I F (fun v => v.kind = op.kind) (eval o)) :
    Safe S r I F (fun v => v.kind = op.kind) (Eval.unary eval op o) := by
  cases op with
  | negate => exact (floatAt ho).map fun _ _ => rfl
  | not => exact (boolAt ho).map fun _ _ => rfl

/-- Arithmetic is safe on floats. -/
theorem arithmetic (f : Float → Float → Float)
    (hl : Safe S r I F (fun v => v.kind = .float) (eval left))
    (hr : Safe S r I F (fun v => v.kind = .float) (eval right)) :
    Safe S r I F (fun v => v.kind = .float) (Eval.arithmetic eval f left right) :=
  (floatAt hl).bind fun _ _ => (floatAt hr).map fun _ _ => rfl

/-- A comparison is safe on floats. -/
theorem comparison (f : Float → Float → Bool)
    (hl : Safe S r I F (fun v => v.kind = .float) (eval left))
    (hr : Safe S r I F (fun v => v.kind = .float) (eval right)) :
    Safe S r I F (fun v => v.kind = .bool) (Eval.comparison eval f left right) :=
  (floatAt hl).bind fun _ _ => (floatAt hr).map fun _ _ => rfl

/-- Operands are of the kind that the operator takes.  The equalities take all kinds. -/
theorem binary {op : BinaryOp}
    (hl : Safe S r I F (fun v => ∀ k, op.operandKind? = some k → v.kind = k) (eval left))
    (hr : Safe S r I F (fun v => ∀ k, op.operandKind? = some k → v.kind = k) (eval right)) :
    Safe S r I F (fun v => v.kind = op.resultKind) (Eval.binary eval op left right) := by
  have hleft : ∀ k, op.operandKind? = some k → Safe S r I F (fun v => v.kind = k) (eval left) :=
    fun k hk => hl.mono fun v hv => hv k hk
  have hright : ∀ k, op.operandKind? = some k → Safe S r I F (fun v => v.kind = k) (eval right) :=
    fun k hk => hr.mono fun v hv => hv k hk
  cases op with
  | and =>
    refine (boolAt (hleft _ rfl)).bind fun b _ => ?_
    cases b with
    | true => exact (boolAt (hright _ rfl)).map fun _ _ => rfl
    | false => exact .pure rfl
  | or =>
    refine (boolAt (hleft _ rfl)).bind fun b _ => ?_
    cases b with
    | true => exact .pure rfl
    | false => exact (boolAt (hright _ rfl)).map fun _ _ => rfl
  | equal => exact hl.bind fun _ _ => hr.map fun _ _ => rfl
  | notEqual => exact hl.bind fun _ _ => hr.map fun _ _ => rfl
  | add => exact arithmetic _ (hleft _ rfl) (hright _ rfl)
  | sub => exact arithmetic _ (hleft _ rfl) (hright _ rfl)
  | mul => exact arithmetic _ (hleft _ rfl) (hright _ rfl)
  | div => exact arithmetic _ (hleft _ rfl) (hright _ rfl)
  | mod => exact arithmetic _ (hleft _ rfl) (hright _ rfl)
  | less => exact comparison _ (hleft _ rfl) (hright _ rfl)
  | lessEqual => exact comparison _ (hleft _ rfl) (hright _ rfl)
  | greater => exact comparison _ (hleft _ rfl) (hright _ rfl)
  | greaterEqual => exact comparison _ (hleft _ rfl) (hright _ rfl)

end

/-! ## Requests -/

section

variable {h : Host σ} {eval : Nat → Eval σ Value} {o operand : Nat} {name : String}

/-- A request that the host grants as long as it serves. -/
theorem askFor {p : StateM σ (Except HostError α)}
    (hp : ∀ memory, I memory → ∃ a memory', p memory = (.ok a, memory') ∧ Q a ∧ I memory') :
    Safe S r I F Q (Eval.askFor name p) := by
  rintro ⟨memo, memory⟩ hx
  obtain ⟨a, memory', hgrant, ha, hI⟩ := hp memory hx.memory
  rw [Eval.askFor_of_ok hgrant]
  exact .ok ha ⟨hI, hx.memo⟩

/-- A variable that the registry has is read safely, with its kind. -/
theorem variableValue (hserves : h.Serves r I) {x : VariableDecl}
    (hx : r.findVariable? name = some x) :
    Safe S r I F (fun v => v.kind = x.kind) (Eval.variableValue h name) := by
  rintro ⟨memo, memory⟩ hstage
  obtain ⟨v, memory', hget, hv, hI⟩ := hserves.get hstage.memory hx
  have hask : Eval.ask (h.get name) ⟨memo, memory⟩ = .ok (some v) ⟨memo, memory'⟩ := by
    rw [Eval.ask, hget]
  rw [Eval.variableValue, Eval.bind_of_ok hask]
  exact .ok hv ⟨hI, hstage.memo⟩

theorem remember {v : Value}
    (hv : ∀ name f, S.callee? o = some name → r.findFunction? name = some f → v.kind = f.returns) :
    Safe S r I F (fun _ => True) (Eval.remember o v) :=
  fun _ hx => .ok trivial ⟨hx.memory, hx.memo.insert hv⟩

/-- A compound assignment to a float is safe. -/
theorem updated (hserves : h.Serves r I) {x : VariableDecl} (hx : r.findVariable? name = some x)
    (hfloat : x.kind = .float) (f : Float → Float → Float)
    (ho : Safe S r I F (fun v => v.kind = x.kind) (eval operand)) :
    Safe S r I F (fun v => v.kind = x.kind) (Eval.updated h eval o name f operand) := by
  rw [hfloat] at ho ⊢
  refine (variableValue hserves hx).bind fun v hv => ?_
  rw [hfloat] at hv
  cases v with
  | float y => exact (floatAt ho).map fun _ _ => rfl
  | _ => cases hv

/-- A variable is changed in place only if it holds a float. -/
theorem assigned (hserves : h.Serves r I) {x : VariableDecl} (hx : r.findVariable? name = some x)
    {op : AssignOp} (hop : op = .set ∨ x.kind = .float)
    (ho : Safe S r I F (fun v => v.kind = x.kind) (eval operand)) :
    Safe S r I F (fun v => v.kind = x.kind) (Eval.assigned h eval o op name operand) := by
  cases op with
  | set => exact ho
  | add => exact updated hserves hx (hop.resolve_left nofun) _ ho
  | sub => exact updated hserves hx (hop.resolve_left nofun) _ ho
  | mul => exact updated hserves hx (hop.resolve_left nofun) _ ho
  | div => exact updated hserves hx (hop.resolve_left nofun) _ ho

/-- An assignment is safe if the value is of the kind of its variable, for the host takes it. -/
theorem assign (hserves : h.Serves r I) {x : VariableDecl} {i : Nat} {op : AssignOp}
    (hcallee : S.callee? o = none) (hname : S.strings[i]? = some name)
    (hx : r.findVariable? name = some x) (hop : op = .set ∨ x.kind = .float)
    (ho : Safe S r I F (fun v => v.kind = x.kind) (eval operand)) :
    Safe S r I F (fun v => v.kind = .void) (Eval.assign S h eval o op i operand) := by
  intro stage hstage
  cases hfind : stage.memo.find? o with
  | some v =>
    rw [Eval.assign_of_found hfind]
    exact .ok rfl hstage
  | none =>
    rw [Eval.assign_of_missing hfind, Eval.read_string hname, pure_bind]
    have hset : ∀ v : Value, v.kind = x.kind →
        Safe S r I F (fun _ => True) (Eval.askFor name (h.set name v)) := by
      intro v hv
      refine askFor fun memory hI => ?_
      obtain ⟨memory', hset, hI'⟩ := hserves.set hI hx hv
      exact ⟨(), memory', hset, trivial, hI'⟩
    -- that the assignment was made is kept where no call is, so it is no result of one
    have hkept : Safe S r I F (fun _ => True) (Eval.remember (σ := σ) o .void) :=
      remember fun name f hsome => by rw [hcallee] at hsome; cases hsome
    refine ((assigned hserves hx hop ho).bind fun v hv => (hset v hv).bind fun _ _ => ?_) stage hstage
    exact hkept.map fun _ _ => rfl

/-- A request waits, or is answered with a value of the kind that the function declares. -/
theorem request (hserves : h.Serves r I) {f : FunctionDecl} {args : List Value}
    (hcallee : S.callee? o = some name) (hf : r.findFunction? name = some f) (hargs : f.Takes args) :
    Safe S r I F (fun v => v.kind = f.returns) (Eval.request h o name f.awaitable args) := by
  cases hawaitable : f.awaitable with
  | false =>
    refine askFor fun memory hI => ?_
    exact hserves.call hI hf hawaitable hargs
  | true =>
    have hawait : Safe S r I F (fun a => ∀ v, a = .ready v → v.kind = f.returns)
        (Eval.askFor name (h.await name args)) :=
      askFor fun memory hI => hserves.await hI hf hawaitable hargs
    refine hawait.bind fun a ha => ?_
    cases a with
    | ready v => exact .pure (ha v rfl)
    | pending => exact fun _ hx => .pending hcallee hx

/-- A call is safe if its arguments suit its function, whether the result comes at once, later or from the
memo. -/
theorem call (hserves : h.Serves r I) {f : FunctionDecl} {args : List Nat}
    (hcallee : S.callee? o = some name) (hf : r.findFunction? name = some f)
    (hargs : Safe S r I F f.Takes (args.mapM eval)) :
    Safe S r I F (fun v => v.kind = f.returns) (Eval.call h eval o name f.awaitable args) := by
  intro stage hstage
  cases hfind : stage.memo.find? o with
  | some v =>
    rw [Eval.call_of_found hfind]
    exact .ok (hstage.memo o v name f hfind hcallee hf) hstage
  | none =>
    rw [Eval.call_of_missing hfind]
    refine (hargs.bind fun vs hvs => (request hserves hcallee hf hvs).bind fun v hv => ?_) stage hstage
    refine Safe.map (remember ?_) fun _ _ => hv
    -- the node at an offset calls one function, and that has one declaration
    intro name' f' hcallee' hf'
    rw [hcallee] at hcallee'
    cases hcallee'
    rw [hf] at hf'
    cases hf'
    exact hv

end

end Safe

end Colloquy
