import Colloquy.Proofs.Layout.Node
import Colloquy.Proofs.Telling.Basic

/-!
# Evaluations that follow a story

`Follows lo hi R m m'` says that an evaluation `m` from a script goes as the telling `m'` of a part of a
story: it makes the same requests of the host, and ends with results that `R` relates or with the same
fault.  The memo never comes in between: before the evaluation it holds only results from offsets below
`lo`, and afterwards only such from below `hi`.  Parts of a statement are evaluated in the order of
their offsets, so no part finds a result of its own.
-/

namespace Colloquy

open Code

/-- A fault without the offset that it carries. -/
def SessionError.placeless : SessionError → SessionError
  | .kindMismatch _ m => .kindMismatch 0 m
  | e => e

@[simp] theorem SessionError.placeless_ofHost (name : String) (e : HostError) :
    (SessionError.ofHost name e).placeless = .ofHost name e := by
  cases e <;> rfl

/-- An event without the offsets that the options of a choice carry. -/
def Event.placeless : Event → Event
  | .choice cs => .choice (cs.map fun c => { c with next := 0 })
  | e => e

/-- A memo holds only results from below an offset. -/
def Memo.Below (m : Memo) (n : Nat) : Prop := ∀ p ∈ m.entries, p.1 < n

namespace Memo

theorem below_empty (n : Nat) : Memo.empty.Below n := by
  intro p hp
  cases hp

theorem Below.mono {m : Memo} {n k : Nat} (h : m.Below n) (hle : n ≤ k) : m.Below k :=
  fun p hp => Nat.lt_of_lt_of_le (h p hp) hle

/-- There is no result at an offset that all results come from below of. -/
theorem Below.find? {m : Memo} {n : Nat} (h : m.Below n) : m.find? n = none := by
  rw [Memo.find?, List.lookup_eq_none_iff]
  intro p hp
  have := h p hp
  simp only [bne_iff_ne]
  omega

/-- A result from a lower offset may be put into a memo. -/
theorem Below.insert {m : Memo} {n offset : Nat} (h : m.Below n) (hlt : offset < n) (v : Value) :
    (m.insert offset v).Below n := by
  intro p hp
  rcases List.mem_cons.mp hp with rfl | hp
  · exact hlt
  · exact h p hp

end Memo

/-- A host answers awaited calls at once. -/
def Host.Prompt {σ : Type} (h : Host σ) : Prop :=
  ∀ name args memory, (h.await name args memory).1 ≠ .ok .pending

section

variable {σ α β γ δ : Type}

/-- How an evaluation ended, seen from the end of a telling. -/
inductive Ends (hi : Nat) (R : α → β → Prop) :
    EStateM.Result Interrupt (Stage σ) α → EStateM.Result SessionError σ β → Prop where
  | ok {a : α} {b : β} {memo : Memo} {memory : σ} :
      memo.Below hi → R a b → Ends hi R (.ok a ⟨memo, memory⟩) (.ok b memory)
  | error {e : SessionError} {ending : Bool} {memo : Memo} {memory : σ} :
      Ends hi R (.error (.fault e ending) ⟨memo, memory⟩) (.error e.placeless memory)

/-- An evaluation follows a telling. -/
def Follows (lo hi : Nat) (R : α → β → Prop) (m : Eval σ α) (m' : Tell σ β) : Prop :=
  ∀ memo memory, memo.Below lo → Ends hi R (m ⟨memo, memory⟩) (m' memory)

namespace Follows

variable {lo mid hi : Nat} {R : α → β → Prop} {Q : γ → δ → Prop}

theorem pure {a : α} {b : β} (h : R a b) (hle : lo ≤ hi) :
    Follows lo hi R (Pure.pure a : Eval σ α) (Pure.pure b) :=
  fun _ _ hmemo => .ok (hmemo.mono hle) h

/-- An evaluation may be given more room for its results, and what relates them may be weakened. -/
theorem mono {lo' hi' : Nat} {R' : α → β → Prop} {m : Eval σ α} {m' : Tell σ β}
    (h : Follows lo hi R m m') (hlo : lo' ≤ lo) (hhi : hi ≤ hi') (hR : ∀ a b, R a b → R' a b) :
    Follows lo' hi' R' m m' := by
  intro memo memory hmemo
  have hends := h memo memory (hmemo.mono hlo)
  generalize m ⟨memo, memory⟩ = x at hends ⊢
  generalize m' memory = y at hends ⊢
  cases hends with
  | ok hmemo hab => exact .ok (hmemo.mono hhi) (hR _ _ hab)
  | error => exact .error

/-- The same with other bounds. -/
theorem within {lo' hi' : Nat} {m : Eval σ α} {m' : Tell σ β} (h : Follows lo hi R m m')
    (hlo : lo' ≤ lo) (hhi : hi ≤ hi') : Follows lo' hi' R m m' :=
  h.mono hlo hhi fun _ _ hab => hab

/-- The same from a lower bound on. -/
theorem lower {lo' : Nat} {m : Eval σ α} {m' : Tell σ β} (h : Follows lo hi R m m')
    (hlo : lo' ≤ lo) : Follows lo' hi R m m' :=
  h.within hlo (Nat.le_refl _)

/-- One evaluation after another. -/
theorem bind {m : Eval σ α} {m' : Tell σ β} {f : α → Eval σ γ} {f' : β → Tell σ δ}
    (h : Follows lo mid R m m') (hf : ∀ a b, R a b → Follows mid hi Q (f a) (f' b)) :
    Follows lo hi Q (m >>= f) (m' >>= f') := by
  intro memo memory hmemo
  have hends := h memo memory hmemo
  show Ends hi Q (EStateM.bind m f ⟨memo, memory⟩) (EStateM.bind m' f' memory)
  rw [EStateM.bind, EStateM.bind]
  generalize m ⟨memo, memory⟩ = x at hends ⊢
  generalize m' memory = y at hends ⊢
  cases hends with
  | ok hmemo hab => exact hf _ _ hab _ _ hmemo
  | error => exact .error

/-- The same where the results are equal. -/
theorem bind_eq {m : Eval σ α} {m' : Tell σ α} {f : α → Eval σ γ} {f' : α → Tell σ δ}
    (h : Follows lo mid Eq m m') (hf : ∀ a, Follows mid hi Q (f a) (f' a)) :
    Follows lo hi Q (m >>= f) (m' >>= f') := by
  refine h.bind ?_
  rintro a _ rfl
  exact hf a

/-- A list is put together from its first element and the others. -/
theorem cons {m : Eval σ α} {m' : Tell σ α} {n : Eval σ (List α)} {n' : Tell σ (List α)}
    (h : Follows lo mid Eq m m') (h' : Follows mid hi Eq n n') :
    Follows lo hi Eq (m >>= fun a => n >>= fun as => Pure.pure (a :: as))
      (m' >>= fun a => n' >>= fun as => Pure.pure (a :: as)) :=
  h.bind_eq fun _ => h'.bind_eq fun _ => .pure rfl (Nat.le_refl _)

/-- Lists that are evaluated one behind the other follow, in the order of their offsets. -/
theorem append {m n : Eval σ (List α)} {m' n' : Tell σ (List α)} (h : Follows lo mid Eq m m')
    (h' : Follows mid hi Eq n n') :
    Follows lo hi Eq (m >>= fun as => n >>= fun bs => Pure.pure (as ++ bs))
      (m' >>= fun as => n' >>= fun bs => Pure.pure (as ++ bs)) :=
  h.bind_eq fun _ => h'.bind_eq fun _ => .pure rfl (Nat.le_refl _)

theorem fail {e e' : SessionError} {ending : Bool} (h : e.placeless = e') :
    Follows lo hi R (Eval.fail (σ := σ) e ending) (throw e') := by
  subst h
  exact fun _ _ _ => .error

/-! ## Requests -/

theorem ask (m : StateM σ α) : Follows lo lo Eq (Eval.ask m) (Tell.ask m) :=
  fun _ _ hmemo => .ok hmemo rfl

/-- A request that is granted answers as the host does in some memory. -/
theorem askFor_granted (name : String) (m : StateM σ (Except HostError α)) :
    Follows lo lo (fun a b => a = b ∧ ∃ memory, (m memory).1 = .ok a) (Eval.askFor name m)
      (Tell.askFor name m) := by
  have hask : Follows lo lo (fun a b => a = b ∧ ∃ memory, (m memory).1 = a) (Eval.ask m)
      (Tell.ask m) := fun _ memory hmemo => .ok hmemo ⟨rfl, memory, rfl⟩
  refine hask.bind ?_
  rintro answer _ ⟨rfl, memory, hanswer⟩
  cases answer with
  | ok a => exact .pure ⟨rfl, memory, hanswer⟩ (Nat.le_refl _)
  | error e => exact fail (SessionError.placeless_ofHost name e)

theorem askFor (name : String) (m : StateM σ (Except HostError α)) :
    Follows lo lo Eq (Eval.askFor name m) (Tell.askFor name m) :=
  (askFor_granted name m).mono (Nat.le_refl _) (Nat.le_refl _) fun _ _ h => h.1

/-- A value that is demanded of a kind is taken or faults on both sides. -/
theorem demand (offset : Nat) (x : Except KindMismatch α) :
    Follows lo lo Eq (Eval.demand (σ := σ) offset x) (Tell.demand x) := by
  cases x with
  | ok a => exact .pure rfl (Nat.le_refl _)
  | error e => exact fail rfl

/-- A variable is read on both sides. -/
theorem variableValue (h : Host σ) (name : String) :
    Follows lo lo Eq (Eval.variableValue h name) (Tell.variableValue h name) := by
  refine (ask (h.get name)).bind_eq ?_
  intro v
  cases v with
  | some v => exact .pure rfl (Nat.le_refl _)
  | none => exact fail rfl

/-- A host that answers at once lets no evaluation wait. -/
theorem request {h : Host σ} (hprompt : h.Prompt) (offset : Nat) (name : String) (awaited : Bool)
    (args : List Value) :
    Follows lo lo Eq (Eval.request h offset name awaited args) (Tell.request h name awaited args) := by
  cases awaited with
  | false => exact askFor name (h.call name args)
  | true =>
    refine (askFor_granted name (h.await name args)).bind ?_
    rintro answer _ ⟨rfl, memory, hanswer⟩
    cases answer with
    | ready value => exact .pure rfl (Nat.le_refl _)
    | pending => exact absurd hanswer (hprompt name args memory)

/-! ## The memo -/

/-- An offset beyond all results finds none. -/
theorem forget {offset : Nat} {k : Option Value → Eval σ α} {m : Tell σ β} (hle : lo ≤ offset)
    (h : Follows lo hi R (k none) m) : Follows lo hi R (Eval.remembered? offset >>= k) m := by
  intro memo memory hmemo
  have hfind := (hmemo.mono hle).find?
  show Ends hi R (k (memo.find? offset) ⟨memo, memory⟩) (m memory)
  rw [hfind]
  exact h memo memory hmemo

/-- A result is kept under an offset below all that follow. -/
theorem remember {offset : Nat} {v : Value} {k : Unit → Eval σ α} {m : Tell σ β} (hlt : offset < lo)
    (h : Follows lo hi R (k ()) m) : Follows lo hi R (Eval.remember offset v >>= k) m :=
  fun _ _ hmemo => h _ _ (hmemo.insert hlt v)

/-! ## Operators -/

section

variable {eval : Nat → Eval σ Value} {o left right : Nat} {m m' : Tell σ Value}

theorem boolAt (h : Follows lo hi Eq (eval o) m) :
    Follows lo hi Eq (Eval.boolAt eval o) (Tell.truth m) :=
  h.bind_eq fun v => demand o v.asBool

theorem floatAt (h : Follows lo hi Eq (eval o) m) :
    Follows lo hi Eq (Eval.floatAt eval o) (Tell.number m) :=
  h.bind_eq fun v => demand o v.asFloat

/-- An operator of one operand follows if its operand does. -/
theorem unary (op : UnaryOp) (h : Follows lo hi Eq (eval o) m) :
    Follows lo hi Eq (Eval.unary eval op o) (Tell.unary op m) := by
  cases op with
  | negate => exact h.floatAt.bind_eq fun _ => .pure rfl (Nat.le_refl _)
  | not => exact h.boolAt.bind_eq fun _ => .pure rfl (Nat.le_refl _)

theorem arithmetic (f : Float → Float → Float) (h : Follows lo mid Eq (eval left) m)
    (h' : Follows mid hi Eq (eval right) m') :
    Follows lo hi Eq (Eval.arithmetic eval f left right) (Tell.arithmetic f m m') :=
  h.floatAt.bind_eq fun _ => h'.floatAt.bind_eq fun _ => .pure rfl (Nat.le_refl _)

theorem comparison (f : Float → Float → Bool) (h : Follows lo mid Eq (eval left) m)
    (h' : Follows mid hi Eq (eval right) m') :
    Follows lo hi Eq (Eval.comparison eval f left right) (Tell.comparison f m m') :=
  h.floatAt.bind_eq fun _ => h'.floatAt.bind_eq fun _ => .pure rfl (Nat.le_refl _)

/-- An operator of two operands follows if both do, also where it needs only the first. -/
theorem binary (op : BinaryOp) (h : Follows lo mid Eq (eval left) m)
    (h' : Follows mid hi Eq (eval right) m') (hle : mid ≤ hi) :
    Follows lo hi Eq (Eval.binary eval op left right) (Tell.binary op m m') := by
  cases op with
  | and =>
    refine h.boolAt.bind_eq fun b => ?_
    cases b with
    | true => exact h'.boolAt.bind_eq fun _ => .pure rfl (Nat.le_refl _)
    | false => exact .pure rfl hle
  | or =>
    refine h.boolAt.bind_eq fun b => ?_
    cases b with
    | true => exact .pure rfl hle
    | false => exact h'.boolAt.bind_eq fun _ => .pure rfl (Nat.le_refl _)
  | equal => exact h.bind_eq fun _ => h'.bind_eq fun _ => .pure rfl (Nat.le_refl _)
  | notEqual => exact h.bind_eq fun _ => h'.bind_eq fun _ => .pure rfl (Nat.le_refl _)
  | add => exact h.arithmetic _ h'
  | sub => exact h.arithmetic _ h'
  | mul => exact h.arithmetic _ h'
  | div => exact h.arithmetic _ h'
  | mod => exact h.arithmetic _ h'
  | less => exact h.comparison _ h'
  | lessEqual => exact h.comparison _ h'
  | greater => exact h.comparison _ h'
  | greaterEqual => exact h.comparison _ h'

/-- A compound assignment reads the variable first on both sides, and then its operand. -/
theorem updated (host : Host σ) (offset : Nat) (name : String) (f : Float → Float → Float)
    (h : Follows lo hi Eq (eval o) m) :
    Follows lo hi Eq (Eval.updated host eval offset name f o) (Tell.updated host name f m) := by
  have hcurrent : Follows lo lo Eq (Eval.variableValue host name >>= fun v =>
      Eval.demand offset v.asFloat) (Tell.number (Tell.variableValue host name)) :=
    (variableValue host name).bind_eq fun v => demand offset v.asFloat
  have hnumber : ∀ x, Follows lo hi Eq
      (Eval.floatAt eval o >>= fun y => Pure.pure (Value.float (f x y)))
      (Tell.number m >>= fun y => Pure.pure (Value.float (f x y))) :=
    fun x => h.floatAt.bind_eq fun _ => .pure rfl (Nat.le_refl _)
  have hall := hcurrent.bind_eq hnumber
  rw [bind_assoc] at hall
  exact hall

/-- The value of an assignment follows if its operand does. -/
theorem assigned (host : Host σ) (offset : Nat) (op : AssignOp) (name : String)
    (h : Follows lo hi Eq (eval o) m) :
    Follows lo hi Eq (Eval.assigned host eval offset op name o) (Tell.assigned host op name m) := by
  cases op with
  | set => exact h
  | add => exact h.updated host offset name _
  | sub => exact h.updated host offset name _
  | mul => exact h.updated host offset name _
  | div => exact h.updated host offset name _

/-- An assignment happens, since its offset lies beyond all results there are. -/
theorem assign {S : Script} (host : Host σ) {offset i : Nat} (op : AssignOp) {name : String}
    (hname : S.strings[i]? = some name) (hlo : lo ≤ offset) (hhi : offset < hi)
    (h : Follows lo hi Eq (eval o) m) :
    Follows lo hi Eq (Eval.assign S host eval offset op i o) (Tell.assign host op name m) := by
  refine forget hlo ?_
  rw [if_neg (by simp), Eval.read_string hname, pure_bind]
  refine (h.assigned host offset op name).bind_eq fun v => ?_
  exact (askFor name (host.set name v)).bind_eq fun _ => remember hhi (.pure rfl (Nat.le_refl _))

/-- A call is made, since its offset lies beyond all results there are. -/
theorem call {host : Host σ} (hprompt : host.Prompt) {offset : Nat} (name : String) (awaited : Bool)
    {os : List Nat} {args : Tell σ (List Value)} (hlo : lo ≤ offset) (hhi : offset < hi)
    (h : Follows lo hi Eq (os.mapM eval) args) :
    Follows lo hi Eq (Eval.call host eval offset name awaited os)
      (args >>= Tell.request host name awaited) := by
  refine forget hlo ?_
  refine h.bind_eq fun vs => ?_
  rw [← bind_pure (Tell.request host name awaited vs)]
  exact (request hprompt offset name awaited vs).bind_eq fun v =>
    remember hhi (.pure rfl (Nat.le_refl _))

end

end Follows

end

end Colloquy
