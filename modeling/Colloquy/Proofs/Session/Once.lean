import Colloquy.Proofs.Code.Beyond
import Colloquy.Proofs.Session.Noted

/-!
# Calls and assignments happen once

A statement that waits for a call is evaluated again from its start once the result is there, as often
as it has to wait.  Still each of its calls and assignments is requested once: the notes on a node
during one execution of its statement are a `Tale`, in which the node asks at most once, waits at most
once, and has the value that came back, or was delivered, from then on.

The proof goes along the evaluation.  `Settled` ties the memo to the notes: a result is kept for exactly
the nodes that asked and got one.  Evaluations keep this (`Keeps`), whatever the host answers, because a
node looks into the memo before it asks, and its operands lie beyond it and so cannot ask in its name.
-/

namespace Colloquy

open Code

/-! ## Tales of nodes -/

/-- The node at an offset makes a request: a call one of its function, an assignment one of its
variable. -/
inductive Script.Makes (S : Script) (o : Nat) : Request → Prop where
  | call {i stop : Nat} {args : List Nat} {name : String} {values : List Value} :
      S.decodeExpr o = .ok (.call i false args, stop) → S.string i = .ok name →
      S.Makes o (.call name values)
  | await {i stop : Nat} {args : List Nat} {name : String} {values : List Value} :
      S.decodeExpr o = .ok (.call i true args, stop) → S.string i = .ok name →
      S.Makes o (.await name values)
  | set {op : AssignOp} {i operand stop : Nat} {name : String} {value : Value} :
      S.decodeExpr o = .ok (.assign op i operand, stop) → S.string i = .ok name →
      S.Makes o (.set name value)

/-- The notes on a node during one execution of its statement.  It asks once if at all; the value that
came back, at once or later, is its value from then on. -/
inductive Tale (S : Script) (o : Nat) : List Note → Prop where
  | untouched : Tale S o []
  | refused {r : Request} : S.Makes o r → Tale S o [.asked o r .refused]
  | awaited {name : String} {args : List Value} : S.Makes o (.await name args) →
      Tale S o [.asked o (.await name args) .awaited]
  | granted {r : Request} {v : Value} (times : Nat) : S.Makes o r →
      Tale S o (.asked o r (.granted v) :: List.replicate times (.valued o v))
  | delivered {name : String} {args : List Value} {v : Value} (times : Nat) :
      S.Makes o (.await name args) →
      Tale S o (.asked o (.await name args) .awaited :: .delivered o v ::
        List.replicate times (.valued o v))

/-- The notes on one node. -/
def notesAt (o : Nat) (notes : List Note) : List Note := notes.filter (·.offset = o)

/-- The notes on every node make a tale. -/
def Orderly (S : Script) (notes : List Note) : Prop := ∀ o, Tale S o (notesAt o notes)

/-- The tale of a node, as far as it goes while the statement goes on, and the result that is kept for
the node. -/
inductive Told (S : Script) (o : Nat) : Option Value → List Note → Prop where
  | untouched : Told S o none []
  | granted {r : Request} {v : Value} (times : Nat) : S.Makes o r →
      Told S o (some v) (.asked o r (.granted v) :: List.replicate times (.valued o v))
  | delivered {name : String} {args : List Value} {v : Value} (times : Nat) :
      S.Makes o (.await name args) →
      Told S o (some v) (.asked o (.await name args) .awaited :: .delivered o v ::
        List.replicate times (.valued o v))

/-- A memo holds a result for exactly the nodes that got one. -/
def Settled (S : Script) (memo : Memo) (notes : List Note) : Prop :=
  ∀ o, Told S o (memo.find? o) (notesAt o notes)

/-- The same, except for a node that waits for its result. -/
structure Waits (S : Script) (memo : Memo) (o : Nat) (notes : List Note) : Prop where
  missing : memo.find? o = none
  waiting : ∃ name args, S.Makes o (.await name args) ∧
    notesAt o notes = [.asked o (.await name args) .awaited]
  others : ∀ o' ≠ o, Told S o' (memo.find? o') (notesAt o' notes)

section

variable {S : Script} {o : Nat} {memo : Memo} {notes : List Note}

theorem notesAt_append (o : Nat) (notes more : List Note) :
    notesAt o (notes ++ more) = notesAt o notes ++ notesAt o more := List.filter_append ..

theorem notesAt_self {x : Note} {xs : List Note} (hx : x.offset = o) :
    notesAt o (x :: xs) = x :: notesAt o xs := List.filter_cons_of_pos (by simpa using hx)

theorem notesAt_other {x : Note} {xs : List Note} (hx : x.offset ≠ o) :
    notesAt o (x :: xs) = notesAt o xs := List.filter_cons_of_neg (by simpa using hx)

/-- There are no notes on a node among notes on nodes beyond it. -/
theorem notesAt_eq_nil (h : ∀ x ∈ notes, o < x.offset) : notesAt o notes = [] := by
  rw [notesAt, List.filter_eq_nil_iff]
  intro x hx
  have := h x hx
  simp only [decide_eq_true_eq]
  omega

/-- What was told so far of a node is a tale. -/
theorem Told.tale {kept : Option Value} (h : Told S o kept notes) : Tale S o notes := by
  cases h with
  | untouched => exact .untouched
  | granted times hmakes => exact .granted times hmakes
  | delivered times hmakes => exact .delivered times hmakes

/-- A node that got no result made no request. -/
theorem Told.eq_nil (h : Told S o none notes) : notes = [] := by
  cases h
  rfl

theorem Told.eq_none {kept : Option Value} (h : Told S o kept []) : kept = none := by
  cases h
  rfl

/-- A node that has a result may have its value any number of times. -/
theorem Told.valued {v : Value} (h : Told S o (some v) notes) :
    Told S o (some v) (notes ++ [.valued o v]) := by
  cases h with
  | granted times hmakes =>
    rw [List.cons_append, ← List.replicate_succ']
    exact .granted (times + 1) hmakes
  | delivered times hmakes =>
    rw [List.cons_append, List.cons_append, ← List.replicate_succ']
    exact .delivered (times + 1) hmakes

theorem Settled.empty : Settled S .empty [] := fun _ => .untouched

theorem Settled.orderly (h : Settled S memo notes) : Orderly S notes := fun o => (h o).tale

theorem Orderly.nil : Orderly S [] := fun _ => .untouched

/-- While a node waits, the tale of every node is told up to there. -/
theorem Waits.orderly (h : Waits S memo o notes) : Orderly S notes := by
  intro o'
  by_cases heq : o' = o
  · obtain ⟨name, args, hmakes, hnotes⟩ := h.waiting
    rw [heq, hnotes]
    exact .awaited hmakes
  · exact (h.others o' heq).tale

/-- The result that a node waited for is delivered. -/
theorem Waits.deliver (h : Waits S memo o notes) (v : Value) :
    Settled S (memo.insert o v) (notes ++ [.delivered o v]) := by
  intro o'
  rw [notesAt_append, Memo.find?_insert]
  by_cases heq : o' = o
  · obtain ⟨name, args, hmakes, hnotes⟩ := h.waiting
    rw [if_pos heq, heq, hnotes, notesAt_self (by rfl)]
    exact .delivered 0 hmakes
  · rw [if_neg heq, notesAt_other (Ne.symm heq)]
    simpa [notesAt] using h.others o' heq

/-- A further note on a node leaves the tales of the others alone. -/
theorem Settled.others (h : Settled S memo notes) {x : Note} (hx : x.offset = o) {o' : Nat}
    (hne : o' ≠ o) : Told S o' (memo.find? o') (notesAt o' (notes ++ [x])) := by
  rw [notesAt_append, notesAt_other (by omega)]
  simpa [notesAt] using h o'

/-- A node without notes has no result after operands were evaluated beyond it either. -/
theorem Settled.missing_of_beyond {more : List Note} (h : Settled S memo (notes ++ more))
    (hnotes : notesAt o notes = []) (hmore : ∀ x ∈ more, o + 1 ≤ x.offset) :
    notesAt o (notes ++ more) = [] ∧ memo.find? o = none := by
  have hnil : notesAt o (notes ++ more) = [] := by
    rw [notesAt_append, hnotes, notesAt_eq_nil hmore]
    rfl
  have htold := h o
  rw [hnil] at htold
  exact ⟨hnil, htold.eq_none⟩

/-- A node with a result has it as its value. -/
theorem Settled.value (h : Settled S memo notes) {v : Value} (hfind : memo.find? o = some v) :
    Settled S memo (notes ++ [.valued o v]) := by
  intro o'
  by_cases heq : o' = o
  · have htold := h o
    rw [hfind] at htold
    rw [heq, hfind, notesAt_append, notesAt_self (by rfl)]
    exact htold.valued
  · exact h.others rfl heq

/-- A node asks for the first time, and its request is granted. -/
theorem Settled.grant (h : Settled S memo notes) (hnotes : notesAt o notes = []) {r : Request}
    (hmakes : S.Makes o r) (v : Value) :
    Settled S (memo.insert o v) (notes ++ [.asked o r (.granted v)]) := by
  intro o'
  rw [Memo.find?_insert]
  by_cases heq : o' = o
  · rw [if_pos heq, heq, notesAt_append, hnotes, notesAt_self (by rfl)]
    exact .granted 0 hmakes
  · rw [if_neg heq]
    exact h.others rfl heq

/-- A node asks for the first time, and its request is refused. -/
theorem Settled.refuse (h : Settled S memo notes) (hnotes : notesAt o notes = []) {r : Request}
    (hmakes : S.Makes o r) : Orderly S (notes ++ [.asked o r .refused]) := by
  intro o'
  by_cases heq : o' = o
  · rw [heq, notesAt_append, hnotes, notesAt_self (by rfl)]
    exact .refused hmakes
  · exact (h.others rfl heq).tale

/-- A node asks for the first time, and has to wait. -/
theorem Settled.wait (h : Settled S memo notes) (hnotes : notesAt o notes = [])
    (hfind : memo.find? o = none) {name : String} {args : List Value}
    (hmakes : S.Makes o (.await name args)) :
    Waits S memo o (notes ++ [.asked o (.await name args) .awaited]) where
  missing := hfind
  waiting := by
    refine ⟨name, args, hmakes, ?_⟩
    rw [notesAt_append, hnotes, notesAt_self (by rfl)]
    rfl
  others _ hne := h.others rfl hne

end

/-! ## Evaluations -/

section

variable {σ α β : Type} (S : Script) (lo : Nat)

/-- How an evaluation that began with some notes ended. -/
inductive Keeps.Ends (notes : List Note) :
    EStateM.Result Interrupt (Stage (σ × List Note)) α → Prop where
  /-- All further notes are on nodes from `lo` on. -/
  | ok {a : α} {memo : Memo} {memory : σ} {more : List Note} : Settled S memo (notes ++ more) →
      (∀ x ∈ more, lo ≤ x.offset) → Ends notes (.ok a ⟨memo, memory, notes ++ more⟩)
  | pending {o : Nat} {function : String} {memo : Memo} {memory : σ} {notes' : List Note} :
      Waits S memo o notes' → Ends notes (.error (.pending o function) ⟨memo, memory, notes'⟩)
  | fault {e : SessionError} {ending : Bool} {memo : Memo} {memory : σ} {notes' : List Note} :
      Orderly S notes' → Ends notes (.error (.fault e ending) ⟨memo, memory, notes'⟩)

/-- An evaluation keeps the memo settled, and makes notes on nodes from `lo` on only. -/
def Keeps (m : Eval (σ × List Note) α) : Prop :=
  ∀ memo memory notes, Settled S memo notes → Keeps.Ends S lo notes (m ⟨memo, memory, notes⟩)

namespace Keeps

variable {S lo}

/-- An evaluation that asks for nothing keeps what there was. -/
theorem pure (a : α) : Keeps S lo (Pure.pure a : Eval (σ × List Note) α) := by
  intro memo memory notes hsettled
  have hends : Ends S lo notes
      (.ok a ⟨memo, memory, notes ++ []⟩ : EStateM.Result _ (Stage (σ × List Note)) α) :=
    .ok (by rwa [List.append_nil]) (by simp)
  rwa [List.append_nil] at hends

theorem fail (e : SessionError) (ending : Bool) :
    Keeps S lo (Eval.fail e ending : Eval (σ × List Note) α) :=
  fun _ _ _ hsettled => .fault hsettled.orderly

/-- What keeps to the nodes from an offset on keeps to those from any earlier offset on. -/
theorem mono {lo' : Nat} {m : Eval (σ × List Note) α} (hm : Keeps S lo m) (hle : lo' ≤ lo) :
    Keeps S lo' m := by
  intro memo memory notes hsettled
  have hends := hm memo memory notes hsettled
  generalize m ⟨memo, memory, notes⟩ = x at hends ⊢
  cases hends with
  | ok hsettled hmore => exact .ok hsettled fun x hx => Nat.le_trans hle (hmore x hx)
  | pending hwaits => exact .pending hwaits
  | fault horderly => exact .fault horderly

/-- One evaluation after another.  The first one may be about nodes further on. -/
theorem Ends.bind {lo' : Nat} {m : Eval (σ × List Note) α} {f : α → Eval (σ × List Note) β}
    {notes : List Note} {x : Stage (σ × List Note)} (hm : Ends S lo' notes (m x)) (hle : lo ≤ lo')
    (hf : ∀ a memo memory more, Settled S memo (notes ++ more) → (∀ y ∈ more, lo' ≤ y.offset) →
      Ends S lo (notes ++ more) (f a ⟨memo, memory, notes ++ more⟩)) :
    Ends S lo notes ((m >>= f) x) := by
  show Ends S lo notes (EStateM.bind m f x)
  rw [EStateM.bind]
  generalize m x = y at hm ⊢
  cases hm with
  | @ok a memo memory more hsettled hmore =>
    have hends := hf a memo memory more hsettled hmore
    show Ends S lo notes (f a ⟨memo, memory, notes ++ more⟩)
    generalize f a ⟨memo, memory, notes ++ more⟩ = z at hends ⊢
    cases hends with
    | @ok b memo₁ memory₁ more₁ hsettled₁ hmore₁ =>
      rw [List.append_assoc] at hsettled₁ ⊢
      refine .ok hsettled₁ fun y hy => ?_
      rcases List.mem_append.mp hy with hy | hy
      · exact Nat.le_trans hle (hmore y hy)
      · exact hmore₁ y hy
    | pending hwaits => exact .pending hwaits
    | fault horderly => exact .fault horderly
  | pending hwaits => exact .pending hwaits
  | fault horderly => exact .fault horderly

theorem bind {m : Eval (σ × List Note) α} {f : α → Eval (σ × List Note) β} (hm : Keeps S lo m)
    (hf : ∀ a, Keeps S lo (f a)) : Keeps S lo (m >>= f) :=
  fun memo memory notes hsettled => (hm memo memory notes hsettled).bind (Nat.le_refl _)
    fun a memo memory more hsettled _ => hf a memo memory (notes ++ more) hsettled

/-- A request without a note leaves everything as it is. -/
theorem silently (m : StateM σ α) : Keeps S lo (Eval.ask (Host.silently m)) := by
  intro memo memory notes hsettled
  exact pure (m memory).1 memo (m memory).2 notes hsettled

/-- An evaluation that notes its requests keeps what there was if its parts do. -/
theorem pairing (h : Host σ) (offset : Nat) :
    Pairing (fun m _ => Keeps S lo m) (h.noted offset) (h.noted offset) where
  pure := pure
  fail e ending _ := fail e ending
  bind hm hf := hm.bind hf
  get name := silently (h.get name)

/-- The name of a value is asked for without a note. -/
theorem nameOf (h : Host σ) (offset : Nat) (v : Value) :
    Keeps S lo (Eval.askFor "get_name" ((h.noted offset).nameOf v)) := by
  refine (silently (h.nameOf v)).bind fun answer => ?_
  cases answer with
  | ok name => exact pure name
  | error e => exact fail _ _

/-! ### Calls and assignments -/

variable {h : Host σ} {eval : Nat → Eval (σ × List Note) Value} {o : Nat}

/-- A request that is granted, with its note. -/
theorem askFor_granted {name : String} {r : Request} {f : Except HostError α → Response}
    {m : StateM σ (Except HostError α)} {memory : σ} {a : α} (hanswer : (m memory).1 = .ok a)
    (memo : Memo) (notes : List Note) :
    Eval.askFor name (Host.responding o r f m) ⟨memo, memory, notes⟩ =
      .ok a ⟨memo, (m memory).2, notes ++ [.asked o r (f (.ok a))]⟩ := by
  rw [Eval.askFor, Eval.bind_of_ok (show Eval.ask (Host.responding o r f m) ⟨memo, memory, notes⟩ =
    .ok (m memory).1 ⟨memo, (m memory).2, notes ++ [.asked o r (f (m memory).1)]⟩ from rfl), hanswer]
  rfl

/-- A request that is refused, with its note. -/
theorem askFor_refused {name : String} {r : Request} {f : Except HostError α → Response}
    {m : StateM σ (Except HostError α)} {memory : σ} {e : HostError} (hanswer : (m memory).1 = .error e)
    (memo : Memo) (notes : List Note) :
    Eval.askFor name (Host.responding o r f m) ⟨memo, memory, notes⟩ =
      .error (.fault (.ofHost name e) false) ⟨memo, (m memory).2, notes ++ [.asked o r (f (.error e))]⟩ := by
  rw [Eval.askFor, Eval.bind_of_ok (show Eval.ask (Host.responding o r f m) ⟨memo, memory, notes⟩ =
    .ok (m memory).1 ⟨memo, (m memory).2, notes ++ [.asked o r (f (m memory).1)]⟩ from rfl), hanswer]
  rfl

/-- A call that is made for the first time, with its value. -/
theorem request_ends {memo : Memo} (memory : σ) {notes : List Note} (hsettled : Settled S memo notes)
    (hnotes : notesAt o notes = []) (hfind : memo.find? o = none) {i stop : Nat} {args : List Nat}
    {name : String} {awaited : Bool} (hdecode : S.decodeExpr o = .ok (.call i awaited args, stop))
    (hname : S.string i = .ok name) (values : List Value) :
    Ends S o notes ((Eval.request (h.noted o) o name awaited values >>= fun v =>
      Eval.remember o v >>= fun _ => Eval.note (.valued o v) >>= fun _ => Pure.pure v)
        ⟨memo, memory, notes⟩) := by
  have hgranted : ∀ (r : Request) (v : Value) (memory : σ), S.Makes o r →
      Ends S o notes ((Eval.remember o v >>= fun _ => Eval.note (.valued o v) >>= fun _ => Pure.pure v)
        ⟨memo, memory, notes ++ [.asked o r (.granted v)]⟩) := by
    intro r v memory hmakes
    have hvalue := (hsettled.grant hnotes hmakes v).value (by rw [Memo.find?_insert, if_pos rfl])
    show Ends S o notes (.ok v ⟨memo.insert o v, memory, notes ++ [.asked o r (.granted v)] ++
      [.valued o v]⟩)
    rw [List.append_assoc] at hvalue ⊢
    exact .ok hvalue (by simp [Note.offset])
  cases awaited with
  | false =>
    have hmakes : S.Makes o (.call name values) := .call hdecode hname
    cases hanswer : (h.call name values memory).1 with
    | ok v =>
      have hrequest : Eval.request (h.noted o) o name false values ⟨memo, memory, notes⟩ = .ok v _ :=
        askFor_granted hanswer memo notes
      rw [Eval.bind_of_ok hrequest]
      exact hgranted _ v _ hmakes
    | error e =>
      have hrequest : Eval.request (h.noted o) o name false values ⟨memo, memory, notes⟩ = .error _ _ :=
        askFor_refused hanswer memo notes
      rw [Eval.bind_of_error hrequest]
      exact .fault (hsettled.refuse hnotes hmakes)
  | true =>
    have hmakes : S.Makes o (.await name values) := .await hdecode hname
    cases hanswer : (h.await name values memory).1 with
    | ok answer =>
      have hask : Eval.askFor name ((h.noted o).await name values) ⟨memo, memory, notes⟩ =
          .ok answer _ := askFor_granted hanswer memo notes
      cases answer with
      | ready v =>
        have hrequest : Eval.request (h.noted o) o name true values ⟨memo, memory, notes⟩ = .ok v _ :=
          Eval.bind_of_ok hask
        rw [Eval.bind_of_ok hrequest]
        exact hgranted _ v _ hmakes
      | pending =>
        have hrequest : Eval.request (h.noted o) o name true values ⟨memo, memory, notes⟩ =
            .error (.pending o name) _ := Eval.bind_of_ok hask
        rw [Eval.bind_of_error hrequest]
        exact .pending (hsettled.wait hnotes hfind hmakes)
    | error e =>
      have hask : Eval.askFor name ((h.noted o).await name values) ⟨memo, memory, notes⟩ =
          .error _ _ := askFor_refused hanswer memo notes
      have hrequest : Eval.request (h.noted o) o name true values ⟨memo, memory, notes⟩ =
          .error _ _ := Eval.bind_of_error hask
      rw [Eval.bind_of_error hrequest]
      exact .fault (hsettled.refuse hnotes hmakes)

/-- A call looks for its result before it asks. -/
theorem call {i stop : Nat} {args : List Nat} {name : String} {awaited : Bool}
    (hdecode : S.decodeExpr o = .ok (.call i awaited args, stop)) (hname : S.string i = .ok name)
    (hargs : Keeps S (o + 1) (args.mapM eval)) :
    Keeps S o (Eval.call (h.noted o) eval o name awaited args >>= fun v =>
      Eval.note (.valued o v) >>= fun _ => Pure.pure v) := by
  intro memo memory notes hsettled
  cases hfind : memo.find? o with
  | some v =>
    rw [Eval.bind_of_ok (Eval.call_of_found hfind name awaited args)]
    exact .ok (hsettled.value hfind) (by simp [Note.offset])
  | none =>
    have hnotes : notesAt o notes = [] := by
      have htold := hsettled o
      rw [hfind] at htold
      exact htold.eq_nil
    rw [Eval.bind_congr_left (Eval.call_of_missing hfind name awaited args), bind_assoc]
    refine (hargs memo memory notes hsettled).bind (Nat.le_succ o) ?_
    intro values memo memory more hsettled hmore
    obtain ⟨hnil, hmissing⟩ := hsettled.missing_of_beyond hnotes hmore
    have hends := request_ends (h := h) memory hsettled hnil hmissing hdecode hname values
    simpa only [bind_assoc, pure_bind] using hends

/-- An assignment looks whether it was made before it is made. -/
theorem assign {op : AssignOp} {i operand stop : Nat}
    (hdecode : S.decodeExpr o = .ok (.assign op i operand, stop))
    (hoperand : Keeps S (o + 1) (eval operand)) :
    Keeps S o (Eval.assign S (h.noted o) eval o op i operand) := by
  intro memo memory notes hsettled
  cases hfind : memo.find? o with
  | some v =>
    rw [Eval.assign_of_found hfind]
    exact pure Value.void memo memory notes hsettled
  | none =>
    have hnotes : notesAt o notes = [] := by
      have htold := hsettled o
      rw [hfind] at htold
      exact htold.eq_nil
    rw [Eval.assign_of_missing hfind]
    cases hname : S.string i with
    | error e => exact fail (.code e) _ memo memory notes hsettled
    | ok name =>
      have hassigned : Keeps S (o + 1) (Eval.assigned (h.noted o) eval o op name operand) :=
        @Pairing.assigned _ _ _ _ _ eval eval _ (pairing h o) o op name hoperand
      refine (hassigned memo memory notes hsettled).bind (Nat.le_succ o) ?_
      intro value memo memory more hsettled hmore
      obtain ⟨hnil, -⟩ := hsettled.missing_of_beyond hnotes hmore
      have hmakes : S.Makes o (.set name value) := .set hdecode hname
      cases hanswer : (h.set name value memory).1 with
      | ok u =>
        have hask : Eval.askFor name ((h.noted o).set name value) ⟨memo, memory, notes ++ more⟩ =
            .ok u _ := askFor_granted hanswer memo (notes ++ more)
        rw [Eval.bind_of_ok hask]
        exact .ok (hsettled.grant hnil hmakes .void) (by simp [Note.offset])
      | error e =>
        have hask : Eval.askFor name ((h.noted o).set name value) ⟨memo, memory, notes ++ more⟩ =
            .error _ _ := askFor_refused hanswer memo (notes ++ more)
        rw [Eval.bind_of_error hask]
        exact .fault (hsettled.refuse hnil hmakes)

/-- Expressions keep the memo settled, and their notes are on nodes from their own on. -/
theorem within (S : Script) (h : Host σ) (fuel offset : Nat) :
    Keeps S offset (Eval.notedWithin S h fuel offset) := by
  induction fuel generalizing offset with
  | zero => exact fail _ _
  | succ fuel ih =>
    rw [Eval.notedWithin]
    cases hdecode : S.decodeExpr offset with
    | error e => exact fail _ _
    | ok x =>
      obtain ⟨n, stop⟩ := x
      have hbeyond : ∀ o ∈ n.operands, Keeps S (offset + 1) (Eval.notedWithin S h fuel o) :=
        fun o ho => (ih o).mono (Script.lt_of_mem_operands hdecode ho)
      show Keeps S offset (Eval.node S (h.noted offset) (Eval.notedWithin S h fuel) offset n >>=
        Eval.valued n offset)
      by_cases hcall : n.isCall = true
      · -- the value of a call is noted, so the call and its note are taken together
        cases n with
        | call i awaited args =>
          have hargs : Keeps S (offset + 1) (args.mapM (Eval.notedWithin S h fuel)) :=
            @Pairing.mapM _ _ _ _ _ _ _ (pairing h offset) _ (Eval.notedWithin S h fuel) args hbeyond
          rw [Eval.node, bind_assoc]
          cases hname : S.string i with
          | error e => exact fail _ _
          | ok name => exact call hdecode hname hargs
        | _ => cases hcall
      · have hnode : Keeps S offset
            (Eval.node S (h.noted offset) (Eval.notedWithin S h fuel) offset n) := by
          refine @Pairing.node _ _ _ _ _ S (Eval.notedWithin S h fuel) (Eval.notedWithin S h fuel)
            (pairing h offset) offset n (fun o ho => (hbeyond o ho).mono (Nat.le_succ _)) ?_ ?_
          · rintro name awaited args rfl
            exact absurd rfl hcall
          · rintro op name value rfl
            exact assign hdecode (hbeyond value (by simp [Node.operands]))
        refine hnode.bind fun v => ?_
        rw [Eval.valued, if_neg hcall]
        exact pure v

/-- Statements keep the memo settled. -/
theorem statementAt (S : Script) (h : Host σ) (sections : Catalog Nat) (offset : Nat) :
    Keeps S 0 (Eval.statementAt S (h.noted offset) (Eval.notedExpr S h) sections offset) := by
  have hexpr : ∀ o, Keeps S 0 (Eval.notedExpr S h o) := fun o => (within S h _ o).mono (Nat.zero_le o)
  cases hdecode : S.decodeStatement offset with
  | error e =>
    rw [Eval.statementAt, hdecode]
    exact fail _ _
  | ok x =>
    rw [Eval.statementAt, hdecode]
    exact @Pairing.statement _ _ _ _ _ S (Eval.notedExpr S h) (Eval.notedExpr S h)
      (pairing h offset) sections x.1 (nameOf h offset) (fun o _ => hexpr o)
      (fun _ _ _ _ _ o _ => hexpr o)

end Keeps

end

end Colloquy
