import Colloquy.Proofs.Layout.WellFormed
import Colloquy.Session.Perform

/-!
# Evaluations side by side

The same script is evaluated against two hosts.  A relation between evaluations that holds of the few
elements they are made of, and is kept when they are put one after another, holds of whole statements:
`Pairing` lists the elements, and there is one theorem for each part of a statement.  Calls, assignments
and the names of speakers are left open, because they are where two hosts can differ.
-/

namespace Colloquy

open Code

/-- The error refuses an operation.  All others are faults of the script or its host. -/
def SessionError.isRefusal : SessionError → Bool
  | .invalidState .. | .invalidChoice .. | .disabledChoice .. => true
  | _ => false

/-- A relation between evaluations against two hosts that is kept by putting them together. -/
structure Pairing {σ τ : Type} (R : {α : Type} → Eval σ α → Eval τ α → Prop) (h : Host σ)
    (g : Host τ) : Prop where
  pure {α : Type} (a : α) : R (pure a) (pure a)
  /-- Evaluations stop with faults only. -/
  fail {α : Type} (e : SessionError) (ending : Bool) : e.isRefusal = false →
    R (Eval.fail e ending : Eval σ α) (Eval.fail e ending)
  bind {α β : Type} {m : Eval σ α} {n : Eval τ α} {f : α → Eval σ β} {k : α → Eval τ β} :
    R m n → (∀ a, R (f a) (k a)) → R (m >>= f) (n >>= k)
  get (name : String) : R (Eval.ask (h.get name)) (Eval.ask (g.get name))

namespace Pairing

variable {σ τ α β : Type} {R : {α : Type} → Eval σ α → Eval τ α → Prop} {h : Host σ} {g : Host τ}
  {S : Script}

theorem map (P : Pairing R h g) {m : Eval σ α} {n : Eval τ α} (hm : R m n) (f : α → β) :
    R (m >>= fun a => Pure.pure (f a)) (n >>= fun a => Pure.pure (f a)) :=
  P.bind hm fun a => P.pure (f a)

theorem read (P : Pairing R h g) (x : Except CodeError α) : R (Eval.read x) (Eval.read x) := by
  cases x with
  | ok a => exact P.pure a
  | error e => exact P.fail (.code e) false rfl

/-- What is read can be used. -/
theorem read_bind (P : Pairing R h g) {x : Except CodeError α} {f : α → Eval σ β}
    {k : α → Eval τ β} (hf : ∀ a, x = .ok a → R (f a) (k a)) :
    R (Eval.read x >>= f) (Eval.read x >>= k) := by
  cases x with
  | ok a => exact hf a rfl
  | error e => exact P.fail (.code e) false rfl

/-- A value that is demanded of a kind is the same on both sides, or faults on both. -/
theorem demand (P : Pairing R h g) (offset : Nat) (x : Except KindMismatch α) :
    R (Eval.demand offset x) (Eval.demand offset x) := by
  cases x with
  | ok a => exact P.pure a
  | error e => exact P.fail (.kindMismatch offset e) false rfl

/-- A variable is looked up on both sides. -/
theorem variableValue (P : Pairing R h g) (name : String) :
    R (Eval.variableValue h name) (Eval.variableValue g name) := by
  refine P.bind (P.get name) fun v => ?_
  cases v with
  | some v => exact P.pure v
  | none => exact P.fail (.unknownVariable name) false rfl

/-- An evaluation of each entry of a list is related if those of the entries are. -/
theorem mapM (P : Pairing R h g) {f : α → Eval σ β} {k : α → Eval τ β} {xs : List α}
    (hf : ∀ x ∈ xs, R (f x) (k x)) : R (xs.mapM f) (xs.mapM k) := by
  induction xs with
  | nil =>
    rw [List.mapM_nil, List.mapM_nil]
    exact P.pure []
  | cons x xs ih =>
    rw [List.mapM_cons, List.mapM_cons]
    refine P.bind (hf x (List.mem_cons_self ..)) fun y => ?_
    exact P.map (ih fun z hz => hf z (List.mem_cons_of_mem _ hz)) (y :: ·)

/-! ## Expressions -/

section

variable {eval : Nat → Eval σ Value} {eval' : Nat → Eval τ Value} {o left right : Nat}

theorem boolAt (P : Pairing R h g) (ho : R (eval o) (eval' o)) :
    R (Eval.boolAt eval o) (Eval.boolAt eval' o) :=
  P.bind ho fun v => P.demand o v.asBool

theorem floatAt (P : Pairing R h g) (ho : R (eval o) (eval' o)) :
    R (Eval.floatAt eval o) (Eval.floatAt eval' o) :=
  P.bind ho fun v => P.demand o v.asFloat

/-- An operator of one operand is related if its operand is. -/
theorem unary (P : Pairing R h g) (op : UnaryOp) (ho : R (eval o) (eval' o)) :
    R (Eval.unary eval op o) (Eval.unary eval' op o) := by
  cases op with
  | negate => exact P.map (P.floatAt ho) _
  | not => exact P.map (P.boolAt ho) _

theorem arithmetic (P : Pairing R h g) (f : Float → Float → Float)
    (hl : R (eval left) (eval' left)) (hr : R (eval right) (eval' right)) :
    R (Eval.arithmetic eval f left right) (Eval.arithmetic eval' f left right) :=
  P.bind (P.floatAt hl) fun _ => P.map (P.floatAt hr) _

theorem comparison (P : Pairing R h g) (f : Float → Float → Bool)
    (hl : R (eval left) (eval' left)) (hr : R (eval right) (eval' right)) :
    R (Eval.comparison eval f left right) (Eval.comparison eval' f left right) :=
  P.bind (P.floatAt hl) fun _ => P.map (P.floatAt hr) _

/-- An operator of two operands is related if both operands are, also where it needs only the first. -/
theorem binary (P : Pairing R h g) (op : BinaryOp) (hl : R (eval left) (eval' left))
    (hr : R (eval right) (eval' right)) :
    R (Eval.binary eval op left right) (Eval.binary eval' op left right) := by
  cases op with
  | and =>
    refine P.bind (P.boolAt hl) fun b => ?_
    cases b with
    | true => exact P.map (P.boolAt hr) _
    | false => exact P.pure _
  | or =>
    refine P.bind (P.boolAt hl) fun b => ?_
    cases b with
    | true => exact P.pure _
    | false => exact P.map (P.boolAt hr) _
  | equal => exact P.bind hl fun _ => P.map hr _
  | notEqual => exact P.bind hl fun _ => P.map hr _
  | add => exact P.arithmetic _ hl hr
  | sub => exact P.arithmetic _ hl hr
  | mul => exact P.arithmetic _ hl hr
  | div => exact P.arithmetic _ hl hr
  | mod => exact P.arithmetic _ hl hr
  | less => exact P.comparison _ hl hr
  | lessEqual => exact P.comparison _ hl hr
  | greater => exact P.comparison _ hl hr
  | greaterEqual => exact P.comparison _ hl hr

/-- A compound assignment reads the variable, then its operand. -/
theorem updated (P : Pairing R h g) (offset : Nat) (name : String) (f : Float → Float → Float)
    (ho : R (eval o) (eval' o)) :
    R (Eval.updated h eval offset name f o) (Eval.updated g eval' offset name f o) := by
  refine P.bind (P.variableValue name) fun v => ?_
  exact P.bind (P.demand offset v.asFloat) fun x => P.map (P.floatAt ho) _

/-- The value of an assignment is related if its operand is. -/
theorem assigned (P : Pairing R h g) (offset : Nat) (op : AssignOp) (name : String)
    (ho : R (eval o) (eval' o)) :
    R (Eval.assigned h eval offset op name o) (Eval.assigned g eval' offset op name o) := by
  cases op with
  | set => exact ho
  | add => exact P.updated offset name _ ho
  | sub => exact P.updated offset name _ ho
  | mul => exact P.updated offset name _ ho
  | div => exact P.updated offset name _ ho

/-- A node is paired if its operands are, and the call or assignment that it makes. -/
theorem node (P : Pairing R h g) (offset : Nat) (n : Node)
    (hoperands : ∀ o ∈ n.operands, R (eval o) (eval' o))
    (hcall : ∀ name awaited args, n = .call name awaited args → ∀ function,
      R (Eval.call h eval offset function awaited args) (Eval.call g eval' offset function awaited args))
    (hassign : ∀ op name value, n = .assign op name value →
      R (Eval.assign S h eval offset op name value) (Eval.assign S g eval' offset op name value)) :
    R (Eval.node S h eval offset n) (Eval.node S g eval' offset n) := by
  cases n with
  | float index => exact P.map (P.read _) _
  | string index => exact P.map (P.read _) _
  | bool value => exact P.pure _
  | «variable» name => exact P.bind (P.read _) fun x => P.variableValue x
  | call name awaited args => exact P.bind (P.read _) fun x => hcall name awaited args rfl x
  | unary op operand => exact P.unary op (hoperands _ (by simp [Node.operands]))
  | binary op left right =>
    exact P.binary op (hoperands left (by simp [Node.operands]))
      (hoperands right (by simp [Node.operands]))
  | assign op name value => exact hassign op name value rfl
  | auto => exact P.pure _
  | goto target => exact P.pure _
  | speed operand => exact P.pure _
  | pause operand => exact P.pure _

/-! ## Statements -/

/-- A condition that may be passed over is passed over on both sides. -/
theorem conditionIf (P : Pairing R h g) (relevant : Bool) (ho : R (eval o) (eval' o)) :
    R (Eval.conditionIf eval relevant o) (Eval.conditionIf eval' relevant o) := by
  cases relevant with
  | true => exact P.boolAt ho
  | false => exact P.pure false

/-- A segment of a text is related if its expression is. -/
theorem segment (P : Pairing R h g) {x : TextNode} (hx : ∀ o ∈ x.exprs, R (eval o) (eval' o)) :
    R (Eval.segment S eval x) (Eval.segment S eval' x) := by
  cases x with
  | text index => exact P.read _
  | expr offset => exact P.map (hx offset (by simp [TextNode.exprs])) _

/-- A text is related if its segments are. -/
theorem text (P : Pairing R h g) {xs : List TextNode}
    (hxs : ∀ o ∈ xs.flatMap TextNode.exprs, R (eval o) (eval' o)) :
    R (Eval.text S eval xs) (Eval.text S eval' xs) := by
  refine P.map (P.mapM fun x hx => P.segment fun o ho => ?_) _
  exact hxs o (List.mem_flatMap.mpr ⟨x, hx, ho⟩)

/-- Keys are related if their values are. -/
theorem pairs (P : Pairing R h g) {ps : List PairNode} (data : Catalog Value)
    (hps : ∀ o ∈ ps.flatMap PairNode.values, R (eval o) (eval' o)) :
    R (Eval.pairs S eval data ps) (Eval.pairs S eval' data ps) := by
  induction ps generalizing data with
  | nil => exact P.pure data
  | cons p ps ih =>
    rw [List.flatMap_cons] at hps
    rw [Eval.pairs, Eval.pairs]
    refine P.bind (P.mapM fun o ho => hps o (List.mem_append_left _ ho)) fun values => ?_
    refine P.bind (P.read _) fun key => ?_
    exact ih _ fun o ho => hps o (List.mem_append_right _ ho)

/-- Directives are paired if they are themselves, and the operands of speeds and pauses. -/
theorem directives (P : Pairing R h g) {ds : List Nat} (next : Nat)
    (hds : ∀ d ∈ ds, R (eval d) (eval' d) ∧ ∀ n stop, S.decodeExpr d = .ok (n, stop) →
      ∀ o ∈ n.operands, R (eval o) (eval' o)) :
    R (Eval.directives S eval next ds) (Eval.directives S eval' next ds) := by
  induction ds generalizing next with
  | nil => exact P.pure _
  | cons d ds ih =>
    obtain ⟨hd, hoperands⟩ := hds d (List.mem_cons_self ..)
    have hrest : ∀ next, R (Eval.directives S eval next ds) (Eval.directives S eval' next ds) :=
      fun next => ih next fun x hx => hds x (List.mem_cons_of_mem _ hx)
    rw [Eval.directives, Eval.directives]
    refine P.read_bind fun x hdecode => ?_
    obtain ⟨n, stop⟩ := x
    have hn := hoperands n stop hdecode
    cases n with
    | goto target => exact hrest target
    | auto => exact P.map (hrest next) _
    | speed operand =>
      refine P.bind (P.floatAt (hn operand (by simp [Node.operands]))) fun rate => ?_
      exact P.map (hrest next) _
    | pause operand =>
      refine P.bind (P.floatAt (hn operand (by simp [Node.operands]))) fun seconds => ?_
      exact P.map (hrest next) _
    | _ => exact P.bind hd fun _ => hrest next

/-- A speaker is related if the name that the host is asked for is. -/
theorem speaker (P : Pairing R h g)
    (hname : ∀ v, R (Eval.askFor "get_name" (h.nameOf v)) (Eval.askFor "get_name" (g.nameOf v)))
    (x : SpeakerNode) : R (Eval.speaker S h x) (Eval.speaker S g x) := by
  cases x with
  | id index => exact P.read _
  | «variable» index =>
    refine P.bind (P.read _) fun name => ?_
    exact P.bind (P.variableValue name) fun value => hname value

/-- A section is found on both sides or on none. -/
theorem sectionAt (P : Pairing R h g) (sections : Catalog Nat) (ending : Bool) (name : String) :
    R (Eval.sectionAt sections ending name) (Eval.sectionAt sections ending name) := by
  rw [Eval.sectionAt, Eval.sectionAt]
  cases sections.find? name with
  | some offset => exact P.pure offset
  | none => exact P.fail (.unknownSection name) ending rfl

/-- The tags of a line lead to the same section on both sides. -/
theorem steer (P : Pairing R h g) (sections : Catalog Nat) (next : Nat) (ending : Bool)
    (tags : List Tag) :
    R (Eval.steer sections next ending tags) (Eval.steer sections next ending tags) := by
  induction tags generalizing next ending with
  | nil => exact P.pure _
  | cons tag tags ih =>
    cases tag with
    | goto target => exact P.bind (P.sectionAt sections ending target) fun next => ih next ending
    | finish => exact ih next true
    | _ => exact ih next ending

/-- A line is related if its speakers, its text and its directives are. -/
theorem line (P : Pairing R h g) (sections : Catalog Nat) {l : LineNode}
    (hname : ∀ v, R (Eval.askFor "get_name" (h.nameOf v)) (Eval.askFor "get_name" (g.nameOf v)))
    (hsegments : ∀ o ∈ l.segments.flatMap TextNode.exprs, R (eval o) (eval' o))
    (hdirectives : ∀ d ∈ l.directives, R (eval d) (eval' d) ∧ ∀ n stop,
      S.decodeExpr d = .ok (n, stop) → ∀ o ∈ n.operands, R (eval o) (eval' o)) :
    R (Eval.line S h eval sections l) (Eval.line S g eval' sections l) := by
  refine P.bind (P.text hsegments) fun raw => ?_
  refine P.bind (P.directives l.next hdirectives) fun x => ?_
  refine P.bind (P.mapM fun y _ => P.speaker hname y) fun speakers => ?_
  exact P.map (P.steer sections _ _ _) _

/-- The options of a choice are related if all expressions in its entries are, by induction on the
entries: both sides have the same filters open. -/
theorem options (P : Pairing R h g) {items : List ItemNode} (filters : List Filter)
    (hitems : ∀ o ∈ items.flatMap ItemNode.exprs, R (eval o) (eval' o)) :
    R (Eval.options S eval filters items) (Eval.options S eval' filters items) := by
  induction items generalizing filters with
  | nil =>
    rw [Eval.options, Eval.options]
    exact P.pure []
  | cons item items ih =>
    rw [List.flatMap_cons] at hitems
    have hitem : ∀ o ∈ item.exprs, R (eval o) (eval' o) :=
      fun o ho => hitems o (List.mem_append_left _ ho)
    have hrest : ∀ filters, R (Eval.options S eval filters items)
        (Eval.options S eval' filters items) :=
      fun filters => ih filters fun o ho => hitems o (List.mem_append_right _ ho)
    cases item with
    | option next guard segments =>
      rw [Eval.options, Eval.options]
      by_cases hopen : Filter.isOpen filters = true
      · rw [if_pos hopen, if_pos hopen]
        have htext : R (Eval.text S eval segments) (Eval.text S eval' segments) :=
          P.text fun o ho => hitem o (List.mem_append_right _ ho)
        cases guard with
        | none =>
          refine P.bind (P.pure true) fun enabled => ?_
          exact P.bind htext fun raw => P.map (hrest filters) _
        | some offset =>
          refine P.bind (P.boolAt (hitem offset (by simp [ItemNode.exprs]))) fun enabled => ?_
          exact P.bind htext fun raw => P.map (hrest filters) _
      · rw [if_neg hopen, if_neg hopen]
        exact hrest filters
    | ifMarker offset =>
      rw [Eval.options, Eval.options]
      exact P.bind (P.conditionIf _ (hitem offset (by simp [ItemNode.exprs]))) fun hit => hrest _
    | elseIf offset =>
      cases filters with
      | nil => exact hrest []
      | cons f filters =>
        rw [Eval.options, Eval.options]
        exact P.bind (P.conditionIf _ (hitem offset (by simp [ItemNode.exprs]))) fun hit => hrest _
    | elseMarker =>
      cases filters with
      | nil => exact hrest []
      | cons f filters => exact hrest _
    | endIf =>
      cases filters with
      | nil => exact hrest []
      | cons f filters => exact hrest _

/-- The first branch that holds is the same one if the conditions are related. -/
theorem firstBranch (P : Pairing R h g) (otherwise : Nat) {branches : List (Nat × Nat)}
    (hbranches : ∀ o ∈ branches.map Prod.fst, R (eval o) (eval' o)) :
    R (Eval.firstBranch eval otherwise branches) (Eval.firstBranch eval' otherwise branches) := by
  induction branches with
  | nil => exact P.pure otherwise
  | cons b branches ih =>
    obtain ⟨offset, next⟩ := b
    rw [Eval.firstBranch, Eval.firstBranch]
    refine P.bind (P.boolAt (hbranches offset (by simp))) fun hit => ?_
    cases hit with
    | true => exact P.pure next
    | false => exact ih fun o ho => hbranches o (List.mem_cons_of_mem _ ho)

/-- A statement is paired if its expressions are, with those inside directives, and the names of its
speakers. -/
theorem statement (P : Pairing R h g) (sections : Catalog Nat) {node : Statement}
    (hname : ∀ v, R (Eval.askFor "get_name" (h.nameOf v)) (Eval.askFor "get_name" (g.nameOf v)))
    (hexprs : ∀ o ∈ node.exprs, R (eval o) (eval' o))
    (hoperands : ∀ o ∈ node.exprs, ∀ n stop, S.decodeExpr o = .ok (n, stop) →
      ∀ o' ∈ n.operands, R (eval o') (eval' o')) :
    R (Eval.statement S h eval sections node) (Eval.statement S g eval' sections node) := by
  cases node with
  | entry next name => exact P.pure _
  | finish => exact P.pure _
  | line l =>
    refine P.line sections hname (fun o ho => hexprs o (List.mem_append_left _ ho)) fun d hd => ?_
    exact ⟨hexprs d (List.mem_append_right _ hd), hoperands d (List.mem_append_right _ hd)⟩
  | instruction next offset => exact P.map (hexprs offset (by simp [Statement.exprs])) _
  | conditional otherwise branches => exact P.map (P.firstBranch otherwise hexprs) _
  | choice next items => exact P.map (P.options [] hexprs) _
  | hash next entries => exact P.map (P.pairs ∅ hexprs) _
  | speaker next index entries =>
    refine P.bind (P.pairs ∅ hexprs) fun data => ?_
    exact P.map (P.read (S.speaker index)) _

end

end Pairing

/-! ## Results that are kept -/

/-- A memo has what was put into it last at an offset. -/
theorem Memo.find?_insert (memo : Memo) (o o' : Nat) (v : Value) :
    (memo.insert o v).find? o' = if o' = o then some v else memo.find? o' := by
  show List.lookup o' ((o, v) :: memo.entries) = _
  rw [List.lookup_cons]
  by_cases heq : o' = o
  · rw [if_pos heq, heq, beq_self_eq_true]
  · rw [if_neg heq, beq_false_of_ne heq]
    rfl

namespace Eval

variable {σ α β : Type} {S : Script} {h : Host σ} {eval : Nat → Eval σ Value} {o : Nat} {x : Stage σ}

theorem bind_of_ok {m : Eval σ α} {f : α → Eval σ β} {a : α} {y : Stage σ} (hm : m x = .ok a y) :
    (m >>= f) x = f a y := by
  show EStateM.bind m f x = _
  rw [EStateM.bind, hm]

theorem bind_of_error {m : Eval σ α} {f : α → Eval σ β} {e : Interrupt} {y : Stage σ}
    (hm : m x = .error e y) : (m >>= f) x = .error e y := by
  show EStateM.bind m f x = _
  rw [EStateM.bind, hm]

theorem bind_congr_left {m n : Eval σ α} {f : α → Eval σ β} {y : Stage σ} (hm : m x = n y) :
    (m >>= f) x = (n >>= f) y := by
  show EStateM.bind m f x = EStateM.bind n f y
  rw [EStateM.bind, EStateM.bind, hm]

/-- An answer of the host is the value of a request. -/
theorem askFor_of_ok {m : StateM σ (Except HostError α)} {memory memory' : σ} {a : α}
    (hm : m memory = (.ok a, memory')) (name : String) (memo : Memo) :
    askFor name m ⟨memo, memory⟩ = .ok a ⟨memo, memory'⟩ := by
  have hask : ask m ⟨memo, memory⟩ = .ok (m memory).1 ⟨memo, (m memory).2⟩ := rfl
  rw [askFor, bind_of_ok hask, hm]
  rfl

/-- An error of the host is a fault under the name of the request. -/
theorem askFor_of_error {m : StateM σ (Except HostError α)} {memory memory' : σ} {e : HostError}
    (hm : m memory = (.error e, memory')) (name : String) (memo : Memo) :
    askFor name m ⟨memo, memory⟩ = .error (.fault (.ofHost name e) false) ⟨memo, memory'⟩ := by
  have hask : ask m ⟨memo, memory⟩ = .ok (m memory).1 ⟨memo, (m memory).2⟩ := rfl
  rw [askFor, bind_of_ok hask, hm]
  rfl

/-- A call whose result is kept is not made. -/
theorem call_of_found {v : Value} (hfind : x.memo.find? o = some v) (name : String) (awaited : Bool)
    (args : List Nat) : call h eval o name awaited args x = .ok v x := by
  rw [call, bind_of_ok (show remembered? o x = .ok (some v) x by rw [← hfind]; rfl)]
  rfl

/-- A call without a result is made, and its result is kept. -/
theorem call_of_missing (hfind : x.memo.find? o = none) (name : String) (awaited : Bool)
    (args : List Nat) : call h eval o name awaited args x =
      (args.mapM eval >>= fun values => request h o name awaited values >>= fun v =>
        remember o v >>= fun _ => pure v) x := by
  rw [call, bind_of_ok (show remembered? o x = .ok none x by rw [← hfind]; rfl)]

/-- An assignment that has been made is not made again. -/
theorem assign_of_found {v : Value} (hfind : x.memo.find? o = some v) (op : AssignOp)
    (name operand : Nat) : assign S h eval o op name operand x = .ok .void x := by
  rw [assign, bind_of_ok (show remembered? o x = .ok (some v) x by rw [← hfind]; rfl)]
  rfl

/-- An assignment is made, and that is kept. -/
theorem assign_of_missing (hfind : x.memo.find? o = none) (op : AssignOp) (name operand : Nat) :
    assign S h eval o op name operand x =
      (read (S.string name) >>= fun name => assigned h eval o op name operand >>= fun value =>
        askFor name (h.set name value) >>= fun _ => remember o .void >>= fun _ => pure .void) x := by
  rw [assign, bind_of_ok (show remembered? o x = .ok none x by rw [← hfind]; rfl)]
  rfl

end Eval

end Colloquy
