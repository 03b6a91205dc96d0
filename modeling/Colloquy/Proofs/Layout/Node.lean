import Colloquy.Code.Decode
import Colloquy.Proofs.Layout.Expr

/-!
# Decoding expressions

The words of an expression decode to its node, and to the end of the expression (`ExprAt.exprEnd`).
One lemma for each code says what a node decodes to once the ends of its operands are known; together
they give back every expression that `ExprAt` finds in a script.
-/

namespace Colloquy

/-- Things that stand one after another: `R a b s t` says that `a` stands between `s` and `t` and is
decoded as `b`. -/
inductive Row {α β : Type} (R : α → β → Nat → Nat → Prop) : List α → List β → Nat → Nat → Prop where
  | nil (s : Nat) : Row R [] [] s s
  | cons {a : α} {b : β} {as : List α} {bs : List β} {s m t : Nat} :
      R a b s m → Row R as bs m t → Row R (a :: as) (b :: bs) s t

/-- A thing that is decoded as the offset where it starts. -/
def Operand {α : Type} (R : α → Nat → Nat → Prop) (a : α) (o s t : Nat) : Prop := o = s ∧ R a s t

namespace Row

variable {α β : Type} {R : α → β → Nat → Nat → Prop} {as : List α} {bs : List β} {s t : Nat}

/-- Things that take up words need as many words as there are things. -/
theorem length_le (h : Row R as bs s t) (hR : ∀ a b s t, R a b s t → s < t) :
    s + as.length ≤ t := by
  induction h with
  | nil => exact Nat.le_refl _
  | cons ha _ ih =>
    have := hR _ _ _ _ ha
    rw [List.length_cons]
    omega

theorem length_eq (h : Row R as bs s t) : as.length = bs.length := by
  induction h with
  | nil => rfl
  | cons _ _ ih => rw [List.length_cons, List.length_cons, ih]

/-- A row may be said with less of each of its members. -/
theorem imp {Q : α → β → Nat → Nat → Prop} (h : Row R as bs s t)
    (hR : ∀ a ∈ as, ∀ b s t, R a b s t → Q a b s t) : Row Q as bs s t := by
  induction h with
  | nil s => exact .nil s
  | cons ha _ ih =>
    refine .cons (hR _ (List.mem_cons_self ..) _ _ _ ha) (ih ?_)
    intro a ha
    exact hR a (List.mem_cons_of_mem _ ha)

/-- What is decoded stands for something of the row. -/
theorem exists_of_mem (h : Row R as bs s t) {b : β} (hb : b ∈ bs) : ∃ a ∈ as, ∃ s t, R a b s t := by
  induction h with
  | nil => cases hb
  | cons ha _ ih =>
    rcases List.mem_cons.mp hb with rfl | hb
    · exact ⟨_, List.mem_cons_self .., _, _, ha⟩
    · obtain ⟨a, hmem, s, t, ha⟩ := ih hb
      exact ⟨a, List.mem_cons_of_mem _ hmem, s, t, ha⟩

/-- An entry on the left of a row stands at its place with one on the right. -/
theorem exists_of_mem_left (h : Row R as bs s t) {a : α} (ha : a ∈ as) :
    ∃ b, (a, b) ∈ as.zip bs ∧ ∃ s t, R a b s t := by
  induction h with
  | nil => cases ha
  | cons hfirst _ ih =>
    rcases List.mem_cons.mp ha with rfl | ha
    · exact ⟨_, List.mem_cons_self .., _, _, hfirst⟩
    · obtain ⟨b, hb, hrow⟩ := ih ha
      exact ⟨b, List.mem_cons_of_mem _ hb, hrow⟩

/-- A pair of a row stands at its place. -/
theorem exists_of_mem_zip (h : Row R as bs s t) {a : α} {b : β} (hmem : (a, b) ∈ as.zip bs) :
    ∃ s t, R a b s t := by
  induction h with
  | nil => cases hmem
  | cons hfirst _ ih =>
    rcases List.mem_cons.mp hmem with heq | hmem
    · obtain ⟨rfl, rfl⟩ := Prod.mk.inj heq
      exact ⟨_, _, hfirst⟩
    · exact ih hmem

/-- What holds of each pair at its place, and does not depend on the place, holds along the row. -/
theorem forall₂ {Q : α → β → Prop} (h : Row R as bs s t) (hR : ∀ a b s t, R a b s t → Q a b) :
    List.Forall₂ Q as bs := by
  induction h with
  | nil => exact .nil
  | cons hfirst _ ih => exact .cons (hR _ _ _ _ hfirst) ih

end Row

namespace Code

variable {S : Script} {endOf : Nat → Except CodeError Nat} {s t m : Nat} {w : UInt32}

theorem ok_bind {ε α β : Type} (a : α) (f : α → Except ε β) : (Except.ok a >>= f) = f a := rfl

theorem word_ok (h : S.words[s]? = some w) : S.word s = .ok w := by
  rw [Script.word, h]

theorem exprCode_ok {c : ExprCode} (h : S.Opens c s) : exprCode S s = .ok c := by
  rw [exprCode, word_ok h, ok_bind, ExprCode.ofWord?_word]
  rfl

/-- Operands that are read one list behind another are read as one list. -/
theorem operands_append (endOf : Nat → Except CodeError Nat) {as bs : List Nat} {n k : Nat}
    (ha : operands endOf n s = .ok (as, m)) (hb : operands endOf k m = .ok (bs, t)) :
    operands endOf (n + k) s = .ok (as ++ bs, t) := by
  induction n generalizing s as with
  | zero =>
    rw [operands] at ha
    obtain ⟨rfl, rfl⟩ := Prod.mk.inj (Except.ok.inj ha)
    rw [Nat.zero_add, hb, List.nil_append]
  | succ n ih =>
    rw [Nat.add_right_comm, operands]
    rw [operands] at ha
    cases hend : endOf s with
    | error e => rw [hend] at ha; cases ha
    | ok stop =>
      rw [hend, ok_bind] at ha
      rw [ok_bind]
      cases hrest : operands endOf n stop with
      | error e => rw [hrest] at ha; cases ha
      | ok rest =>
        obtain ⟨rest, last⟩ := rest
        rw [hrest, ok_bind] at ha
        obtain ⟨rfl, rfl⟩ := Prod.mk.inj (Except.ok.inj ha)
        rw [ih hrest, ok_bind]
        rfl

/-- An operand that is read in front of others is read with them. -/
theorem operands_cons (endOf : Nat → Except CodeError Nat) {os : List Nat} {n : Nat}
    (hs : endOf s = .ok m) (h : operands endOf n m = .ok (os, t)) :
    operands endOf (n + 1) s = .ok (s :: os, t) := by
  rw [operands, hs, ok_bind, h]
  rfl

/-! ## Nodes by their codes -/

section

variable (endOf)

theorem nodeAt_float (hc : S.Opens .float s) (hw : S.words[s + 1]? = some w) :
    nodeAt S endOf s = .ok (.float w.toNat, s + 2) := by
  simp only [nodeAt, exprCode_ok hc, word_ok hw, ok_bind]
  rfl

theorem nodeAt_string (hc : S.Opens .string s) (hw : S.words[s + 1]? = some w) :
    nodeAt S endOf s = .ok (.string w.toNat, s + 2) := by
  simp only [nodeAt, exprCode_ok hc, word_ok hw, ok_bind]
  rfl

/-- A word of a truth value and the value behind it are a node. -/
theorem nodeAt_bool {b : Bool} (hc : S.Opens .bool s)
    (hw : S.words[s + 1]? = some (if b then 1 else 0)) :
    nodeAt S endOf s = .ok (.bool b, s + 2) := by
  simp only [nodeAt, exprCode_ok hc, word_ok hw, ok_bind]
  cases b <;> rfl

theorem nodeAt_variable (hc : S.Opens .variable s) (hw : S.words[s + 1]? = some w) :
    nodeAt S endOf s = .ok (.variable w.toNat, s + 2) := by
  simp only [nodeAt, exprCode_ok hc, word_ok hw, ok_bind]
  rfl

theorem nodeAt_auto (hc : S.Opens .auto s) : nodeAt S endOf s = .ok (.auto, s + 1) := by
  simp only [nodeAt, exprCode_ok hc, ok_bind]
  rfl

theorem nodeAt_goto (hc : S.Opens .goto s) (hw : S.words[s + 1]? = some w) :
    nodeAt S endOf s = .ok (.goto w.toNat, s + 2) := by
  simp only [nodeAt, exprCode_ok hc, word_ok hw, ok_bind]
  rfl

variable {endOf}

theorem nodeAt_unary {op : UnaryOp} (hc : S.Opens (.unary op) s) (he : endOf (s + 1) = .ok t) :
    nodeAt S endOf s = .ok (.unary op (s + 1), t) := by
  simp only [nodeAt, exprCode_ok hc, he, ok_bind]
  rfl

theorem nodeAt_speed (hc : S.Opens .speed s) (he : endOf (s + 1) = .ok t) :
    nodeAt S endOf s = .ok (.speed (s + 1), t) := by
  simp only [nodeAt, exprCode_ok hc, he, ok_bind]
  rfl

theorem nodeAt_pause (hc : S.Opens .pause s) (he : endOf (s + 1) = .ok t) :
    nodeAt S endOf s = .ok (.pause (s + 1), t) := by
  simp only [nodeAt, exprCode_ok hc, he, ok_bind]
  rfl

theorem nodeAt_binary {op : BinaryOp} (hc : S.Opens (.binary op) s) (hl : endOf (s + 1) = .ok m)
    (hr : endOf m = .ok t) : nodeAt S endOf s = .ok (.binary op (s + 1) m, t) := by
  simp only [nodeAt, exprCode_ok hc, hl, hr, ok_bind]
  rfl

/-- An assignment names its variable and ends with its value. -/
theorem nodeAt_assign {op : AssignOp} (hc : S.Opens (.assign op) s)
    (hw : S.words[s + 1]? = some w) (hv : endOf (s + 2) = .ok t) :
    nodeAt S endOf s = .ok (.assign op w.toNat (s + 2), t) := by
  simp only [nodeAt, exprCode_ok hc, word_ok hw, hv, ok_bind]
  rfl

/-- A call names its function, says whether it is awaited and counts its arguments. -/
theorem nodeAt_call {b : Bool} {n : Nat} {os : List Nat} (hc : S.Opens .call s)
    (hw : S.words[s + 1]? = some w) (hb : S.words[s + 2]? = some (if b then 1 else 0))
    (hn : S.words[s + 3]? = some (UInt32.ofNat n)) (hlt : n < UInt32.size)
    (ho : operands endOf n (s + 4) = .ok (os, t)) :
    nodeAt S endOf s = .ok (.call w.toNat b os, t) := by
  simp only [nodeAt, exprCode_ok hc, word_ok hw, word_ok hb, word_ok hn,
    UInt32.toNat_ofNat_of_lt' hlt, ho, ok_bind]
  cases b <;> rfl

end

end Code

open Code

/-! ## Ends of expressions -/

section

variable {P : Float → Prop} {S : Script} {r : Registry} {s t : Nat}

theorem Script.lt_size {w : UInt32} (h : S.words[s]? = some w) : s < S.words.size :=
  (Array.getElem?_eq_some_iff.mp h).1

/-- A literal takes two words. -/
theorem LiteralAt.bounds {v : Literal} (h : LiteralAt P S v s t) :
    t = s + 2 ∧ t ≤ S.words.size := by
  cases v with
  | float x =>
    obtain ⟨_, ⟨w, y, hw, _⟩, rfl⟩ := h
    exact ⟨rfl, Script.lt_size hw⟩
  | string x =>
    obtain ⟨_, ⟨w, hw, _⟩, rfl⟩ := h
    exact ⟨rfl, Script.lt_size hw⟩
  | bool b =>
    obtain ⟨_, hw, rfl⟩ := h
    exact ⟨rfl, Script.lt_size hw⟩

variable (P S) in
/-- A literal and the node that it is decoded as. -/
inductive LiteralNode : Literal → Node → Prop where
  | float {x y : Float} {i : Nat} :
      S.floats[i]? = some y → Assembly.sameFloat x y = true → P x → P y →
      LiteralNode (.float x) (.float i)
  | string {x : String} {i : Nat} : S.strings[i]? = some x → LiteralNode (.string x) (.string i)
  | bool (b : Bool) : LiteralNode (.bool b) (.bool b)

/-- A literal is decoded to a node that stands for it, whatever is known of the ends of expressions. -/
theorem LiteralAt.nodeAt {v : Literal} (h : LiteralAt P S v s t)
    (endOf : Nat → Except CodeError Nat) :
    ∃ node, Code.nodeAt S endOf s = .ok (node, t) ∧ LiteralNode P S v node := by
  cases v with
  | float x =>
    obtain ⟨hc, ⟨w, y, hw, hy, hsame, hPx, hPy⟩, rfl⟩ := h
    exact ⟨_, nodeAt_float endOf hc hw, .float hy hsame hPx hPy⟩
  | string x =>
    obtain ⟨hc, ⟨w, hw, hx⟩, rfl⟩ := h
    exact ⟨_, nodeAt_string endOf hc hw, .string hx⟩
  | bool b =>
    obtain ⟨hc, hw, rfl⟩ := h
    exact ⟨_, nodeAt_bool endOf hc hw, .bool b⟩

theorem endWithin_of_nodeAt {fuel : Nat} {node : Node}
    (h : Code.nodeAt S (endWithin S fuel) s = .ok (node, t)) : endWithin S (fuel + 1) s = .ok t := by
  rw [endWithin, h]
  rfl

/-- Literals one behind another start at the places of a row. -/
theorem LiteralsAt.row {vs : List Literal} (h : LiteralsAt P S vs s t) :
    ∃ os, Row (Operand (LiteralAt P S)) vs os s t := by
  induction vs generalizing s with
  | nil =>
    obtain rfl := h
    exact ⟨[], .nil _⟩
  | cons v vs ih =>
    obtain ⟨m, hv, hvs⟩ := h
    obtain ⟨os, hos⟩ := ih hvs
    exact ⟨_, .cons ⟨rfl, hv⟩ hos⟩

/-- Literals in a row are read as operands, with as many steps as they have words. -/
theorem LiteralAt.operands_row {vs : List Literal} {os : List Nat}
    (h : Row (Operand (LiteralAt P S)) vs os s t) {fuel : Nat} (hfuel : t ≤ s + fuel) :
    operands (endWithin S fuel) vs.length s = .ok (os, t) := by
  induction h with
  | nil s => rfl
  | @cons v o vs os s m t hv hvs ih =>
    obtain ⟨rfl, hv⟩ := hv
    obtain ⟨hm, _⟩ := hv.bounds
    have hle := hvs.length_le fun _ _ _ _ h => by have := h.2.bounds.1; omega
    obtain ⟨fuel, rfl⟩ : ∃ k, fuel = k + 1 := ⟨fuel - 1, by omega⟩
    obtain ⟨node, hnode, _⟩ := hv.nodeAt (endWithin S fuel)
    exact operands_cons _ (endWithin_of_nodeAt hnode) (ih (by omega))

/-- Literals take a word at least, and stay in the script. -/
theorem LiteralsAt.bounds {vs : List Literal} (h : LiteralsAt P S vs s t) (hs : s ≤ S.words.size) :
    s + vs.length ≤ t ∧ t ≤ S.words.size := by
  induction vs generalizing s with
  | nil =>
    obtain rfl := h
    exact ⟨Nat.le_refl _, hs⟩
  | cons v vs ih =>
    obtain ⟨m, hv, hvs⟩ := h
    obtain ⟨rfl, hm⟩ := hv.bounds
    obtain ⟨hlen, ht⟩ := ih hvs hm
    rw [List.length_cons]
    exact ⟨by omega, ht⟩

mutual

/-- An expression takes a word at least, and stays in the script. -/
theorem ExprAt.bounds : {e : Expr} → {s t : Nat} → ExprAt P S r e s t → s < t ∧ t ≤ S.words.size
  | .literal v _, s, t, h => by
    rw [ExprAt] at h
    obtain ⟨rfl, ht⟩ := h.bounds
    exact ⟨by omega, ht⟩
  | .variable x, s, t, h => by
    rw [ExprAt] at h
    obtain ⟨_, ⟨w, hw, _⟩, rfl⟩ := h
    exact ⟨by omega, Script.lt_size hw⟩
  | .group e, s, t, h => by
    rw [ExprAt] at h
    exact h.bounds
  | .unary op e, s, t, h => by
    rw [ExprAt] at h
    obtain ⟨hlt, ht⟩ := h.2.bounds
    exact ⟨by omega, ht⟩
  | .binary op left right, s, t, h => by
    rw [ExprAt] at h
    obtain ⟨_, m, hl, hr⟩ := h
    obtain ⟨hlt, _⟩ := hl.bounds
    obtain ⟨hlt', ht⟩ := hr.bounds
    exact ⟨by omega, ht⟩
  | .assign x op value, s, t, h => by
    rw [ExprAt] at h
    obtain ⟨hlt, ht⟩ := h.2.2.bounds
    exact ⟨by omega, ht⟩
  | .call f args awaited _, s, t, h => by
    rw [ExprAt] at h
    obtain ⟨_, _, _, hn, m, hargs, hfill⟩ := h
    obtain ⟨hlen, hm⟩ := hargs.bounds (Script.lt_size hn)
    obtain ⟨hlen', ht⟩ := hfill.bounds hm
    exact ⟨by omega, ht⟩

/-- Expressions take a word each at least, and stay in the script. -/
theorem ExprsAt.bounds : {es : List Expr} → {s t : Nat} → ExprsAt P S r es s t →
    s ≤ S.words.size → s + es.length ≤ t ∧ t ≤ S.words.size
  | [], s, t, h, hs => by
    rw [ExprsAt] at h
    obtain rfl := h
    exact ⟨Nat.le_refl _, hs⟩
  | e :: es, s, t, h, hs => by
    rw [ExprsAt] at h
    obtain ⟨m, he, hes⟩ := h
    obtain ⟨hlt, hm⟩ := he.bounds
    obtain ⟨hlen, ht⟩ := hes.bounds hm
    rw [List.length_cons]
    exact ⟨by omega, ht⟩

end

/-- Expressions one behind another start at the places of a row. -/
theorem ExprsAt.row {es : List Expr} {s t : Nat} (h : ExprsAt P S r es s t) :
    ∃ os, Row (Operand (ExprAt P S r)) es os s t := by
  induction es generalizing s with
  | nil =>
    rw [ExprsAt] at h
    obtain rfl := h
    exact ⟨[], .nil _⟩
  | cons e es ih =>
    rw [ExprsAt] at h
    obtain ⟨m, he, hes⟩ := h
    obtain ⟨os, hos⟩ := ih hes
    exact ⟨_, .cons ⟨rfl, he⟩ hos⟩

/-- The operands of a call: its arguments and the defaults after them. -/
theorem operands_call {args : List Expr} {vs : List Literal} {os ps : List Nat} {s m t fuel : Nat}
    (hargs : Row (Operand (ExprAt P S r)) args os s m)
    (hfill : Row (Operand (LiteralAt P S)) vs ps m t)
    (hend : ∀ e ∈ args, ∀ u v, ExprAt P S r e u v → v ≤ u + fuel → endWithin S fuel u = .ok v)
    (hfuel : t ≤ s + fuel) :
    operands (endWithin S fuel) (args.length + vs.length) s = .ok (os ++ ps, t) := by
  have hle := hfill.length_le fun _ _ _ _ h => by have := h.2.bounds.1; omega
  have hle' := hargs.length_le fun _ _ _ _ h => h.2.bounds.1
  refine operands_append _ ?_ (LiteralAt.operands_row hfill (by omega))
  clear hfill hle'
  induction hargs with
  | nil s => rfl
  | @cons e o es os s m' m he hes ih =>
    obtain ⟨rfl, he⟩ := he
    have hlt := he.bounds.1
    have hle' := hes.length_le fun _ _ _ _ h => h.2.bounds.1
    refine operands_cons _ (hend e (List.mem_cons_self ..) _ _ he (by omega)) (ih ?_ ?_ ?_)
    · intro e' he'
      exact hend e' (List.mem_cons_of_mem _ he')
    · omega
    · exact hle

/-- The number of operands of a call fits into its word. -/
theorem call_count_lt {args : List Expr} {vs : List Literal} {s m t : Nat}
    (hS : S.words.size < UInt32.size) (hs : s ≤ S.words.size) (hargs : ExprsAt P S r args s m)
    (hfill : LiteralsAt P S vs m t) : args.length + vs.length < UInt32.size := by
  obtain ⟨hlen, hm⟩ := hargs.bounds hs
  obtain ⟨hlen', ht⟩ := hfill.bounds hm
  omega

mutual

/-- The end of an expression is found with as much fuel as it has words. -/
theorem ExprAt.endWithin (hS : S.words.size < UInt32.size) : (e : Expr) → {s t fuel : Nat} →
    ExprAt P S r e s t → t ≤ s + fuel → Code.endWithin S fuel s = .ok t
  | e, s, t, 0, h, hfuel => by
    have := h.bounds.1
    omega
  | .literal v _, s, t, fuel + 1, h, hfuel => by
    rw [ExprAt] at h
    obtain ⟨node, hnode, _⟩ := h.nodeAt (Code.endWithin S fuel)
    exact endWithin_of_nodeAt hnode
  | .variable x, s, t, fuel + 1, h, hfuel => by
    rw [ExprAt] at h
    obtain ⟨hc, ⟨w, hw, _⟩, rfl⟩ := h
    exact endWithin_of_nodeAt (nodeAt_variable _ hc hw)
  | .group e, s, t, fuel + 1, h, hfuel => by
    rw [ExprAt] at h
    exact ExprAt.endWithin hS e h hfuel
  | .unary op e, s, t, fuel + 1, h, hfuel => by
    rw [ExprAt] at h
    obtain ⟨hc, he⟩ := h
    exact endWithin_of_nodeAt (nodeAt_unary hc (ExprAt.endWithin hS e he (by omega)))
  | .binary op left right, s, t, fuel + 1, h, hfuel => by
    rw [ExprAt] at h
    obtain ⟨hc, m, hl, hr⟩ := h
    have := hl.bounds.1
    have := hr.bounds.1
    exact endWithin_of_nodeAt (nodeAt_binary hc (ExprAt.endWithin hS left hl (by omega))
      (ExprAt.endWithin hS right hr (by omega)))
  | .assign x op value, s, t, fuel + 1, h, hfuel => by
    rw [ExprAt] at h
    obtain ⟨hc, ⟨w, hw, _⟩, hv⟩ := h
    exact endWithin_of_nodeAt (nodeAt_assign hc hw (ExprAt.endWithin hS value hv (by omega)))
  | .call f args awaited _, s, t, fuel + 1, h, hfuel => by
    rw [ExprAt] at h
    obtain ⟨hc, ⟨w, hw, _⟩, hb, hn, m, hargs, hfill⟩ := h
    obtain ⟨os, hos⟩ := hargs.row
    obtain ⟨ps, hps⟩ := hfill.row
    have hcount := call_count_lt hS (Script.lt_size hn) hargs hfill
    refine endWithin_of_nodeAt (nodeAt_call hc hw hb hn hcount (operands_call hos hps ?_ (by omega)))
    exact ExprsAt.endWithin hS args

/-- Each of some expressions ends where it stands to, with as many steps as it has words. -/
theorem ExprsAt.endWithin (hS : S.words.size < UInt32.size) : (es : List Expr) → {fuel : Nat} →
    ∀ e ∈ es, ∀ s t, ExprAt P S r e s t → t ≤ s + fuel → Code.endWithin S fuel s = .ok t
  | [], _ => by
    intro e he
    cases he
  | e :: es, fuel => by
    intro e' he' s t h hfuel
    rcases List.mem_cons.mp he' with heq | hmem
    · rw [heq] at h
      exact ExprAt.endWithin hS e h hfuel
    · exact ExprsAt.endWithin hS es e' hmem s t h hfuel

end

/-- An expression ends where its words end. -/
theorem ExprAt.exprEnd {e : Expr} (h : ExprAt P S r e s t) (hS : S.words.size < UInt32.size) :
    S.exprEnd s = .ok t := by
  have := h.bounds
  exact h.endWithin hS e (by omega)

theorem ExprAt.operandEnd {e : Expr} (h : ExprAt P S r e s t) (hS : S.words.size < UInt32.size) :
    Code.endWithin S S.words.size s = .ok t := by
  have := h.bounds
  exact h.endWithin hS e (by omega)

/-! ## Expressions by their forms -/

/-- A variable is decoded to the index of its name. -/
theorem ExprAt.decode_variable {x : Ident} (h : ExprAt P S r (.variable x) s t) :
    ∃ i, S.decodeExpr s = .ok (.variable i, t) ∧ S.strings[i]? = some x.name := by
  rw [ExprAt] at h
  obtain ⟨hc, ⟨w, hw, hx⟩, rfl⟩ := h
  exact ⟨w.toNat, nodeAt_variable _ hc hw, hx⟩

/-- An operator of one operand is decoded with the operand behind it. -/
theorem ExprAt.decode_unary {op : Spanned UnaryOp} {e : Expr} (h : ExprAt P S r (.unary op e) s t)
    (hS : S.words.size < UInt32.size) :
    S.decodeExpr s = .ok (.unary op.val (s + 1), t) ∧ ExprAt P S r e (s + 1) t := by
  rw [ExprAt] at h
  obtain ⟨hc, he⟩ := h
  exact ⟨nodeAt_unary hc (he.operandEnd hS), he⟩

/-- An operator of two operands is decoded with both, one behind the other. -/
theorem ExprAt.decode_binary {op : Spanned BinaryOp} {left right : Expr}
    (h : ExprAt P S r (.binary op left right) s t) (hS : S.words.size < UInt32.size) :
    ∃ m, S.decodeExpr s = .ok (.binary op.val (s + 1) m, t) ∧ ExprAt P S r left (s + 1) m ∧
      ExprAt P S r right m t := by
  rw [ExprAt] at h
  obtain ⟨hc, m, hl, hr⟩ := h
  exact ⟨m, nodeAt_binary hc (hl.operandEnd hS) (hr.operandEnd hS), hl, hr⟩

/-- An assignment is decoded with the index of its variable and the value behind it. -/
theorem ExprAt.decode_assign {x : Ident} {op : Spanned AssignOp} {value : Expr}
    (h : ExprAt P S r (.assign x op value) s t) (hS : S.words.size < UInt32.size) :
    ∃ i, S.decodeExpr s = .ok (.assign op.val i (s + 2), t) ∧ S.strings[i]? = some x.name ∧
      ExprAt P S r value (s + 2) t := by
  rw [ExprAt] at h
  obtain ⟨hc, ⟨w, hw, hx⟩, hv⟩ := h
  exact ⟨w.toNat, nodeAt_assign hc hw (hv.operandEnd hS), hx, hv⟩

/-- A call decodes to its arguments and the defaults after them. -/
theorem ExprAt.decode_call {f : Ident} {args : List Expr} {awaited : Option Span} {close : Span}
    (h : ExprAt P S r (.call f args awaited close) s t) (hS : S.words.size < UInt32.size) :
    ∃ i os ps m, S.decodeExpr s = .ok (.call i awaited.isSome (os ++ ps), t) ∧
      S.strings[i]? = some f.name ∧ Row (Operand (ExprAt P S r)) args os (s + 4) m ∧
      Row (Operand (LiteralAt P S)) (r.fallbacks f.name args.length) ps m t := by
  rw [ExprAt] at h
  obtain ⟨hc, ⟨w, hw, hx⟩, hb, hn, m, hargs, hfill⟩ := h
  obtain ⟨os, hos⟩ := hargs.row
  obtain ⟨ps, hps⟩ := hfill.row
  have hcount := call_count_lt hS (Script.lt_size hn) hargs hfill
  have ht := (hfill.bounds (hargs.bounds (Script.lt_size hn)).2).2
  have hoperands : operands (Code.endWithin S S.words.size) _ (s + 4) = _ :=
    operands_call hos hps (ExprsAt.endWithin hS args) (by omega)
  exact ⟨w.toNat, os, ps, m, nodeAt_call hc hw hb hn hcount hoperands, hx, hos, hps⟩

end

end Colloquy
