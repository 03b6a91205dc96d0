import Colloquy.Proofs.Code.Depth
import Colloquy.Proofs.Layout.Pools
import Colloquy.Proofs.Layout.Story
import Colloquy.Story.Printer

/-!
# Listings write expressions as stories do

An expression without calls is written the same way twice: by walking the tree, and by walking the words
that it is lowered to.  The lowering may start with any words and any pools, and the words may be read from
any script that keeps them (`Script.Retains`), so that nothing depends on what stands around the expression
or is added later.  The induction is on the expression: each node is decoded where its lowering starts, and
its operands where theirs do.
-/

namespace Colloquy

open Code

/-- There is no call in an expression. -/
def Expr.callFree : Expr → Bool
  | .literal .. | .variable _ => true
  | .group e | .unary _ e | .assign _ _ e => e.callFree
  | .binary _ left right => left.callFree && right.callFree
  | .call .. => false

namespace Script

/-! ## Texts -/

/-- A node that is decoded gives the end and the text of its expression. -/
theorem end_and_text_of_nodeAt {S : Script} {s t : Nat} {node : Node}
    (h : nodeAt S S.exprEnd s = .ok (node, t)) :
    S.exprEnd s = .ok t ∧ S.exprText s = S.nodeText S.exprText node := by
  have hdecode : S.decodeExpr s = .ok (node, t) := (S.decodeExpr_eq s).trans h
  refine ⟨by rw [S.exprEnd_eq s, hdecode]; rfl, ?_⟩
  rw [Script.exprText, exprTextWithin_eq_textCut, textCut, hdecode, ok_bind]
  -- operands lie beyond the node, so one level less is deep enough for them
  refine nodeText_congr fun o ho => textCut_eq _ ?_
  have := Script.lt_of_mem_operands hdecode ho
  have := Script.lt_size_of_decodeExpr hdecode
  omega

/-! ## Scripts that keep words -/

/-- What a script holds from an offset on is kept in another one, and so are the places of texts and
floats. -/
structure Retains (T S : Script) (s : Nat) : Prop where
  word : ∀ i, s ≤ i → i < S.words.size → T.words[i]? = S.words[i]?
  strings : S.strings.toList <+: T.strings.toList
  floats : S.floats.toList <+: T.floats.toList

namespace Retains

variable {S T U : Script} {s t : Nat}

/-- What is kept of what is kept is kept, as long as the words reach back far enough. -/
theorem trans (hU : U.Retains T t) (hT : T.Retains S s) (hst : t ≤ s) : U.Retains S s where
  word i hi hlt := by
    have hword := hT.word i hi hlt
    have hsize : i < T.words.size := by
      rw [Array.getElem?_eq_getElem hlt] at hword
      exact (Array.getElem?_eq_some_iff.mp hword).1
    rw [hU.word i (hst.trans hi) hsize, hword]
  strings := hT.strings.trans hU.strings
  floats := hT.floats.trans hU.floats

theorem later (h : T.Retains S s) (hst : s ≤ t) : T.Retains S t :=
  { h with word := fun i hi => h.word i (hst.trans hi) }

end Retains

end Script

/-- A finished script keeps what was written after the gaps. -/
theorem Draft.finish_retains (d : Draft) {s : Nat} (hgaps : ∀ g ∈ d.assembly.gaps, g.offset < s) :
    d.assembly.finish.1.Retains d.assembly.script s where
  word i hi hlt := by
    have hword := d.getElem?_artifact hlt
    rw [getElem?_fillGaps_of_ne] at hword
    · exact hword
    · intro g hg
      have := hgaps g (Array.mem_toList_iff.mp hg)
      omega
  strings := List.prefix_refl _
  floats := List.prefix_refl _

/-! ## Steps of a lowering -/

namespace Lower

variable {T : Script} {d : Draft} {s : Nat}

theorem emit_offset (w : UInt32) (d : Draft) :
    (emit w d).2.assembly.offset = d.assembly.offset + 1 := Array.size_push w

/-- A word that is laid down changes nothing in front of it. -/
theorem emit_retains (w : UInt32) (d : Draft) (s : Nat) :
    (emit w d).2.assembly.script.Retains d.assembly.script s where
  word _ _ hi := (Array.getElem?_push_lt hi).trans (Array.getElem?_eq_getElem hi).symm
  strings := List.prefix_refl _
  floats := List.prefix_refl _

/-- The word is where the offset was. -/
theorem emit_word {w : UInt32} (hT : T.Retains (emit w d).2.assembly.script s)
    (hs : s ≤ d.assembly.offset) : T.words[d.assembly.offset]? = some w :=
  (hT.word _ hs (by rw [← Assembly.offset, emit_offset]; omega)).trans Array.getElem?_push_size

/-- A string that is asked for changes no word and no place of a pool. -/
theorem string_retains (x : String) (d : Draft) (s : Nat) :
    (string x d).2.assembly.script.Retains d.assembly.script s where
  word _ _ _ := rfl
  strings := Assembly.intern_prefix (· == ·) d.assembly.script.strings x
  floats := List.prefix_refl _

/-- A string has its place in every script that keeps what there was when it was asked for. -/
theorem string_place {x : String} (hT : T.Retains (string x d).2.assembly.script s)
    (hsize : T.strings.size ≤ UInt32.size) : T.strings[(string x d).1.toNat]? = some x := by
  have hclasses : Assembly.Classes fun a b : String => a == b := Assembly.beq_classes
  obtain ⟨y, hplace, hfind⟩ := Assembly.intern_place hclasses.refl hT.strings hsize
  obtain rfl : x = y := eq_of_beq (Array.find?_some hfind)
  exact hplace

/-- A float that is asked for changes no word and no place either. -/
theorem float_retains (x : Float) (d : Draft) (s : Nat) :
    (fetch (·.float x) d).2.assembly.script.Retains d.assembly.script s where
  word _ _ _ := rfl
  strings := List.prefix_refl _
  floats := Assembly.intern_prefix Assembly.sameFloat d.assembly.script.floats x

/-- A float has the place of the first float that is the same, in every script that keeps what there was
when it was asked for. -/
theorem float_place {x : Float} (hT : T.Retains (fetch (·.float x) d).2.assembly.script s)
    (hsize : T.floats.size ≤ UInt32.size) :
    ∃ y, T.floats[(fetch (·.float x) d).1.toNat]? = some y ∧
      T.floats.find? (Assembly.sameFloat x) = some y :=
  Assembly.intern_place sameFloat_self hT.floats hsize

/-! ## Expressions -/

/-- The lowering of a literal keeps what was there. -/
theorem literal_retains (v : Literal) (d : Draft) (s : Nat) :
    (literal v d).2.assembly.script.Retains d.assembly.script s := by
  cases v with
  | float x =>
    exact (emit_retains _ _ s).trans ((emit_retains _ _ s).trans (float_retains x d s) le_rfl) le_rfl
  | string x =>
    exact (emit_retains _ _ s).trans ((emit_retains _ _ s).trans (string_retains x d s) le_rfl) le_rfl
  | bool b => exact (emit_retains _ _ s).trans (emit_retains _ d s) le_rfl

/-- The lowering of an expression without calls keeps what was there, and moves on. -/
theorem expr_retains (r : Registry) : (e : Expr) → e.callFree = true → (d : Draft) → (s : Nat) →
    (expr r e d).2.assembly.script.Retains d.assembly.script s
  | .literal v _, _, d, s => by
    rw [expr]
    exact literal_retains v d s
  | .variable x, _, d, s => by
    rw [expr]
    exact (emit_retains _ _ s).trans ((emit_retains _ _ s).trans (string_retains x.name d s) le_rfl) le_rfl
  | .group e, he, d, s => by
    rw [expr]
    exact expr_retains r e he d s
  | .unary op e, he, d, s => by
    rw [expr]
    exact (expr_retains r e he _ s).trans (emit_retains _ d s) le_rfl
  | .binary op left right, he, d, s => by
    rw [Expr.callFree, Bool.and_eq_true] at he
    rw [expr]
    refine (expr_retains r right he.2 _ s).trans ?_ le_rfl
    exact (expr_retains r left he.1 _ s).trans (emit_retains _ d s) le_rfl
  | .assign x op value, he, d, s => by
    rw [expr]
    refine (expr_retains r value he _ s).trans ?_ le_rfl
    exact (emit_retains _ _ s).trans ((emit_retains _ _ s).trans (string_retains x.name d s) le_rfl) le_rfl

end Lower

/-! ## Texts of expressions -/

/-- The float at the place of a float is written like it. -/
def Script.WritesLike (T : Script) (x : Float) : Prop :=
  ∀ y, T.floats.find? (Assembly.sameFloat x) = some y → Number.plain y = Number.plain x

instance (T : Script) (x : Float) : Decidable (T.WritesLike x) :=
  inferInstanceAs (Decidable (∀ y ∈ T.floats.find? (Assembly.sameFloat x),
    Number.plain y = Number.plain x))

/-- At an offset stands an expression of a text, up to another offset. -/
def Script.TextAt (T : Script) (s t : Nat) (text : String) : Prop :=
  T.exprEnd s = .ok t ∧ T.exprText s = .ok text

namespace Lower

variable {T : Script}

/-- A node of two words, the second of them an operand. -/
theorem leaf_text {c : ExprCode} {w : UInt32} {d : Draft} {node : Node} {text : String}
    (hnode : T.Opens c d.assembly.offset → T.words[d.assembly.offset + 1]? = some w →
      nodeAt T T.exprEnd d.assembly.offset = .ok (node, d.assembly.offset + 2))
    (htext : T.nodeText T.exprText node = .ok text)
    (hT : T.Retains (emit w (emit c.word d).2).2.assembly.script d.assembly.offset) :
    T.TextAt d.assembly.offset (emit w (emit c.word d).2).2.assembly.offset text := by
  have hmiddle := emit_offset c.word d
  have hcode := emit_word (hT.trans (emit_retains w _ _) le_rfl) le_rfl
  have hword := emit_word hT (by omega)
  rw [hmiddle] at hword
  obtain ⟨hend, hwritten⟩ := Script.end_and_text_of_nodeAt (hnode hcode hword)
  rw [emit_offset, hmiddle]
  exact ⟨hend, hwritten.trans htext⟩

/-- The words of a literal are written as the literal is, floats as the first one of the pool that is the
same. -/
theorem literal_text {v : Literal} {d : Draft} (hstrings : T.strings.size ≤ UInt32.size)
    (hfloats : T.floats.size ≤ UInt32.size) (hv : v.Floats T.WritesLike)
    (hT : T.Retains (literal v d).2.assembly.script d.assembly.offset) :
    T.TextAt d.assembly.offset (literal v d).2.assembly.offset v.render := by
  cases v with
  | float x =>
    obtain ⟨y, hplace, hfind⟩ := float_place
      ((hT.trans (emit_retains _ _ _) le_rfl).trans (emit_retains _ _ _) le_rfl) hfloats
    refine leaf_text (w := (fetch (·.float x) d).1) (d := (fetch (·.float x) d).2)
      (nodeAt_float T.exprEnd) ?_ hT
    rw [Script.nodeText, Script.float, hplace]
    exact congrArg Except.ok (hv y hfind)
  | string x =>
    have hplace := string_place
      ((hT.trans (emit_retains _ _ _) le_rfl).trans (emit_retains _ _ _) le_rfl) hstrings
    refine leaf_text (w := (string x d).1) (d := (string x d).2) (nodeAt_string T.exprEnd) ?_ hT
    rw [Script.nodeText, Script.string, hplace]
    rfl
  | bool b =>
    refine leaf_text (nodeAt_bool T.exprEnd) ?_ hT
    rfl

/-- The words of an expression without calls are written as the expression is. -/
theorem expr_text (r : Registry) (hstrings : T.strings.size ≤ UInt32.size)
    (hfloats : T.floats.size ≤ UInt32.size) : (e : Expr) → e.callFree = true → e.Floats T.WritesLike →
    (d : Draft) → T.Retains (expr r e d).2.assembly.script d.assembly.offset →
      T.TextAt d.assembly.offset (expr r e d).2.assembly.offset e.render
  | .literal v _, _, hx, d, hT => by
    rw [expr] at hT ⊢
    rw [Expr.render]
    exact literal_text hstrings hfloats hx hT
  | .variable x, _, _, d, hT => by
    rw [expr] at hT ⊢
    rw [Expr.render]
    have hplace := string_place
      ((hT.trans (emit_retains _ _ _) le_rfl).trans (emit_retains _ _ _) le_rfl) hstrings
    refine leaf_text (w := (string x.name d).1) (d := (string x.name d).2) (nodeAt_variable T.exprEnd)
      ?_ hT
    rw [Script.nodeText, Script.string, hplace]
  | .group e, he, hx, d, hT => by
    rw [expr] at hT ⊢
    rw [Expr.render]
    exact expr_text r hstrings hfloats e he hx d hT
  | .unary op e, he, hx, d, hT => by
    rw [expr, bind_apply] at hT ⊢
    have hcode := emit_word (hT.trans (expr_retains r e he _ _) le_rfl) le_rfl
    have hinner := hT.later (t := (emit (ExprCode.unary op.val).word d).2.assembly.offset)
      (by rw [emit_offset]; omega)
    obtain ⟨hend, htext⟩ := expr_text r hstrings hfloats e he hx _ hinner
    rw [emit_offset] at hend htext
    obtain ⟨hend', hwritten⟩ := Script.end_and_text_of_nodeAt (nodeAt_unary hcode hend)
    refine ⟨hend', hwritten.trans ?_⟩
    rw [Script.nodeText, htext, ExprCode.symbol_unary, Expr.render]
    rfl
  | .binary op left right, he, hx, d, hT => by
    rw [Expr.callFree, Bool.and_eq_true] at he
    rw [expr, bind_apply, bind_apply] at hT ⊢
    have hstart := emit_offset (ExprCode.binary op.val).word d
    have hleft := hT.trans (expr_retains r right he.2 _ _) le_rfl
    have hcode := emit_word (hleft.trans (expr_retains r left he.1 _ _) le_rfl) le_rfl
    obtain ⟨hend, htext⟩ := expr_text r hstrings hfloats left he.1 hx.1 _ (hleft.later (by omega))
    -- the second operand starts where the first one ends
    have hmiddle := Script.lt_of_exprEnd hend
    obtain ⟨hend', htext'⟩ := expr_text r hstrings hfloats right he.2 hx.2 _ (hT.later (by omega))
    rw [hstart] at hend htext
    obtain ⟨hstop, hwritten⟩ := Script.end_and_text_of_nodeAt (nodeAt_binary hcode hend hend')
    refine ⟨hstop, hwritten.trans ?_⟩
    rw [Script.nodeText, htext, ok_bind, htext', ExprCode.symbol_binary, Expr.render]
    rfl
  | .assign x op value, he, hx, d, hT => by
    rw [expr, bind_apply, bind_apply, bind_apply] at hT ⊢
    have hstart := emit_offset (ExprCode.assign op.val).word (string x.name d).2
    have hmiddle := emit_offset (string x.name d).1 (emit (ExprCode.assign op.val).word (string x.name d).2).2
    have hname := hT.trans (expr_retains r value he _ _) le_rfl
    have hopened := hname.trans (emit_retains _ _ _) le_rfl
    have hplace := string_place (hopened.trans (emit_retains _ _ _) le_rfl) hstrings
    have hcode := emit_word hopened (d := (string x.name d).2) le_rfl
    have hword := emit_word hname (by rw [hstart]; exact Nat.le_succ _)
    have hoffset : (string x.name d).2.assembly.offset = d.assembly.offset := rfl
    obtain ⟨hend, htext⟩ := expr_text r hstrings hfloats value he hx _ (hT.later (by omega))
    rw [hmiddle, hstart] at hend htext
    rw [hstart] at hword
    obtain ⟨hstop, hwritten⟩ := Script.end_and_text_of_nodeAt (nodeAt_assign hcode hword hend)
    refine ⟨hstop, hwritten.trans ?_⟩
    rw [Script.nodeText, Script.string, hplace, ok_bind, htext, ExprCode.symbol_assign, Expr.render]
    rfl

end Lower

/-- The two printers agree.  An expression without calls is lowered behind any words and into any pools;
whatever script keeps the words of it, they are written there as the expression is, if the place of each
of its floats has a float that is written like it. -/
theorem exprText_eq_render (r : Registry) {e : Expr} (he : e.callFree = true) (d : Draft) {T : Script}
    (hT : T.Retains (Lower.expr r e d).2.assembly.script d.assembly.offset)
    (hstrings : T.strings.size ≤ UInt32.size) (hfloats : T.floats.size ≤ UInt32.size)
    (hwritten : e.Floats T.WritesLike) : T.exprText d.assembly.offset = .ok e.render :=
  (Lower.expr_text r hstrings hfloats e he hwritten d hT).2

/-- A wager: `gold -= (2 * -price) + 1.5 == bet or !(ready and "a\"b" != true)`. -/
def wager : Expr :=
  .assign ⟨"gold", default⟩ ⟨.sub, default⟩ (.binary ⟨.or, default⟩
    (.binary ⟨.equal, default⟩
      (.binary ⟨.add, default⟩
        (.group (.binary ⟨.mul, default⟩ (.literal (.float 2) default)
          (.unary ⟨.negate, default⟩ (.variable ⟨"price", default⟩))))
        (.literal (.float 1.5) default))
      (.variable ⟨"bet", default⟩))
    (.unary ⟨.not, default⟩ (.group (.binary ⟨.and, default⟩ (.variable ⟨"ready", default⟩)
      (.binary ⟨.notEqual, default⟩ (.literal (.string "a\"b") default)
        (.literal (.bool true) default))))))

/-- A draft with a word that waits for a label, and with some values in its pools. -/
def wagerDraft : Draft :=
  ⟨⟨⟨#["Ann"], #[0, 1.5], #["bet", "gold"], #[3, 0xFFFFFFFF]⟩, #[.unbound], #[⟨1, ⟨0⟩⟩], #[]⟩, ∅, []⟩

/-- The wager is written the same way in the script that the draft is finished to. -/
theorem exprText_of_wager : wager.callFree = true ∧
    (Lower.expr .empty wager wagerDraft).2.assembly.finish.1.exprText 2 =
      .ok "(-= gold (or (== (+ (* 2 (- price)) 1.5) bet) (! (and ready (!= \"a\\\"b\" true)))))" := by
  refine ⟨rfl, ?_⟩
  have hgaps : ∀ g ∈ (Lower.expr .empty wager wagerDraft).2.assembly.gaps, g.offset < 2 := by
    decide +kernel
  have hwritten : wager.Floats (Lower.expr .empty wager wagerDraft).2.assembly.finish.1.WritesLike := by
    simp only [wager, Expr.Floats, Literal.Floats, and_true]
    decide +kernel
  refine (exprText_eq_render .empty (e := wager) rfl wagerDraft (Draft.finish_retains _ hgaps)
    (by decide +kernel) (by decide +kernel) hwritten).trans ?_
  decide +kernel

end Colloquy
