import Colloquy.Code.Listing
import Colloquy.Proofs.Code.Beyond

/-!
# How deep expressions nest

To find the end of an expression one finds the ends of its operands, and so on, with no bound on how deep
this goes.  `endCut` is this recursion cut off at a depth, where anything may be answered.  Operands lie
beyond their node, so each level leaves fewer words, and below an offset the recursion goes no deeper
than there are words left: cut off there, it has the same result whatever is answered at the cut
(`Script.endCut_eq`).  The text of an expression is found by a recursion of the same kind
(`Script.textCut_eq`).
-/

namespace Colloquy

namespace Code

variable {S : Script} {f g : Nat → Except CodeError Nat} {offset : Nat}

/-- Expressions in a row are found by their ends from the first offset on. -/
theorem operands_congr (hfg : ∀ o, offset ≤ o → f o = g o)
    (hlt : ∀ a b, offset ≤ a → f a = .ok b → a < b) (count : Nat) :
    operands f count offset = operands g count offset := by
  induction count generalizing offset with
  | zero => rfl
  | succ count ih =>
    rw [operands, operands, ← hfg offset (Nat.le_refl _)]
    cases hstop : f offset with
    | error e => rfl
    | ok stop =>
      have hnext := hlt offset stop (Nat.le_refl _) hstop
      have hrest := @ih stop (fun o ho => hfg o (by omega))
        (fun a b ha => hlt a b (by omega))
      rw [ok_bind, ok_bind, hrest]

/-- A node is found by the ends of expressions beyond it. -/
theorem nodeAt_congr (hfg : ∀ o, offset < o → f o = g o)
    (hlt : ∀ a b, offset < a → f a = .ok b → a < b) :
    nodeAt S f offset = nodeAt S g offset := by
  have hfirst : f (offset + 1) = g (offset + 1) := hfg _ (by omega)
  have hsecond : f (offset + 2) = g (offset + 2) := hfg _ (by omega)
  rw [nodeAt, nodeAt]
  refine bind_congr fun code => ?_
  cases code with
  | call =>
    have hargs : ∀ count, operands f count (offset + 4) = operands g count (offset + 4) :=
      operands_congr (fun o ho => hfg o (by omega)) (fun a b ha => hlt a b (by omega))
    simp only [hargs]
  | unary op | speed | pause => simp only [hfirst]
  | binary op =>
    -- the second operand starts where the first one ends
    simp only [← hfirst]
    cases hright : f (offset + 1) with
    | error e => rfl
    | ok right =>
      have hbeyond := hlt _ _ (Nat.lt_succ_self offset) hright
      simp only [ok_bind, hfg right (by omega)]
  | assign op => simp only [hsecond]
  | _ => rfl

/-- There is no node past the end. -/
theorem nodeAt_of_size_le (h : S.words.size ≤ offset) :
    nodeAt S f offset = .error (.unexpectedEnd offset) := by
  have hnone : S.words[offset]? = none := Array.getElem?_eq_none h
  rw [nodeAt, exprCode, Script.word, hnone]
  rfl

/-- The offset past an expression, by a recursion that is cut off at a depth.  There `base` answers. -/
def endCut (s : Script) (base : Nat → Except CodeError Nat) : Nat → Nat → Except CodeError Nat
  | 0, offset => base offset
  | depth + 1, offset => do
    let (_, stop) ← nodeAt s (endCut s base depth) offset
    return stop

/-- Running out of depth is a cut with an error. -/
theorem endWithin_eq_endCut (S : Script) (depth : Nat) :
    endWithin S depth = endCut S (fun o => .error (.unexpectedEnd o)) depth := by
  induction depth with
  | zero => rfl
  | succ depth ih =>
    funext offset
    rw [endWithin, endCut, ih]

/-- What is answered at a cut does not matter if the cut is deeper than there are words left. -/
theorem endCut_congr (f g : Nat → Except CodeError Nat) {depth depth' : Nat}
    (hdepth : S.words.size - offset < depth) (hdepth' : S.words.size - offset < depth') :
    endCut S f depth offset = endCut S g depth' offset := by
  -- the induction is on the number of words left, for all answers at once: the plain recursion is
  -- the one that is known to move forward
  generalize hleft : S.words.size - offset = left at hdepth hdepth'
  induction left using Nat.strong_induction_on generalizing f g depth depth' offset with
  | _ left ih =>
    obtain ⟨depth, rfl⟩ : ∃ d, depth = d + 1 := ⟨depth - 1, by omega⟩
    obtain ⟨depth', rfl⟩ : ∃ d, depth' = d + 1 := ⟨depth' - 1, by omega⟩
    rw [endCut, endCut]
    by_cases hsize : S.words.size ≤ offset
    · rw [nodeAt_of_size_le hsize, nodeAt_of_size_le hsize]
    · have hbelow : ∀ g d' o, offset < o → left ≤ d' → endCut S f depth o = endCut S g d' o := by
        intro g d' o ho hd'
        exact ih (S.words.size - o) (by omega) f g rfl (by omega) (by omega)
      have hforward : ∀ a b, offset < a → endCut S f depth a = .ok b → a < b := by
        intro a b ha hend
        rw [hbelow (fun o => .error (.unexpectedEnd o)) left a ha (Nat.le_refl _),
          ← endWithin_eq_endCut] at hend
        exact lt_of_endWithin hend
      rw [nodeAt_congr (fun o ho => hbelow g depth' o ho (by omega)) hforward]

end Code

open Code

namespace Script

variable {S : Script} {offset : Nat}

/-- The recursion for the end of an expression, cut off deeper than there are words left, finds the
end. -/
theorem endCut_eq (base : Nat → Except CodeError Nat) {depth : Nat}
    (hdepth : S.words.size - offset < depth) : endCut S base depth offset = S.exprEnd offset := by
  rw [Script.exprEnd, endWithin_eq_endCut]
  exact endCut_congr _ _ hdepth (by omega)

/-- An expression ends where the decoder says. -/
theorem exprEnd_eq (S : Script) (offset : Nat) :
    S.exprEnd offset = (S.decodeExpr offset).map Prod.snd := by
  rw [Script.exprEnd, endWithin, Script.decodeExpr]
  cases nodeAt S (endWithin S S.words.size) offset <;> rfl

theorem lt_of_exprEnd {stop : Nat} (h : S.exprEnd offset = .ok stop) : offset < stop :=
  lt_of_endWithin h

/-- A node is decoded with the ends of the expressions inside it, however deep they nest. -/
theorem decodeExpr_eq (S : Script) (offset : Nat) :
    S.decodeExpr offset = nodeAt S S.exprEnd offset := by
  by_cases hsize : S.words.size ≤ offset
  · rw [Script.decodeExpr, nodeAt_of_size_le hsize, nodeAt_of_size_le hsize]
  · rw [Script.decodeExpr]
    refine nodeAt_congr (fun o ho => ?_) fun a b _ => lt_of_endWithin
    rw [endWithin_eq_endCut]
    exact endCut_eq _ (by omega)

/-! ## Texts -/

/-- The text of an expression, by a recursion that is cut off at a depth.  There `base` answers. -/
def textCut (s : Script) (base : Nat → Except CodeError String) : Nat → Nat → Except CodeError String
  | 0, offset => base offset
  | depth + 1, offset => do
    let (node, _) ← s.decodeExpr offset
    s.nodeText (textCut s base depth) node

/-- Running out of depth in a text is a cut with an error. -/
theorem exprTextWithin_eq_textCut (S : Script) (depth : Nat) :
    S.exprTextWithin depth = S.textCut (fun o => .error (.unexpectedEnd o)) depth := by
  induction depth with
  | zero => rfl
  | succ depth ih =>
    funext offset
    rw [Script.exprTextWithin, Script.textCut, ih]

/-- Two readers that agree on some offsets agree on a list of them. -/
theorem mapM_congr_of_mem {f g : Nat → Except CodeError String} {os : List Nat}
    (hfg : ∀ o ∈ os, f o = g o) : os.mapM f = os.mapM g := by
  induction os with
  | nil => rfl
  | cons o os ih =>
    rw [List.forall_mem_cons] at hfg
    rw [List.mapM_cons, List.mapM_cons, hfg.1, ih hfg.2]

/-- The text of a node is put together from the texts of its operands. -/
theorem nodeText_congr {f g : Nat → Except CodeError String} {node : Node}
    (hfg : ∀ o ∈ node.operands, f o = g o) : S.nodeText f node = S.nodeText g node := by
  cases node with
  | call name awaited args =>
    have hargs : args.mapM f = args.mapM g := mapM_congr_of_mem hfg
    rw [Script.nodeText, Script.nodeText, hargs]
  | _ => simp_all [Script.nodeText, Node.operands]

/-- What is answered at a cut does not matter to the text of an expression. -/
theorem textCut_congr (f g : Nat → Except CodeError String) {depth depth' : Nat}
    (hdepth : S.words.size - offset < depth) (hdepth' : S.words.size - offset < depth') :
    S.textCut f depth offset = S.textCut g depth' offset := by
  induction depth generalizing depth' offset with
  | zero => omega
  | succ depth ih =>
    obtain ⟨depth', rfl⟩ : ∃ d, depth' = d + 1 := ⟨depth' - 1, by omega⟩
    rw [Script.textCut, Script.textCut]
    cases hdecode : S.decodeExpr offset with
    | error e => rfl
    | ok p =>
      obtain ⟨node, stop⟩ := p
      have hsize := Script.lt_size_of_decodeExpr hdecode
      have hoperands : ∀ o ∈ node.operands, S.textCut f depth o = S.textCut g depth' o := by
        intro o ho
        have hbeyond := Script.lt_of_mem_operands hdecode ho
        exact ih (by omega) (by omega)
      exact nodeText_congr hoperands

theorem textCut_eq (base : Nat → Except CodeError String) {depth : Nat}
    (hdepth : S.words.size - offset < depth) : S.textCut base depth offset = S.exprText offset := by
  rw [Script.exprText, exprTextWithin_eq_textCut]
  exact textCut_congr _ _ hdepth (by omega)

end Script

end Colloquy
