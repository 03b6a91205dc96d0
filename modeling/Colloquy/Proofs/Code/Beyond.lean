import Colloquy.Proofs.Layout.WellFormed

/-!
# Operands lie beyond their node

Whatever words a script holds, an expression ends beyond the offset where it starts, and the operands of
a node start beyond the node (`Script.lt_of_mem_operands`).  So the expressions inside an expression have
offsets of their own.
-/

namespace Colloquy

namespace Code

/-- Two readings in turn succeed if the second one does with what the first one read. -/
theorem bind_eq_ok {α β : Type} {x : Except CodeError α} {f : α → Except CodeError β} {b : β} :
    (x >>= f) = .ok b ↔ ∃ a, x = .ok a ∧ f a = .ok b := by
  cases x with
  | ok a =>
    show f a = .ok b ↔ _
    simp
  | error e =>
    show Except.error e = .ok b ↔ _
    simp

variable {S : Script} {endOf : Nat → Except CodeError Nat}

/-- Expressions in a row start and end from an offset on. -/
theorem le_of_operands (hend : ∀ a b, endOf a = .ok b → a < b) {count offset stop : Nat}
    {os : List Nat} (h : operands endOf count offset = .ok (os, stop)) :
    (∀ o ∈ os, offset ≤ o) ∧ offset ≤ stop := by
  induction count generalizing offset os with
  | zero =>
    cases h
    exact ⟨by simp, Nat.le_refl _⟩
  | succ count ih =>
    rw [operands, bind_eq_ok] at h
    obtain ⟨next, hnext, h⟩ := h
    obtain ⟨⟨rest, last⟩, hrest, h⟩ := bind_eq_ok.mp h
    cases h
    have hlt := hend offset next hnext
    obtain ⟨hos, hle⟩ := ih hrest
    refine ⟨?_, by omega⟩
    intro o ho
    rcases List.mem_cons.mp ho with rfl | ho
    · exact Nat.le_refl _
    · have := hos o ho
      omega

/-- A node ends beyond its offset, and so do its operands start, if expressions further on end beyond
theirs. -/
theorem lt_of_nodeAt (hend : ∀ a b, endOf a = .ok b → a < b) {offset stop : Nat} {n : Node}
    (h : nodeAt S endOf offset = .ok (n, stop)) : (∀ o ∈ n.operands, offset < o) ∧ offset < stop := by
  rw [nodeAt, bind_eq_ok] at h
  obtain ⟨code, -, h⟩ := h
  cases code with
  | float | string | bool | «variable» | goto =>
    obtain ⟨w, -, h⟩ := bind_eq_ok.mp h
    cases h
    exact ⟨by simp [Node.operands], by omega⟩
  | auto =>
    cases h
    exact ⟨by simp [Node.operands], by omega⟩
  | call =>
    obtain ⟨name, -, h⟩ := bind_eq_ok.mp h
    obtain ⟨awaited, -, h⟩ := bind_eq_ok.mp h
    obtain ⟨count, -, h⟩ := bind_eq_ok.mp h
    obtain ⟨⟨args, last⟩, hargs, h⟩ := bind_eq_ok.mp h
    cases h
    obtain ⟨hos, hle⟩ := le_of_operands hend hargs
    refine ⟨fun o ho => ?_, by omega⟩
    have := hos o ho
    omega
  | unary op | speed | pause =>
    obtain ⟨last, hlast, h⟩ := bind_eq_ok.mp h
    cases h
    have := hend _ _ hlast
    exact ⟨by simp [Node.operands], by omega⟩
  | binary op =>
    obtain ⟨right, hright, h⟩ := bind_eq_ok.mp h
    obtain ⟨last, hlast, h⟩ := bind_eq_ok.mp h
    cases h
    have := hend _ _ hright
    have := hend _ _ hlast
    refine ⟨?_, by omega⟩
    simp only [Node.operands, List.mem_cons, List.not_mem_nil, or_false]
    rintro o (rfl | rfl) <;> omega
  | assign op =>
    obtain ⟨name, -, h⟩ := bind_eq_ok.mp h
    obtain ⟨last, hlast, h⟩ := bind_eq_ok.mp h
    cases h
    have := hend _ _ hlast
    exact ⟨by simp [Node.operands], by omega⟩

/-- An expression ends beyond where it starts. -/
theorem lt_of_endWithin {fuel offset stop : Nat} (h : endWithin S fuel offset = .ok stop) :
    offset < stop := by
  induction fuel generalizing offset stop with
  | zero => cases h
  | succ fuel ih =>
    rw [endWithin, bind_eq_ok] at h
    obtain ⟨⟨n, last⟩, hnode, h⟩ := h
    cases h
    exact (lt_of_nodeAt (fun a b => ih) hnode).2

end Code

open Code

/-- The operands of a node start beyond the node. -/
theorem Script.lt_of_mem_operands {S : Script} {offset stop : Nat} {n : Node}
    (h : S.decodeExpr offset = .ok (n, stop)) {o : Nat} (ho : o ∈ n.operands) : offset < o :=
  (lt_of_nodeAt (fun _ _ => lt_of_endWithin) h).1 o ho

/-- A node that is decoded stands in the script. -/
theorem Script.lt_size_of_decodeExpr {S : Script} {offset stop : Nat} {n : Node}
    (h : S.decodeExpr offset = .ok (n, stop)) : offset < S.words.size := by
  by_contra hnot
  have hnone : S.words[offset]? = none := Array.getElem?_eq_none (Nat.le_of_not_lt hnot)
  have hcode : exprCode S offset = .error (.unexpectedEnd offset) := by
    rw [exprCode, Script.word, hnone]
    rfl
  rw [Script.decodeExpr, nodeAt, hcode] at h
  cases h

end Colloquy
