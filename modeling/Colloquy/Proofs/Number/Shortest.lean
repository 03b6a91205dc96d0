import Colloquy.Number.Printed

/-!
# The coefficient of a shortest decimal

A decimal in the interval of a positive float is not zero, and dropping the zeros that it ends with leaves
it so.  Zero itself is written without an exponent, so no shortest decimal has zeros in front of others
(`shortest_eq_zero_or`).
-/

namespace Colloquy.Number

variable {tie : Tie} {i : Interval} {d : Decimal}

/-- A decimal in an interval above zero is not zero. -/
theorem Interval.coefficient_ne_zero (hlow : 0 < i.low) (h : i.contains d = true) : d.coefficient ≠ 0 := by
  intro hzero
  have hunit : 0 < i.low * tenPow (-d.exponent).toNat := Nat.mul_pos hlow (Nat.pow_pos (by decide))
  unfold Interval.contains at h
  rw [hzero, Nat.zero_mul, Nat.zero_mul] at h
  split at h
  · have hle := (of_decide_eq_true h).1
    omega
  · have hlt := (of_decide_eq_true h).1
    omega

/-- A decimal that is found on a grid is in the interval. -/
theorem Interval.contains_of_onGrid? {e : Int} (h : i.onGrid? tie e = some d) : i.contains d = true := by
  unfold Interval.onGrid? at h
  simp only at h
  split at h
  · next hfloor hceil =>
    split at h
    · cases h
      exact hfloor
    · split at h
      · cases h
        exact hceil
      · cases tie with
        | up =>
          cases h
          exact hceil
        | even =>
          simp only at h
          split at h
          · cases h
            exact hfloor
          · cases h
            exact hceil
  · next hfloor _ =>
    cases h
    exact hfloor
  · next _ hceil =>
    cases h
    exact hceil
  · cases h

/-- So is the one that the search over the grids ends with. -/
theorem Interval.contains_of_search {magnitude : Int} {fuel digits : Nat}
    (h : i.search tie magnitude fuel digits = some d) : i.contains d = true := by
  induction fuel generalizing digits with
  | zero => cases h
  | succ fuel ih =>
    rw [Interval.search] at h
    split at h
    · next hgrid =>
      cases h
      exact contains_of_onGrid? hgrid
    · exact ih h

/-- The interval of a positive float lies above zero. -/
theorem Interval.low_pos {p : Parts} (hp : p.significand ≠ 0) : 0 < (Interval.of p).low := by
  have hscale : ∀ k, 0 < 1 <<< k := fun k => by
    rw [Nat.one_shiftLeft]
    exact Nat.two_pow_pos k
  have hbelow : (if p.significand = hiddenBit ∧ -1074 < p.exponent then 1 else 2) ≤ 2 := by
    split <;> omega
  refine Nat.mul_pos ?_ (hscale _)
  omega

/-- Dropping the zeros at the end of a coefficient leaves something of it. -/
theorem Decimal.coefficient_strip {fuel : Nat} (h : d.coefficient ≠ 0) : (d.strip fuel).coefficient ≠ 0 := by
  induction fuel generalizing d with
  | zero => exact h
  | succ fuel ih =>
    rw [Decimal.strip]
    split
    · next hlast =>
      refine ih ?_
      show d.coefficient / 10 ≠ 0
      omega
    · exact h

/-- A shortest decimal is zero without an exponent, or its coefficient is not zero. -/
theorem shortest_eq_zero_or (tie : Tie) (x : Float) :
    shortest tie x = ⟨0, 0⟩ ∨ (shortest tie x).coefficient ≠ 0 := by
  unfold shortest
  simp only
  split
  · exact .inl rfl
  · next hsignificand =>
    split
    · next d hd =>
      have hcontains := Interval.contains_of_search hd
      exact .inr (Decimal.coefficient_strip
        (Interval.coefficient_ne_zero (Interval.low_pos hsignificand) hcontains))
    · exact .inl rfl

end Colloquy.Number
