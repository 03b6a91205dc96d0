import Mathlib.Data.List.TakeWhile
import Colloquy.Text.Blank

/-!
# Runs of digits

A number is written as a run of digits (`IsDigits`), and a run ends where something else follows.  The
digits of a natural number are a run that starts with a zero for zero only.
-/

namespace Colloquy.Text

/-- One digit or more. -/
def IsDigits (cs : List Char) : Prop := cs ≠ [] ∧ ∀ c ∈ cs, c.isDigit = true

/-- Anything but a digit follows. -/
def NoDigit (cs : List Char) : Prop := ∀ c ∈ cs.head?, c.isDigit = false

theorem noDigit_nil : NoDigit [] := by simp [NoDigit]

theorem NoDigit.cons {c : Char} (hc : c.isDigit = false) (cs : List Char) : NoDigit (c :: cs) := by
  simpa [NoDigit] using hc

namespace IsDigits

variable {ds es cs : List Char}

/-- Digits behind a run make a longer run. -/
theorem append (hds : IsDigits ds) (hes : ∀ c ∈ es, c.isDigit = true) : IsDigits (ds ++ es) := by
  refine ⟨List.append_ne_nil_of_left_ne_nil hds.1 es, fun c hc => ?_⟩
  exact (List.mem_append.mp hc).elim (hds.2 c) (hes c)

/-- So do digits in front of one. -/
theorem before (hes : ∀ c ∈ es, c.isDigit = true) (hds : IsDigits ds) : IsDigits (es ++ ds) := by
  refine ⟨List.append_ne_nil_of_right_ne_nil es hds.1, fun c hc => ?_⟩
  exact (List.mem_append.mp hc).elim (hes c) (hds.2 c)

/-- A run has a first digit. -/
theorem exists_cons (h : IsDigits ds) : ∃ c more, ds = c :: more ∧ c.isDigit = true := by
  obtain ⟨c, more, rfl⟩ := List.exists_cons_of_ne_nil h.1
  exact ⟨c, more, rfl, h.2 c (List.mem_cons_self ..)⟩

/-- A run of digits is split off in front of anything else. -/
theorem split (h : IsDigits ds) (hcs : NoDigit cs) :
    (ds ++ cs).takeWhile Char.isDigit = ds ∧ (ds ++ cs).dropWhile Char.isDigit = cs := by
  rw [List.takeWhile_append_of_pos h.2, List.dropWhile_append_of_pos h.2]
  cases cs with
  | nil => exact ⟨List.append_nil ds, rfl⟩
  | cons c cs =>
    have hc : ¬c.isDigit = true := by simpa using hcs c rfl
    rw [List.takeWhile_cons_of_neg hc, List.dropWhile_cons_of_neg hc, List.append_nil]
    exact ⟨rfl, rfl⟩

/-- The digits a text starts with are a run. -/
theorem takeWhile {c : Char} (hc : c.isDigit = true) (cs : List Char) :
    IsDigits ((c :: cs).takeWhile Char.isDigit) := by
  refine ⟨?_, List.all_eq_true.mp List.all_takeWhile⟩
  rw [List.takeWhile_cons_of_pos hc]
  exact List.cons_ne_nil _ _

end IsDigits

theorem isDigits_zero : IsDigits ['0'] := ⟨List.cons_ne_nil _ _, by simp⟩

/-- The digits of a natural number are a run. -/
theorem isDigits_toDigits (n : Nat) : IsDigits (Nat.toDigits 10 n) :=
  ⟨Nat.toDigits_ne_nil, fun _ hc => Nat.isDigit_of_mem_toDigits (by decide) (by decide) hc⟩

/-- The digits of a positive number start with another digit than zero. -/
theorem head?_toDigits_ne_zero {n : Nat} (hn : n ≠ 0) : (Nat.toDigits 10 n).head? ≠ some '0' := by
  induction n using Nat.strongRecOn with
  | _ n ih =>
    rcases Nat.lt_or_ge n 10 with hlt | hge
    · have hone : ∀ m < 10, m ≠ 0 → [Nat.digitChar m].head? ≠ some '0' := by decide
      rw [Nat.toDigits_of_lt_base hlt]
      exact hone n hlt hn
    · have hfront := ih (n / 10) (by omega) (by omega)
      obtain ⟨c, more, hdigits, _⟩ := (isDigits_toDigits (n / 10)).exists_cons
      rw [hdigits] at hfront
      rwa [Nat.toDigits_of_base_le (by decide) hge, hdigits]

end Colloquy.Text
