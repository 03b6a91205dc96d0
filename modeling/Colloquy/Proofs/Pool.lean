import Colloquy.Pool

/-!
# Pools hand out empty buffers

A buffer is cleared when it is handed back, so every buffer that waits in a pool is empty, and so is
the one that is taken next.  `Pool.Used` pools are those that can come of taking buffers and of handing
back any buffers at all; none of them holds more than its limit.
-/

namespace Colloquy

/-- The buffers that wait in a pool are empty. -/
def Pool.Clean {α : Type} (p : Pool α) : Prop := ∀ b ∈ p.free, b.items = []

namespace Pool.Clean

variable {α : Type} {p : Pool α}

theorem of_free_eq_nil (hfree : p.free = []) : p.Clean := by
  intro b hb
  rw [hfree] at hb
  cases hb

theorem empty (limit : Nat) : (Pool.empty limit : Pool α).Clean := of_free_eq_nil rfl

/-- A buffer is cleared when it is handed back, so the pool stays clean. -/
theorem give (h : p.Clean) (b : Buffer α) : (p.give b).Clean := by
  rw [Pool.give]
  split
  · intro c hc
    rcases List.mem_cons.mp hc with rfl | hc
    · rfl
    · exact h c hc
  · exact h

/-- The buffer that is taken is empty, and those that are left are. -/
theorem take (h : p.Clean) : p.take.1.items = [] ∧ p.take.2.Clean := by
  rw [Pool.take]
  split
  · exact ⟨rfl, h⟩
  · next b rest heq =>
    refine ⟨h b (heq ▸ List.mem_cons_self ..), ?_⟩
    intro c hc
    exact h c (heq ▸ List.mem_cons_of_mem _ hc)

end Pool.Clean

/-- A pool of a limit after some use: buffers were taken from it, and any buffers were handed back. -/
inductive Pool.Used {α : Type} (limit : Nat) : Pool α → Prop where
  | empty : Used limit (.empty limit)
  | take {p : Pool α} : Used limit p → Used limit p.take.2
  | give {p : Pool α} (b : Buffer α) : Used limit p → Used limit (p.give b)

namespace Pool.Used

variable {α : Type} {limit : Nat} {p : Pool α}

/-- Whatever was done with a pool, the buffers in it are empty. -/
theorem clean (hp : p.Used limit) : p.Clean := by
  induction hp with
  | empty => exact .empty limit
  | take _ ih => exact ih.take.2
  | give b _ ih => exact ih.give b

/-- The limit stays, and it is kept. -/
theorem limit_eq_and_available_le (hp : p.Used limit) : p.limit = limit ∧ p.available ≤ limit := by
  induction hp with
  | empty => exact ⟨rfl, Nat.zero_le _⟩
  | @take p _ ih =>
    obtain ⟨hlimit, havailable⟩ := ih
    rw [Pool.take]
    split
    · exact ⟨hlimit, havailable⟩
    · next b rest heq =>
      refine ⟨hlimit, ?_⟩
      rw [Pool.available, heq, List.length_cons] at havailable
      exact Nat.le_of_succ_le havailable
  | @give p b _ ih =>
    obtain ⟨hlimit, havailable⟩ := ih
    rw [Pool.give]
    split
    · next hkept => exact ⟨hlimit, hlimit ▸ Nat.succ_le_of_lt hkept.1⟩
    · exact ⟨hlimit, havailable⟩

end Pool.Used

end Colloquy
