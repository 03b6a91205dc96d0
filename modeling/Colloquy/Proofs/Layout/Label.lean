import Colloquy.Compiler.Assembly
import Mathlib.Data.Fintype.Card

/-!
# Where labels lead

`Assembly.chain` follows a label for at most as many steps as there are labels.  `Reaches` is the same
walk without a bound.  The two agree (`mem_chain_iff`), since a shortest way between two labels does
not visit a label twice, and so `resolve?` finds the offset at the end of the walk whenever there is
one, however the redirections are ordered.
-/

namespace Colloquy.Assembly

variable {a : Assembly}

/-- A number of redirections lead from a label to another. -/
inductive ReachesIn (a : Assembly) : Nat → Label → Label → Prop where
  | refl (l : Label) : ReachesIn a 0 l l
  | step {k : Nat} {l m p : Label} :
      a.destination l = .redirected m → ReachesIn a k m p → ReachesIn a (k + 1) l p

/-- Redirections lead from a label to another. -/
def Reaches (a : Assembly) (l p : Label) : Prop := ∃ k, a.ReachesIn k l p

theorem destination_of_size_le {l : Label} (h : a.labels.size ≤ l.index) :
    a.destination l = .unbound := by
  rw [destination, Array.getD_eq_getD_getElem?, Array.getElem?_eq_none h]
  rfl

theorem index_lt_of_destination_ne {l : Label} (h : a.destination l ≠ .unbound) :
    l.index < a.labels.size := by
  by_contra hl
  exact h (destination_of_size_le (by omega))

/-- Two walks one behind the other are a walk of all their steps. -/
theorem ReachesIn.trans {i j : Nat} {l m p : Label} (h : a.ReachesIn i l m)
    (h' : a.ReachesIn j m p) : a.ReachesIn (i + j) l p := by
  induction h with
  | refl => rwa [Nat.zero_add]
  | step hl _ ih => rw [Nat.add_right_comm]; exact .step hl (ih h')

/-- A walk passes a label after each number of its steps. -/
theorem ReachesIn.split {k : Nat} {l p : Label} (h : a.ReachesIn k l p) :
    ∀ i ≤ k, ∃ m, a.ReachesIn i l m ∧ a.ReachesIn (k - i) m p := by
  induction h with
  | refl l =>
    intro i hi
    obtain rfl : i = 0 := by omega
    exact ⟨l, .refl l, .refl l⟩
  | @step k l m p hl hm ih =>
    intro i hi
    match i with
    | 0 => exact ⟨l, .refl l, .step hl hm⟩
    | i + 1 =>
      obtain ⟨q, hq, hp⟩ := ih i (by omega)
      exact ⟨q, .step hl hq, by rwa [Nat.add_sub_add_right]⟩

/-- A label from which a label of the assembly is reached is one of the assembly. -/
theorem ReachesIn.index_lt {k : Nat} {l p : Label} (h : a.ReachesIn k l p)
    (hp : p.index < a.labels.size) : l.index < a.labels.size := by
  cases h with
  | refl => exact hp
  | step hl _ => exact index_lt_of_destination_ne (by rw [hl]; simp)

/-- Between two labels there is a walk with fewer steps than there are labels. -/
theorem Reaches.exists_lt {l p : Label} (h : a.Reaches l p) (hp : p.index < a.labels.size) :
    ∃ k < a.labels.size, a.ReachesIn k l p := by
  classical
  let k := Nat.find h
  have hk : a.ReachesIn k l p := Nat.find_spec h
  refine ⟨k, ?_, hk⟩
  -- the labels of a shortest walk are all different: a label met twice would cut the walk short
  choose f hf hf' using fun j : Fin (k + 1) => hk.split j (by omega)
  let g : Fin (k + 1) → Fin a.labels.size := fun j => ⟨(f j).index, (hf' j).index_lt hp⟩
  have hne : ∀ i j : Fin (k + 1), i < j → f i ≠ f j := by
    intro i j hij heq
    have hj := hf' j
    rw [← heq] at hj
    have hshort := (hf i).trans hj
    have : i.val + (k - j.val) < k := by omega
    exact Nat.find_min h this hshort
  have hg : Function.Injective g := by
    intro i j hij
    have hlabel : f i = f j := by
      have hindex : (f i).index = (f j).index := congrArg Fin.val hij
      cases hi : f i; cases hj : f j
      rw [hi, hj] at hindex
      exact congrArg Label.mk hindex
    rcases lt_trichotomy i j with hlt | rfl | hlt
    · exact absurd hlabel (hne i j hlt)
    · rfl
    · exact absurd hlabel.symm (hne j i hlt)
  have hcard := Fintype.card_le_of_injective g hg
  rw [Fintype.card_fin, Fintype.card_fin] at hcard
  omega

/-- The labels on a chain are those that are reached in fewer steps than it has. -/
theorem mem_chainWithin {fuel : Nat} {l p : Label} :
    p ∈ a.chainWithin fuel l ↔ ∃ k < fuel, a.ReachesIn k l p := by
  induction fuel generalizing l with
  | zero => simp [chainWithin]
  | succ fuel ih =>
    rw [chainWithin, List.mem_cons]
    constructor
    · rintro (rfl | h)
      · exact ⟨0, by omega, .refl _⟩
      · cases hl : a.destination l with
        | redirected m =>
          rw [hl] at h
          obtain ⟨k, hk, hm⟩ := ih.mp h
          exact ⟨k + 1, by omega, .step hl hm⟩
        | _ => rw [hl] at h; simp at h
    · rintro ⟨k, hk, h⟩
      cases h with
      | refl => exact .inl rfl
      | step hl hm =>
        right
        rw [hl]
        exact ih.mpr ⟨_, by omega, hm⟩

/-- The chain of a label holds exactly the labels it reaches. -/
theorem mem_chain_iff {l p : Label} (hp : p.index < a.labels.size) :
    p ∈ a.chain l ↔ a.Reaches l p := by
  rw [chain, mem_chainWithin]
  constructor
  · rintro ⟨k, _, h⟩
    exact ⟨k, h⟩
  · intro h
    exact h.exists_lt hp

/-- A walk ends at one label only. -/
theorem Reaches.unique {l p q : Label} (hp : a.Reaches l p) (hq : a.Reaches l q)
    (hpend : ∀ m, a.destination p ≠ .redirected m) (hqend : ∀ m, a.destination q ≠ .redirected m) :
    p = q := by
  obtain ⟨k, hp⟩ := hp
  obtain ⟨j, hq⟩ := hq
  induction hp generalizing j with
  | refl l =>
    cases hq with
    | refl => rfl
    | step hl _ => exact absurd hl (hpend _)
  | step hl _ ih =>
    cases hq with
    | refl => exact absurd hl (hqend _)
    | step hl' hm' =>
      rw [hl] at hl'
      obtain rfl := Destination.redirected.inj hl'
      exact ih hpend _ hm'

/-- Resolving a label finds the offset at the end of its redirections. -/
theorem resolve?_eq_some_iff {l : Label} {n : Nat} :
    a.resolve? l = some n ↔ ∃ p, a.Reaches l p ∧ a.destination p = .offset n := by
  have hfound : ∀ n, a.resolve? l = some n → ∃ p, a.Reaches l p ∧ a.destination p = .offset n := by
    intro n h
    obtain ⟨p, hp, hn⟩ := List.exists_of_findSome?_eq_some h
    obtain ⟨k, _, hk⟩ := mem_chainWithin.mp hp
    cases hd : a.destination p with
    | offset m =>
      rw [hd] at hn
      obtain rfl := Option.some.inj hn
      exact ⟨p, ⟨k, hk⟩, hd⟩
    | _ => rw [hd] at hn; cases hn
  constructor
  · exact hfound n
  · rintro ⟨p, hp, hd⟩
    have hmem : p ∈ a.chain l := (mem_chain_iff (index_lt_of_destination_ne (by simp [hd]))).mpr hp
    cases hr : a.resolve? l with
    | none =>
      have := List.findSome?_eq_none_iff.mp hr p hmem
      rw [hd] at this
      cases this
    | some m =>
      obtain ⟨q, hq, hdq⟩ := hfound m hr
      obtain rfl := hp.unique hq (by simp [hd]) (by simp [hdq])
      rw [hd] at hdq
      rw [Destination.offset.inj hdq]

theorem resolve?_of_offset {l : Label} {n : Nat} (h : a.destination l = .offset n) :
    a.resolve? l = some n :=
  resolve?_eq_some_iff.mpr ⟨l, ⟨0, .refl l⟩, h⟩

/-- A redirected label leads where its target leads. -/
theorem resolve?_of_redirected {l m : Label} (h : a.destination l = .redirected m) :
    a.resolve? l = a.resolve? m := by
  apply Option.ext
  intro n
  rw [resolve?_eq_some_iff, resolve?_eq_some_iff]
  constructor
  · rintro ⟨p, ⟨k, hk⟩, hp⟩
    cases hk with
    | refl => rw [h] at hp; cases hp
    | step hl hm =>
      rw [h] at hl
      obtain rfl := Destination.redirected.inj hl
      exact ⟨p, ⟨_, hm⟩, hp⟩
  · rintro ⟨p, ⟨k, hk⟩, hp⟩
    exact ⟨p, ⟨k + 1, .step h hk⟩, hp⟩

/-- A label that leads nowhere has no offset. -/
theorem resolve?_of_unbound {l : Label} (h : a.destination l = .unbound) : a.resolve? l = none := by
  rw [Option.eq_none_iff_forall_not_mem]
  intro n hn
  obtain ⟨p, ⟨k, hk⟩, hp⟩ := resolve?_eq_some_iff.mp hn
  cases hk <;> simp_all

/-- A word waits for a label exactly if the label of some gap reaches it. -/
theorem isAwaited_iff {l : Label} (hl : l.index < a.labels.size) :
    a.isAwaited l = true ↔ ∃ g ∈ a.gaps, a.Reaches g.label l := by
  simp only [isAwaited, Array.any_eq_true', List.contains_eq_mem, decide_eq_true_eq, mem_chain_iff hl]

end Colloquy.Assembly
