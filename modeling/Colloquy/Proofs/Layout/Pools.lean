import Colloquy.Proofs.Layout.Word
import Colloquy.Proofs.Number.Sign

/-!
# Pools of literals

A pool has a place for a value where the first value stands that is the same, and gets a new place behind
all others if there is none.  So a pool that was filled from the start (`internAll`) has the first of each
class of same values, in the order in which they came, and a value is found where the first of its class
is.  Floats are the same if they are equal or zeros of different sign (`sameFloat_iff`).
-/

namespace Colloquy

namespace Assembly

variable {α : Type} {same : α → α → Bool}

/-! ## Places -/

/-- Asking a pool for a value keeps the places it has. -/
theorem intern_prefix (same : α → α → Bool) (pool : Array α) (a : α) :
    pool.toList <+: (intern same pool a).2.toList := by
  unfold intern
  split
  · exact List.prefix_refl _
  · rw [Array.toList_push]
    exact List.prefix_append _ _

/-- A value is placed where the first value stands that shares its place, also in a pool that has grown
since. -/
theorem intern_place (hself : ∀ a, same a a = true) {pool later : Array α} {a : α}
    (hlater : (intern same pool a).2.toList <+: later.toList) (hsize : later.size ≤ UInt32.size) :
    ∃ b, later[(intern same pool a).1.toNat]? = some b ∧ later.find? (same a) = some b := by
  obtain ⟨i, b, hi, hplace, hb, hfirst⟩ : ∃ i b, (intern same pool a).1 = UInt32.ofNat i ∧
      (intern same pool a).2.toList[i]? = some b ∧ same a b = true ∧
        (intern same pool a).2.toList.find? (same a) = some b := by
    unfold intern
    cases hfind : pool.findIdx? (same a) with
    | some i =>
      obtain ⟨hi, hsame, hbefore⟩ := Array.findIdx?_eq_some_iff_getElem.mp hfind
      refine ⟨i, pool[i], rfl, ?_, hsame, ?_⟩
      · rw [Array.getElem?_toList, Array.getElem?_eq_getElem hi]
      · rw [Array.find?_toList, Array.find?_eq_some_iff_getElem]
        refine ⟨hsame, i, hi, rfl, fun j hj => ?_⟩
        simpa using hbefore j hj
    | none =>
      have hnone : pool.find? (same a) = none := by
        rw [Array.find?_eq_none]
        intro x hx
        simp [Array.findIdx?_eq_none_iff.mp hfind x hx]
      refine ⟨pool.size, a, rfl, ?_, hself a, ?_⟩
      · rw [Array.getElem?_toList, Array.getElem?_push_size]
      · rw [Array.find?_toList, Array.find?_push, hnone, if_pos (hself a), Option.none_or]
  have hat : later.toList[i]? = some b := by
    obtain ⟨hlt, rfl⟩ := List.getElem?_eq_some_iff.mp hplace
    exact List.prefix_iff_getElem?.mp hlater i hlt
  have hlt : i < later.size := (List.getElem?_eq_some_iff.mp hat).1
  refine ⟨b, ?_, ?_⟩
  · rw [hi, UInt32.toNat_ofNat_of_lt' (by omega), ← Array.getElem?_toList]
    exact hat
  · rw [← Array.find?_toList]
    exact hlater.find?_eq_some hfirst

/-! ## Pools filled from the start -/

/-- The pool after some values were placed one after another. -/
def internAll (same : α → α → Bool) (pool : Array α) (xs : List α) : Array α :=
  xs.foldl (fun pool a => (intern same pool a).2) pool

theorem internAll_append (same : α → α → Bool) (pool : Array α) (xs ys : List α) :
    internAll same pool (xs ++ ys) = internAll same (internAll same pool xs) ys := List.foldl_append

/-- Whether values are the same is a matter of classes. -/
structure Classes (same : α → α → Bool) : Prop where
  refl : ∀ a, same a a = true
  symm : ∀ {a b}, same a b = true → same b a = true
  trans : ∀ {a b c}, same a b = true → same b c = true → same a c = true

/-- Equal values are the same. -/
theorem beq_classes [BEq α] [LawfulBEq α] : Classes fun a b : α => a == b where
  refl _ := beq_self_eq_true _
  symm h := BEq.symm h
  trans h h' := BEq.trans h h'

/-- A value is found where the first value of its class is. -/
theorem find?_internAll (hsame : Classes same) (pool : Array α) (xs : List α) (a : α) :
    (internAll same pool xs).find? (same a) = (pool.find? (same a)).or (xs.find? (same a)) := by
  induction xs generalizing pool with
  | nil => rw [List.find?_nil, Option.or_none]; rfl
  | cons x xs ih =>
    refine (ih (intern same pool x).2).trans ?_
    rw [List.find?_cons, intern]
    cases hfind : pool.findIdx? (same x) with
    | some i =>
      obtain ⟨hi, hx, -⟩ := Array.findIdx?_eq_some_iff_getElem.mp hfind
      cases hax : same a x with
      | false => rfl
      | true =>
        -- a value of the class was there before
        have hfound : (pool.find? (same a)).isSome = true := by
          rw [Array.find?_isSome]
          exact ⟨pool[i], Array.getElem_mem hi, hsame.trans hax hx⟩
        obtain ⟨b, hb⟩ := Option.isSome_iff_exists.mp hfound
        rw [hb, Option.some_or, Option.some_or]
    | none =>
      rw [Array.find?_push, Option.or_assoc]
      cases same a x <;> rfl

/-- No two values of a pool are the same. -/
def Distinct (same : α → α → Bool) (pool : Array α) : Prop :=
  pool.toList.Pairwise fun a b => same a b = false

theorem Distinct.nil : Distinct same #[] := List.Pairwise.nil

/-- A pool without two values that are the same stays one when it is asked for a value. -/
theorem Distinct.intern (hsame : Classes same) {pool : Array α} (h : Distinct same pool) (a : α) :
    Distinct same (intern same pool a).2 := by
  unfold Assembly.intern
  split
  · exact h
  · next hfind =>
    rw [Distinct, Array.toList_push, List.pairwise_append]
    refine ⟨h, List.pairwise_singleton _ _, fun x hx b hb => ?_⟩
    obtain rfl := List.mem_singleton.mp hb
    rw [Bool.eq_false_iff]
    intro hxb
    have hbx := Array.findIdx?_eq_none_iff.mp hfind x (Array.mem_toList_iff.mp hx)
    rw [hsame.symm hxb] at hbx
    cases hbx

/-- So does one that is asked for any number of values. -/
theorem Distinct.internAll (hsame : Classes same) {pool : Array α} (h : Distinct same pool)
    (xs : List α) : Distinct same (internAll same pool xs) := by
  induction xs generalizing pool with
  | nil => exact h
  | cons x xs ih => exact ih (h.intern hsame x)

/-- In a pool of distinct values, what is the same as a value is the one found for it. -/
theorem Distinct.find?_eq (hsame : Classes same) {pool : Array α} (h : Distinct same pool) {i : Nat}
    {a b : α} (hi : pool[i]? = some b) (hab : same a b = true) : pool.find? (same a) = some b := by
  obtain ⟨hlt, rfl⟩ := Array.getElem?_eq_some_iff.mp hi
  rw [Array.find?_eq_some_iff_getElem]
  refine ⟨hab, i, hlt, rfl, fun j hj => ?_⟩
  have hdistinct := List.pairwise_iff_getElem.mp h j i (by simpa using hj.trans hlt) (by simpa using hlt) hj
  rw [Array.getElem_toList, Array.getElem_toList] at hdistinct
  rw [Bool.not_eq_true', Bool.eq_false_iff]
  intro haj
  rw [hsame.trans (hsame.symm haj) hab] at hdistinct
  cases hdistinct

/-! ## Floats -/

/-- The floats are zeros of different sign. -/
def OppositeZeros (x y : Float) : Prop := (x = 0.0 ∧ y = -0.0) ∨ (x = -0.0 ∧ y = 0.0)

/-- Floats share a place if they are equal, or zeros of different sign. -/
theorem sameFloat_iff {x y : Float} : sameFloat x y = true ↔ x = y ∨ OppositeZeros x y := by
  have hplus : (0.0 : Float) = 0 := rfl
  rw [sameFloat, Bool.or_eq_true, Bool.and_eq_true, Float.isNaN_eq_decide_eq_nan,
    Float.isNaN_eq_decide_eq_nan, decide_eq_true_eq, decide_eq_true_eq, Float.beq_iff_ne_nan_and_eq,
    OppositeZeros, hplus]
  constructor
  · rintro (⟨rfl, rfl⟩ | ⟨-, -, h⟩)
    · exact .inl rfl
    · exact h
  · rintro (rfl | ⟨rfl, rfl⟩ | ⟨rfl, rfl⟩)
    · by_cases hnan : x = Float.nan
      · exact .inl ⟨hnan, hnan⟩
      · exact .inr ⟨hnan, hnan, .inl rfl⟩
    · exact .inr (by decide)
    · exact .inr (by decide)

/-- Floats that are the same make classes. -/
theorem sameFloat_classes : Classes sameFloat where
  refl := Lower.sameFloat_self
  symm h := by
    rw [sameFloat_iff] at h ⊢
    rcases h with rfl | ⟨hx, hy⟩ | ⟨hx, hy⟩
    · exact .inl rfl
    · exact .inr (.inr ⟨hy, hx⟩)
    · exact .inr (.inl ⟨hy, hx⟩)
  trans hab hbc := by
    rw [sameFloat_iff] at hab hbc ⊢
    rcases hab with rfl | ⟨rfl, rfl⟩ | ⟨rfl, rfl⟩
    · exact hbc
    · rcases hbc with rfl | ⟨h, -⟩ | ⟨-, rfl⟩
      · exact .inr (.inl ⟨rfl, rfl⟩)
      · exact absurd h (by decide)
      · exact .inl rfl
    · rcases hbc with rfl | ⟨-, rfl⟩ | ⟨h, -⟩
      · exact .inr (.inr ⟨rfl, rfl⟩)
      · exact .inl rfl
      · exact absurd h (by decide)

end Assembly

end Colloquy
