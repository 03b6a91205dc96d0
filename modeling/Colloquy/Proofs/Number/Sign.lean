import Mathlib
import Colloquy.Compiler.Assembly
import Colloquy.Number.Read

/-!
# Numbers without a sign

A number is read digit by digit and has no sign of its own, so it never reads as negative zero.  The
float nearest to it comes out of products and quotients of floats whose sign is positive, and their sign
is positive again.

The pool of floats keeps one of all floats that compare as equal, and one of those that are no numbers.
Among floats that are not negative zero that is no loss (`eq_of_sameFloat`).
-/

namespace Colloquy.Number

open Float.Model UnpackedFloat

/-- A float that is not negative zero. -/
def Unsigned (x : Float) : Prop := x ≠ -0.0

/-- Unsigned floats that share a place are the same. -/
theorem eq_of_sameFloat {x y : Float} (h : Assembly.sameFloat x y = true) (hx : Unsigned x)
    (hy : Unsigned y) : x = y := by
  have hzero : (-0.0 : Float) = -0 := rfl
  rw [Assembly.sameFloat, Bool.or_eq_true, Bool.and_eq_true, Float.isNaN_eq_decide_eq_nan,
    Float.isNaN_eq_decide_eq_nan, decide_eq_true_eq, decide_eq_true_eq,
    Float.beq_iff_ne_nan_and_eq] at h
  rcases h with ⟨rfl, rfl⟩ | ⟨-, -, rfl | ⟨-, hy'⟩ | ⟨hx', -⟩⟩
  · rfl
  · rfl
  · exact absurd (hy'.trans hzero.symm) hy
  · exact absurd (hx'.trans hzero.symm) hx

/-- The sign of an unpacked float is positive; what is not a number has none. -/
def Positive : UnpackedFloat → Prop
  | .notANumber => True
  | .infinity s => s = .positive
  | .zero s => s = .positive
  | .finite s _ _ _ => s = .positive

/-- The sign of a float is positive. -/
def Plain (x : Float) : Prop :=
  @unpackSign Format.binary64 x.toModel.toBits.toBitVec = 0#1

instance (x : Float) : Decidable (Plain x) :=
  inferInstanceAs (Decidable (@unpackSign Format.binary64 x.toModel.toBits.toBitVec = 0#1))

/-! ## Packing and unpacking -/

/-- Bits without a sign unpack to a float that has none. -/
theorem positive_unpack {b : BitVec Format.binary64.numBits} (h : unpackSign b = 0#1) :
    Positive (UnpackedFloat.unpack Format.binary64 b) := by
  have hsign : Sign.ofBitVec (unpackSign b) = .positive := by rw [h]; rfl
  unfold UnpackedFloat.unpack
  simp only
  split
  · split
    · exact hsign
    · trivial
  · split
    · split
      · exact hsign
      · exact hsign
    · exact hsign

/-- A float without a sign is packed into bits without one. -/
theorem unpackSign_pack {u : UnpackedFloat} (h : Positive u) :
    unpackSign (UnpackedFloat.pack Format.binary64 u) = 0#1 := by
  cases u with
  | notANumber => exact unpackSign_packComponents _ _ _
  | infinity s =>
    obtain rfl : s = .positive := h
    exact unpackSign_packComponents _ _ _
  | zero s =>
    obtain rfl : s = .positive := h
    exact unpackSign_packComponents _ _ _
  | finite s m e hm =>
    obtain rfl : s = .positive := h
    rw [UnpackedFloat.pack]
    simp only
    split
    · exact unpackSign_packComponents _ _ _
    · split
      · exact unpackSign_packComponents _ _ _
      · exact unpackSign_packComponents _ _ _

/-- A float without a sign is positive as a number. -/
theorem Plain.positive {x : Float} (h : Plain x) : Positive x.toModel.unpack := positive_unpack h

/-- A positive number is packed into a float without a sign. -/
theorem plain_pack {u : UnpackedFloat} (h : Positive u) :
    Plain (Float.ofModel (Float.Model.pack u)) := unpackSign_pack h

/-- A float without a sign is not negative zero. -/
theorem Plain.unsigned {x : Float} (h : Plain x) : Unsigned x := by
  rintro rfl
  revert h
  decide

/-! ## Arithmetic -/

/-- Rounding a positive number gives no sign. -/
theorem positive_round (m : Nat) (e : Int) (a : Accuracy) :
    Positive (roundWithAccuracy Format.binary64 .positive m e a) := by
  unfold roundWithAccuracy
  simp only
  split <;> rfl

/-- A product of positive numbers is positive. -/
theorem positive_mul {u v : UnpackedFloat} (hu : Positive u) (hv : Positive v) :
    Positive (UnpackedFloat.mul Format.binary64 u v) := by
  cases u <;> cases v <;> simp only [Positive] at hu hv <;> subst_vars <;>
    first | trivial | rfl | exact positive_round _ _ _

/-- So is a quotient. -/
theorem positive_div {u v : UnpackedFloat} (hu : Positive u) (hv : Positive v) :
    Positive (UnpackedFloat.div Format.binary64 u v) := by
  cases u <;> cases v <;> simp only [Positive] at hu hv <;> subst_vars <;>
    first | trivial | rfl | exact positive_round _ _ _

/-- The product of floats without a sign has none. -/
theorem Plain.mul {x y : Float} (hx : Plain x) (hy : Plain y) : Plain (x * y) :=
  plain_pack (positive_mul hx.positive hy.positive)

/-- Nor has their quotient. -/
theorem Plain.div {x y : Float} (hx : Plain x) (hy : Plain y) : Plain (x / y) :=
  plain_pack (positive_div hx.positive hy.positive)

/-- No natural number is negative as a float. -/
theorem plain_toFloat (n : UInt64) : Plain n.toFloat := by
  refine plain_pack ?_
  show Positive (UnpackedFloat.normalize Format.binary64 (n.toNat : Int) 0 .positive)
  unfold UnpackedFloat.normalize
  split
  · next hlt =>
    rw [Int.compare_eq_lt] at hlt
    omega
  · rfl
  · exact positive_round _ _ _

/-- Nor has any of the powers of ten that are kept in a table. -/
theorem plain_powerOfTen : ∀ x ∈ Float.exactlyRepresentablePowersOfTen, Plain x := by
  decide +kernel

/-- A decimal notation is rounded to a number without a sign. -/
theorem positive_ofScientific (m : Nat) (e : Int) :
    Positive (UnpackedFloat.ofScientific Format.binary64 m e) := by
  have hfinite : ∀ m e hm, Positive (.finite .positive m e hm) := fun _ _ _ => rfl
  unfold UnpackedFloat.ofScientific
  split
  · rfl
  · split
    · rfl
    · split
      · rfl
      · split
        · exact positive_mul (hfinite _ _ _) (hfinite _ _ _)
        · exact positive_div (hfinite _ _ _) (hfinite _ _ _)

/-- So the float that a decimal notation stands for has no sign. -/
theorem plain_ofScientific (m : Nat) (s : Bool) (e : Nat) : Plain (Float.ofScientific m s e) := by
  unfold Float.ofScientific
  split
  · have hlt : e < Float.exactlyRepresentablePowersOfTen.size := by
      simp only [Float.exactlyRepresentablePowersOfTen, List.size_toArray, List.length_cons,
        List.length_nil]
      omega
    have hpower := plain_powerOfTen _ (Array.getElem_mem hlt)
    cases s with
    | false => exact (plain_toFloat _).mul hpower
    | true => exact (plain_toFloat _).div hpower
  · exact plain_pack (positive_ofScientific _ _)

/-! ## Reading -/

/-- A coefficient and an exponent make no negative zero, however the two are scaled. -/
theorem plain_ofDecimal (coefficient : Nat) (exponent : Int) : Plain (ofDecimal coefficient exponent) := by
  unfold ofDecimal
  split
  · decide
  · simp only
    split
    · decide
    · split
      · decide
      · exact plain_ofScientific _ _ _

/-- What is read digit by digit has no sign. -/
theorem plain_unsigned? {cs : List Char} {x : Float} (h : unsigned? cs = some x) : Plain x := by
  have hall : ∀ (whole : List Char) (p : List Char × List Char),
      (if (whole.isEmpty && p.1.isEmpty) = true then none
        else (exponentPart? p.2).map fun e =>
          ofDecimal (digitsValue (whole ++ p.1)) (e - p.1.length)) = some x → Plain x := by
    intro whole p h
    split at h
    · cases h
    · obtain ⟨e, _, rfl⟩ := Option.map_eq_some_iff.mp h
      exact plain_ofDecimal _ _
  exact hall _ _ h

/-- A text that starts with no sign is not read as negative zero. -/
theorem unsigned_parse? {s : String} {x : Float} (hsign : (takeSign s.toList).1 = false)
    (h : parse? s = some x) : Unsigned x := by
  unfold parse? at h
  simp only [hsign, Bool.false_eq_true, if_false, Option.map_id'] at h
  apply Plain.unsigned
  split at h
  · obtain rfl := Option.some.inj h
    decide
  · obtain rfl := Option.some.inj h
    decide
  · obtain rfl := Option.some.inj h
    decide
  · exact plain_unsigned? h

end Colloquy.Number
