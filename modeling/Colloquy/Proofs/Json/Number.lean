import Colloquy.Json.Printer
import Colloquy.Json.Reader
import Colloquy.Proofs.Number.Shortest
import Colloquy.Proofs.Text.Digits

/-!
# Numbers in documents are read back

What the format allows as a number (`Json.Number.Written`) is read back from its text, up to where it ends
(`numberPart_text`).  The numbers that words and floats are written as are of that kind, and the digits of a
natural number stand for it again (`toNat?_ofNat`).
-/

namespace Colloquy.Json

open Text

/-- What may follow a number: nothing that goes on with it. -/
def Ends (cs : List Char) : Prop := ∀ c ∈ cs.head?, c.isDigit = false ∧ c ≠ '.' ∧ c ≠ 'e' ∧ c ≠ 'E'

theorem Ends.noDigit {cs : List Char} (h : Ends cs) : NoDigit cs := fun c hc => (h c hc).1

theorem Ends.cons {c : Char} (h : c.isDigit = false ∧ c ≠ '.' ∧ c ≠ 'e' ∧ c ≠ 'E') (cs : List Char) :
    Ends (c :: cs) := by
  rintro d ⟨⟩
  exact h

namespace Number

/-- The digits before the point: a run in which a leading zero stands alone. -/
def IsWhole (cs : List Char) : Prop := IsDigits cs ∧ (cs.head? = some '0' → cs.length = 1)

/-- A number as the format has them. -/
structure Written (n : Json.Number) : Prop where
  whole : IsWhole n.whole
  fraction : ∀ c ∈ n.fraction, c.isDigit = true
  exponent : ∀ e ∈ n.exponent, IsDigits e.digits

theorem isWhole_zero : IsWhole ['0'] := ⟨isDigits_zero, fun _ => rfl⟩

/-- A run that starts with another digit than zero. -/
theorem isWhole_of_head {cs : List Char} (h : IsDigits cs) (hhead : cs.head? ≠ some '0') : IsWhole cs :=
  ⟨h, fun hzero => absurd hzero hhead⟩

/-! ## Reading a number back -/

/-- The text of a fraction, with its point. -/
def fractionText (fraction : List Char) : List Char :=
  if fraction.isEmpty then [] else '.' :: fraction

/-- The text of an exponent, with its letter and its sign. -/
def exponentText : Option Exponent → List Char
  | none => []
  | some e => 'e' :: (if e.negative then '-' else '+') :: e.digits

theorem text_eq (n : Json.Number) : n.text =
    (if n.negative then ['-'] else []) ++ n.whole ++ fractionText n.fraction ++ exponentText n.exponent := by
  rw [Number.text, fractionText]
  cases n.exponent <;> rfl

variable {rest : List Char}

/-- Digits of a number go on neither into a point nor into the letter of an exponent. -/
theorem noDigit_exponentText (e : Option Exponent) (h : Ends rest) : NoDigit (exponentText e ++ rest) := by
  cases e with
  | none => exact h.noDigit
  | some e => exact .cons rfl _

/-- What is behind the whole digits of a number starts with no digit. -/
theorem noDigit_fractionText (fraction : List Char) (e : Option Exponent) (h : Ends rest) :
    NoDigit (fractionText fraction ++ (exponentText e ++ rest)) := by
  unfold fractionText
  split
  · exact noDigit_exponentText e h
  · exact .cons rfl _

/-- An exponent is read back, up to where the number ends. -/
theorem exponentPart_text {e : Option Exponent} (he : ∀ x ∈ e, IsDigits x.digits) (h : Ends rest) :
    exponentPart (exponentText e ++ rest) = some (e, rest) := by
  cases e with
  | none =>
    rw [exponentText, List.nil_append]
    cases rest with
    | nil => rfl
    | cons c cs =>
      obtain ⟨_, _, hlower, hupper⟩ := h c rfl
      exact if_neg fun hletter => hletter.elim hlower hupper
  | some e =>
    have hdigits := he e rfl
    have hexponent : ∀ negative, exponentDigits negative (e.digits ++ rest)
        = some (some ⟨negative, e.digits⟩, rest) := by
      intro negative
      obtain ⟨htake, hdrop⟩ := hdigits.split h.noDigit
      rw [exponentDigits, takeDigits, htake, hdrop]
      simp [hdigits.1]
    obtain ⟨negative, digits⟩ := e
    cases negative with
    | true => exact hexponent true
    | false => exact hexponent false

/-- A fraction is read back, up to the exponent or the end of the number. -/
theorem fractionPart_text {fraction : List Char} (hfraction : ∀ c ∈ fraction, c.isDigit = true)
    (e : Option Exponent) (h : Ends rest) :
    fractionPart (fractionText fraction ++ (exponentText e ++ rest))
      = some (fraction, exponentText e ++ rest) := by
  cases fraction with
  | nil =>
    show fractionPart (exponentText e ++ rest) = _
    unfold fractionPart
    split
    · next cs heq =>
      -- no point follows
      cases e with
      | none =>
        rw [exponentText, List.nil_append] at heq
        exact absurd rfl (h '.' (by rw [heq]; rfl)).2.1
      | some e => cases heq
    · rfl
  | cons c cs =>
    have hdigits : IsDigits (c :: cs) := ⟨List.cons_ne_nil _ _, hfraction⟩
    obtain ⟨htake, hdrop⟩ := hdigits.split (noDigit_exponentText e h)
    show fractionPart ('.' :: ((c :: cs) ++ (exponentText e ++ rest))) = _
    rw [fractionPart, takeDigits, htake, hdrop]
    rfl

/-- A number is read back, up to where it ends. -/
theorem numberPart_text {n : Json.Number} (hn : n.Written) (h : Ends rest) :
    numberPart (n.text ++ rest) = some (n, rest) := by
  have hafter : ∀ negative, numberAfterSign negative
      (n.whole ++ (fractionText n.fraction ++ (exponentText n.exponent ++ rest)))
        = some (⟨negative, n.whole, n.fraction, n.exponent⟩, rest) := by
    intro negative
    obtain ⟨htake, hdrop⟩ := hn.whole.1.split (noDigit_fractionText n.fraction n.exponent h)
    have hleading : (n.whole.isEmpty || (n.whole.head? == some '0' && n.whole.length != 1)) = false := by
      simpa [hn.whole.1.1] using hn.whole.2
    rw [numberAfterSign, takeDigits, htake, hdrop]
    simp only [hleading, Bool.false_eq_true, if_false, fractionPart_text hn.fraction n.exponent h,
      exponentPart_text hn.exponent h, Option.bind_eq_bind, Option.bind_some]
    rfl
  rw [text_eq, List.append_assoc, List.append_assoc, List.append_assoc]
  obtain ⟨negative, whole, fraction, exponent⟩ := n
  cases negative with
  | true => exact hafter true
  | false =>
    obtain ⟨c, more, hwhole, hc⟩ := hn.whole.1.exists_cons
    show numberPart (whole ++ _) = _
    rw [← hafter false]
    simp only at hwhole
    rw [hwhole]
    unfold numberPart
    split
    · next heq =>
      cases heq
      exact absurd hc (by decide)
    · rfl

/-- A number starts with its sign or with a digit. -/
theorem exists_text {n : Json.Number} (hn : n.Written) :
    ∃ c more, n.text = c :: more ∧ (c = '-' ∨ c.isDigit = true) := by
  rw [text_eq]
  obtain ⟨c, more, hwhole, hc⟩ := hn.whole.1.exists_cons
  cases n.negative with
  | true => exact ⟨'-', _, rfl, .inl rfl⟩
  | false => exact ⟨c, _, by rw [hwhole]; rfl, .inr hc⟩

/-! ## Natural numbers -/

/-- Reading more digits makes a number no smaller. -/
theorem ofDigitChars_ge (cs : List Char) (n : Nat) : n ≤ Nat.ofDigitChars 10 cs n := by
  induction cs generalizing n with
  | nil => exact Nat.le_refl n
  | cons c cs ih =>
    have hstep := ih (10 * n + (c.toNat - '0'.toNat))
    rw [Nat.ofDigitChars, List.foldl_cons, ← Nat.ofDigitChars]
    omega

/-- Digits whose value is within the limit are all read. -/
theorem grow_eq {limit n : Nat} {cs : List Char} (h : Nat.ofDigitChars 10 cs n ≤ limit) :
    grow limit n cs = (Nat.ofDigitChars 10 cs n, []) := by
  induction cs generalizing n with
  | nil => rfl
  | cons c cs ih =>
    rw [Nat.ofDigitChars, List.foldl_cons, ← Nat.ofDigitChars] at h ⊢
    have hbelow := ofDigitChars_ge cs (10 * n + (c.toNat - '0'.toNat))
    rw [grow, if_neg (by omega), ih h]

/-- The number that is written with the digits of a natural number. -/
def ofDigits (n : Nat) : Json.Number := ⟨false, Nat.toDigits 10 n, [], none⟩

/-- The digits of a natural number are a number as the format allows it. -/
theorem written_ofDigits (n : Nat) : (ofDigits n).Written where
  whole := by
    by_cases hn : n = 0
    · subst hn
      exact isWhole_zero
    · exact isWhole_of_head (isDigits_toDigits n) (head?_toDigits_ne_zero hn)
  fraction := by simp [ofDigits]
  exponent := by simp [ofDigits]

/-- The digits of a natural number below the bound stand for it. -/
theorem toNat?_ofDigits {bound n : Nat} (h : n < bound) : (ofDigits n).toNat? bound = some n := by
  have hvalue : Nat.ofDigitChars 10 (Nat.toDigits 10 n) 0 = n :=
    Nat.ofDigitChars_toDigits (by decide) (by decide)
  have hgrow : grow (bound - 1) 0 (Nat.toDigits 10 n) = (n, []) := by
    rw [grow_eq (by omega), hvalue]
  simp [toNat?, ofDigits, hgrow]

/-! ## Floats -/

variable {d : Colloquy.Number.Decimal}

theorem isDigits_digits (d : Colloquy.Number.Decimal) : IsDigits d.digits := isDigits_toDigits _

theorem head?_take_digits {k : Nat} (hk : k ≠ 0) : (d.digits.take k).head? = d.digits.head? := by
  cases k with
  | zero => exact absurd rfl hk
  | succ k => cases d.digits <;> rfl

/-- The first digits of a decimal are a run of digits. -/
theorem isDigits_take {k : Nat} (hk : k ≠ 0) : IsDigits (d.digits.take k) := by
  obtain ⟨c, more, hdigits, _⟩ := (isDigits_digits d).exists_cons
  refine ⟨?_, fun c hc => (isDigits_digits d).2 c (List.mem_of_mem_take hc)⟩
  rw [hdigits]
  cases k with
  | zero => exact absurd rfl hk
  | succ k => exact List.cons_ne_nil _ _

/-- The digits of a decimal that is not zero, before the point and behind it. -/
theorem positional_written (hd : d.coefficient ≠ 0) :
    IsWhole d.positional.1 ∧ ∀ c ∈ d.positional.2, c.isDigit = true := by
  have hdigits := isDigits_digits d
  have hhead : d.digits.head? ≠ some '0' := head?_toDigits_ne_zero hd
  have hzeros : ∀ n, ∀ c ∈ List.replicate n '0', c.isDigit = true := by
    intro n c hc
    rw [List.eq_of_mem_replicate hc]
    rfl
  unfold Colloquy.Number.Decimal.positional
  simp only
  split
  · refine ⟨isWhole_of_head (hdigits.append (hzeros _)) ?_, by simp⟩
    obtain ⟨c, more, hcons, _⟩ := hdigits.exists_cons
    rw [hcons] at hhead ⊢
    exact hhead
  · split
    · next hplaces =>
      have hk : d.digits.length - (-d.exponent).toNat ≠ 0 := by omega
      refine ⟨isWhole_of_head (isDigits_take hk) ?_, fun c hc => hdigits.2 c (List.mem_of_mem_drop hc)⟩
      rwa [head?_take_digits hk]
    · exact ⟨isWhole_zero, (IsDigits.before (hzeros _) hdigits).2⟩

/-- A float is written as a number of the format. -/
theorem written_ofFloat (x : Float) : (ofFloat x).Written := by
  unfold ofFloat
  simp only
  generalize Colloquy.Number.isNegative x = negative
  rcases Colloquy.Number.shortest_eq_zero_or .even x with hzero | hd
  · rw [hzero]
    show Written ⟨negative, ['0'], ['0'], none⟩
    exact ⟨isWhole_zero, isDigits_zero.2, by simp⟩
  · generalize Colloquy.Number.shortest .even x = d at hd
    split
    · obtain ⟨hwhole, hfraction⟩ := positional_written hd
      refine ⟨hwhole, ?_, by simp⟩
      show ∀ c ∈ (if d.positional.2.isEmpty then ['0'] else d.positional.2), c.isDigit = true
      split
      · exact isDigits_zero.2
      · exact hfraction
    · -- one digit stands before the point
      refine ⟨⟨isDigits_take Nat.one_ne_zero, fun _ => ?_⟩,
        fun c hc => (isDigits_digits d).2 c (List.mem_of_mem_drop hc), ?_⟩
      · rw [List.length_take]
        have hpos := List.length_pos_iff.mpr (isDigits_digits d).1
        omega
      · rintro e ⟨⟩
        exact isDigits_toDigits _

end Number

end Colloquy.Json
