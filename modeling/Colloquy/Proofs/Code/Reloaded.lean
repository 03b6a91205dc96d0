import Colloquy.Proofs.Code.Stored

/-!
# Loading any script

A script need not come out of the compiler to be stored.  Whatever its texts and words are, the stored
script is loaded with the same speakers, texts and words at the same places, and each of its floats is
replaced by the one that its number is read as (`Script.parse?_render_eq_some`).  So a script of finite
floats is loaded as itself just if all of them survive (`Script.reloads_iff`).
-/

namespace Colloquy

namespace Script

/-- What a script of finite floats is loaded as. -/
theorem parse?_render_eq_some {s t : Script} (hfinite : ∀ x ∈ s.floats, Number.Finite x) :
    parse? s.render = some t ↔
      t.speakers = s.speakers ∧ t.strings = s.strings ∧ t.words = s.words ∧
        List.Forall₂ (fun x y => (Json.Number.ofFloat x).toFloat? = some y) s.floats.toList
          t.floats.toList := by
  have hread : ∀ x ∈ s.floats.toList, ∀ y,
      (Json.ofFloat x).asFloat? = some y ↔ (Json.Number.ofFloat x).toFloat? = some y := fun x hx y => by
    rw [Json.ofFloat, if_pos (hfinite x (Array.mem_toList_iff.mp hx))]
    rfl
  rw [parse?_render_eq, ofJson?_toJson, Option.map_eq_some_iff]
  constructor
  · rintro ⟨ys, hys, rfl⟩
    exact ⟨rfl, rfl, rfl, (Json.asListOf?_map_eq_some hread).mp hys⟩
  · rintro ⟨hspeakers, hstrings, hwords, hys⟩
    refine ⟨t.floats.toList, (Json.asListOf?_map_eq_some hread).mpr hys, ?_⟩
    rw [← hspeakers, ← hstrings, ← hwords]

/-- A script whose floats are finite is loaded with its texts and words at their places, and with as many
floats, if it is loaded at all.  It is loaded as itself just if each float is read as itself from the number
that it is written as. -/
theorem reloads_iff (s : Script) (hfinite : ∀ x ∈ s.floats, Number.Finite x) :
    (parse? s.render = some s ↔ ∀ x ∈ s.floats, Number.Survives x) ∧
      ∀ t, parse? s.render = some t → t.speakers = s.speakers ∧ t.strings = s.strings ∧
        t.words = s.words ∧ t.floats.size = s.floats.size := by
  constructor
  · rw [parse?_render_eq_some hfinite, List.forall₂_same]
    simp [Number.Survives]
  · intro t h
    obtain ⟨hspeakers, hstrings, hwords, hfloats⟩ := (parse?_render_eq_some hfinite).mp h
    exact ⟨hspeakers, hstrings, hwords, by simpa using hfloats.length_eq.symm⟩

/-- A script with all kinds of characters in its texts, words at both ends of their range, and a float that is
there twice. -/
def motley : Script :=
  { speakers := #["", "\"", "\\", "it's"]
    floats := #[0.5, -0.0, 1e300, 0.5]
    strings := #["\n\t\x00\x1f\x7f", "\u2028\ufeff", "é🎭", "\\u0041", "[\x7b\"a\": 1\x7d, null]"]
    words := #[0, 4294967295, 7] }

theorem reloads_motley : Script.parse? motley.render = some motley :=
  (reloads_iff motley (by decide +kernel)).1.mpr (by decide +kernel)

end Script

end Colloquy
