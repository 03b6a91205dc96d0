import Colloquy.Proofs.Json.RoundTrip
import Colloquy.Proofs.Layout.Story
import Colloquy.Proofs.Parser.Story

/-!
# Stored scripts

A script is stored as a document that is read back (`Script.written_toJson`), so loading it comes down to
its floats: a finite one is there as a number, and any other one as nothing, which no script is loaded from
(`Script.parse?_render`, `Script.parse?_render_of_infinite`).

The floats of a compiled script come from the numbers of its source and from the defaults of its registry.
A number with too many digits is read as an infinity and nobody objects, so the script of such a source is
compiled and cannot be loaded (`compileText_stored`).
-/

namespace Colloquy

/-- A float that is read as itself from the number that it is written as. -/
def Number.Survives (x : Float) : Prop := (Json.Number.ofFloat x).toFloat? = some x

instance (x : Float) : Decidable (Number.Survives x) := inferInstanceAs (Decidable (_ = some x))

/-- A float that is neither an infinity nor no number. -/
abbrev Number.Finite (x : Float) : Prop := x.isFinite = true

instance (l : Lexeme) : Decidable (l.Floats Number.Finite) :=
  match l with
  | .number x => inferInstanceAs (Decidable (Number.Finite x))
  | .mark _ => isTrue trivial
  | .identifier _ => isTrue trivial
  | .string _ => isTrue trivial
  | .text _ => isTrue trivial

namespace Script

/-! ## Documents of scripts -/

/-- The document of a script is one that a text stands for. -/
theorem written_toJson (s : Script) : s.toJson.Written := by
  have hword : ∀ w : UInt32, (Json.ofNat w.toNat).Written := fun w => by
    rw [Json.ofNat, Json.Written]
    exact Json.Number.written_ofDigits w.toNat
  rw [toJson, Json.Written]
  simp only [Json.MembersWritten]
  exact ⟨Json.written_map Json.written_string _, Json.written_map Json.written_ofFloat _,
    Json.written_map Json.written_string _, Json.written_map hword _, trivial⟩

/-- Loading a stored script reads its document. -/
theorem parse?_render_eq (s : Script) : parse? s.render = ofJson? s.toJson := by
  rw [parse?, render, Json.parse?_pretty s.written_toJson]
  rfl

/-! ## Reading the sequences -/

/-- A word is read back from its digits. -/
theorem wordOfJson?_ofNat (w : UInt32) : wordOfJson? (.ofNat w.toNat) = some w := by
  have hword : (Json.Number.ofDigits w.toNat).toNat? UInt32.size = some w.toNat :=
    Json.Number.toNat?_ofDigits w.toNat_lt
  show ((Json.Number.ofDigits w.toNat).toNat? UInt32.size).map UInt32.ofNat = some w
  rw [hword, Option.map_some, UInt32.ofNat_toNat]

theorem asFloat?_ofFloat {x : Float} (hfinite : Number.Finite x) (h : Number.Survives x) :
    (Json.ofFloat x).asFloat? = some x := by
  rw [Json.ofFloat, if_pos hfinite]
  exact h

theorem asFloat?_of_infinite {x : Float} (h : ¬Number.Finite x) : (Json.ofFloat x).asFloat? = none := by
  rw [Json.ofFloat, if_neg h]
  rfl

/-- What is loaded from the document of a script, once its floats are read. -/
theorem ofJson?_toJson (s : Script) : ofJson? s.toJson =
    ((Json.array (s.floats.toList.map .ofFloat)).asListOf? Json.asFloat?).map
      fun floats => { s with floats := floats.toArray } := by
  have hstrings : ∀ xs : Array String,
      (Json.array (xs.toList.map .string)).asListOf? Json.asString? = some xs.toList :=
    fun xs => Json.asListOf?_map fun _ _ => rfl
  have hwords : (Json.array (s.words.toList.map fun w => .ofNat w.toNat)).asListOf? wordOfJson?
      = some s.words.toList := Json.asListOf?_map fun w _ => wordOfJson?_ofNat w
  have hrecord : s.toJson.record? ["speaker_ids", "floats", "strings", "instructions"]
      = some [some (.array (s.speakers.toList.map .string)), some (.array (s.floats.toList.map .ofFloat)),
        some (.array (s.strings.toList.map .string)),
        some (.array (s.words.toList.map fun w => .ofNat w.toNat))] := by
    simp [toJson, Json.record?, Json.member?]
  rw [ofJson?, hrecord]
  simp only [Option.bind_eq_bind, Option.bind_some, hstrings, hwords]
  cases (Json.array (s.floats.toList.map .ofFloat)).asListOf? Json.asFloat? <;> rfl

/-- A script whose floats are finite and survive is loaded as it was stored. -/
theorem parse?_render {s : Script} (h : ∀ x ∈ s.floats, Number.Finite x ∧ Number.Survives x) :
    parse? s.render = some s := by
  have hfloats : (Json.array (s.floats.toList.map .ofFloat)).asListOf? Json.asFloat? = some s.floats.toList :=
    Json.asListOf?_map fun x hx => asFloat?_ofFloat (h x (Array.mem_toList_iff.mp hx)).1
      (h x (Array.mem_toList_iff.mp hx)).2
  rw [parse?_render_eq, ofJson?_toJson, hfloats]
  rfl

/-- A script with a float that is not finite is not loaded. -/
theorem parse?_render_of_infinite {s : Script} (h : ∃ x ∈ s.floats, ¬Number.Finite x) :
    parse? s.render = none := by
  obtain ⟨x, hx, hinfinite⟩ := h
  rw [parse?_render_eq, ofJson?_toJson,
    Json.asListOf?_map_none ⟨x, Array.mem_toList_iff.mpr hx, asFloat?_of_infinite hinfinite⟩]
  rfl

end Script

/-! ## Compiled scripts -/

/-- The floats of a compiled story are the numbers that it was compiled from. -/
theorem compile_floats {P : Float → Prop} {r : Registry} (o : CompileOptions) {story : Story}
    (hr : r.Floats P) {F : Nat → Prop} (hs : story.Meets (Expr.Floats P) F) :
    ∀ x ∈ (compile r o story).script.floats, P x := by
  have hdeclared := Lower.declareAll_declared story (Lower.declared_empty (P := P))
  rw [List.nil_append, List.nil_append] at hdeclared
  have hemits := Lower.sectionBodies_emits (o := o) hr hdeclared.length hs hdeclared.valid
    hdeclared.closed hdeclared.nodup hdeclared.fresh
  exact hemits.valid.float

/-- The floats of a compiled source are numbers of its text or defaults of the registry. -/
theorem compileText_floats {P : Float → Prop} {r : Registry} (o : CompileOptions) (implicit : Option String)
    {source : String} (hr : r.Floats P) (htokens : ∀ t ∈ tokensOf (scan source), t.lexeme.Floats P) :
    ∀ x ∈ (compileText r o implicit source).script.floats, P x :=
  compile_floats o hr (parseTokens_inherits (.floats P) implicit htokens)

/-- A compiled script is loaded as it was stored, if all numbers of its source are finite.  It is not loaded
at all if one of its floats is not. -/
theorem compileText_stored (r : Registry) (o : CompileOptions) (implicit : Option String) (source : String)
    (hdefaults : r.Floats Number.Finite)
    (hsurvive : ∀ x ∈ (compileText r o implicit source).script.floats,
      Number.Finite x → Number.Survives x) :
    ((∀ t ∈ tokensOf (scan source), t.lexeme.Floats Number.Finite) →
      Script.parse? (compileText r o implicit source).script.render
        = some (compileText r o implicit source).script) ∧
    ((∃ x ∈ (compileText r o implicit source).script.floats, ¬Number.Finite x) →
      Script.parse? (compileText r o implicit source).script.render = none) := by
  refine ⟨fun htokens => ?_, Script.parse?_render_of_infinite⟩
  have hfinite := compileText_floats o implicit hdefaults htokens
  exact Script.parse?_render fun x hx => ⟨hfinite x hx, hsurvive x hx (hfinite x hx)⟩

/-- A script that shows a number. -/
def halfway : String := "=== a\n: \x7b0.5\x7d\n"

/-- Its number is finite and survives. -/
theorem stored_halfway : Script.parse? (compileText .empty {} none halfway).script.render
    = some (compileText .empty {} none halfway).script := by
  have hdefaults : Registry.empty.Floats Number.Finite := by
    intro name f hf
    cases hf
  refine (compileText_stored .empty {} none halfway hdefaults ?_).1 ?_
  · decide +kernel
  · decide +kernel

/-- A script that shows a number of more digits than any float has before its point. -/
def overlong : List Char := "=== a\n: \x7b".toList ++ List.replicate 309 '9' ++ "\x7d\n".toList

/-- Nothing is wrong with it, its finite floats survive, and it is not loaded. -/
theorem not_stored_overlong :
    (compileText .empty {} none (String.ofList overlong)).hasErrors = false ∧
      (∀ x ∈ (compileText .empty {} none (String.ofList overlong)).script.floats,
        Number.Finite x → Number.Survives x) ∧
      Script.parse? (compileText .empty {} none (String.ofList overlong)).script.render = none := by
  have hcompiled : (compileText .empty {} none (String.ofList overlong)).hasErrors = false ∧
      (compileText .empty {} none (String.ofList overlong)).script.floats = #[1.0 / 0.0] := by
    rw [compileText, scan, String.toList_ofList]
    decide +kernel
  have hinfinite : ¬Number.Finite (1.0 / 0.0) := by decide +kernel
  generalize compileText .empty {} none (String.ofList overlong) = c at hcompiled ⊢
  obtain ⟨herrors, hfloats⟩ := hcompiled
  refine ⟨herrors, ?_, Script.parse?_render_of_infinite ?_⟩
  · intro x hx hfinite
    rw [hfloats, List.mem_toArray, List.mem_singleton] at hx
    exact absurd (hx ▸ hfinite) hinfinite
  · rw [hfloats]
    exact ⟨1.0 / 0.0, List.mem_toArray.mpr (List.mem_singleton_self _), hinfinite⟩

end Colloquy
