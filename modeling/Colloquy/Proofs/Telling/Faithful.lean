import Colloquy.Proofs.Parser.Story
import Colloquy.Proofs.Telling.Play

/-!
# Compiling is faithful

A source is played as it is told.  If every section that the story mentions exists and no two share a
name, a session of the compiled script and the telling of the story answer the same moves with the same
events, options and faults, and make the same requests of the host in the same order.
-/

namespace Colloquy

theorem Host.Prompt.recorded {σ : Type} {h : Host σ} (hprompt : h.Prompt) : h.recorded.Prompt :=
  fun name args memory => hprompt name args memory.1

/-- Whatever moves are made, a session of a compiled source answers them as the telling of its story
does, apart from offsets.  The host keeps a list of all requests, and the list is the same after every
move.  Words are 32 bits wide, so the script has to be smaller than that. -/
theorem compile_faithful (r : Registry) (o : CompileOptions) (implicit : Option String)
    (source : String) (hr : r.Floats Number.Unsigned)
    (haddressable : (compile r o (parse implicit source).1).script.Addressable)
    (hunique : ∀ name span first, .compile (.duplicateSection name span first) ∉
      (compile r o (parse implicit source).1).diagnostics)
    (hknown : ∀ name span, .compile (.unknownSection name span) ∉
      (compile r o (parse implicit source).1).diagnostics)
    {σ : Type} (h : Host σ) (hprompt : h.Prompt) (memory : σ) (moves : List Move) :
    ∃ session, Session.ofScript (compile r o (parse implicit source).1).script = .ok session ∧
      (session.play h.recorded (memory, []) moves).map (List.map fun p => (p.1.placeless, p.2)) =
        Telling.play r (parse implicit source).1 h.recorded .idle (memory, []) moves := by
  obtain ⟨session, hsession, hplay⟩ :=
    exists_session_play o hr (parse_meets implicit source) haddressable hunique hknown
  exact ⟨session, hsession, hplay h.recorded hprompt.recorded (memory, []) moves⟩

/-- A line with a placeholder and hash data, and a choice with a target and a guard. -/
def roundTrip : String :=
  "=== main\nAnn: \x7b1 + 2\x7d left. #\x7btries: 3\x7d\nchoice \x7b\n* Again -> main\n* [1 > 2] Leave\n\x7d\n"

/-- A host that grants everything at once. -/
def Host.agreeable : Host Unit where
  get _ := pure (some .void)
  set _ _ := pure (.ok ())
  call _ _ := pure (.ok .void)
  await _ _ := pure (.ok (.ready .void))
  nameOf _ := pure (.ok "")

/-- Once round through the choice and back to the line. -/
theorem faithful_of_round_trip :
    ∃ session, Session.ofScript (compile .empty {} (parse none roundTrip).1).script = .ok session ∧
      (session.play Host.agreeable.recorded ((), []) [.start "main", .advance 9, .advance 9, .select 0,
          .advance 9]).map (List.map fun p => (p.1.placeless, p.2)) =
        Telling.play .empty (parse none roundTrip).1 Host.agreeable.recorded .idle ((), [])
          [.start "main", .advance 9, .advance 9, .select 0, .advance 9] := by
  obtain ⟨haddressable, hsilent⟩ :
      (compile .empty {} (parse none roundTrip).1).script.Addressable ∧
      (compile .empty {} (parse none roundTrip).1).diagnostics = [] := by
    decide +kernel
  refine compile_faithful .empty {} none _ ?_ haddressable ?_ ?_ _ ?_ () _
  · intro name f hf
    cases hf
  · simp [hsilent]
  · simp [hsilent]
  · intro name args memory hpending
    cases hpending

end Colloquy
