import Colloquy.Proofs.Diagnostic.Sections
import Colloquy.Proofs.Layout.Live
import Colloquy.Proofs.Session.Halting

/-!
# Sessions never come to what is cut off

What is reported as unreachable is.  The statements of a script that are not cut off keep control to
themselves (`Compiled.exists_live`), and a session gets among them only by a start, at a section, which is
one of them.  Before its first start it stands in front of all statements.  So whatever is done with it,
it is never at a place of a statement that a goto or an end cuts off (`Trail.kept`).
-/

namespace Colloquy

/-! ## Sessions -/

section

variable {S : Script} {K : Nat → Prop} {trail more : List Nat} {s s' : Session}

/-- A session that is idle has been so from its start on, and control has not moved. -/
theorem Session.Tick.idle (h : s.Tick more s') (hpool : s.choicePool.Clean) (hidle : s'.status = .idle) :
    s.status = .idle ∧ s'.pointer = s.pointer := by
  cases h with
  | start hstart =>
    obtain ⟨entry, -, rfl⟩ := Session.start_eq_ok hstart
    cases hidle
  | select hselect =>
    obtain ⟨-, choice, -, rfl⟩ := Session.select_eq_ok hselect
    cases hidle
  | goes _ _ hgoes =>
    rw [hidle] at hgoes
    cases hgoes
  | @halts _ h memory _ _ _ hrunning hstep _ =>
    have hturn := Session.step_turn (h := h) hpool memory
    rw [hstep] at hturn
    cases hturn with
    | moved | shown | skipped => exact absurd (hrunning.symm.trans hidle) (by simp)
    | _ => cases hidle
  | complete result =>
    rw [Session.complete] at hidle ⊢
    split at hidle
    · cases result <;> cases hidle
    · exact ⟨hidle, rfl⟩
  | recycle events => exact ⟨hidle, rfl⟩
  | buffers pool => exact ⟨hidle, rfl⟩

/-- Along a trail a session stands where control is kept, or idle at the start of the script. -/
theorem Trail.kept (hK : S.Closed K) (hsections : ∀ table, S.sectionTable = .ok table → table.Within K)
    (h : Trail S trail s) : s.Placed S K ∧ (s.status = .idle → s.pointer = 0) := by
  induction h with
  | @new s hnew =>
    have hscript := (Trail.new hnew).script
    rw [Session.ofScript] at hnew
    split at hnew
    · cases hnew
      exact ⟨⟨rfl, hsections _ hscript.2.1, by simp, by simp [Buffer.empty], .empty _⟩, fun _ => rfl⟩
    · cases hnew
  | snoc _ htick ih =>
    obtain ⟨hplaced, hpointer⟩ := ih
    refine ⟨hplaced.tick hK htick, fun hidle => ?_⟩
    obtain ⟨hwas, hstays⟩ := htick.idle hplaced.choicePool hidle
    rw [hstays]
    exact hpointer hwas

end

/-! ## Places -/

/-- Control never comes to a place, in any run against any host. -/
def Script.Avoids (S : Script) (spot : Spot) : Prop :=
  ∀ trail s, Trail S trail s → s.pointer < spot.start ∨ spot.stop ≤ s.pointer

namespace Script

variable {S : Script} {K : Nat → Prop} {story : List Section} {spots : List Spot} {s t : Nat}

/-- Every statement has words, and they stand behind the entry of the first section. -/
theorem Spots.start_lt (h : S.Spots story spots s t) : ∀ q ∈ spots, s < q.start ∧ q.start < q.stop := by
  induction h with
  | nil s => simp
  | @cons x xs spots more s m u v t hentry hspots hend _ ih =>
    have hlt : s < m := hentry.lt (by simp)
    obtain ⟨hmu, hbetween⟩ := Seats.between hspots
    have huv : u ≤ v := by
      rcases hend with ⟨-, rfl⟩ | ⟨-, hfinish⟩
      · exact Nat.le_refl _
      · exact hfinish.le
    rw [List.forall_mem_append]
    refine ⟨fun q hq => ⟨hlt.trans_le (hbetween q hq).1, ?_⟩, fun q hq => ⟨?_, (ih q hq).2⟩⟩
    · obtain ⟨p, -, _, _, rfl, hreads⟩ := hspots.exists_of_mem hq
      exact hreads.lt p.2.codes_ne_nil
    · have := (ih q hq).1
      omega

/-- Where control is kept from what is cut off, it never comes there. -/
theorem Keeps.avoids (h : S.Keeps spots K) (hspots : S.Spots story spots 0 t) {q : Spot} (hq : q ∈ spots)
    (hcut : q.reach ≠ .reached) : S.Avoids q := by
  intro trail s htrail
  obtain ⟨hplaced, hpointer⟩ := htrail.kept h.closed h.sections
  by_cases hidle : s.status = .idle
  · rw [hpointer hidle]
    exact .inl (hspots.start_lt q hq).1
  · exact h.apart q hq hcut s.pointer (hplaced.pointer hidle)

end Script

/-! ## Scripts -/

/-- The statements of a story have their places in its script, and in no run does control come to one
that a goto or an end in front of it in its block cuts off.  The warnings of unreachable statements are
given for such statements only, for the first one of each block. -/
theorem compile_cut_off_unreached (r : Registry) (o : CompileOptions) (story : Story)
    (haddressable : (compile r o story).script.Addressable) :
    (∃ spots t, (compile r o story).script.Spots story spots 0 t) ∧
    ∀ spots t, (compile r o story).script.Spots story spots 0 t →
      spots.map (fun q => (q.reach, q.stmt)) = story.chart ∧
      (∀ q ∈ spots, q.start < q.stop) ∧
      (∀ q ∈ spots, q.reach ≠ .reached → (compile r o story).script.Avoids q) ∧
      (compile r o story).diagnostics.filterMap (Diagnostic.compileError? CompileError.isUnreachable) =
        if o.unreachableWarnings then spots.filterMap fun q => q.reach.warning? q.stmt else [] := by
  obtain ⟨A, labels, hA⟩ := exists_compiled_of_any r o story haddressable
  obtain ⟨spots, K, hspots, hkeeps⟩ := hA.exists_live
  rw [hA.script] at hspots hkeeps
  refine ⟨⟨spots, A.trap, hspots⟩, fun spots' t hspots' => ?_⟩
  obtain rfl := hspots.unique hspots'
  refine ⟨hspots.chart, fun q hq => (hspots.start_lt q hq).2,
    fun q hq hcut => hkeeps.avoids hspots hq hcut, ?_⟩
  obtain ⟨errors, hcompile, -, hunreachable⟩ := compile_flow r o story
  rw [hcompile, Diagnostic.filterMap_compileError?, hunreachable, Stmt.warnings, ← hspots.chart,
    List.filterMap_map]
  rfl

/-- A story that is cut off twice: in the branch of a conditional by a goto, and behind it by an end. -/
def wharf : String :=
  "=== wharf\nAnn: Aboard!\nif late \x7b\ngoto wharf\nBob: Too late.\n\x7d\nend\nAnn: Still here?\n" ++
    "if late \x7b\nBob: Yes.\n\x7d\n"

/-- The wharf has two statements that are cut off, and no session comes to them. -/
theorem cut_off_unreached_at_wharf : ∃ spots t,
    (compile .empty {} (parse none wharf).1).script.Spots (parse none wharf).1 spots 0 t ∧
    spots.filterMap (fun q => q.reach.warning? q.stmt) =
      [.unreachableStatement ⟨44, 14⟩ ⟨38, 5⟩, .unreachableStatement ⟨65, 16⟩ ⟨61, 3⟩] ∧
    ∀ q ∈ spots, q.reach ≠ .reached → (compile .empty {} (parse none wharf).1).script.Avoids q := by
  obtain ⟨haddressable, hwarned⟩ :
      (compile .empty {} (parse none wharf).1).script.Addressable ∧
      (compile .empty {} (parse none wharf).1).diagnostics.filterMap
          (Diagnostic.compileError? CompileError.isUnreachable) =
        [.unreachableStatement ⟨44, 14⟩ ⟨38, 5⟩, .unreachableStatement ⟨65, 16⟩ ⟨61, 3⟩] := by
    decide +kernel
  obtain ⟨⟨spots, t, hspots⟩, hall⟩ :=
    compile_cut_off_unreached .empty {} (parse none wharf).1 haddressable
  obtain ⟨-, -, havoids, hwarnings⟩ := hall spots t hspots
  exact ⟨spots, t, hspots, hwarnings.symm.trans hwarned, havoids⟩

end Colloquy
