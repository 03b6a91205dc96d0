import Colloquy.Proofs.Session.Faults
import Colloquy.Proofs.Session.History

/-!
# Refused moves

A session refuses a move that its state does not allow, an option that cannot be selected, and a start
at a section that does not exist.  A refused move leaves no trace, neither in the session nor in what the
host remembers, so moves that were refused can be left out of a playthrough without a difference to the
rest.

A fault in a statement must not be taken for a refusal, because it does leave traces.  The faults of an
evaluation are therefore followed from its parts to the whole: none of them is an error that sessions
refuse moves with.
-/

namespace Colloquy

open Code

/-- The move starts the script. -/
def Move.isStart : Move → Bool
  | .start _ => true
  | _ => false

/-- The answer refuses the move.  The name of a section can be wrong inside a script too; it refuses
starts only. -/
def Move.isRefused (m : Move) : Reply → Bool
  | .ok _ => false
  | .error (.unknownSection _) => m.isStart
  | .error e => e.isRefusal

/-- A move that is no start is refused exactly with the errors that sessions refuse with. -/
theorem Move.isRefused_error {m : Move} (hm : m.isStart = false) (e : SessionError) :
    m.isRefused (.error e) = e.isRefusal := by
  cases e with
  | unknownSection name => exact hm
  | _ => rfl

/-! ## Faults of evaluations -/

/-- The evaluation does not stop with a refusal. -/
def Eval.Unrefused {σ α : Type} (m : Eval σ α) : Prop :=
  ∀ x e ending y, m x = .error (.fault e ending) y → e.isRefusal = false

theorem SessionError.isRefusal_ofHost (name : String) (e : HostError) :
    (ofHost name e).isRefusal = false :=
  isRefusal_of_isOrdinary (isOrdinary_ofHost name e)

namespace Eval.Unrefused

variable {σ α β : Type} {S : Script} {h : Host σ}

theorem of_ordinary {m : Eval σ α} (hm : Ordinary m) : Unrefused m :=
  fun x e ending y hrun => SessionError.isRefusal_of_isOrdinary (hm x e ending y hrun)

/-- A fault that is no refusal is none as the fault of an evaluation. -/
theorem fail {e : SessionError} (ending : Bool) (he : e.isRefusal = false) :
    Unrefused (Eval.fail e ending : Eval σ α) := by
  intro x e' ending' y hrun
  cases hrun
  exact he

theorem bind {m : Eval σ α} {f : α → Eval σ β} (hm : Unrefused m) (hf : ∀ a, Unrefused (f a)) :
    Unrefused (m >>= f) := Eval.faults_bind hm hf

/-- What evaluations are made of, seen as one side of a pairing with itself. -/
theorem pairing (h : Host σ) : Pairing (fun m _ => Unrefused m) h h where
  pure a := of_ordinary (.pure a)
  fail _ := fail
  bind hm hf := bind hm hf
  get name := of_ordinary (.ask (h.get name))

/-- No statement is refused, whatever its words are. -/
theorem statementAt (sections : Catalog Nat) (o : Nat) :
    Unrefused (Eval.statementAt S h (Eval.expr S h) sections o) := by
  refine bind (of_ordinary (.read _)) fun x => ?_
  exact @Pairing.statement _ _ _ _ _ S (Eval.expr S h) (Eval.expr S h) (pairing h) sections x.1
    (fun v => of_ordinary (.askFor _ (h.nameOf v))) (fun o _ => of_ordinary (.expr o))
    (fun _ _ _ _ _ o _ => of_ordinary (.expr o))

end Eval.Unrefused

/-! ## Refused moves -/

namespace Session

variable {σ : Type} {h : Host σ} {s s' : Session} {memory memory' : σ}

/-- Nor is a step of a session that runs. -/
theorem isRefusal_of_step {e : SessionError} (hstep : (s.step h memory).1 = .fault e) :
    e.isRefusal = false := by
  rw [step] at hstep
  by_cases hending : s.ending = true
  · rw [if_pos hending] at hstep
    cases hstep
  rw [if_neg hending] at hstep
  generalize heval : Eval.statementAt s.script h (Eval.expr s.script h) s.sections s.pointer
    ⟨s.memo, memory⟩ = result at hstep
  cases result with
  | ok outcome stage => exact absurd hstep ((take_cases { s with memo := stage.memo } outcome).2.2 e)
  | error interrupt stage =>
    cases interrupt with
    | pending offset function => cases hstep
    | fault e' ending =>
      cases hstep
      exact Eval.Unrefused.statementAt s.sections s.pointer _ e ending stage heval

/-- Nor is what an advance does once the session runs. -/
theorem isRefusal_of_advanceFrom {limit : Nat} {buffer : Buffer Event} {e : SessionError}
    (hadvance : advanceFrom (step h) limit buffer s memory = some (.error e, s', memory')) :
    e.isRefusal = false := by
  induction limit generalizing buffer s memory with
  | zero => cases hadvance
  | succ limit ih =>
    rw [advanceFrom] at hadvance
    generalize hstep : s.step h memory = x at hadvance
    obtain ⟨result, t, memory₁⟩ := x
    cases result with
    | on more => exact ih hadvance
    | wait more => cases hadvance
    | fault e' =>
      cases hadvance
      exact isRefusal_of_step (by rw [hstep])

/-- An advance is refused only before its first statement. -/
theorem advance_of_refusal {limit : Nat} {e : SessionError}
    (hadvance : s.advance h limit memory = some (.error e, s', memory'))
    (he : e.isRefusal = true) : s' = s ∧ memory' = memory := by
  rw [advance, advanceWith] at hadvance
  by_cases hrunning : s.status = .running
  · rw [if_pos hrunning] at hadvance
    have hfault := isRefusal_of_advanceFrom hadvance
    rw [hfault] at he
    cases he
  · rw [if_neg hrunning] at hadvance
    cases hadvance
    exact ⟨rfl, rfl⟩

/-- A delivery that is refused finds no pending call that it could take away. -/
theorem complete_of_refusal {events : List Event} (hs : s.Coherent events)
    {result : Except HostError Value} {e : SessionError}
    (hcomplete : s.complete result = (.error e, s')) (he : e.isRefusal = true) : s' = s := by
  by_cases hstatus : s.status = .awaitingCall
  · obtain ⟨⟨offset, function⟩, hpending⟩ := Option.isSome_iff_exists.mp (hs.pending.mpr hstatus)
    cases result with
    | ok v =>
      rw [complete_ok hstatus hpending] at hcomplete
      cases hcomplete
    | error e' =>
      rw [complete_error hstatus hpending] at hcomplete
      cases hcomplete
      rw [SessionError.isRefusal_ofHost] at he
      cases he
  · rw [complete_of_status_ne hstatus] at hcomplete
    cases hcomplete
    rw [← hs.pending_eq_none hstatus]

/-- A refused move changes nothing. -/
theorem move_of_isRefused {events : List Event} (hs : s.Coherent events) {m : Move} {reply : Reply}
    (hmove : s.move h memory m = some (reply, s', memory')) (hrefused : m.isRefused reply = true) :
    s' = s ∧ memory' = memory := by
  cases m with
  | start name =>
    rw [move] at hmove
    rcases s.start_cases name with ⟨e, hstart⟩ | ⟨-, entry, -, hstart⟩
    · rw [hstart] at hmove
      cases hmove
      exact ⟨rfl, rfl⟩
    · rw [hstart] at hmove
      cases hmove
      cases hrefused
  | advance limit =>
    rw [move] at hmove
    split at hmove
    · next reply _ _ hadvance =>
      cases hmove
      cases reply with
      | ok buffer => cases hrefused
      | error e =>
        refine advance_of_refusal hadvance ?_
        rwa [← Move.isRefused_error (m := .advance limit) rfl]
    · cases hmove
  | select index =>
    rw [move] at hmove
    rcases s.select_cases index with ⟨e, hselect⟩ | ⟨-, choice, -, -, hselect⟩
    · rw [hselect] at hmove
      cases hmove
      exact ⟨rfl, rfl⟩
    · rw [hselect] at hmove
      cases hmove
      cases hrefused
  | complete result =>
    rw [move] at hmove
    generalize hcomplete : s.complete result = x at hmove
    obtain ⟨answer, t⟩ := x
    cases hmove
    cases answer with
    | ok _ => cases hrefused
    | error e =>
      refine ⟨complete_of_refusal hs hcomplete ?_, rfl⟩
      rwa [← Move.isRefused_error (m := .complete result) rfl]

/-- A selection succeeds exactly if there is a choice to make and the option can be selected. -/
theorem select_eq_ok_iff (s : Session) (index : Nat) :
    (s.select index).1 = .ok () ↔ s.status = .awaitingChoice ∧
      ∃ c, s.choices.items[index]? = some c ∧ c.enabled = true := by
  constructor
  · intro hok
    rcases s.select_cases index with ⟨e, hselect⟩ | ⟨hstatus, c, hc, henabled, -⟩
    · rw [hselect] at hok
      cases hok
    · exact ⟨hstatus, c, hc, henabled⟩
  · rintro ⟨hstatus, c, hc, henabled⟩
    rw [select, if_neg (not_not_intro hstatus), hc]
    simp only [if_pos henabled]

end Session

/-! ## Playthroughs without refused moves -/

/-- The moves that were not refused, with their answers. -/
def heeded (moves : List Move) (replies : List Reply) : List (Move × Reply) :=
  (moves.zip replies).filter fun (m, reply) => !m.isRefused reply

/-- Moves that are refused can be left out. -/
theorem History.run_heeded {σ : Type} {h : Host σ} {S : Script} {past : List Deed} {s t : Session}
    {memory memory' : σ} {moves : List Move} {replies : List Reply} (hpast : History S past s)
    (hrun : s.run h memory moves = some (replies, t, memory')) :
    s.run h memory ((heeded moves replies).map Prod.fst) =
      some ((heeded moves replies).map Prod.snd, t, memory') := by
  induction moves generalizing past s memory replies with
  | nil =>
    cases hrun
    rfl
  | cons m ms ih =>
    rw [Session.run] at hrun
    obtain ⟨⟨reply, u, memory₁⟩, hmove, hrun⟩ := Option.bind_eq_some_iff.mp hrun
    obtain ⟨⟨rest, v, memory₂⟩, hrest, hrun⟩ := Option.bind_eq_some_iff.mp hrun
    cases hrun
    have hkept := ih (hpast.snoc (.of_move hmove)) hrest
    by_cases hrefused : m.isRefused reply = true
    · obtain ⟨rfl, rfl⟩ := Session.move_of_isRefused hpast.coherent hmove hrefused
      have hheeded : heeded (m :: ms) (reply :: rest) = heeded ms rest := by
        rw [heeded, List.zip_cons_cons, List.filter_cons_of_neg (by simp [hrefused])]
        rfl
      rw [hheeded]
      exact hkept
    · have hheeded : heeded (m :: ms) (reply :: rest) = (m, reply) :: heeded ms rest := by
        rw [heeded, List.zip_cons_cons, List.filter_cons_of_pos (by simp [hrefused])]
        rfl
      rw [hheeded, List.map_cons, List.map_cons, Session.run, hmove]
      show (Session.run h u memory₁ _ >>= _) = _
      rw [hkept]
      rfl

/-- In every session that can be reached, a refused move changes neither the session nor what the host
remembers, and a playthrough goes on as if it had not been tried.  A selection succeeds exactly if there
is a choice to make and the option is on offer and enabled, and then leads where the option leads. -/
theorem refused_moves_change_nothing {S : Script} {past : List Deed} {s : Session}
    (hpast : History S past s) :
    (∀ {σ : Type} (h : Host σ) memory m reply s' memory',
      s.move h memory m = some (reply, s', memory') → m.isRefused reply = true →
        s' = s ∧ memory' = memory) ∧
    (∀ {σ : Type} (h : Host σ) memory moves replies t memory',
      s.run h memory moves = some (replies, t, memory') →
        s.run h memory ((heeded moves replies).map Prod.fst) =
          some ((heeded moves replies).map Prod.snd, t, memory')) ∧
    (∀ index, (s.select index).1 = .ok () ↔ s.status = .awaitingChoice ∧
      ∃ c, s.choices.items[index]? = some c ∧ c.enabled = true) ∧
    (∀ index c, (s.select index).1 = .ok () → s.choices.items[index]? = some c →
      (s.select index).2.pointer = c.next) := by
  refine ⟨?_, ?_, s.select_eq_ok_iff, ?_⟩
  · intro σ h memory m reply s' memory' hmove hrefused
    exact Session.move_of_isRefused hpast.coherent hmove hrefused
  · intro σ h memory moves replies t memory' hrun
    exact hpast.run_heeded hrun
  · intro index c hok hc
    rcases s.select_cases index with ⟨e, hselect⟩ | ⟨-, choice, hchoice, -, hselect⟩
    · rw [hselect] at hok
      cases hok
    · rw [hc] at hchoice
      cases hchoice
      rw [hselect]
      rfl

/-- Moves that make no sense at the choice in the treasury. -/
def senseless : List Move :=
  [.complete (.ok .void), .select 1, .select 2, .start "vault", .advance 5]

/-- At the choice in the treasury, none of the senseless moves changes anything. -/
theorem senseless_change_nothing : ∃ past s, History treasuryScript past s ∧
    s.status = .awaitingChoice ∧ ∀ m ∈ senseless, ∃ reply, m.isRefused reply = true ∧
      s.move TableHost.host treasurer m = some (reply, s, treasurer) := by
  obtain ⟨past, s, hpast, hall⟩ := History.exists_of_run TableHost.host treasurer treasuryMoves
    (fun _ s => s.status = .awaitingChoice && senseless.all fun m =>
      decide ((s.move TableHost.host treasurer m).map (fun r => m.isRefused r.1) = some true))
    (S := treasuryScript) (by decide +kernel)
  rw [Bool.and_eq_true, List.all_eq_true] at hall
  obtain ⟨hstatus, hsenseless⟩ := hall
  refine ⟨past, s, hpast, of_decide_eq_true hstatus, fun m hm => ?_⟩
  obtain ⟨⟨reply, s', memory'⟩, hmove, hrefused⟩ :=
    Option.map_eq_some_iff.mp (of_decide_eq_true (hsenseless m hm))
  obtain ⟨rfl, rfl⟩ := (refused_moves_change_nothing hpast).1 _ _ m reply s' memory' hmove hrefused
  exact ⟨reply, hrefused, hmove⟩

end Colloquy
