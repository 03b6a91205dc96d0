import Colloquy.Proofs.Readback.Still
import Colloquy.Proofs.Session.Jump
import Colloquy.Proofs.Session.Placed
import Colloquy.Proofs.Soundness.Statement

/-!
# Playthroughs of checked sources

A source from whose compilation nothing worse than warnings came can be played with any moves, as long as
awaited calls are completed with values of the kinds that their functions declare.  No move ever fails
over a kind, a variable, the host or the stream (`compile_typeSafe`).

`Session.Sound` is what every move keeps: the host serves, the results in the memo fit, and the pending
call is one of the function that is named.  A statement keeps it because it is safe, an advance because
statements do.
-/

namespace Colloquy

open Code

/-! ## Playthroughs -/

/-- A move that completes the pending call delivers a value of the kind that its function declares. -/
def Move.isFair (r : Registry) (s : Session) : Move → Bool
  | .complete result =>
    match s.pendingFunction, result with
    | none, _ => true
    | some function, .ok v => (r.findFunction? function).any fun f => v.kind = f.returns
    | some _, .error _ => false
  | _ => true

section

variable {σ : Type} (h : Host σ) (r : Registry) (S : Script) (memory : σ)

/-- A new session of a script came to be a session by fair moves, while its host went from remembering
`memory` to what it remembers now. -/
inductive Played : Session → σ → Prop where
  | new {s : Session} : Session.ofScript S = .ok s → Played s memory
  | move {s s' : Session} {k k' : σ} {m : Move} {reply : Reply} : Played s k → m.isFair r s = true →
      s.move h k m = some (reply, s', k') → Played s' k'

/-- Moves that are made one after another are fair. -/
def Session.fairly : Session → σ → List Move → Bool
  | _, _, [] => true
  | s, k, m :: ms => m.isFair r s &&
    match s.move h k m with
    | some (_, s, k) => fairly s k ms
    | none => true

variable {h r S memory}

/-- A playthrough is a history. -/
theorem Played.history {s : Session} {k : σ} (hplayed : Played h r S memory s k) :
    ∃ past, History S past s := by
  induction hplayed with
  | new hnew => exact ⟨[], .new hnew⟩
  | move _ _ hmove ih =>
    obtain ⟨past, hpast⟩ := ih
    exact ⟨_, hpast.snoc (.of_move hmove)⟩

/-- Fair moves in a row go on with a playthrough. -/
theorem Played.run {s s' : Session} {k k' : σ} {moves : List Move} {replies : List Reply}
    (hplayed : Played h r S memory s k) (hfair : s.fairly h r k moves = true)
    (hrun : s.run h k moves = some (replies, s', k')) : Played h r S memory s' k' := by
  induction moves generalizing s k replies with
  | nil =>
    cases hrun
    exact hplayed
  | cons m ms ih =>
    rw [Session.run] at hrun
    obtain ⟨⟨reply, t, k₁⟩, hmove, hrun⟩ := Option.bind_eq_some_iff.mp hrun
    obtain ⟨⟨rest, u, k₂⟩, hrest, hrun⟩ := Option.bind_eq_some_iff.mp hrun
    cases hrun
    rw [Session.fairly, hmove, Bool.and_eq_true] at hfair
    exact ih (hplayed.move hfair.1 hmove) hfair.2 hrest

/-- Fair moves that a new session of a script can make, with all that can be checked of where they
lead. -/
theorem Played.exists_of_run (h : Host σ) (r : Registry) (memory : σ) (moves : List Move)
    (p : Session → σ → Bool) (hrun : ((Session.ofScript S).toOption.bind fun s =>
      (s.run h memory moves).map fun x => s.fairly h r memory moves && p x.2.1 x.2.2) = some true) :
    ∃ s k, Played h r S memory s k ∧ p s k = true := by
  obtain ⟨s, hnew, hrun⟩ := Option.bind_eq_some_iff.mp hrun
  obtain ⟨⟨replies, s', k'⟩, hrun, hp⟩ := Option.map_eq_some_iff.mp hrun
  obtain ⟨hfair, hp⟩ := Bool.and_eq_true_iff.mp hp
  exact ⟨s', k', (Played.new (ok_of_toOption hnew)).run hfair hrun, hp⟩

end

/-! ## What may fail -/

section

variable {σ : Type} (h : Host σ)

/-- A session that remembers something in its host leads on to another by statements that wait for
nothing. -/
inductive Session.Leads : Session → σ → Session → σ → Prop where
  | refl (s : Session) (k : σ) : Leads s k s k
  | step {s t u : Session} {k k₁ k₂ : σ} {more : List Event} :
      s.step h k = (.on more, t, k₁) → Leads t k₁ u k₂ → Leads s k u k₂

/-- An advance comes to a line that jumps to a section which does not exist, by a tag that no fixed part
of the line holds. -/
inductive Session.Strays (S : Script) (s : Session) (k : σ) (name : String) : Prop where
  | intro {t t' : Session} {k₁ k₂ : σ} {l : LineNode} {stop : Nat} :
      Leads h { s with eventPool := s.eventPool.take.2 } k t k₁ →
      t.step h k₁ = (.fault (.unknownSection name), t', k₂) →
      S.decodeStatement t.pointer = .ok (.line l, stop) → S.Stray h ⟨t.memo, k₁⟩ l name →
      Strays S s k name

/-- A failure of a move that a checked source allows.  Sections are the only thing that is looked up by a
name which nobody checked: the one of a start, and the one of a jump that no fixed part of a line holds. -/
structure SessionError.Excused (S : Script) (story : Story) (s : Session) (k : σ) (m : Move)
    (e : SessionError) : Prop where
  kind : ∀ offset mismatch, e ≠ .kindMismatch offset mismatch
  «variable» : ∀ name, e ≠ .unknownVariable name
  host : ∀ name error, e ≠ .host name error
  code : ∀ error, e ≠ .code error
  «section» : ∀ name, e = .unknownSection name →
    (m = .start name ∧ ∀ x ∈ story, x.name.name ≠ name) ∨
      ∃ limit, m = .advance limit ∧ s.Strays h S k name

end

namespace SessionError.Excused

variable {σ : Type} {S : Script} {h : Host σ} {story : Story} {m : Move} {s : Session} {k : σ}

/-- An operation that is refused is excused. -/
theorem of_isRefusal {e : SessionError} (he : e.isRefusal = true) : Excused h S story s k m e where
  kind := by
    rintro _ _ rfl
    cases he
  «variable» := by
    rintro _ rfl
    cases he
  host := by
    rintro _ _ rfl
    cases he
  code := by
    rintro _ rfl
    cases he
  «section» := by
    rintro _ rfl
    cases he

/-- A missing section is excused if a start names it or a line strays to it. -/
theorem unknownSection {name : String} (hname : (m = .start name ∧ ∀ x ∈ story, x.name.name ≠ name) ∨
      ∃ limit, m = .advance limit ∧ s.Strays h S k name) :
    Excused h S story s k m (.unknownSection name) where
  kind := nofun
  «variable» := nofun
  host := nofun
  code := nofun
  «section» := by
    rintro _ ⟨rfl⟩
    exact hname

end SessionError.Excused

/-! ## Sound sessions -/

/-- The host of a session serves, the results that are kept fit, and the pending call is one of the
function that is named. -/
structure Session.Sound {σ : Type} (S : Script) (r : Registry) (I : σ → Prop) (s : Session) (k : σ) :
    Prop where
  memory : I k
  memo : s.memo.Fits S r
  pending : ∀ o function, s.pending = some (o, function) → S.callee? o = some function

/-- The statements of a script start at the offsets of `K` and are safe. -/
structure Script.Checked {σ : Type} (S : Script) (h : Host σ) (r : Registry) (I : σ → Prop)
    (table : Catalog Nat) (K : Nat → Prop) : Prop where
  sectionTable : S.sectionTable = .ok table
  closed : S.Closed K
  placed : ∀ past s, History S past s → s.Placed S K
  safe : ∀ n node stop, K n → S.decodeStatement n = .ok (node, stop) → ∀ x, x.Sound S r I →
    Safe.Ends S r I (node.Strays S h x) (fun _ => True)
      (Eval.statement S h (Eval.expr S h) table node x)

/-- An answer fails as what it was made from. -/
theorem eq_error_of_map {ε α β : Type} {x : Except ε α} {f : α → β} {e : ε}
    (h : x.map f = .error e) : x = .error e := by
  cases x with
  | ok a => cases h
  | error e' => exact congrArg _ (Except.error.inj h)

namespace Session.Sound

variable {σ : Type} {h : Host σ} {S : Script} {r : Registry} {I : σ → Prop} {table : Catalog Nat}
  {K : Nat → Prop} {s s' : Session} {k k' : σ} {story : Story}

/-- A new session is sound. -/
theorem new (hnew : Session.ofScript S = .ok s) (hI : I k) : s.Sound S r I k := by
  rw [Session.ofScript] at hnew
  split at hnew
  · cases hnew
    exact ⟨hI, .empty, by rintro _ _ ⟨⟩⟩
  · cases hnew

/-- A session whose results are forgotten. -/
theorem forget (hs : s.Sound S r I k) (hmemo : s'.memo = .empty) (hpending : s'.pending = s.pending) :
    s'.Sound S r I k :=
  ⟨hs.memory, hmemo ▸ .empty, hpending ▸ hs.pending⟩

/-- A move that is refused changes nothing, and refusing is excused. -/
theorem refuse (hs : s.Sound S r I k) {α : Type} {m : Move} {e : SessionError}
    (he : e.isRefusal = true) : s.Sound S r I k ∧
      ∀ e', (Except.error e : Except SessionError α) = .error e' → e'.Excused h S story s k m := by
  refine ⟨hs, ?_⟩
  rintro _ ⟨rfl⟩
  exact .of_isRefusal he

/-- A statement keeps a session sound, and is at fault only where a line strays. -/
theorem step (hS : S.Checked h r I table K) (hplaced : s.Placed S K) (htable : s.sections = table)
    (hs : s.Sound S r I k) (hrunning : s.status = .running) {st : Step}
    (hstep : s.step h k = (st, s', k')) :
    s'.Sound S r I k' ∧ ∀ e, st = .fault e → ∃ node stop,
      S.decodeStatement s.pointer = .ok (node, stop) ∧ node.Strays S h ⟨s.memo, k⟩ e := by
  rw [Session.step] at hstep
  by_cases hending : s.ending = true
  · rw [if_pos hending] at hstep
    cases hstep
    exact ⟨hs.forget rfl rfl, by rintro _ ⟨⟩⟩
  rw [if_neg hending, hplaced.script, htable] at hstep
  have hpointer : K s.pointer := hplaced.pointer (by simp [hrunning])
  obtain ⟨node, stop, hdecode, -⟩ := hS.closed s.pointer hpointer
  have hends := hS.safe s.pointer node stop hpointer hdecode ⟨s.memo, k⟩ ⟨hs.memory, hs.memo⟩
  rw [Eval.statementAt_ok _ _ _ hdecode] at hstep
  obtain ⟨pool, hbreak, -⟩ := s.exists_breakOff
  -- only how the statement ends matters from here on
  generalize Eval.statement S h (Eval.expr S h) table node ⟨s.memo, k⟩ = res at hends hstep
  cases hends with
  | @ok outcome stage _ hstage =>
    obtain ⟨hmemo, hpending, hfault⟩ := Session.take_cases { s with memo := stage.memo } outcome
    cases hstep
    refine ⟨⟨hstage.memory, ?_, fun o f hsome => hs.pending o f (hpending ▸ hsome)⟩,
      fun e he => absurd he (hfault e)⟩
    rcases hmemo with hmemo | hmemo
    · exact hmemo ▸ .empty
    · exact hmemo ▸ hstage.memo
  | pending hcallee hstage =>
    rw [Session.settle, hbreak] at hstep
    cases hstep
    refine ⟨⟨hstage.memory, hstage.memo, ?_⟩, by rintro _ ⟨⟩⟩
    rintro _ _ ⟨rfl⟩
    exact hcallee
  | fault hstrays hstage =>
    rw [Session.settle, hbreak] at hstep
    cases hstep
    refine ⟨⟨hstage.memory, .empty, by rintro _ _ ⟨⟩⟩, ?_⟩
    rintro _ ⟨rfl⟩
    exact ⟨node, stop, hdecode, hstrays⟩

/-- An advance of checked statements keeps a session sound, statement after statement, and what it fails
over is excused. -/
theorem advanceFrom (hS : S.Checked h r I table K) {limit : Nat} {buffer : Buffer Event}
    {reply : Except SessionError (Buffer Event)} (hplaced : s.Placed S K) (htable : s.sections = table)
    (hs : s.Sound S r I k) (hrunning : s.status = .running)
    (hadvance : Session.advanceFrom (Session.step h) limit buffer s k = some (reply, s', k')) :
    s'.Sound S r I k' ∧ ∀ e, reply = .error e → ∃ t k₁ t' k₂ node stop, s.Leads h k t k₁ ∧
      t.step h k₁ = (.fault e, t', k₂) ∧ S.decodeStatement t.pointer = .ok (node, stop) ∧
      node.Strays S h ⟨t.memo, k₁⟩ e := by
  induction limit generalizing buffer s k with
  | zero => cases hadvance
  | succ limit ih =>
    have hplaced' := hplaced.step hS.closed hrunning k (h := h)
    have hturn := Session.step_turn (h := h) hplaced.choicePool k
    rw [Session.advanceFrom] at hadvance
    cases hstep : s.step h k with
    | mk st next =>
      obtain ⟨t, k₁⟩ := next
      obtain ⟨hsound, hfault⟩ := hs.step hS hplaced htable hrunning hstep
      rw [hstep] at hplaced' hturn hadvance
      cases st with
      | on more =>
        have hstatus : t.status = s.status := hturn.isHash.2
        -- a fault further on is reached through this statement
        obtain ⟨hsound', hfault'⟩ :=
          ih hplaced' (hturn.script.2.trans htable) hsound (hstatus.trans hrunning) hadvance
        refine ⟨hsound', fun e he => ?_⟩
        obtain ⟨u, k₂, u', k₃, node, stop, hleads, hrest⟩ := hfault' e he
        exact ⟨u, k₂, u', k₃, node, stop, .step hstep hleads, hrest⟩
      | wait more =>
        cases hadvance
        exact ⟨hsound, by rintro _ ⟨⟩⟩
      | fault e =>
        cases hadvance
        refine ⟨⟨hsound.memory, hsound.memo, hsound.pending⟩, ?_⟩
        rintro _ ⟨rfl⟩
        obtain ⟨node, stop, hdecode, hstrays⟩ := hfault e rfl
        exact ⟨s, k, _, _, node, stop, .refl s k, hstep, hdecode, hstrays⟩

/-- So does an advance in any state. -/
theorem advance (hS : S.Checked h r I table K) {limit : Nat}
    {reply : Except SessionError (Buffer Event)} (hplaced : s.Placed S K) (htable : s.sections = table)
    (hs : s.Sound S r I k) (hadvance : s.advance h limit k = some (reply, s', k')) :
    s'.Sound S r I k' ∧ ∀ e, reply = .error e → e.Excused h S story s k (.advance limit) := by
  rw [Session.advance, Session.advanceWith] at hadvance
  by_cases hrunning : s.status = .running
  · rw [if_pos hrunning] at hadvance
    have hplaced' : { s with eventPool := s.eventPool.take.2 }.Placed S K := { hplaced with }
    have hs' : { s with eventPool := s.eventPool.take.2 }.Sound S r I k := { hs with }
    obtain ⟨hsound, hfault⟩ := hs'.advanceFrom hS hplaced' htable hrunning hadvance
    refine ⟨hsound, fun e he => ?_⟩
    obtain ⟨t, k₁, t', k₂, node, stop, hleads, hstep, hdecode, hstrays⟩ := hfault e he
    cases hstrays with
    | line hstray =>
      exact .unknownSection (.inr ⟨limit, rfl, .intro hleads hstep hdecode hstray⟩)
  · rw [if_neg hrunning] at hadvance
    cases hadvance
    exact hs.refuse rfl

/-- A start fails while a call is awaited, and if there is no section of the name. -/
theorem start (hs : s.Sound S r I k) (name : String)
    (hstory : s.sections.find? name = none → ∀ x ∈ story, x.name.name ≠ name) :
    (s.start name).2.Sound S r I k ∧
      ∀ e, (s.start name).1 = .error e → e.Excused h S story s k (.start name) := by
  rw [Session.start]
  by_cases hstatus : s.status = .awaitingCall
  · rw [if_pos hstatus]
    exact hs.refuse rfl
  · rw [if_neg hstatus]
    cases hfind : s.sections.find? name with
    | none =>
      refine ⟨hs, ?_⟩
      rintro _ ⟨rfl⟩
      exact .unknownSection (.inl ⟨rfl, hstory hfind⟩)
    | some entry => exact ⟨hs.forget rfl rfl, by rintro _ ⟨⟩⟩

/-- So does a selection: what it fails over is that it is refused. -/
theorem select (hs : s.Sound S r I k) (index : Nat) :
    (s.select index).2.Sound S r I k ∧
      ∀ e, (s.select index).1 = .error e → e.Excused h S story s k (.select index) := by
  rw [Session.select]
  by_cases hstatus : s.status ≠ .awaitingChoice
  · rw [if_pos hstatus]
    exact hs.refuse rfl
  · rw [if_neg hstatus]
    cases s.choices.items[index]? with
    | none => exact hs.refuse rfl
    | some choice =>
      by_cases henabled : choice.enabled = true
      · simp only [if_pos henabled]
        exact ⟨hs.forget rfl rfl, by rintro _ ⟨⟩⟩
      · simp only [if_neg henabled]
        exact hs.refuse rfl

/-- A fair completion keeps a result that fits. -/
theorem complete (hs : s.Sound S r I k) {events : List Event} (hcoherent : s.Coherent events)
    (result : Except HostError Value) (hfair : (Move.complete result).isFair r s = true) :
    (s.complete result).2.Sound S r I k ∧ ∀ e, (s.complete result).1 = .error e →
      e.Excused h S story s k (.complete result) := by
  by_cases hstatus : s.status = .awaitingCall
  · obtain ⟨⟨o, function⟩, hpending⟩ := Option.isSome_iff_exists.mp (hcoherent.pending.mpr hstatus)
    have hfunction : s.pendingFunction = some function := by rw [Session.pendingFunction, hpending]; rfl
    unfold Move.isFair at hfair
    rw [hfunction] at hfair
    cases result with
    | error e => cases hfair
    | ok v =>
      obtain ⟨f, hf, hkind⟩ := (Option.any_eq_true ..).mp hfair
      rw [Session.complete_ok hstatus hpending]
      refine ⟨⟨hs.memory, hs.memo.insert ?_, by rintro _ _ ⟨⟩⟩, by rintro _ ⟨⟩⟩
      -- the function that was named when the call was made is the one at the offset
      intro name f' hcallee hf'
      rw [hs.pending o function hpending] at hcallee
      cases hcallee
      rw [hf] at hf'
      cases hf'
      exact of_decide_eq_true hkind
  · rw [Session.complete_of_status_ne hstatus]
    have hnone : { s with pending := none }.Sound S r I k := ⟨hs.memory, hs.memo, by rintro _ _ ⟨⟩⟩
    exact ⟨hnone, (hs.refuse rfl).2⟩

/-- A fair move keeps a session sound, and fails only where that is excused. -/
theorem move (hS : S.Checked h r I table K) {past : List Deed} (hpast : History S past s)
    (hs : s.Sound S r I k) (hstory : ∀ name, table.find? name = none → ∀ x ∈ story, x.name.name ≠ name)
    {m : Move} {reply : Reply} (hfair : m.isFair r s = true)
    (hmove : s.move h k m = some (reply, s', k')) :
    s'.Sound S r I k' ∧ ∀ e, reply = .error e → e.Excused h S story s k m := by
  have htable := hpast.sections_eq hS.sectionTable
  cases m with
  | start name =>
    cases hmove
    exact (hs.start name (htable ▸ hstory name)).imp_right fun hfault e he => hfault e (eq_error_of_map he)
  | advance limit =>
    rw [Session.move] at hmove
    split at hmove
    · next x t k₁ hadvance =>
      cases hmove
      exact (hs.advance hS (hS.placed past s hpast) htable hadvance).imp_right fun hfault e he =>
        hfault e (eq_error_of_map he)
    · cases hmove
  | select index =>
    cases hmove
    exact (hs.select index).imp_right fun hfault e he => hfault e (eq_error_of_map he)
  | complete result =>
    cases hmove
    exact (hs.complete hpast.coherent result hfair).imp_right fun hfault e he => hfault e (eq_error_of_map he)

/-- A session that was played is sound. -/
theorem played (hS : S.Checked h r I table K)
    (hstory : ∀ name, table.find? name = none → ∀ x ∈ story, x.name.name ≠ name) {memory : σ}
    (hI : I memory) (hplayed : Played h r S memory s k) : s.Sound S r I k := by
  induction hplayed with
  | new hnew => exact .new hnew hI
  | move hbefore hfair hmove ih =>
    obtain ⟨past, hpast⟩ := hbefore.history
    exact (ih.move hS hpast hstory hfair hmove).1

end Session.Sound

/-! ## Checked sources -/

section

variable {P : Float → Prop} {r : Registry} {story : Story} {c : Compilation} {A : Artifact}
  {labels : List Label}

/-- Nothing worse than a warning was reported, so all sections that were mentioned are in the table, and
all statements are safe. -/
theorem Compiled.exists_checked (hA : Compiled P r story c A labels)
    (hchecked : ∀ d ∈ c.diagnostics, d.severity ≠ .error) {σ : Type} {h : Host σ} {I : σ → Prop}
    (hserves : h.Serves r I) : ∃ table K, c.script.Checked h r I table K ∧
      ∀ name, table.find? name = none → ∀ x ∈ story, x.name.name ≠ name := by
  have hharmless : Harmless A.errors := hA.harmless hchecked
  obtain ⟨table, htable, hfind⟩ := hA.exists_table fun name span first hmem => hchecked _ hmem rfl
  obtain ⟨xs, hxs⟩ := hA.exists_laid
  have hsound := fun p hp => (hxs.stands p hp).sound hA.fits hxs.entered
  have hsections : ∀ x label, A.Mentions x label → (table.find? x.name).isSome := by
    rintro x label ⟨hlabels, hbound | hreported⟩
    · obtain ⟨y, hy, hname⟩ := hA.declared x label hlabels hbound
      rw [(hfind x.name (A.target label)).mpr ⟨y, label, hy, rfl, hname⟩]
      rfl
    · exact absurd rfl (hharmless _ hreported)
  rw [← hA.script]
  refine ⟨table, fun n => ∃ q ∈ xs, q.1 = n, ⟨htable, hxs.walk.closed hsound, ?_, ?_⟩, ?_⟩
  · intro past s hpast
    exact hpast.placed hxs.walk hsound
  · rintro _ node stop ⟨q, hq, rfl⟩ hdecode x hx
    obtain ⟨t, hq'⟩ := hxs.walk.decodes hq
    rw [hq'] at hdecode
    cases hdecode
    exact (hxs.stands q hq).safe hA.fits.addressable.words hserves hharmless hsections hx
  · rintro name hmissing x hx rfl
    have hsome := (hA.isSome_find?_iff hfind x.name.name).mpr ⟨x, hx, rfl⟩
    rw [hmissing] at hsome
    cases hsome

end

/-- A source that was compiled against the registry of a host with nothing worse than warnings is safe to
play against that host, if the host was put together by its builders, its functions keep to their
declarations, and awaited calls are completed with values of the kinds that their functions declare.
Whatever moves are made, none fails because of a kind, a variable, the host or the stream.  A section is
missing only if a start names one that the source does not declare, or if a line jumps to it by a tag that
does not stand in a single fixed part of the line. -/
theorem compile_typeSafe (m : TableHost) (hbuilt : m.Built) (hreliable : m.Reliable)
    (o : CompileOptions) (implicit : Option String) (source : String)
    (haddressable : (compileText m.registry o implicit source).script.Addressable)
    (hchecked : ∀ d ∈ (compileText m.registry o implicit source).diagnostics, d.severity ≠ .error) :
    (∃ s, Session.ofScript (compileText m.registry o implicit source).script = .ok s) ∧
    ∀ s k, Played TableHost.host m.registry (compileText m.registry o implicit source).script m s k →
      ∀ move, move.isFair m.registry s = true → ∀ e s' k',
        s.move TableHost.host k move = some (.error e, s', k') →
        e.Excused TableHost.host (compileText m.registry o implicit source).script
          (parse implicit source).1 s k move := by
  rw [compileText_script] at haddressable ⊢
  -- what compiling reports is among what compiling the text reports
  have hchecked' : ∀ d ∈ (compile m.registry o (parse implicit source).1).diagnostics,
      d.severity ≠ .error := by
    intro d hd
    refine hchecked d ?_
    rw [compileText]
    rw [parse] at hd
    exact List.mem_append_right _ hd
  obtain ⟨A, labels, hA⟩ := exists_compiled_of_any m.registry o (parse implicit source).1 haddressable
  obtain ⟨table, K, hS, hstory⟩ := hA.exists_checked hchecked' (TableHost.serves m.registry)
  refine ⟨⟨_, by rw [Session.ofScript, hS.sectionTable]⟩, ?_⟩
  intro s k hplayed move hfair e s' k' hmove
  have hs := Session.Sound.played hS hstory (hbuilt.stocked hreliable) hplayed
  obtain ⟨past, hpast⟩ := hplayed.history
  exact (hs.move hS hpast hstory hfair hmove).2 e rfl

/-- In the treasury there is also a rumour, and it leads nowhere. -/
def gossip : TableHost :=
  treasurer.withFunction ⟨"rumour", .string, [], false⟩ fun _ _ => .ok (.string "[goto=nowhere]")

/-- The coins are fetched, and then the rumour is told. -/
def gossipScript : Script :=
  (compileText gossip.registry {} none
    "=== main\n~ gold = await fetch(\"coins\") + 1\nAnn: They say: \x7brumour()\x7d\n").script

/-- The rumour makes its line jump to a section that is not there, by a tag that the fixed part of the line
does not hold. -/
theorem typeSafe_till_rumour : gossip.Built ∧ gossip.Reliable ∧
    ∃ s k, Played TableHost.host gossip.registry gossipScript gossip s k ∧
      s.Strays TableHost.host gossipScript k "nowhere" := by
  have hbuilt : gossip.Built := .withFunction _ _ (.withAwaitable _ _ (.withVariable _ _ .empty))
  have hreliable : gossip.Reliable :=
    ((TableHost.Reliable.empty.withVariable _ _).withBehaviour fun _ _ _ =>
      ⟨_, rfl, nofun⟩).withBehaviour fun _ _ _ => ⟨_, rfl, rfl⟩
  obtain ⟨s, k, hplayed, hlast⟩ := Played.exists_of_run TableHost.host gossip.registry gossip
    [.start "main", .advance 9, .complete (.ok (.float 41))]
    (fun s k => (s.move TableHost.host k (.advance 9)).any fun x =>
      match x.1 with
      | .error e => e = .unknownSection "nowhere"
      | .ok _ => false) (S := gossipScript) (by decide +kernel)
  refine ⟨hbuilt, hreliable, s, k, hplayed, ?_⟩
  obtain ⟨⟨reply, s', k'⟩, hmove, hreply⟩ := (Option.any_eq_true ..).mp hlast
  cases reply with
  | ok events => cases hreply
  | error e =>
    obtain rfl := of_decide_eq_true hreply
    have hexcused := (compile_typeSafe gossip hbuilt hreliable {} none _ (by decide +kernel)
      (by decide +kernel)).2 s k hplayed (.advance 9) rfl _ s' k' hmove
    obtain ⟨⟨⟩, -⟩ | ⟨limit, -, hstrays⟩ := hexcused.section "nowhere" rfl
    exact hstrays

end Colloquy
