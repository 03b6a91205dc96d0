import Mathlib.Data.List.Chain
import Mathlib.Data.List.Perm.Subperm
import Colloquy.Proofs.Session.Onward
import Colloquy.Proofs.Session.Trail

/-!
# Runs go onward, and advances end

A script has no instruction that goes back: a run comes to an earlier statement only by way of the entry of
a section.  This is so along the trail of every session, whatever its host answers and whatever is selected
(`Session.Heading`).

An advance has no bound of its own.  It goes on as long as no statement waits, and could do so for ever.  But
if it came to a statement twice without a wait, a section would lead back to itself.  Where no section does,
there are no more steps to an advance than statements in the script (`compile_onward`).
-/

namespace Colloquy

open Code

/-! ## Statements -/

/-- Where an outcome leads without a wait. -/
def Outcome.passes : Outcome → List Nat
  | .proceed next _ => [next]
  | .offer next _ => [next]
  | _ => []

/-- Where the outcome of a statement passes on, the statement does. -/
theorem Eval.statement_passes {σ : Type} {S : Script} {h : Host σ} {eval : Nat → Eval σ Value}
    {sections : Catalog Nat} {x y : Stage σ} {node : Statement} {outcome : Outcome}
    (heval : Eval.statement S h eval sections node x = .ok outcome y) :
    ∀ n ∈ outcome.passes, n ∈ node.passes := by
  cases node with
  | entry next name =>
    obtain ⟨rfl, -⟩ := Eval.pure_eq_ok.mp heval
    exact fun _ hn => hn
  | finish =>
    obtain ⟨rfl, -⟩ := Eval.pure_eq_ok.mp heval
    exact fun _ hn => hn
  | line l =>
    obtain ⟨_, _, -, heval⟩ := Eval.bind_eq_ok.mp heval
    obtain ⟨_, _, -, heval⟩ := Eval.bind_eq_ok.mp heval
    obtain ⟨_, _, -, heval⟩ := Eval.bind_eq_ok.mp heval
    obtain ⟨_, _, -, heval⟩ := Eval.bind_eq_ok.mp heval
    obtain ⟨rfl, -⟩ := Eval.pure_eq_ok.mp heval
    simp [Outcome.passes]
  | conditional otherwise branches =>
    obtain ⟨target, _, hbranch, heval⟩ := Eval.bind_eq_ok.mp heval
    obtain ⟨rfl, -⟩ := Eval.pure_eq_ok.mp heval
    have htarget : target ∈ otherwise :: branches.map Prod.snd :=
      Eval.firstBranch_target (K := (· ∈ otherwise :: branches.map Prod.snd)) (List.mem_cons_self ..)
        (fun _ hn => List.mem_cons_of_mem _ hn) hbranch
    exact fun _ hn => List.mem_singleton.mp hn ▸ htarget
  | instruction next offset | choice next items | hash next entries =>
    obtain ⟨_, _, -, heval⟩ := Eval.bind_eq_ok.mp heval
    obtain ⟨rfl, -⟩ := Eval.pure_eq_ok.mp heval
    exact fun _ hn => hn
  | speaker next index entries =>
    obtain ⟨_, _, -, heval⟩ := Eval.bind_eq_ok.mp heval
    obtain ⟨_, _, -, heval⟩ := Eval.bind_eq_ok.mp heval
    obtain ⟨rfl, -⟩ := Eval.pure_eq_ok.mp heval
    exact fun _ hn => hn

/-- Where control is led from an offset by the statement there, if the statement leads to offsets of `K`. -/
inductive Session.Led (offset : Nat) (node : Statement) (K : Nat → Prop) : Step → Session → Prop where
  | passed {events : List Event} {s' : Session} : s'.status = .running → s'.pointer ∈ node.passes →
      K s'.pointer → Session.Led offset node K (.on events) s'
  /-- A line is on show. -/
  | shown {events : List Event} {s' : Session} : s'.status = .running → K s'.pointer →
      Session.Led offset node K (.wait events) s'
  /-- The session awaits something, or has ended. -/
  | held {step : Step} {s' : Session} : (∀ events, step ≠ .on events) → s'.status ≠ .running →
      s'.pointer = offset → (s'.status = .awaitingChoice → ∀ c ∈ s'.choices.items, K c.next) →
      Session.Led offset node K step s'

section

variable {σ : Type} {h : Host σ} {s : Session} {node : Statement} {K : Nat → Prop}

/-- An outcome leads where it passes on, and a choice that it offers leads to one of its targets. -/
theorem Session.take_led (hpool : s.choicePool.Clean) (hrunning : s.status = .running)
    {outcome : Outcome} (hpasses : ∀ n ∈ outcome.passes, n ∈ node.passes)
    (htargets : ∀ n ∈ outcome.targets, K n) :
    Session.Led s.pointer node K (s.take outcome).1 (s.take outcome).2 := by
  cases outcome with
  | proceed next events =>
    have hnext : K next := htargets next (List.mem_singleton_self _)
    exact .passed hrunning (hpasses next (List.mem_singleton_self _)) hnext
  | present next ending events => exact .shown hrunning (htargets next (List.mem_singleton_self _))
  | finish => exact .held (by rintro _ ⟨⟩) (by rintro ⟨⟩) rfl (by rintro ⟨⟩)
  | offer next choices =>
    rw [Outcome.targets, List.forall_mem_cons, List.forall_mem_map] at htargets
    rw [Session.take, Session.offer]
    by_cases hany : choices.any (·.enabled) = true
    · simp only [if_pos hany]
      refine .held (by rintro _ ⟨⟩) (by rintro ⟨⟩) rfl fun _ => ?_
      rw [Buffer.append, hpool.take.1]
      exact htargets.2
    · simp only [if_neg hany]
      exact .passed hrunning (hpasses next (List.mem_singleton_self _)) htargets.1

/-- A step from a sound statement leads where the statement passes on, or to its targets. -/
theorem Session.step_led (hpool : s.choicePool.Clean) (hrunning : s.status = .running) {stop : Nat}
    (hdecode : s.script.decodeStatement s.pointer = .ok (node, stop))
    (hnode : s.script.SoundStatement K node) (hsections : s.sections.Within K) (memory : σ) :
    Session.Led s.pointer node K (s.step h memory).1 (s.step h memory).2.1 := by
  have hended : ∀ step, (∀ events, step ≠ .on events) → ∀ s' : Session, s'.status = .ended →
      s'.pointer = s.pointer → Session.Led s.pointer node K step s' :=
    fun step hstep s' hs' hpointer => .held hstep (by simp [hs']) hpointer (by simp [hs'])
  rw [Session.step]
  by_cases hending : s.ending = true
  · rw [if_pos hending]
    exact hended _ (by rintro _ ⟨⟩) _ rfl rfl
  rw [if_neg hending]
  generalize heval : Eval.statementAt s.script h (Eval.expr s.script h) s.sections s.pointer
    ⟨s.memo, memory⟩ = result
  cases result with
  | ok outcome stage =>
    rw [Eval.statementAt_ok _ _ _ hdecode] at heval
    have htargets := Eval.statement_targets hnode hsections heval
    exact { s with memo := stage.memo }.take_led hpool hrunning (Eval.statement_passes heval) htargets
  | error interrupt stage =>
    obtain ⟨pool, hbreak, -⟩ := s.exists_breakOff
    cases interrupt with
    | pending offset function =>
      rw [Session.settle, hbreak]
      exact .held (by rintro _ ⟨⟩) (by rintro ⟨⟩) rfl (by rintro ⟨⟩)
    | fault e ending =>
      rw [Session.settle, hbreak]
      exact hended _ (by rintro _ ⟨⟩) _ rfl rfl

end

/-! ## Trails -/

section

variable {S : Script} {story : Story} {home : Nat → Option Section} {xs : List (Nat × Statement)}
  {trail more : List Nat} {s s' : Session}

/-- A tick of a session leaves it at a statement. -/
theorem Session.Placed.tick {K : Nat → Prop} (hK : S.Closed K) (hs : s.Placed S K)
    (htick : s.Tick more s') : s'.Placed S K := by
  cases htick with
  | start hstart =>
    obtain ⟨entry, hentry, rfl⟩ := Session.start_eq_ok hstart
    exact hs.enter (hs.sections _ entry hentry) false
  | select hselect =>
    obtain ⟨-, choice, hchoice, rfl⟩ := Session.select_eq_ok hselect
    exact hs.enter (hs.choices choice hchoice) s.ending
  | @goes _ h memory _ _ _ hrunning hstep _ | @halts _ h memory _ _ _ hrunning hstep _ =>
    have hplaced := hs.step (h := h) hK hrunning memory
    rw [hstep] at hplaced
    exact hplaced
  | complete result => exact hs.complete result
  | recycle events =>
    exact { hs with choicePool := Session.Coherent.reclaim_clean events.items hs.choicePool }
  | buffers pool => exact { hs with }

/-- A session stands where its trail has led, and the trail goes back to entries of sections only. -/
structure Session.Heading (S : Script) (xs : List (Nat × Statement)) (trail : List Nat) (s : Session) :
    Prop where
  placed : s.Placed S fun n => ∃ q ∈ xs, q.1 = n
  last : ∀ m ∈ trail.getLast?, m = s.pointer
  choices : s.status = .awaitingChoice → ∀ c ∈ s.choices.items, s.pointer < c.next ∨ IsEntry xs c.next
  chain : trail.IsChain fun m n => m < n ∨ IsEntry xs n

namespace Session.Heading

/-- A session that goes on, forwards or to the entry of a section, is heading on. -/
theorem go (hs : s.Heading S xs trail) (hplaced : s'.Placed S fun n => ∃ q ∈ xs, q.1 = n)
    (hrunning : s'.status = .running) (hnext : s.pointer < s'.pointer ∨ IsEntry xs s'.pointer) :
    s'.Heading S xs (trail ++ [s'.pointer]) where
  placed := hplaced
  last := by simp
  choices h := by simp [hrunning] at h
  chain := by
    rw [List.isChain_append]
    refine ⟨hs.chain, List.isChain_singleton _, ?_⟩
    intro m hm n hn
    rw [hs.last m hm]
    cases hn
    exact hnext

/-- So is one that stays, if all its choices lead forwards or to the entry of a section. -/
theorem stay (hs : s.Heading S xs trail) (hplaced : s'.Placed S fun n => ∃ q ∈ xs, q.1 = n)
    (hpointer : s'.pointer = s.pointer) (hchoices : s'.status = .awaitingChoice →
      ∀ c ∈ s'.choices.items, s'.pointer < c.next ∨ IsEntry xs c.next) :
    s'.Heading S xs (trail ++ []) where
  placed := hplaced
  last := by
    rw [List.append_nil, hpointer]
    exact hs.last
  choices := hchoices
  chain := by
    rw [List.append_nil]
    exact hs.chain

/-- A running session performs the statement that it stands at. -/
theorem led (hon : S.Onward story home xs) (hs : s.Heading S xs trail)
    (hsections : s.sections.Within (IsEntry xs)) (hrunning : s.status = .running) {σ : Type}
    (h : Host σ) (memory : σ) :
    ∃ p ∈ xs, p.1 = s.pointer ∧ Session.Led s.pointer p.2 (fun n => s.pointer < n ∨ IsEntry xs n)
      (s.step h memory).1 (s.step h memory).2.1 := by
  obtain ⟨p, hp, hpointer⟩ := hs.placed.pointer (by simp [hrunning])
  obtain ⟨stop, hdecode⟩ := hon.walk.decodes hp
  rw [hpointer, ← hs.placed.script] at hdecode
  have hnode := hon.sound p hp
  rw [hpointer, ← hs.placed.script] at hnode
  refine ⟨p, hp, hpointer, Session.step_led hs.placed.choicePool hrunning hdecode hnode ?_ memory⟩
  exact fun name n hfind => .inr (hsections name n hfind)

/-- So is one after any tick. -/
theorem tick (hon : S.Onward story home xs) (hs : s.Heading S xs trail)
    (hsections : s.sections.Within (IsEntry xs)) (htick : s.Tick more s') :
    s'.Heading S xs (trail ++ more) := by
  have hplaced := hs.placed.tick hon.closed htick
  cases htick with
  | start hstart =>
    obtain ⟨entry, hentry, rfl⟩ := Session.start_eq_ok hstart
    exact hs.go hplaced rfl (.inr (hsections _ entry hentry))
  | select hselect =>
    obtain ⟨hstatus, choice, hchoice, rfl⟩ := Session.select_eq_ok hselect
    exact hs.go hplaced rfl (hs.choices hstatus choice hchoice)
  | @goes _ h memory _ _ _ hrunning hstep hgoes =>
    obtain ⟨p, -, -, hled⟩ := hs.led hon hsections hrunning h memory
    rw [hstep] at hled
    cases hled with
    | passed _ _ hnext => exact hs.go hplaced hgoes hnext
    | shown _ hnext => exact hs.go hplaced hgoes hnext
    | held _ hnot _ _ => exact absurd hgoes hnot
  | @halts _ h memory _ _ _ hrunning hstep hhalts =>
    obtain ⟨p, -, -, hled⟩ := hs.led hon hsections hrunning h memory
    rw [hstep] at hled
    cases hled with
    | passed hgoes _ _ => exact absurd hgoes hhalts
    | shown hgoes _ => exact absurd hgoes hhalts
    | held _ _ hpointer hchoices => exact hs.stay hplaced hpointer (hpointer ▸ hchoices)
  | complete result =>
    rw [Session.complete] at hplaced ⊢
    split at hplaced
    · cases result <;> exact hs.stay hplaced rfl (by rintro ⟨⟩)
    · exact hs.stay hplaced rfl hs.choices
  | recycle events => exact hs.stay hplaced rfl hs.choices
  | buffers pool => exact hs.stay hplaced rfl hs.choices

end Session.Heading

/-- In a script that leads onward every trail does. -/
theorem Trail.heading (hon : S.Onward story home xs) (h : Trail S trail s) : s.Heading S xs trail := by
  induction h with
  | new hnew =>
    rw [Session.ofScript] at hnew
    split at hnew
    · next hsections =>
      cases hnew
      refine ⟨⟨rfl, ?_, by simp, by simp [Buffer.empty], .empty _⟩, by simp, by simp, .nil⟩
      exact hon.walk.sections_within rfl (fun p hp => ⟨p, hp, rfl⟩) (by simp [Catalog.Within]) hsections
    · cases hnew
  | snoc htrail htick ih => exact ih.tick hon (hon.sections _ htrail.script.2.1) htick

/-- Between two entries of sections a trail goes to later and later offsets. -/
theorem Session.Heading.increasing (hs : s.Heading S xs trail) {ms : List Nat} (hms : ms <:+: trail)
    (hentry : ∀ n ∈ ms.tail, ¬IsEntry xs n) : ms.Pairwise (· < ·) := by
  have hchain := List.IsChain.infix hs.chain hms
  have hless : ms.IsChain (· < ·) := hchain.imp_of_mem_tail_imp fun _ n _ hn hnext =>
    hnext.resolve_right (hentry n hn)
  exact hless.pairwise

/-! ## Advances -/

/-- Control goes on from one statement to another one without a wait. -/
def Script.Passes (S : Script) (m n : Nat) : Prop :=
  ∃ node t, S.decodeStatement m = .ok (node, t) ∧ n ∈ node.passes

/-- An end passes nowhere. -/
theorem Script.not_passes_of_finish {m t n : Nat} (h : S.decodeStatement m = .ok (.finish, t)) :
    ¬S.Passes m n := by
  rintro ⟨node, stop, hdecode, hn⟩
  rw [h] at hdecode
  cases hdecode
  cases hn

/-- A path of statements that control goes along without a wait. -/
structure Script.Path (S : Script) (xs : List (Nat × Statement)) (ms : List Nat) : Prop where
  chain : ms.IsChain S.Passes
  within : ∀ m ∈ ms, ∃ q ∈ xs, q.1 = m

/-- An advance that comes to its limit has gone along a path of that many statements behind the first. -/
theorem Trail.exists_path {σ : Type} {h : Host σ} {memory : σ} {limit : Nat} {buffer : Buffer Event}
    (hon : S.Onward story home xs) (htrail : Trail S trail s) (hrunning : s.status = .running)
    (hnone : Session.advanceFrom (Session.step h) limit buffer s memory = none) :
    ∃ ms, S.Path xs (s.pointer :: ms) ∧ ms.length = limit := by
  -- Each round ticks once more, so the trail changes with the session.
  induction limit generalizing trail s buffer memory with
  | zero =>
    have hpointer := (htrail.heading hon).placed.pointer (by simp [hrunning])
    exact ⟨[], ⟨List.isChain_singleton _, by simpa using hpointer⟩, rfl⟩
  | succ limit ih =>
    obtain ⟨p, hp, hpointer, hled⟩ :=
      (htrail.heading hon).led hon (hon.sections _ htrail.script.2.1) hrunning h memory
    rw [Session.advanceFrom] at hnone
    generalize hstep : s.step h memory = x at hled hnone
    obtain ⟨step, t, memory₁⟩ := x
    cases step with
    | wait events => cases hnone
    | fault e => cases hnone
    | on events =>
      cases hled with
      | held hnot _ _ _ => exact absurd rfl (hnot events)
      | passed hgoes hpass _ =>
        have ht := htrail.snoc (.goes hrunning hstep hgoes)
        obtain ⟨ms, hpath, hlength⟩ := ih ht hgoes hnone
        obtain ⟨stop, hdecode⟩ := hon.walk.decodes hp
        refine ⟨t.pointer :: ms, ⟨?_, ?_⟩, by rw [List.length_cons, hlength]⟩
        · exact hpath.chain.cons_cons ⟨p.2, stop, hpointer ▸ hdecode, hpass⟩
        · rw [List.forall_mem_cons]
          exact ⟨⟨p, hp, hpointer⟩, hpath.within⟩

/-- How a statement is reached from another one without a wait: further on in its section, by way of
sections that name each other, or at an end. -/
inductive Script.Reached (S : Script) (story : Story) (home : Nat → Option Section) (m n : Nat) : Prop where
  | further : m < n → home n = home m → S.Reached story home m n
  | elsewhere {x y : Section} : home m = some x → home n = some y →
      Relation.TransGen story.Edge x y → S.Reached story home m n
  | finish : S.decodeStatement n = .ok (.finish, n + 1) → S.Reached story home m n

/-- What a statement passes on to is further on, or the entry of a section that its own leads to. -/
theorem Script.Onward.reached (hon : S.Onward story home xs) {m n : Nat} (hm : ∃ q ∈ xs, q.1 = m)
    (h : S.Passes m n) : (∃ q ∈ xs, q.1 = n) ∧ S.Reached story home m n := by
  obtain ⟨node, t, hdecode, hn⟩ := h
  obtain ⟨_, _, hnode, hsound⟩ := hon.closed m hm
  rw [hdecode] at hnode
  cases hnode
  obtain ⟨p, hp, rfl⟩ := hm
  obtain ⟨stop, hp'⟩ := hon.walk.decodes hp
  rw [hdecode] at hp'
  cases hp'
  refine ⟨hsound.targets n (Statement.passes_subset_targets _ hn), ?_⟩
  rcases hon.passes p hp n hn with ⟨hlt, hhome⟩ | ⟨x, y, hx, hy, hedge⟩ | hfinish
  · exact .further hlt hhome
  · exact .elsewhere hx hy (.single hedge)
  · exact .finish hfinish

/-- So is what is passed on to in any number of steps. -/
theorem Script.Onward.reached_of_transGen (hon : S.Onward story home xs) {m n : Nat}
    (hm : ∃ q ∈ xs, q.1 = m) (h : Relation.TransGen S.Passes m n) :
    (∃ q ∈ xs, q.1 = n) ∧ S.Reached story home m n := by
  induction h with
  | single h => exact hon.reached hm h
  | @tail n k _ hnext ih =>
    obtain ⟨hn, hreached⟩ := ih
    obtain ⟨hk, hstep⟩ := hon.reached hn hnext
    refine ⟨hk, ?_⟩
    -- Going further on does not leave the section, so what was reached before it stays as it is.
    cases hstep with
    | finish hfinish => exact .finish hfinish
    | further hlt hhome =>
      cases hreached with
      | further hlt' hhome' => exact .further (Nat.lt_trans hlt' hlt) (hhome.trans hhome')
      | elsewhere hx hy hedges => exact .elsewhere hx (hhome.trans hy) hedges
      | finish hfinish => exact absurd hnext (Script.not_passes_of_finish hfinish)
    | elsewhere hx hy hedges =>
      cases hreached with
      | further _ hhome' => exact .elsewhere (hhome'.symm.trans hx) hy hedges
      | elsewhere hx' hy' hedges' =>
        rw [hy'] at hx
        cases hx
        exact .elsewhere hx' hy (hedges'.trans hedges)
      | finish hfinish => exact absurd hnext (Script.not_passes_of_finish hfinish)

/-- Where no section leads back to itself, no statement does without a wait. -/
theorem Script.Onward.irreflexive (hon : S.Onward story home xs)
    (hacyclic : ∀ x, ¬Relation.TransGen story.Edge x x) {m : Nat} (hm : ∃ q ∈ xs, q.1 = m) :
    ¬Relation.TransGen S.Passes m m := by
  intro h
  cases (hon.reached_of_transGen hm h).2 with
  | further hlt _ => exact Nat.lt_irrefl m hlt
  | elsewhere hx hy hedges =>
    rw [hx] at hy
    cases hy
    exact hacyclic _ hedges
  | finish hfinish =>
    obtain ⟨n, hpasses, -⟩ := Relation.TransGen.head'_iff.mp h
    exact Script.not_passes_of_finish hfinish hpasses

/-- A path has no statement twice, so it is no longer than the script. -/
theorem Script.Path.length_le {ms : List Nat} (h : S.Path xs ms)
    (hirrefl : ∀ m, (∃ q ∈ xs, q.1 = m) → ¬Relation.TransGen S.Passes m m) : ms.length ≤ xs.length := by
  have hchain : ms.IsChain (Relation.TransGen S.Passes) := h.chain.imp fun _ _ => .single
  -- The relation is transitive, so each statement leads to all that come later on the path.
  have hnodup : ms.Nodup := by
    refine hchain.pairwise.imp_of_mem ?_
    rintro m _ hm _ hpasses rfl
    exact hirrefl m (h.within m hm) hpasses
  have hsubset : ms ⊆ xs.map Prod.fst := fun m hm => List.mem_map.mpr (h.within m hm)
  have hle := (hnodup.subperm hsubset).length_le
  rwa [List.length_map] at hle

/-- An advance along such a script comes to its end within as many steps as there are words. -/
theorem Script.Onward.advance_isSome (hon : S.Onward story home xs)
    (hacyclic : ∀ x, ¬Relation.TransGen story.Edge x x) (htrail : Trail S trail s) {σ : Type} (h : Host σ)
    (memory : σ) {limit : Nat} (hlimit : S.words.size ≤ limit) : (s.advance h limit memory).isSome := by
  rw [Session.advance, Session.advanceWith]
  by_cases hrunning : s.status = .running
  · rw [if_pos hrunning, Option.isSome_iff_ne_none]
    intro hnone
    -- The buffer for the events is taken before the first step.
    have htaken := htrail.snoc (.buffers s.eventPool.take.2)
    obtain ⟨ms, hpath, hlength⟩ := htaken.exists_path hon hrunning hnone
    have hle := hpath.length_le fun _ hm => hon.irreflexive hacyclic hm
    have hsize := hon.length_le
    rw [List.length_cons] at hle
    omega
  · rw [if_neg hrunning]
    rfl

/-- In a compiled script every target is a later offset or the entry of a section.  So the offsets of a run
increase between two entries, and where no section leads back to itself every advance comes to its end. -/
theorem compile_onward (r : Registry) (o : CompileOptions) (story : Story)
    (haddressable : (compile r o story).script.Addressable) :
    ∃ xs, (compile r o story).script.Walk 0 xs (compile r o story).script.words.size ∧
      (∀ p ∈ xs, (compile r o story).script.SoundStatement (fun n => p.1 < n ∨ IsEntry xs n) p.2) ∧
      (∀ trail s, Trail (compile r o story).script trail s → ∀ ms, ms <:+: trail →
        (∀ n ∈ ms.tail, ¬IsEntry xs n) → ms.Pairwise (· < ·)) ∧
      ((∀ x, ¬Relation.TransGen story.Edge x x) → ∀ trail s, Trail (compile r o story).script trail s →
        ∀ {σ : Type} (h : Host σ) (memory : σ) (limit : Nat),
          (compile r o story).script.words.size ≤ limit → (s.advance h limit memory).isSome) := by
  obtain ⟨A, labels, hA⟩ := exists_compiled_of_any r o story haddressable
  obtain ⟨home, xs, hon⟩ := hA.onward
  rw [hA.script] at hon
  refine ⟨xs, hon.walk, hon.sound, ?_, ?_⟩
  · intro trail s htrail ms hms hentry
    exact (htrail.heading hon).increasing hms hentry
  · intro hacyclic trail s htrail σ h memory limit hlimit
    exact hon.advance_isSome hacyclic htrail h memory hlimit

end

/-- A section that is left for the one behind it, by an option or a goto. -/
def landing : String :=
  "=== main\nAnn: Down?\nchoice \x7b\n* Yes -> cellar\n* No \x7b\nAnn: Come.\n\x7d\n\x7d\ngoto cellar\n" ++
    "=== cellar\nAnn: Dark.\n"

/-- Every advance of a session that plays the landing comes to its end. -/
theorem halts_on_landing : ∃ trail s,
    Trail (compile .empty {} (parse none landing).1).script trail s ∧ s.status = .running ∧
      ∀ {σ : Type} (h : Host σ) (memory : σ), (s.advance h 60 memory).isSome := by
  obtain ⟨haddressable, hsize, hrank⟩ :
      (compile .empty {} (parse none landing).1).script.Addressable ∧
      (compile .empty {} (parse none landing).1).script.words.size ≤ 60 ∧
      ∀ x ∈ (parse none landing).1, ∀ z ∈ x.goals,
        (if x.name.name = "main" then 0 else 1) < if z.name = "main" then 0 else 1 := by
    decide +kernel
  obtain ⟨xs, -, -, -, hadvance⟩ := compile_onward .empty {} (parse none landing).1 haddressable
  have hacyclic := @Story.irreflexive_of_rank (parse none landing).1
    (fun name => if name = "main" then 0 else 1) hrank
  obtain ⟨past, s, hpast, hrunning⟩ := History.exists_of_run TableHost.host .empty [.start "main"]
    (fun _ s => s.status = .running)
    (S := (compile .empty {} (parse none landing).1).script) (by decide +kernel)
  obtain ⟨trail, htrail⟩ := hpast.exists_trail
  refine ⟨trail, s, htrail, of_decide_eq_true hrunning, fun h memory => ?_⟩
  exact hadvance hacyclic trail s htrail h memory 60 hsize

end Colloquy
