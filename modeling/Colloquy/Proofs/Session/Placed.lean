import Colloquy.Proofs.Code.Beyond
import Colloquy.Proofs.Layout.Table
import Colloquy.Proofs.Session.History

/-!
# Sessions stand at statements

In a well-formed script statements lead to statements.  So does what a statement comes to when it is
evaluated (`Eval.statement_targets`), whatever the host answers: directives and tags lead to sections, and
an option on offer leads where the script says.  A session of such a script therefore stands at a
statement from its start on (`History.placed`).
-/

namespace Colloquy

open Code

/-- Where an outcome leads. -/
def Outcome.targets : Outcome → List Nat
  | .proceed next _ => [next]
  | .present next _ _ => [next]
  | .offer next choices => next :: choices.map Choice.next
  | .finish => []

/-- The sections of a table stand at offsets of `K`. -/
def Catalog.Within (sections : Catalog Nat) (K : Nat → Prop) : Prop :=
  ∀ name n, sections.find? name = some n → K n

/-! ## Where statements lead -/

section

variable {σ : Type} {S : Script} {h : Host σ} {eval : Nat → Eval σ Value} {K : Nat → Prop}
  {sections : Catalog Nat} {x y : Stage σ}

/-- The target of a sound goto starts a statement. -/
theorem Script.SoundExpr.target_of_goto {d n stop : Nat} (h : S.SoundExpr K d)
    (hdecode : S.decodeExpr d = .ok (.goto n, stop)) : K n := by
  cases h with
  | node hnode htargets _ _ =>
    rw [hdecode] at hnode
    cases hnode
    exact htargets n (List.mem_singleton_self n)

/-- Directives lead to where their gotos do. -/
theorem Eval.directives_target {ds : List Nat} {next target : Nat} {events : List Event}
    (hds : ∀ d ∈ ds, S.SoundExpr K d) (hnext : K next)
    (heval : Eval.directives S eval next ds x = .ok (events, target) y) : K target := by
  induction ds generalizing next target events x y with
  | nil =>
    obtain ⟨hpair, -⟩ := Eval.pure_eq_ok.mp heval
    cases hpair
    exact hnext
  | cons d ds ih =>
    have hrest : ∀ d ∈ ds, S.SoundExpr K d := fun d hd => hds d (List.mem_cons_of_mem _ hd)
    rw [Eval.directives, Eval.bind_eq_ok] at heval
    obtain ⟨⟨node, stop⟩, x, hread, heval⟩ := heval
    obtain ⟨hdecode, -⟩ := Eval.read_eq_ok.mp hread
    cases node with
    | goto n => exact ih hrest ((hds d (List.mem_cons_self ..)).target_of_goto hdecode) heval
    | auto =>
      obtain ⟨⟨rest, _⟩, z, heval, hpair⟩ := Eval.bind_eq_ok.mp heval
      obtain ⟨hpair, -⟩ := Eval.pure_eq_ok.mp hpair
      cases hpair
      exact ih hrest hnext heval
    | speed operand | pause operand =>
      obtain ⟨_, _, -, heval⟩ := Eval.bind_eq_ok.mp heval
      obtain ⟨⟨rest, _⟩, z, heval, hpair⟩ := Eval.bind_eq_ok.mp heval
      obtain ⟨hpair, -⟩ := Eval.pure_eq_ok.mp hpair
      cases hpair
      exact ih hrest hnext heval
    | _ =>
      obtain ⟨_, _, -, heval⟩ := Eval.bind_eq_ok.mp heval
      exact ih hrest hnext heval

/-- Tags lead to sections. -/
theorem Eval.steer_target {tags : List Tag} {next target : Nat} {ending ending' : Bool}
    (hsections : sections.Within K) (hnext : K next)
    (heval : Eval.steer sections next ending tags x = .ok (target, ending') y) : K target := by
  induction tags generalizing next ending x with
  | nil =>
    obtain ⟨hpair, -⟩ := Eval.pure_eq_ok.mp heval
    cases hpair
    exact hnext
  | cons tag tags ih =>
    cases tag with
    | goto name =>
      obtain ⟨n, z, hsection, heval⟩ := Eval.bind_eq_ok.mp heval
      refine ih ?_ heval
      rw [Eval.sectionAt] at hsection
      cases hfind : sections.find? name with
      | some offset =>
        rw [hfind] at hsection
        obtain ⟨rfl, -⟩ := Eval.pure_eq_ok.mp hsection
        exact hsections name offset hfind
      | none =>
        rw [hfind] at hsection
        cases hsection
    | finish => exact ih hnext heval
    | _ => exact ih hnext heval

/-- The options on offer lead where the items of the choice do. -/
theorem Eval.options_targets {items : List ItemNode} {filters : List Filter} {choices : List Choice}
    (hitems : ∀ n ∈ items.flatMap ItemNode.targets, K n)
    (heval : Eval.options S eval filters items x = .ok choices y) : ∀ c ∈ choices, K c.next := by
  induction items generalizing filters choices x y with
  | nil =>
    rw [Eval.options] at heval
    obtain ⟨rfl, -⟩ := Eval.pure_eq_ok.mp heval
    simp
  | cons item items ih =>
    rw [List.flatMap_cons] at hitems
    have hrest : ∀ n ∈ items.flatMap ItemNode.targets, K n :=
      fun n hn => hitems n (List.mem_append_right _ hn)
    cases item with
    | option next guard segments =>
      rw [Eval.options] at heval
      by_cases hopen : Filter.isOpen filters = true
      · rw [if_pos hopen] at heval
        obtain ⟨enabled, _, heval⟩ : ∃ enabled x, (do
            let raw ← Eval.text S eval segments
            let rest ← Eval.options S eval filters items
            return (⟨next, (interpolate raw).text, enabled⟩ :: rest : List Choice)) x =
              .ok choices y := by
          cases guard with
          | none => exact ⟨true, x, heval⟩
          | some offset =>
            obtain ⟨enabled, z, -, heval⟩ := Eval.bind_eq_ok.mp heval
            exact ⟨enabled, z, heval⟩
        obtain ⟨raw, _, -, heval⟩ := Eval.bind_eq_ok.mp heval
        obtain ⟨rest, _, hoptions, heval⟩ := Eval.bind_eq_ok.mp heval
        obtain ⟨rfl, -⟩ := Eval.pure_eq_ok.mp heval
        rw [List.forall_mem_cons]
        exact ⟨hitems next (List.mem_append_left _ (List.mem_singleton_self _)), ih hrest hoptions⟩
      · rw [if_neg hopen] at heval
        exact ih hrest heval
    | ifMarker offset =>
      rw [Eval.options] at heval
      obtain ⟨hit, _, -, heval⟩ := Eval.bind_eq_ok.mp heval
      exact ih hrest heval
    | elseIf offset =>
      cases filters with
      | nil => exact ih hrest heval
      | cons f filters =>
        rw [Eval.options] at heval
        obtain ⟨hit, _, -, heval⟩ := Eval.bind_eq_ok.mp heval
        exact ih hrest heval
    | elseMarker =>
      cases filters with
      | nil => exact ih hrest heval
      | cons f filters => exact ih hrest heval
    | endIf =>
      cases filters with
      | nil => exact ih hrest heval
      | cons f filters => exact ih hrest heval

/-- The first branch whose condition holds starts a statement, and so does what is there if none holds. -/
theorem Eval.firstBranch_target {branches : List (Nat × Nat)} {otherwise target : Nat}
    (hotherwise : K otherwise) (hbranches : ∀ n ∈ branches.map Prod.snd, K n)
    (heval : Eval.firstBranch eval otherwise branches x = .ok target y) : K target := by
  induction branches generalizing x with
  | nil =>
    obtain ⟨rfl, -⟩ := Eval.pure_eq_ok.mp heval
    exact hotherwise
  | cons b branches ih =>
    obtain ⟨offset, next⟩ := b
    rw [Eval.firstBranch] at heval
    obtain ⟨hit, z, -, heval⟩ := Eval.bind_eq_ok.mp heval
    cases hit with
    | true =>
      obtain ⟨rfl, -⟩ := Eval.pure_eq_ok.mp heval
      exact hbranches next (List.mem_cons_self ..)
    | false => exact ih (fun n hn => hbranches n (List.mem_cons_of_mem _ hn)) heval

/-- What a statement comes to leads to statements, if the statement and its expressions do. -/
theorem Eval.statement_targets {node : Statement} {outcome : Outcome}
    (hnode : S.SoundStatement K node) (hsections : sections.Within K)
    (heval : Eval.statement S h eval sections node x = .ok outcome y) :
    ∀ n ∈ outcome.targets, K n := by
  have htargets := hnode.targets
  cases node with
  | entry next name =>
    obtain ⟨rfl, -⟩ := Eval.pure_eq_ok.mp heval
    exact htargets
  | finish =>
    obtain ⟨rfl, -⟩ := Eval.pure_eq_ok.mp heval
    exact htargets
  | line l =>
    rw [Eval.statement, Eval.line, Eval.bind_eq_ok] at heval
    obtain ⟨raw, _, -, heval⟩ := heval
    obtain ⟨⟨events, next⟩, _, hdirectives, heval⟩ := Eval.bind_eq_ok.mp heval
    obtain ⟨speakers, _, -, heval⟩ := Eval.bind_eq_ok.mp heval
    obtain ⟨⟨target, ending⟩, _, hsteer, heval⟩ := Eval.bind_eq_ok.mp heval
    obtain ⟨rfl, -⟩ := Eval.pure_eq_ok.mp heval
    have hds : ∀ d ∈ l.directives, S.SoundExpr K d :=
      fun d hd => hnode.exprs d (List.mem_append_right _ hd)
    have hnext : K next :=
      Eval.directives_target hds (htargets _ (List.mem_singleton_self _)) hdirectives
    have htarget : K target := Eval.steer_target hsections hnext hsteer
    simpa [Outcome.targets] using htarget
  | instruction next offset =>
    obtain ⟨_, _, -, heval⟩ := Eval.bind_eq_ok.mp heval
    obtain ⟨rfl, -⟩ := Eval.pure_eq_ok.mp heval
    exact htargets
  | conditional otherwise branches =>
    obtain ⟨target, _, hbranch, heval⟩ := Eval.bind_eq_ok.mp heval
    obtain ⟨rfl, -⟩ := Eval.pure_eq_ok.mp heval
    have htarget : K target := Eval.firstBranch_target (htargets _ (List.mem_cons_self ..))
      (fun n hn => htargets n (List.mem_cons_of_mem _ hn)) hbranch
    simpa [Outcome.targets] using htarget
  | choice next items =>
    obtain ⟨choices, _, hoptions, heval⟩ := Eval.bind_eq_ok.mp heval
    obtain ⟨rfl, -⟩ := Eval.pure_eq_ok.mp heval
    have hchoices := Eval.options_targets (fun n hn => htargets n (List.mem_cons_of_mem _ hn)) hoptions
    rw [Outcome.targets, List.forall_mem_cons, List.forall_mem_map]
    exact ⟨htargets next (List.mem_cons_self ..), hchoices⟩
  | hash next entries =>
    obtain ⟨data, _, -, heval⟩ := Eval.bind_eq_ok.mp heval
    obtain ⟨rfl, -⟩ := Eval.pure_eq_ok.mp heval
    exact htargets
  | speaker next index entries =>
    obtain ⟨data, _, -, heval⟩ := Eval.bind_eq_ok.mp heval
    obtain ⟨name, _, -, heval⟩ := Eval.bind_eq_ok.mp heval
    obtain ⟨rfl, -⟩ := Eval.pure_eq_ok.mp heval
    exact htargets

end

/-! ## Sessions -/

/-- Statements start at the offsets of `K`, and lead to offsets of `K` only. -/
def Script.Closed (S : Script) (K : Nat → Prop) : Prop :=
  ∀ n, K n → ∃ node t, S.decodeStatement n = .ok (node, t) ∧ S.SoundStatement K node

/-- A session stands at a statement of a script, and so do the sections and options it can go to. -/
structure Session.Placed (S : Script) (K : Nat → Prop) (s : Session) : Prop where
  script : s.script = S
  sections : s.sections.Within K
  pointer : s.status ≠ .idle → K s.pointer
  choices : ∀ c ∈ s.choices.items, K c.next
  choicePool : s.choicePool.Clean

namespace Session.Placed

variable {σ : Type} {h : Host σ} {S : Script} {K : Nat → Prop} {s s' : Session} {memory memory' : σ}

/-! ### Statements -/

/-- The session goes to a statement. -/
theorem jump (hs : s.Placed S K) {next : Nat} (hnext : K next) : (s.jump next).Placed S K :=
  { hs with pointer := fun _ => hnext }

/-- The session offers options, each of which leads to a statement. -/
theorem offer (hs : s.Placed S K) (hpointer : K s.pointer) {next : Nat} {choices : List Choice}
    (hnext : K next) (hchoices : ∀ c ∈ choices, K c.next) : (s.offer next choices).2.Placed S K := by
  obtain ⟨hbuffer, hrest⟩ := hs.choicePool.take
  rw [Session.offer]
  by_cases hany : choices.any (·.enabled) = true
  · simp only [if_pos hany]
    refine ⟨hs.script, hs.sections, fun _ => hpointer, ?_, hrest.take.2.give _⟩
    rw [Buffer.append, hbuffer]
    exact hchoices
  · simp only [if_neg hany]
    exact { hs with pointer := fun _ => hnext, choicePool := hrest.give _ }

/-- The session goes where an outcome leads. -/
theorem take (hs : s.Placed S K) (hpointer : K s.pointer) {outcome : Outcome}
    (htargets : ∀ n ∈ outcome.targets, K n) : (s.take outcome).2.Placed S K := by
  cases outcome with
  | proceed next events => exact hs.jump (htargets next (List.mem_singleton_self _))
  | present next ending events =>
    exact { hs.jump (htargets next (List.mem_singleton_self _)) with }
  | offer next choices =>
    rw [Outcome.targets, List.forall_mem_cons, List.forall_mem_map] at htargets
    exact hs.offer hpointer htargets.1 htargets.2
  | finish => exact { hs with pointer := fun _ => hpointer }

/-- A session that performs a statement stands at a statement again. -/
theorem step (hK : S.Closed K) (hs : s.Placed S K) (hrunning : s.status = .running) (memory : σ) :
    (s.step h memory).2.1.Placed S K := by
  have hpointer : K s.pointer := hs.pointer (by simp [hrunning])
  rw [Session.step]
  by_cases hending : s.ending = true
  · rw [if_pos hending]
    exact { hs with pointer := fun _ => hpointer }
  rw [if_neg hending, hs.script]
  obtain ⟨node, stop, hdecode, hnode⟩ := hK s.pointer hpointer
  generalize heval : Eval.statementAt S h (Eval.expr S h) s.sections s.pointer
    ⟨s.memo, memory⟩ = result
  cases result with
  | ok outcome stage =>
    rw [Eval.statementAt_ok _ _ _ hdecode] at heval
    have htargets := Eval.statement_targets hnode hs.sections heval
    have hs' : { s with memo := stage.memo }.Placed S K := { hs with }
    exact hs'.take hpointer htargets
  | error e stage =>
    obtain ⟨pool, hbreak, hclean⟩ := s.exists_breakOff
    have hs' : { s with choicePool := pool }.Placed S K := { hs with choicePool := hclean hs.choicePool }
    cases e <;> (rw [Session.settle, hbreak]; exact { hs' with pointer := fun _ => hpointer })

/-! ### Moves -/

/-- An advance leaves the session placed, and running only where statements lead on. -/
theorem advanceFrom (hK : S.Closed K) {limit : Nat} {buffer : Buffer Event}
    {reply : Except SessionError (Buffer Event)} (hs : s.Placed S K) (hrunning : s.status = .running)
    (hadvance : Session.advanceFrom (Session.step h) limit buffer s memory =
      some (reply, s', memory')) : s'.Placed S K := by
  induction limit generalizing buffer s memory with
  | zero => cases hadvance
  | succ limit ih =>
    have hplaced := hs.step hK hrunning memory (h := h)
    have hturn := Session.step_turn (h := h) hs.choicePool memory
    rw [Session.advanceFrom] at hadvance
    generalize s.step h memory = x at hplaced hturn hadvance
    obtain ⟨step, t, memory₁⟩ := x
    cases step with
    | on more =>
      have hstatus : t.status = s.status := by cases hturn <;> rfl
      exact ih hplaced (hstatus.trans hrunning) hadvance
    | wait more =>
      cases hadvance
      exact hplaced
    | fault e =>
      cases hadvance
      exact { hplaced with }

/-- An advance leaves the session at a statement, however many statements it performs. -/
theorem advance (hK : S.Closed K) {limit : Nat} {reply : Except SessionError (Buffer Event)}
    (hs : s.Placed S K) (hadvance : s.advance h limit memory = some (reply, s', memory')) :
    s'.Placed S K := by
  rw [Session.advance, Session.advanceWith] at hadvance
  by_cases hrunning : s.status = .running
  · rw [if_pos hrunning] at hadvance
    have hs' : { s with eventPool := s.eventPool.take.2 }.Placed S K := { hs with }
    exact hs'.advanceFrom hK hrunning hadvance
  · rw [if_neg hrunning] at hadvance
    cases hadvance
    exact hs

/-- The session goes to a statement with no options on offer. -/
theorem enter (hs : s.Placed S K) {n : Nat} (hn : K n) (ending : Bool) :
    { s.withdraw.jump n with ending, status := .running }.Placed S K where
  script := hs.script
  sections := hs.sections
  pointer _ := hn
  choices := by simp [Session.withdraw, Session.jump, Buffer.empty]
  choicePool := hs.choicePool.give _

/-- The result of a call leaves the session where it stands. -/
theorem complete (hs : s.Placed S K) (result : Except HostError Value) :
    (s.complete result).2.Placed S K := by
  rw [Session.complete]
  split
  · next hstatus _ =>
    have hpointer : K s.pointer := hs.pointer (by simp [hstatus])
    cases result <;> exact { hs with pointer := fun _ => hpointer }
  · exact { hs with }

/-- Whatever a session does, it stays placed. -/
theorem does (hK : S.Closed K) {d : Deed} (hs : s.Placed S K) (hdoes : s.Does d s') :
    s'.Placed S K := by
  cases hdoes with
  | start name =>
    rcases s.start_cases name with ⟨e, hstart⟩ | ⟨-, entry, hentry, hstart⟩
    · rw [hstart]
      exact hs
    · rw [hstart]
      exact hs.enter (hs.sections name entry hentry) false
  | advance h limit memory hadvance => exact hs.advance hK hadvance
  | select index =>
    rcases s.select_cases index with ⟨e, hselect⟩ | ⟨-, choice, hchoice, -, hselect⟩
    · rw [hselect]
      exact hs
    · rw [hselect]
      exact hs.enter (hs.choices choice (List.mem_of_getElem? hchoice)) s.ending
  | complete result => exact hs.complete result
  | recycle events =>
    exact { hs with choicePool := Session.Coherent.reclaim_clean events.items hs.choicePool }

end Session.Placed

/-! ## Well-formed scripts -/

section

variable {S : Script} {K : Nat → Prop} {xs : List (Nat × Statement)} {offset stop : Nat}

/-- Every statement of a walk is decoded where it stands. -/
theorem Script.Walk.decodes (h : S.Walk offset xs stop) {p : Nat × Statement} (hp : p ∈ xs) :
    ∃ t, S.decodeStatement p.1 = .ok (p.2, t) := by
  induction h with
  | nil s => cases hp
  | cons hdecode _ ih =>
    rcases List.mem_cons.mp hp with rfl | hp
    · exact ⟨_, hdecode⟩
    · exact ih hp

/-- The sections found in a walk to the end of a script stand at its statements. -/
theorem Script.Walk.sections_within (h : S.Walk offset xs stop) (hstop : stop = S.words.size)
    (hxs : ∀ p ∈ xs, K p.1) {fuel : Nat} {table table' : Catalog Nat} (htable : table.Within K)
    (hfrom : S.sectionsFrom fuel offset table = .ok table') : table'.Within K := by
  induction h generalizing fuel table with
  | nil s =>
    cases fuel with
    | zero =>
      cases hfrom
      exact htable
    | succ fuel =>
      rw [Script.sectionsFrom, if_neg (by omega)] at hfrom
      cases hfrom
      exact htable
  | @cons s m t node xs hdecode _ ih =>
    rw [List.forall_mem_cons] at hxs
    cases fuel with
    | zero =>
      cases hfrom
      exact htable
    | succ fuel =>
      rw [Script.sectionsFrom, if_pos (Script.lt_size_of_decodeStatement hdecode), hdecode,
        Code.ok_bind] at hfrom
      cases node with
      | entry next i =>
        obtain ⟨name, -, hfrom⟩ := Code.bind_eq_ok.mp hfrom
        refine ih hstop hxs.2 ?_ hfrom
        intro name' n hfind
        rw [Catalog.find?_insert] at hfind
        split at hfind
        · cases hfind
          exact hxs.1
        · exact htable name' n hfind
      | _ => exact ih hstop hxs.2 htable hfrom

/-- The statements of a walk lead to each other if they are sound. -/
theorem Script.Walk.closed (h : S.Walk offset xs stop)
    (hsound : ∀ p ∈ xs, S.SoundStatement (fun n => ∃ q ∈ xs, q.1 = n) p.2) :
    S.Closed fun n => ∃ q ∈ xs, q.1 = n := by
  rintro _ ⟨p, hp, rfl⟩
  obtain ⟨t, hdecode⟩ := h.decodes hp
  exact ⟨p.2, t, hdecode, hsound p hp⟩

/-- A session that can be reached stands at a statement of its script. -/
theorem History.placed (hwalk : S.Walk 0 xs S.words.size)
    (hsound : ∀ p ∈ xs, S.SoundStatement (fun n => ∃ q ∈ xs, q.1 = n) p.2) {past : List Deed}
    {s : Session} (hpast : History S past s) : s.Placed S fun n => ∃ q ∈ xs, q.1 = n := by
  induction hpast with
  | new hnew =>
    rw [Session.ofScript] at hnew
    split at hnew
    · next hsections =>
      cases hnew
      refine ⟨rfl, ?_, by simp, by simp [Buffer.empty], .empty _⟩
      exact hwalk.sections_within rfl (fun p hp => ⟨p, hp, rfl⟩) (by simp [Catalog.Within]) hsections
    · cases hnew
  | snoc _ hdoes ih => exact ih.does (hwalk.closed hsound) hdoes

end

end Colloquy
