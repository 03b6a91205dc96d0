import Colloquy.Proofs.Session.Placed
import Colloquy.Proofs.Session.Replay
import Colloquy.Proofs.Session.Restart

/-!
# Advances in parts

Against a host that answers awaited calls later, an advance stops at each of them, and is made again once
the result is delivered (`Session.Resumes`).  Its parts together return what one advance returns against
the host that answers at once, and leave a twin of its session behind (`Session.Between.run_resumed`).

The advance against the first host is followed statement by statement.  A statement does the same
against the second host, or is cut (`Session.Matches`); after a cut the session is the same one again but
for a further result in its memo, so a statement is cut at most once for each word of the script.  Every
cut of a choice costs the session a buffer, so what is left in the end is a twin only.
-/

namespace Colloquy

open Code

/-! ## Moves and the results that are due -/

section

variable {τ : Type} (g : Host τ) (due : τ → Option Value)

/-- Make a move.  If an advance stops at a call whose result is due, deliver the result and advance
again. -/
inductive Session.Resumes : Move → Session → τ → Reply → Session → τ → Prop where
  | stops {m : Move} {s s' : Session} {n n' : τ} {reply : Reply} :
      s.move g n m = some (reply, s', n') → (s'.status = .awaitingCall → due n' = none) →
      Resumes m s n reply s' n'
  | again {limit : Nat} {s t s' : Session} {n n₁ n' : τ} {first : List Event} {reply : Reply}
      {v : Value} :
      s.move g n (.advance limit) = some (.ok first, t, n₁) → t.status = .awaitingCall →
      due n₁ = some v → Resumes (.advance limit) (t.complete (.ok v)).2 n₁ reply s' n' →
      Resumes (.advance limit) s n (reply.map (first ++ ·)) s' n'

/-- Make moves one after another, with advances in parts. -/
inductive Session.Resumed : List Move → Session → τ → List Reply → Session → τ → Prop where
  | nil {s : Session} {n : τ} : Resumed [] s n [] s n
  | cons {m : Move} {ms : List Move} {s t s' : Session} {n n₁ n' : τ} {reply : Reply}
      {replies : List Reply} :
      Session.Resumes g due m s n reply t n₁ → Resumed ms t n₁ replies s' n' →
      Resumed (m :: ms) s n (reply :: replies) s' n'

variable {g due} {s s' t' : Session} {n n' y' : τ}

/-- Where a move ends, no result is due. -/
theorem Session.Resumes.settled {m : Move} {reply : Reply}
    (h : Session.Resumes g due m s n reply s' n') : s'.status = .awaitingCall → due n' = none := by
  induction h with
  | stops _ hsettled => exact hsettled
  | again _ _ _ _ ih => exact ih

/-- A move comes to one answer and one end, in however many parts it is made. -/
theorem Session.Resumes.unique {m : Move} {reply reply' : Reply}
    (h : Session.Resumes g due m s n reply s' n') (h' : Session.Resumes g due m s n reply' t' y') :
    reply' = reply ∧ t' = s' ∧ y' = n' := by
  induction h generalizing reply' with
  | stops hmove hsettled =>
    cases h' with
    | stops hmove' _ =>
      rw [hmove] at hmove'
      cases hmove'
      exact ⟨rfl, rfl, rfl⟩
    | again hmove' hwaiting hdue _ =>
      rw [hmove] at hmove'
      cases hmove'
      rw [hsettled hwaiting] at hdue
      cases hdue
  | again hmove hwaiting hdue _ ih =>
    cases h' with
    | stops hmove' hsettled =>
      rw [hmove] at hmove'
      cases hmove'
      rw [hsettled hwaiting] at hdue
      cases hdue
    | again hmove' _ hdue' hrest =>
      rw [hmove] at hmove'
      cases hmove'
      rw [hdue] at hdue'
      cases hdue'
      obtain ⟨rfl, rfl, rfl⟩ := ih hrest
      exact ⟨rfl, rfl, rfl⟩

/-- So do moves in a row. -/
theorem Session.Resumed.unique {moves : List Move} {replies replies' : List Reply}
    (h : Session.Resumed g due moves s n replies s' n')
    (h' : Session.Resumed g due moves s n replies' t' y') :
    replies' = replies ∧ t' = s' ∧ y' = n' := by
  induction h generalizing replies' with
  | nil =>
    cases h'
    exact ⟨rfl, rfl, rfl⟩
  | cons hmove _ ih =>
    cases h' with
    | cons hmove' hrest =>
      obtain ⟨rfl, rfl, rfl⟩ := hmove.unique hmove'
      obtain ⟨rfl, rfl, rfl⟩ := ih hrest
      exact ⟨rfl, rfl, rfl⟩

end

/-! ## Statements one after another -/

/-- Statements are performed, at most `limit` of them, up to one that waits. -/
inductive Session.Performs {σ : Type} (h : Host σ) :
    Nat → Session → σ → List Event → Session → σ → Prop where
  | wait {limit : Nat} {s s' : Session} {m m' : σ} {events : List Event} :
      s.step h m = (.wait events, s', m') → Performs h (limit + 1) s m events s' m'
  | on {limit : Nat} {s t s' : Session} {m m₁ m' : σ} {more events : List Event} :
      s.step h m = (.on more, t, m₁) → Performs h limit t m₁ events s' m' →
      Performs h (limit + 1) s m (more ++ events) s' m'

namespace Session.Performs

variable {σ : Type} {h : Host σ} {limit : Nat} {s s' t : Session} {m m' m₁ : σ} {events : List Event}

/-- More statements may be allowed than are performed. -/
theorem mono {limit' : Nat} (hp : Performs h limit s m events s' m') (hle : limit ≤ limit') :
    Performs h limit' s m events s' m' := by
  induction hp generalizing limit' with
  | wait hstep =>
    cases limit' with
    | zero => cases hle
    | succ limit' => exact .wait hstep
  | on hstep _ ih =>
    cases limit' with
    | zero => cases hle
    | succ limit' => exact .on hstep (ih (Nat.le_of_succ_le_succ hle))

/-- Only the first statement depends on where a session is. -/
theorem congr (hp : Performs h limit s m events s' m') (hstep : s.step h m = t.step h m₁) :
    Performs h limit t m₁ events s' m' := by
  cases hp with
  | wait hwait => exact .wait (hstep ▸ hwait)
  | on hon hrest => exact .on (hstep ▸ hon) hrest

/-- Twins perform the same statements. -/
theorem twin (hp : Performs h limit s m events s' m') (hst : s.Twins t) :
    ∃ t', Performs h limit t m events t' m' ∧ s'.Twins t' := by
  induction hp generalizing t with
  | @wait _ s _ m _ _ hstep =>
    have hagree := hst.step m (h := h)
    rw [hstep] at hagree
    generalize hy : t.step h m = y at hagree
    obtain ⟨st, t', m₁⟩ := y
    obtain ⟨rfl, htwins, rfl⟩ := hagree
    exact ⟨t', .wait hy, htwins⟩
  | @on _ s _ _ m _ _ _ _ hstep _ ih =>
    have hagree := hst.step m (h := h)
    rw [hstep] at hagree
    generalize hy : t.step h m = y at hagree
    obtain ⟨st, u, m₁⟩ := y
    obtain ⟨rfl, htwins, rfl⟩ := hagree
    obtain ⟨t', hrest, hend⟩ := ih htwins
    exact ⟨t', .on hy hrest, hend⟩

/-- An advance that returns events performed the statements that they come from. -/
theorem of_advanceFrom {buffer out : Buffer Event}
    (hadvance : advanceFrom (step h) limit buffer s m = some (.ok out, s', m')) :
    ∃ events, Performs h limit s m events s' m' ∧ out.items = buffer.items ++ events := by
  induction limit generalizing buffer s m with
  | zero => cases hadvance
  | succ limit ih =>
    rw [advanceFrom] at hadvance
    cases hstep : s.step h m with
    | mk st x =>
      obtain ⟨t, m₁⟩ := x
      rw [hstep] at hadvance
      cases st with
      | on more =>
        obtain ⟨events, hrest, hout⟩ := ih hadvance
        refine ⟨more ++ events, .on hstep hrest, ?_⟩
        rw [hout, Buffer.append, List.append_assoc]
      | wait more =>
        cases hadvance
        exact ⟨more, .wait hstep, rfl⟩
      | fault e => cases hadvance

/-- Statements that are performed are those of an advance, which returns their events behind the ones it
has. -/
theorem advanceFrom (hp : Performs h limit s m events s' m') (buffer : Buffer Event) :
    ∃ out, Session.advanceFrom (step h) limit buffer s m = some (.ok out, s', m') ∧
      out.items = buffer.items ++ events := by
  induction hp generalizing buffer with
  | wait hstep =>
    rw [Session.advanceFrom, hstep]
    exact ⟨_, rfl, rfl⟩
  | @on _ _ _ _ _ _ _ more events hstep _ ih =>
    obtain ⟨out, hrest, hout⟩ := ih (buffer.append more)
    rw [Session.advanceFrom, hstep]
    refine ⟨out, hrest, ?_⟩
    rw [hout, Buffer.append, List.append_assoc]

/-- An advance of a session that has no buffers to use again. -/
theorem of_move (hrunning : s.status = .running) (hpool : s.eventPool.free = [])
    (hmove : s.move h m (.advance limit) = some (.ok events, s', m')) :
    Performs h limit s m events s' m' := by
  rw [Session.move, Session.advance, advanceWith, if_pos hrunning, Pool.take, hpool] at hmove
  split at hmove
  · next reply _ _ hadvance =>
    cases reply with
    | error e => cases hmove
    | ok out =>
      cases hmove
      obtain ⟨events, hp, hout⟩ := of_advanceFrom hadvance
      rw [hout]
      exact hp
  · cases hmove

/-- Statements that are performed from a running session are a move, if no buffer is kept for it. -/
theorem move (hp : Performs h limit s m events s' m') (hrunning : s.status = .running)
    (hpool : s.eventPool.free = []) :
    s.move h m (.advance limit) = some (.ok events, s', m') := by
  obtain ⟨out, hadvance, hout⟩ := hp.advanceFrom .empty
  rw [Session.move, Session.advance, advanceWith, if_pos hrunning, Pool.take, hpool]
  simp only [hadvance]
  rw [Except.map, hout]
  rfl

end Session.Performs

/-! ## Cuts of statements -/

/-- The offsets without a result among the first `size` ones. -/
def Memo.gaps (memo : Memo) (size : Nat) : List Nat :=
  (List.range size).filter fun o => (memo.find? o).isNone

/-- A further result closes a gap. -/
theorem Memo.Grows.gaps_lt {lo size o : Nat} {memo memo' : Memo} (h : memo.Grows lo memo')
    (hfind : memo'.find? o = none) (hsize : o < size) (v : Value) :
    ((memo'.insert o v).gaps size).length < (memo.gaps size).length := by
  have hkept : ∀ o, memo'.find? o = none → memo.find? o = none := by
    intro o hnone
    by_contra hsome
    obtain ⟨w, hw⟩ := Option.ne_none_iff_exists'.mp hsome
    rw [h.keeps o w hw] at hnone
    cases hnone
  have hgaps : (memo'.insert o v).gaps size =
      (memo.gaps size).filter fun o' => ((memo'.insert o v).find? o').isNone := by
    rw [gaps, gaps, List.filter_filter]
    refine List.filter_congr fun o' _ => ?_
    rw [Memo.find?_insert]
    by_cases heq : o' = o
    · simp [heq]
    · rw [if_neg heq]
      cases hnone : memo'.find? o' with
      | none => simp [hkept o' hnone]
      | some w => rfl
  rw [hgaps, List.length_filter_lt_length_iff_exists]
  refine ⟨o, ?_, by simp [Memo.find?_insert]⟩
  simp [gaps, hsize, hkept o hfind]

section

variable {σ τ : Type} (h : Host σ) (g : Host τ) (R : σ → τ → Prop) (due : τ → Option Value)

/-- A statement does the same against both hosts, or is at fault against the first one, or is cut against
the second one.  After a cut the first one can be run from there as well. -/
inductive Session.Matches (s : Session) (m : σ) (n : τ) : Prop where
  | same {st : Step} {t : Session} {m' : σ} {n' : τ} : s.step h m = (st, t, m') →
      s.step g n = (st, t, n') → R m' n' → (t.status = .awaitingCall → due n' = none) →
      Matches s m n
  | fault {e : SessionError} {t : Session} {m' : σ} : s.step h m = (.fault e, t, m') → Matches s m n
  | cut {o : Nat} {function : String} {memo : Memo} {pool : Pool Choice} {m' : σ} {n' : τ} {v : Value} :
      s.step g n = (.wait [],
        { s with memo, choicePool := pool, status := .awaitingCall, pending := some (o, function) }, n') →
      (s.choicePool.Clean → pool.Clean) → due n' = some v → R m' n' →
      ((memo.insert o v).gaps s.script.words.size).length <
        (s.memo.gaps s.script.words.size).length →
      s.step h m = { s with memo := memo.insert o v }.step h m' → Matches s m n

variable {h g R due}

/-- What a statement comes to makes no session wait for a call. -/
theorem Session.take_status {s : Session} (hstatus : s.status ≠ .awaitingCall) (outcome : Outcome) :
    (s.take outcome).2.status ≠ .awaitingCall := by
  cases outcome with
  | proceed next events => exact hstatus
  | present next ending events => exact hstatus
  | offer next choices =>
    rw [Session.take, Session.offer]
    by_cases hany : choices.any (·.enabled) = true
    · simp [hany]
    · simp only [if_neg hany]
      exact hstatus
  | finish => simp [Session.take, Session.finish]

/-- A choice may be broken off before or after the memo is set. -/
theorem Session.breakOff_memo (s : Session) (memo : Memo) :
    { s with memo }.breakOff = { s.breakOff with memo } := by
  simp only [Session.breakOff]
  cases s.script.decodeStatement s.pointer with
  | error e => rfl
  | ok x =>
    obtain ⟨node, stop⟩ := x
    cases node <;> rfl

/-- Results from before do not matter once an evaluation has ended. -/
theorem Session.settle_memo (s : Session) (memo : Memo)
    (result : EStateM.Result Interrupt (Stage σ) Outcome) :
    { s with memo }.settle result = s.settle result := by
  match result with
  | .ok outcome stage => rfl
  | .error (.pending offset function) stage =>
    rw [Session.settle, Session.settle, Session.breakOff_memo]
  | .error (.fault e ending) stage =>
    rw [Session.settle, Session.settle, Session.breakOff_memo]
    rfl

/-- A statement that is quiet matches: it comes to the same against both hosts, or the second one cuts it
and the first one can run it from there. -/
theorem Session.step_matches (D : Defers h g R due) {s : Session} {m : σ} {n : τ} (hR : R m n)
    (hrunning : s.status = .running) {node : Statement} {stop : Nat}
    (hdecode : s.script.decodeStatement s.pointer = .ok (node, stop)) (hquiet : s.script.Quiet node) :
    s.Matches h g R due m n := by
  by_cases hending : s.ending = true
  · have hstep : ∀ {υ : Type} (h : Host υ) (x : υ), s.step h x =
        (.wait [.ended], { s with ending := false, status := .ended, memo := .empty }, x) :=
      fun h x => if_pos hending
    exact .same (hstep h m) (hstep g n) hR (by simp)
  have hstep : ∀ {υ : Type} (h : Host υ) (memo : Memo) (x : υ), { s with memo }.step h x =
      s.settle (Eval.statementAt s.script h (Eval.expr s.script h) s.sections s.pointer
        ⟨memo, x⟩) :=
    fun h memo x => (if_neg hending).trans (s.settle_memo memo _)
  have hstatus : s.status ≠ .awaitingCall := by simp [hrunning]
  rcases Tracks.statementAt D hdecode hquiet s.memo m n hR with hends | hcut
  · have hleft := hstep h s.memo m
    have hright := hstep g s.memo n
    generalize Eval.statementAt s.script h _ s.sections s.pointer ⟨s.memo, m⟩ = x at hends hleft
    generalize Eval.statementAt s.script g _ s.sections s.pointer ⟨s.memo, n⟩ = y at hends hright
    cases hends with
    | @ok outcome memo m' n' hR' =>
      refine .same hleft hright hR' fun hwaiting => ?_
      exact absurd hwaiting (Session.take_status (s := { s with memo }) hstatus outcome)
    | pending hR' hdue => exact .same hleft hright hR' fun _ => hdue
    | fault => exact .fault hleft
  · cases hcut with
    | @intro o f memo m' n' v hq hdue hR' _ hgrows hfind _ hsize hsame =>
      obtain ⟨pool, hbreak, hclean⟩ := s.exists_breakOff
      have hright : s.step g n = (.wait [],
          { s with memo, choicePool := pool, status := .awaitingCall, pending := some (o, f) }, n') := by
        refine (hstep g s.memo n).trans ((congrArg s.settle hq).trans ?_)
        rw [Session.settle, hbreak]
        rfl
      refine .cut hright hclean hdue hR' (hgrows.gaps_lt hfind hsize v) ?_
      exact (hstep h s.memo m).trans ((congrArg s.settle hsame).trans (hstep h _ m').symm)

/-! ## Advances side by side -/

/-- A session is about to perform a quiet statement, and has no buffers to use again. -/
structure Session.Poised (S : Script) (K : Nat → Prop) (s : Session) : Prop where
  placed : s.Placed S K
  running : s.status = .running
  pending : s.pending = none
  eventPool : s.eventPool.free = []

/-- The offsets of `K` are those of quiet statements. -/
def Script.QuietAt (S : Script) (K : Nat → Prop) : Prop :=
  ∀ n, K n → ∀ node stop, S.decodeStatement n = .ok (node, stop) → S.Quiet node

variable {S : Script} {K : Nat → Prop} {s s' : Session} {m m' : σ} {n : τ} {limit : Nat}
  {events : List Event}

namespace Session.Poised

/-- A session that goes on after a statement is poised at the next one. -/
theorem step_on {t : Session} {more : List Event} {m₁ : σ} (hK : S.Closed K) (hs : s.Poised S K)
    (hstep : s.step h m = (.on more, t, m₁)) : t.Poised S K := by
  have hplaced := hs.placed.step hK hs.running m (h := h)
  have hturn := Session.step_turn (h := h) hs.placed.choicePool m
  rw [hstep] at hplaced hturn
  cases hturn with
  | moved _ _ => exact ⟨hplaced, hs.running, hs.pending, hs.eventPool⟩
  | skipped _ _ => exact ⟨hplaced, hs.running, hs.pending, hs.eventPool⟩

/-- Wherever a statement leads, there are no buffers for events to use again. -/
theorem step_end {st : Step} {t : Session} {m₁ : σ} (hs : s.Poised S K)
    (hstep : s.step h m = (st, t, m₁)) : t.Twins t ∧ t.eventPool.free = [] := by
  have hturn := Session.step_turn (h := h) hs.placed.choicePool m
  rw [hstep] at hturn
  have hfree : t.eventPool.free = [] := hturn.eventPool ▸ hs.eventPool
  exact ⟨.refl (.of_free_eq_nil hfree) (hturn.clean hs.placed.choicePool), hfree⟩

theorem remember (hs : s.Poised S K) (memo : Memo) {pool : Pool Choice} (hclean : pool.Clean) :
    { s with memo, choicePool := pool }.Poised S K :=
  ⟨{ hs.placed with choicePool := hclean }, hs.running, hs.pending, hs.eventPool⟩

/-- A result that is delivered leaves a session poised. -/
theorem complete (hs : s.Poised S K) (memo : Memo) (pool : Pool Choice) (o : Nat) (function : String)
    (v : Value) :
    ({ s with
        memo
        choicePool := pool
        status := .awaitingCall
        pending := some (o, function) }.complete (.ok v)).2 =
      { s with memo := memo.insert o v, choicePool := pool } := by
  rw [Session.complete_ok rfl rfl, ← hs.running, ← hs.pending]

/-- A session that is poised at quiet statements matches. -/
theorem step_matches (D : Defers h g R due) (hK : S.Closed K) (hquiet : S.QuietAt K) (hs : s.Poised S K)
    (hR : R m n) : s.Matches h g R due m n := by
  have hpointer : K s.pointer := hs.placed.pointer (by simp [hs.running])
  obtain ⟨node, stop, hdecode, -⟩ := hK s.pointer hpointer
  have hnode := hquiet s.pointer hpointer node stop hdecode
  rw [← hs.placed.script] at hdecode hnode
  exact Session.step_matches D hR hs.running hdecode hnode

end Session.Poised

/-- The first part of an advance against the host that answers later, and all further ones. -/
inductive Session.Parts (g : Host τ) (due : τ → Option Value) (whole limit : Nat) (s : Session) (n : τ) :
    List Event → Session → τ → Prop where
  | stops {s' : Session} {n' : τ} {events : List Event} : Session.Performs g limit s n events s' n' →
      (s'.status = .awaitingCall → due n' = none) → Parts g due whole limit s n events s' n'
  | again {t s' : Session} {n₁ n' : τ} {first events : List Event} {v : Value} :
      Session.Performs g limit s n first t n₁ → t.status = .awaitingCall → due n₁ = some v →
      Session.Resumes g due (.advance whole) (t.complete (.ok v)).2 n₁ (.ok events) s' n' →
      Parts g due whole limit s n (first ++ events) s' n'

namespace Session.Parts

variable {whole : Nat} {n' : τ}

/-- A statement that goes on may stand in front of an advance in parts. -/
theorem on {t : Session} {n₁ : τ} {more : List Event} (hstep : s.step g n = (.on more, t, n₁))
    (hp : Parts g due whole limit t n₁ events s' n') :
    Parts g due whole (limit + 1) s n (more ++ events) s' n' := by
  cases hp with
  | stops hperforms hsettled => exact .stops (.on hstep hperforms) hsettled
  | again hperforms hwaiting hdue hrest =>
    rw [← List.append_assoc]
    exact .again (.on hstep hperforms) hwaiting hdue hrest

/-- An advance in parts from a poised session is a move in parts. -/
theorem resumes (hp : Parts g due whole limit s n events s' n') (hle : limit ≤ whole)
    (hs : s.Poised S K) : Session.Resumes g due (.advance whole) s n (.ok events) s' n' := by
  cases hp with
  | stops hperforms hsettled =>
    exact .stops ((hperforms.mono hle).move hs.running hs.eventPool) hsettled
  | again hperforms hwaiting hdue hrest =>
    exact .again ((hperforms.mono hle).move hs.running hs.eventPool) hwaiting hdue hrest

end Session.Parts

/-- Statements that are performed against the first host are performed against the second one, in parts.
The induction is on their number, and for one statement on the results that it has not got. -/
theorem Session.Performs.parts (D : Defers h g R due) (hK : S.Closed K) (hquiet : S.QuietAt K)
    (hperforms : Session.Performs h limit s m events s' m') (hs : s.Poised S K) (hR : R m n)
    {whole : Nat} (hle : limit ≤ whole) : ∃ n' t', R m' n' ∧ s'.Twins t' ∧ t'.eventPool.free = [] ∧
      Session.Parts g due whole limit s n events t' n' := by
  induction limit generalizing s m n events s' with
  | zero => cases hperforms
  | succ limit ih =>
    generalize hgaps : (s.memo.gaps S.words.size).length = gaps
    induction gaps using Nat.strong_induction_on generalizing s m n s' with
    | _ gaps ihgaps =>
      cases hs.step_matches D hK hquiet hR with
      | @same st t m₁ n₁ hleft hright hR₁ hsettled =>
        cases hperforms with
        | wait hwait =>
          rw [hleft] at hwait
          cases hwait
          obtain ⟨htwins, hfree⟩ := hs.step_end hleft
          exact ⟨n₁, _, hR₁, htwins, hfree, .stops (.wait hright) hsettled⟩
        | on hon hrest =>
          rw [hleft] at hon
          cases hon
          obtain ⟨n', t', hR', htwins, hfree, hparts⟩ :=
            ih hrest (hs.step_on hK hleft) hR₁ (Nat.le_of_succ_le hle)
          exact ⟨n', t', hR', htwins, hfree, hparts.on hright⟩
      | fault hfault =>
        cases hperforms with
        | wait hwait =>
          rw [hfault] at hwait
          cases hwait
        | on hon _ =>
          rw [hfault] at hon
          cases hon
      | @cut o function memo pool m₁ n₁ v hright hclean hdue hR₁ hlt hsame =>
        have hevents := Pool.Clean.of_free_eq_nil hs.eventPool
        have hpool := hclean hs.placed.choicePool
        have hs₁ := hs.remember (memo.insert o v) hpool
        rw [hs.placed.script] at hlt
        -- against the first host, the session goes on alike with the buffer and without
        have hst : { s with memo := memo.insert o v }.Twins
            { s with memo := memo.insert o v, choicePool := pool } :=
          ⟨rfl, ⟨hevents, hs.placed.choicePool⟩, hevents, hpool⟩
        obtain ⟨u, hperforms₁, hu⟩ := (hperforms.congr hsame).twin hst
        obtain ⟨n', t', hR', htwins, hfree, hparts⟩ :=
          ihgaps _ (hgaps ▸ hlt) hperforms₁ hs₁ hR₁ rfl
        have hresumes := hparts.resumes hle hs₁
        rw [← hs.complete memo pool o function v] at hresumes
        exact ⟨n', t', hR', hu.trans htwins, hfree, .again (.wait hright) rfl hdue hresumes⟩

/-! ## Moves side by side -/

/-- An advance of a running session ended with a fault. -/
def Session.faults (s : Session) : Move → Reply → Bool
  | .advance _, .error _ => s.status = .running
  | _, _ => false

/-- No advance ends with a fault while some moves are made. -/
def Session.faultless (h : Host σ) : Session → σ → List Move → Bool
  | _, _, [] => true
  | s, memory, m :: ms =>
    match s.move h memory m with
    | some (reply, t, memory) => !s.faults m reply && faultless h t memory ms
    | none => true

/-- A session between two moves. -/
structure Session.Between (S : Script) (K : Nat → Prop) (s : Session) : Prop where
  placed : s.Placed S K
  coherent : ∃ events, s.Coherent events
  eventPool : s.eventPool.free = []

/-- A running session between two moves is poised. -/
theorem Session.Between.poised (hs : s.Between S K) (hrunning : s.status = .running) :
    s.Poised S K where
  placed := hs.placed
  running := hrunning
  pending := by
    obtain ⟨events, hcoherent⟩ := hs.coherent
    exact hcoherent.pending_eq_none (by simp [hrunning])
  eventPool := hs.eventPool

/-- A move other than an advance is the same against all hosts, and does not make a session wait for a
call. -/
theorem Session.Coherent.exists_move (hs : s.Coherent events) {x : Move}
    (hx : ∀ limit, x ≠ .advance limit) :
    ∃ reply t, (∀ {υ : Type} (h : Host υ) (y : υ), s.move h y x = some (reply, t, y)) ∧
      t.eventPool = s.eventPool ∧ (t.status = .awaitingCall → s.status = .awaitingCall) := by
  cases x with
  | start name =>
    refine ⟨quietly (s.start name).1, (s.start name).2, fun h y => rfl, ?_⟩
    rcases s.start_cases name with ⟨e, hstart⟩ | ⟨-, entry, -, hstart⟩
    · rw [hstart]
      exact ⟨rfl, id⟩
    · rw [hstart]
      exact ⟨rfl, by simp⟩
  | select index =>
    refine ⟨quietly (s.select index).1, (s.select index).2, fun h y => rfl, ?_⟩
    rcases s.select_cases index with ⟨e, hselect⟩ | ⟨-, choice, -, -, hselect⟩
    · rw [hselect]
      exact ⟨rfl, id⟩
    · rw [hselect]
      exact ⟨rfl, by simp⟩
  | complete result =>
    refine ⟨quietly (s.complete result).1, (s.complete result).2, fun h y => rfl, ?_⟩
    by_cases hwaiting : s.status = .awaitingCall
    · obtain ⟨⟨o, function⟩, hpending⟩ := Option.isSome_iff_exists.mp (hs.pending.mpr hwaiting)
      cases result with
      | ok v =>
        rw [Session.complete_ok hwaiting hpending]
        exact ⟨rfl, by simp⟩
      | error e =>
        rw [Session.complete_error hwaiting hpending]
        exact ⟨rfl, by simp⟩
    · rw [Session.complete_of_status_ne hwaiting]
      exact ⟨rfl, id⟩
  | advance limit => exact absurd rfl (hx limit)

/-- An advance of a session that does not run is refused. -/
theorem Session.move_advance_of_ne (hstatus : s.status ≠ .running) (limit : Nat) {υ : Type}
    (h : Host υ) (y : υ) :
    s.move h y (.advance limit) = some (.error (.invalidState .advance s.status), s, y) := by
  rw [Session.move, Session.advance, Session.advanceWith, if_neg hstatus]
  rfl

/-- A move is made against both hosts, an advance in parts. -/
theorem Session.Between.move_resumes (D : Defers h g R due) (hK : S.Closed K) (hquiet : S.QuietAt K)
    (hs : s.Between S K) (hR : R m n) (hsettled : s.status = .awaitingCall → due n = none) {x : Move}
    {reply : Reply} (hmove : s.move h m x = some (reply, s', m')) (hfault : s.faults x reply = false) :
    ∃ n' t', R m' n' ∧ s'.Twins t' ∧ t'.eventPool.free = [] ∧
      Session.Resumes g due x s n reply t' n' := by
  by_cases hx : ∀ limit, x ≠ .advance limit
  · obtain ⟨events, hcoherent⟩ := hs.coherent
    have hend := hcoherent.does (.of_move hmove)
    obtain ⟨reply, t, hsame, hpool, hstatus⟩ := hcoherent.exists_move hx
    rw [hsame] at hmove
    cases hmove
    refine ⟨n, _, hR, .refl hend.eventPool hend.choicePool, hpool ▸ hs.eventPool, ?_⟩
    exact .stops (hsame g n) fun hwaiting => hsettled (hstatus hwaiting)
  simp only [not_forall, not_not] at hx
  obtain ⟨limit, rfl⟩ := hx
  by_cases hrunning : s.status = .running
  · cases reply with
    | error e => simp [Session.faults, hrunning] at hfault
    | ok events =>
      have hperforms := Session.Performs.of_move hrunning hs.eventPool hmove
      have hpoised := hs.poised hrunning
      obtain ⟨n', t', hR', htwins, hfree, hparts⟩ :=
        hperforms.parts D hK hquiet hpoised hR (Nat.le_refl limit)
      exact ⟨n', t', hR', htwins, hfree, hparts.resumes (Nat.le_refl limit) hpoised⟩
  · rw [Session.move_advance_of_ne hrunning] at hmove
    cases hmove
    exact ⟨n, s, hR, .refl (.of_free_eq_nil hs.eventPool) hs.placed.choicePool, hs.eventPool,
      .stops (Session.move_advance_of_ne hrunning limit g n) hsettled⟩

/-- A twin of the session after a move stands between moves. -/
theorem Session.Between.move {t : Session} {x : Move} {reply : Reply} (hK : S.Closed K)
    (hs : s.Between S K) (hmove : s.move h m x = some (reply, s', m')) (hst : s'.Twins t)
    (hfree : t.eventPool.free = []) : t.Between S K := by
  obtain ⟨events, hcoherent⟩ := hs.coherent
  have hplaced := hs.placed.does hK (.of_move hmove)
  have hend := hcoherent.does (.of_move hmove)
  have hpools := hst.right
  rw [hst.symm.eq_left] at hfree ⊢
  exact ⟨{ hplaced with choicePool := hpools.2 },
    ⟨_, { hend with eventPool := hpools.1, choicePool := hpools.2 }⟩, hfree⟩

/-- Moves are made against both hosts, with advances in parts.  A twin of the session that is moved against
the first host is moved against the second one. -/
theorem Session.Between.run_resumed (D : Defers h g R due) (hK : S.Closed K) (hquiet : S.QuietAt K)
    {moves : List Move} {replies : List Reply} {t : Session} (hst : s.Twins t) (ht : t.Between S K)
    (hR : R m n) (hsettled : t.status = .awaitingCall → due n = none)
    (hrun : s.run h m moves = some (replies, s', m')) (hfaultless : s.faultless h m moves = true) :
    ∃ n' t', R m' n' ∧ s'.Twins t' ∧ Session.Resumed g due moves t n replies t' n' := by
  induction moves generalizing s t m n replies with
  | nil =>
    cases hrun
    exact ⟨n, t, hR, hst, .nil⟩
  | cons x moves ih =>
    rw [Session.run] at hrun
    obtain ⟨⟨reply, u, m₁⟩, hmove, hrun⟩ := Option.bind_eq_some_iff.mp hrun
    obtain ⟨⟨rest, u', m₂⟩, hrest, hrun⟩ := Option.bind_eq_some_iff.mp hrun
    cases hrun
    simp only [Session.faultless, hmove, Bool.and_eq_true, Bool.not_eq_true'] at hfaultless
    obtain ⟨v, hmove', huv⟩ := hst.move_eq_some hmove
    have hfault : t.faults x reply = false := by
      rw [← hfaultless.1]
      cases x <;> cases reply <;> simp [Session.faults, hst.status]
    obtain ⟨n₁, t₁, hR₁, hvt, hfree, hresumes⟩ :=
      ht.move_resumes D hK hquiet hR hsettled hmove' hfault
    obtain ⟨n', t', hR', htwins, hresumed⟩ :=
      ih (huv.trans hvt) (ht.move hK hmove' hvt hfree) hR₁ hresumes.settled hrest hfaultless.2
    exact ⟨n', t', hR', htwins, .cons hresumes hresumed⟩

end

end Colloquy
