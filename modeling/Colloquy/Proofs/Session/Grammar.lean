import Colloquy.Proofs.Session.History

/-!
# The grammar of an advance

An advance returns hash data, any amount of it, and then one of four things: a line with what its
directives announce, a choice, the end, or nothing because a call is awaited.  The state of the session
afterwards tells which.  The end is therefore returned at most once after a start, and nothing is
returned behind it before the next start.
-/

namespace Colloquy

open Code

section

variable {σ : Type}

/-- What an advance of a session ends with, and the state that follows. -/
inductive Closing (h : Host σ) (s : Session) : List Event → Status → Prop where
  /-- A line of the script and what its directives announce. -/
  | line {l : LineNode} {offset stop next : Nat} {ending : Bool} {events : List Event} :
      s.script.decodeStatement offset = .ok (.line l, stop) →
      LineComes s.script h s.sections l next ending events → Closing h s events .running
  | choice (choices : List Choice) : Closing h s [.choice choices] .awaitingChoice
  | ended : Closing h s [.ended] .ended
  | suspended : Closing h s [] .awaitingCall

variable {h : Host σ} {s s' t : Session}

/-! ## One advance -/

theorem Session.Turn.script {step : Step} (hturn : Session.Turn h s step s') :
    s'.script = s.script ∧ s'.sections = s.sections := by
  cases hturn <;> exact ⟨rfl, rfl⟩

/-- A turn that leads on returns hash data at most. -/
theorem Session.Turn.isHash {more : List Event} (hturn : Session.Turn h s (.on more) s') :
    (∀ e ∈ more, e.isHash) ∧ s'.status = s.status := by
  cases hturn with
  | moved _ hevents => exact ⟨hevents, rfl⟩
  | skipped _ _ => exact ⟨by simp, rfl⟩

/-- A turn that makes the session wait delivers a closing. -/
theorem Session.Turn.closing {last : List Event} (hturn : Session.Turn h s (.wait last) s')
    (hrunning : s.status = .running) : Closing h s last s'.status := by
  cases hturn with
  | closed _ => exact .ended
  | shown _ hdecode hline =>
    show Closing h s last s.status
    rw [hrunning]
    exact .line hdecode hline
  | offered _ _ _ => exact .choice _
  | finished _ => exact .ended
  | suspended _ => exact .suspended

/-- The turns in front of it deliver hash data only and leave the session running. -/
theorem Turns.isHash {events : List Event} (hturns : Turns h s events t) :
    (∀ e ∈ events, e.isHash) ∧ t.status = s.status ∧ t.script = s.script ∧
      t.sections = s.sections := by
  induction hturns with
  | refl s => exact ⟨by simp, rfl, rfl, rfl⟩
  | step hturn _ ih =>
    obtain ⟨hmore, hstatus⟩ := hturn.isHash
    obtain ⟨hscript, hsections⟩ := hturn.script
    obtain ⟨hevents, hstatus', hscript', hsections'⟩ := ih
    refine ⟨?_, hstatus'.trans hstatus, hscript'.trans hscript, hsections'.trans hsections⟩
    intro e he
    rcases List.mem_append.mp he with he | he
    · exact hmore e he
    · exact hevents e he

/-- A session plays one script, with the same sections all the time. -/
theorem Session.Does.script {d : Deed} (hdoes : s.Does d s')
    (hpools : s.eventPool.Clean ∧ s.choicePool.Clean) :
    s'.script = s.script ∧ s'.sections = s.sections := by
  cases hdoes with
  | start name =>
    rcases s.start_cases name with ⟨e, hstart⟩ | ⟨-, entry, -, hstart⟩ <;> rw [hstart] <;>
      exact ⟨rfl, rfl⟩
  | advance h limit memory hadvance =>
    by_cases hrunning : s.status = .running
    · obtain ⟨pool, -, hadvances⟩ :=
        Session.advance_advances hpools.1 hpools.2 hrunning hadvance
      generalize Except.map Buffer.items _ = r at hadvances
      cases hadvances with
      | ok hturns hwait =>
        obtain ⟨-, -, hscript, hsections⟩ := hturns.isHash
        exact ⟨hwait.script.1.trans hscript, hwait.script.2.trans hsections⟩
      | error hturns hfault _ =>
        obtain ⟨-, -, hscript, hsections⟩ := hturns.isHash
        exact ⟨hfault.script.1.trans hscript, hfault.script.2.trans hsections⟩
    · rw [Session.advance, Session.advanceWith, if_neg hrunning] at hadvance
      cases hadvance
      exact ⟨rfl, rfl⟩
  | select index =>
    rcases s.select_cases index with ⟨e, hselect⟩ | ⟨-, choice, -, -, hselect⟩ <;> rw [hselect] <;>
      exact ⟨rfl, rfl⟩
  | complete result =>
    rw [Session.complete]
    split
    · cases result <;> exact ⟨rfl, rfl⟩
    · exact ⟨rfl, rfl⟩
  | recycle events => exact ⟨rfl, rfl⟩

/-- A session that can be reached has the script it was made for, and the sections of that script. -/
theorem History.sections {S : Script} {past : List Deed} {s : Session} (hpast : History S past s) :
    s.script = S ∧ S.sectionTable = .ok s.sections := by
  induction hpast with
  | new hnew =>
    rw [Session.ofScript] at hnew
    split at hnew
    · next htable =>
      cases hnew
      exact ⟨rfl, htable⟩
    · cases hnew
  | snoc hpast hdoes ih =>
    obtain ⟨hscript, hsections⟩ := hdoes.script ⟨hpast.coherent.eventPool, hpast.coherent.choicePool⟩
    rw [hscript, hsections]
    exact ih

/-- The sections of a session are those of its script at any time. -/
theorem History.sections_eq {S : Script} {past : List Deed} {s : Session} (hpast : History S past s)
    {table : Catalog Nat} (htable : S.sectionTable = .ok table) : s.sections = table := by
  obtain ⟨-, hsections⟩ := hpast.sections
  rw [htable] at hsections
  exact (Except.ok.inj hsections).symm

/-- A closing depends on nothing of the session but its script and its sections. -/
theorem Closing.congr {last : List Event} {status : Status} (hclosing : Closing h s last status)
    (hscript : s.script = t.script) (hsections : s.sections = t.sections) :
    Closing h t last status := by
  cases hclosing with
  | line hdecode hline =>
    rw [hscript] at hdecode hline
    rw [hsections] at hline
    exact .line hdecode hline
  | choice choices => exact .choice choices
  | ended => exact .ended
  | suspended => exact .suspended

/-- Hash data, then one of four things. -/
theorem Session.Coherent.advance_closing {events : List Event} {limit : Nat}
    {returned : Buffer Event} {memory memory' : σ} (hs : s.Coherent events)
    (hrunning : s.status = .running)
    (hadvance : s.advance h limit memory = some (.ok returned, s', memory')) :
    ∃ hashes last, returned.items = hashes ++ last ∧ (∀ e ∈ hashes, e.isHash) ∧
      Closing h s last s'.status := by
  obtain ⟨pool, -, hadvances⟩ :=
    Session.advance_advances hs.eventPool hs.choicePool hrunning hadvance
  generalize hreply : Except.map Buffer.items (.ok returned) = reply at hadvances
  cases hadvances with
  | @ok t _ hashes last hturns hwait =>
    have hitems : returned.items = hashes ++ last := Except.ok.inj hreply
    obtain ⟨hhashes, hstatus, hscript, hsections⟩ := hturns.isHash
    have hclosing := hwait.closing (hstatus.trans hrunning)
    exact ⟨hashes, last, hitems, hhashes, hclosing.congr hscript hsections⟩
  | error _ _ _ => cases hreply

end

/-! ## The end -/

section

variable {σ : Type} {h : Host σ} {s s' : Session}

/-- No directive announces the end of the script. -/
theorem Directed.ended_notMem {S : Script} {eval : Nat → Eval σ Value} {ds : List Nat}
    {events : List Event} (hds : Directed S eval ds events) : .ended ∉ events := by
  induction hds with
  | nil => simp
  | silent _ _ _ _ _ ih => exact ih
  | _ => simpa

/-- Nothing follows the end in what an advance ends with. -/
theorem Closing.of_ended {last xs ys : List Event} {status : Status}
    (hclosing : Closing h s last status) (hlast : last = xs ++ .ended :: ys) :
    ys = [] ∧ status = .ended := by
  have hmem : .ended ∈ last := by simp [hlast]
  cases hclosing with
  | line _ hline =>
    cases hline with
    | intro _ hds =>
      rcases List.mem_cons.mp hmem with heq | hmem
      · cases heq
      · exact absurd hmem hds.ended_notMem
  | choice choices => simp at hmem
  | ended =>
    cases xs with
    | nil => exact ⟨(List.cons.inj hlast).2.symm, rfl⟩
    | cons x xs => simp at hlast
  | suspended => cases hmem

/-- If the end stands somewhere in an answer it does so behind the hash data. -/
theorem append_eq_ended {hashes last xs ys : List Event} (hhashes : ∀ e ∈ hashes, e.isHash)
    (heq : hashes ++ last = xs ++ .ended :: ys) : ∃ zs, last = zs ++ .ended :: ys := by
  rcases List.append_eq_append_iff.mp heq with ⟨zs, -, hlast⟩ | ⟨zs, hxs, hrest⟩
  · exact ⟨zs, hlast⟩
  · cases zs with
    | nil => exact ⟨[], hrest.symm⟩
    | cons z zs =>
      obtain ⟨rfl, -⟩ := List.cons.inj hrest
      have hash := hhashes .ended (by simp [hxs])
      cases hash

/-- A session that returns the end is at its end, and returns nothing behind it. -/
theorem Session.Does.of_ended_returned {events : List Event} {d : Deed} {xs ys : List Event}
    (hs : s.Coherent events) (hdoes : s.Does d s') (hd : d.events = xs ++ .ended :: ys) :
    ys = [] ∧ s'.status = .ended := by
  cases hdoes with
  | @advance σ h limit memory memory' reply _ hadvance =>
    by_cases hrunning : s.status = .running
    · cases reply with
      | ok returned =>
        obtain ⟨hashes, last, hitems, hhashes, hclosing⟩ := hs.advance_closing hrunning hadvance
        have hsplit : hashes ++ last = xs ++ .ended :: ys := hitems.symm.trans hd
        obtain ⟨zs, hlast⟩ := append_eq_ended hhashes hsplit
        exact hclosing.of_ended hlast
      | error e => simp [Deed.events, Except.map] at hd
    · rw [Session.advance, Session.advanceWith, if_neg hrunning] at hadvance
      cases hadvance
      simp [Deed.events, Except.map] at hd
  | recycle used => simp at hd
  | _ => simp at hd

/-- Deeds among which there is no start return the end at most at their very end. -/
theorem History.sealed {S : Script} {past : List Deed} (hpast : History S past s)
    {before since : List Deed} (heq : past = before ++ since)
    (hsince : ∀ d ∈ since, d.isStart = false) {xs ys : List Event}
    (hended : delivered since = xs ++ .ended :: ys) : ys = [] ∧ s.status = .ended := by
  -- the last deed of the history is the last one of `since`
  induction hpast generalizing since ys with
  | new _ =>
    obtain ⟨-, rfl⟩ := List.append_eq_nil_iff.mp heq.symm
    simp [delivered] at hended
  | @snoc past s s' d hpast hdoes ih =>
    rcases List.eq_nil_or_concat since with rfl | ⟨since, d', rfl⟩
    · simp [delivered] at hended
    rw [List.concat_eq_append, ← List.append_assoc] at heq
    obtain ⟨hpasts, hd⟩ := List.append_inj' heq rfl
    obtain rfl : d = d' := by simpa using hd
    have hstart : d.isStart = false := hsince d (by simp)
    rw [List.concat_eq_append, delivered_concat] at hended
    rcases List.append_eq_append_iff.mp hended with ⟨zs, -, hd⟩ | ⟨zs, hsince', hrest⟩
    · exact Session.Does.of_ended_returned hpast.coherent hdoes hd
    · cases zs with
      | nil =>
        have hd : d.events = [] ++ .ended :: ys := hrest.symm
        exact Session.Does.of_ended_returned hpast.coherent hdoes hd
      | cons z zs =>
        -- the end was returned before, so the last deed returned nothing
        obtain ⟨rfl, rfl⟩ := List.cons.inj hrest
        obtain ⟨rfl, hstatus⟩ := ih hpasts (fun d hd => hsince d (by simp [hd])) hsince'
        rcases hdoes.of_ended hstatus with ⟨hstays, hnothing⟩ | ⟨-, hstarts⟩
        · exact ⟨by simp [hnothing], hstays⟩
        · simp [hstart] at hstarts

end

/-- An advance of a running session that can be reached returns hash data and then a line with what its
directives announce, a choice, the end, or nothing, as the state afterwards says.  Between two starts the
end is returned at most once, and no event is returned behind it. -/
theorem advance_grammar {S : Script} {past : List Deed} {s : Session} (hpast : History S past s) :
    (∀ {σ : Type} (h : Host σ) limit memory events s' memory', s.status = .running →
      s.advance h limit memory = some (.ok events, s', memory') →
      ∃ hashes last, events.items = hashes ++ last ∧ (∀ e ∈ hashes, e.isHash) ∧
        Closing h s last s'.status) ∧
    ∀ before since, past = before ++ since → (∀ d ∈ since, d.isStart = false) →
      (delivered since).count .ended ≤ 1 ∧
        ∀ xs ys, delivered since = xs ++ .ended :: ys → ys = [] := by
  constructor
  · intro σ h limit memory events s' memory' hrunning hadvance
    exact hpast.coherent.advance_closing hrunning hadvance
  · intro before since heq hsince
    have hlast : ∀ xs ys, delivered since = xs ++ .ended :: ys → ys = [] :=
      fun xs ys hended => (hpast.sealed heq hsince hended).1
    refine ⟨?_, hlast⟩
    by_cases hmem : .ended ∈ delivered since
    · -- the first end that is returned is the last event
      obtain ⟨xs, ys, hsplit, hfirst⟩ := List.eq_append_cons_of_mem hmem
      obtain rfl := hlast xs ys hsplit
      have hcount : (delivered since).count .ended = 1 := by
        rw [hsplit, List.count_append, List.count_eq_zero.mpr hfirst, List.count_singleton_self]
      exact Nat.le_of_eq hcount
    · rw [List.count_eq_zero.mpr hmem]
      exact Nat.zero_le 1

/-- The choice in the treasury is made, and the script ends: once, whatever is tried afterwards. -/
theorem grammar_at_end : ∃ past s, History treasuryScript past s ∧
    .ended ∈ delivered (past.drop 1) ∧ (delivered (past.drop 1)).count .ended ≤ 1 := by
  obtain ⟨past, s, hpast, hp⟩ := History.exists_of_run TableHost.host treasurer
    (treasuryMoves ++ [.select 0, .advance 9, .advance 9, .select 0])
    (fun past _ => (past.drop 1).all (!·.isStart) && (delivered (past.drop 1)).contains .ended)
    (S := treasuryScript) (by decide +kernel)
  obtain ⟨hsince, hended⟩ : (∀ d ∈ past.drop 1, d.isStart = false) ∧
      .ended ∈ delivered (past.drop 1) := by simpa using hp
  have hsplit : past = past.take 1 ++ past.drop 1 := (List.take_append_drop 1 past).symm
  exact ⟨past, s, hpast, hended, ((advance_grammar hpast).2 _ _ hsplit hsince).1⟩

end Colloquy
