import Colloquy.Proofs.Session.Resume

/-!
# Waiting for results changes nothing

A playthrough against a host that answers awaited calls at once, and one against a host that answers the
same calls later, are the same playthrough (`await_transparent`).  `Host.deferring` makes a host of the
second kind of one of the first, so there are always such pairs.
-/

namespace Colloquy

open Code

/-! ## Hosts -/

namespace Host

variable {σ τ : Type}

/-- The host that answers like another one and keeps a list of all requests that are not just reads. -/
def watched (h : Host σ) : Host (σ × List Request) :=
  { h.recorded with
    get := fun name (memory, log) =>
      let (value, memory) := h.get name memory
      (value, memory, log) }

/-- A request that is noted is answered as before, with one line more in the log. -/
theorem noting_eq {α : Type} {r : Request} {p : StateM σ α} {m m' : σ} {log log' : List Request}
    {a : α} : noting r p (m, log) = (a, m', log') ↔ p m = (a, m') ∧ log' = log ++ [r] := by
  constructor
  · intro hnoting
    cases hnoting
    exact ⟨rfl, rfl⟩
  · rintro ⟨hp, rfl⟩
    rw [noting, hp]

end Host

/-- Hosts that are watched make the same requests. -/
theorem Defers.watched {σ τ : Type} {h : Host σ} {g : Host τ} {R : σ → τ → Prop}
    {due : τ → Option Value} (D : Defers h g R due) :
    Defers h.watched g.watched (fun x y => R x.1 y.1 ∧ x.2 = y.2) (fun y => due y.1) where
  get_left x m := Prod.ext (D.get_left x m.1) rfl
  get := by
    rintro ⟨m, log⟩ ⟨n, _⟩ x ⟨hR, rfl⟩
    show ((g.get x n).1, (g.get x n).2, log) = (h.variables m x, n, log)
    rw [D.get x hR]
  set := by
    rintro ⟨m, log⟩ ⟨m', log'⟩ ⟨n, _⟩ x v ⟨hR, rfl⟩ hset
    obtain ⟨hleft, rfl⟩ := Host.noting_eq.mp hset
    obtain ⟨n', hn, hR'⟩ := D.set hR hleft
    exact ⟨(n', _), Host.noting_eq.mpr ⟨hn, rfl⟩, hR', rfl⟩
  call := by
    rintro ⟨m, log⟩ ⟨m', log'⟩ ⟨n, _⟩ f args v ⟨hR, rfl⟩ hcall
    obtain ⟨hleft, rfl⟩ := Host.noting_eq.mp hcall
    obtain ⟨n', hn, hR'⟩ := D.call hR hleft
    exact ⟨(n', _), Host.noting_eq.mpr ⟨hn, rfl⟩, hR', rfl⟩
  ready := by
    rintro ⟨m, log⟩ ⟨m', log'⟩ ⟨n, _⟩ f args v ⟨hR, rfl⟩ hawait
    obtain ⟨hleft, rfl⟩ := Host.noting_eq.mp hawait
    obtain ⟨n', hn, hR', hdue⟩ := D.ready hR hleft
    exact ⟨(n', _), Host.noting_eq.mpr ⟨hn, rfl⟩, ⟨hR', rfl⟩, hdue⟩
  pending := by
    rintro ⟨m, log⟩ ⟨m', log'⟩ ⟨n, _⟩ f args ⟨hR, rfl⟩ hawait
    obtain ⟨hleft, rfl⟩ := Host.noting_eq.mp hawait
    obtain ⟨n', hn, hR', hdue⟩ := D.pending hR hleft
    exact ⟨(n', _), Host.noting_eq.mpr ⟨hn, rfl⟩, ⟨hR', rfl⟩, hdue⟩
  nameOf := by
    rintro ⟨m, log⟩ ⟨m', log'⟩ ⟨n, _⟩ v name ⟨hR, rfl⟩ hname
    obtain ⟨hleft, rfl⟩ := Host.noting_eq.mp hname
    obtain ⟨n', hn, hR'⟩ := D.nameOf hR hleft
    exact ⟨(n', _), Host.noting_eq.mpr ⟨hn, rfl⟩, hR', rfl⟩
  call_variables f args m := D.call_variables f args m.1
  await_variables f args m := D.await_variables f args m.1

/-- A new session has no results that could be delivered, and no buffers to use again. -/
theorem Session.ofScript_cases {S : Script} {s : Session} (hnew : Session.ofScript S = .ok s) :
    s.script = S ∧ s.status = .idle ∧ s.eventPool.free = [] := by
  rw [Session.ofScript] at hnew
  split at hnew
  · cases hnew
    exact ⟨rfl, rfl, rfl⟩
  · cases hnew

/-- The script of a compiled source is made of quiet statements that lead to each other, and a new
session stands among them. -/
theorem compile_between (r : Registry) (o : CompileOptions) (implicit : Option String)
    (source : String) (h : (compile r o (parse implicit source).1).script.Addressable) :
    ∃ K, (compile r o (parse implicit source).1).script.Closed K ∧
      (compile r o (parse implicit source).1).script.QuietAt K ∧
      ∀ s, Session.ofScript (compile r o (parse implicit source).1).script = .ok s →
        s.Between (compile r o (parse implicit source).1).script K := by
  have hquiet := compile_quiet r o implicit source h
  obtain ⟨A, labels, hA⟩ := exists_compiled_of_any r o (parse implicit source).1 h
  obtain ⟨xs, hwalk, hsound⟩ := hA.wellFormed
  generalize (compile r o (parse implicit source).1).script = S at hquiet hwalk hsound ⊢
  refine ⟨fun n => ∃ q ∈ xs, q.1 = n, hwalk.closed hsound, ?_, ?_⟩
  · rintro _ ⟨p, hp, rfl⟩ node stop hdecode
    obtain ⟨t, hp'⟩ := hwalk.decodes hp
    rw [hp'] at hdecode
    cases hdecode
    exact hquiet xs hwalk p hp
  · intro s hnew
    have hhistory := History.new hnew
    exact ⟨hhistory.placed hwalk hsound, ⟨_, hhistory.coherent⟩, (Session.ofScript_cases hnew).2.2⟩

/-- Whether a host answers awaited calls at once or later, the playthrough of a compiled source is the
same, as long as it has no faults, calls change no variables, and what was put off is delivered: an
advance returns the same events, part by part, the session is the same one after every move but for the
buffers it keeps, with its options on offer, and the host gets the same calls and assignments in the same
order.  Between two moves any number of results may have been put off. -/
theorem await_transparent (r : Registry) (o : CompileOptions) (implicit : Option String)
    (source : String) (haddressable : (compileText r o implicit source).script.Addressable)
    {s s' : Session} (hnew : Session.ofScript (compileText r o implicit source).script = .ok s)
    {σ τ : Type} {h : Host σ} {g : Host τ} {R : σ → τ → Prop} {due : τ → Option Value}
    (D : Defers h g R due) {m m' : σ} {n : τ} (hR : R m n) (moves : List Move) {replies : List Reply}
    {log : List Request} (hrun : s.run h.watched (m, []) moves = some (replies, s', m', log))
    (hfaultless : s.faultless h.watched (m, []) moves = true) :
    ∃ n' t', R m' n' ∧ t'.bare = s'.bare ∧ ∀ replies' t y,
      Session.Resumed g.watched (fun x => due x.1) moves s (n, []) replies' t y ↔
        replies' = replies ∧ t = t' ∧ y = (n', log) := by
  rw [compileText_script] at haddressable hnew
  obtain ⟨K, hK, hquiet, hbetween⟩ := compile_between r o implicit source haddressable
  have hidle := (Session.ofScript_cases hnew).2.1
  have hs := hbetween s hnew
  have htwins : s.Twins s := .refl (.of_free_eq_nil hs.eventPool) hs.placed.choicePool
  obtain ⟨⟨n', log'⟩, t', ⟨hR', hlog⟩, hend, hresumed⟩ := Session.Between.run_resumed D.watched hK hquiet
    htwins hs (n := (n, [])) ⟨hR, rfl⟩ (by simp [hidle]) hrun hfaultless
  cases hlog
  refine ⟨n', t', hR', hend.bare.symm, fun replies' t y => ⟨hresumed.unique, ?_⟩⟩
  rintro ⟨rfl, rfl, rfl⟩
  exact hresumed

/-- The host that answers like another one, but puts all results of awaited calls off.  The one that is
due is kept beside what the other host remembers. -/
def Host.deferring {σ : Type} (h : Host σ) : Host (σ × Option Value) where
  get name := fun (memory, due) => ((h.get name memory).1, (h.get name memory).2, due)
  set name value := fun (memory, due) => ((h.set name value memory).1, (h.set name value memory).2, due)
  call name args := fun (memory, due) => ((h.call name args memory).1, (h.call name args memory).2, due)
  await name args := fun (memory, due) =>
    match h.await name args memory with
    | (.ok (.ready v), memory) => (.ok .pending, memory, some v)
    | (.ok .pending, memory) => (.ok .pending, memory, none)
    | (.error e, memory) => (.error e, memory, due)
  nameOf speaker := fun (memory, due) =>
    ((h.nameOf speaker memory).1, (h.nameOf speaker memory).2, due)

/-- A host whose calls change no variables can put its results off. -/
theorem Host.deferring_defers {σ : Type} {h : Host σ} (hget : ∀ x m, (h.get x m).2 = m)
    (hcall : ∀ f args m, h.variables (h.call f args m).2 = h.variables m)
    (hawait : ∀ f args m, h.variables (h.await f args m).2 = h.variables m) :
    Defers h h.deferring (fun m n => n.1 = m) Prod.snd where
  get_left := hget
  get := by
    rintro m ⟨_, due⟩ x rfl
    exact Prod.ext rfl (Prod.ext (hget x _) rfl)
  set := by
    rintro m m' ⟨_, due⟩ x v rfl hset
    exact ⟨(m', due), by simp [deferring, hset], rfl⟩
  call := by
    rintro m m' ⟨_, due⟩ f args v rfl hcall
    exact ⟨(m', due), by simp [deferring, hcall], rfl⟩
  ready := by
    rintro m m' ⟨_, due⟩ f args v rfl hawait
    exact ⟨(m', some v), by simp [deferring, hawait], rfl, rfl⟩
  pending := by
    rintro m m' ⟨_, due⟩ f args rfl hawait
    exact ⟨(m', none), by simp [deferring, hawait], rfl, rfl⟩
  nameOf := by
    rintro m m' ⟨_, due⟩ v name rfl hname
    exact ⟨(m', due), by simp [deferring, hname], rfl⟩
  call_variables := hcall
  await_variables := hawait

/-- Deferring every awaited call of a table host defers its calls. -/
theorem TableHost.host_defers :
    Defers TableHost.host TableHost.host.deferring (fun m n => n.1 = m) Prod.snd := by
  refine Host.deferring_defers (fun x m => rfl) (fun f args m => ?_) fun f args m => ?_
  · show Host.variables TableHost.host (TableHost.call f args m).2 = _
    rw [TableHost.call]
    split
    · rfl
    · split <;> rfl
  · show Host.variables TableHost.host (TableHost.await f args m).2 = _
    rw [TableHost.await]
    split
    · rfl
    · split <;> rfl

/-- Gold is fetched twice for one sum and once in a line, and decides on a choice. -/
def mint : String :=
  "=== main\n~ gold = await fetch(\"coins\") + await fetch(\"bars\") + gold\nAnn: \x7bawait fetch(\"rings\")\x7d more than \x7bgold\x7d.\nchoice \x7b\n* [await fetch(\"gems\") > 1] Take it\n* Leave\n\x7d\n"

/-- A host that pays at once, and the first time more than later. -/
def minter : TableHost :=
  (TableHost.empty.withVariable "gold" (.float 1)).withAwaitable
    ⟨"fetch", .float, [⟨.string, none⟩], true⟩
    fun calls _ => .ok (.ready (.float (if calls.isEmpty then 20 else 3)))

/-- Up to the choice and through it. -/
def mintMoves : List Move := [.start "main", .advance 9, .advance 9, .select 0]

/-- In the mint four results are put off, two of them in one statement, and the host gets four calls and
an assignment. -/
theorem transparent_in_mint :
    ∃ s, Session.ofScript (compileText minter.registry {} none mint).script = .ok s ∧
      ∃ replies s' m log,
        s.run TableHost.host.watched (minter, []) mintMoves = some (replies, s', m, log) ∧
        log.length = 5 ∧ s'.status = .running ∧
        ∃ n t, t.bare = s'.bare ∧ Session.Resumed TableHost.host.deferring.watched (fun x => x.1.2)
          mintMoves s ((minter, none), []) replies t (n, log) := by
  have hrun : ((Session.ofScript (compileText minter.registry {} none mint).script).toOption.bind
      fun s => (s.run TableHost.host.watched (minter, []) mintMoves).map fun r =>
        decide s.script.Addressable && s.faultless TableHost.host.watched (minter, []) mintMoves &&
          r.2.2.2.length == 5 && r.2.1.status == .running) = some true := by decide +kernel
  obtain ⟨s, hnew, hrun⟩ := Option.bind_eq_some_iff.mp hrun
  obtain ⟨⟨replies, s', m, log⟩, hrun, hall⟩ := Option.map_eq_some_iff.mp hrun
  simp only [Bool.and_eq_true, beq_iff_eq, decide_eq_true_eq] at hall
  obtain ⟨⟨⟨haddressable, hfaultless⟩, hlog⟩, hstatus⟩ := hall
  have hnew := ok_of_toOption hnew
  rw [(Session.ofScript_cases hnew).1] at haddressable
  obtain ⟨n, t, -, hbare, hresumed⟩ := await_transparent minter.registry {} none mint haddressable hnew
    TableHost.host_defers (n := (minter, none)) rfl mintMoves hrun hfaultless
  exact ⟨s, hnew, replies, s', m, log, hrun, hlog, hstatus, n, t, hbare,
    (hresumed _ _ _).mpr ⟨rfl, rfl, rfl⟩⟩

end Colloquy
