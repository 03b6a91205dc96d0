import Colloquy.Proofs.Code.Beyond
import Colloquy.Proofs.Readback.Still
import Colloquy.Proofs.Session.Pairing
import Colloquy.Proofs.Session.Turn

/-!
# Evaluations that are cut and run again

A host answers awaited calls at once, another one answers the same calls later (`Defers`).  Against the
second host an evaluation is cut at every such call, and is run again from its start with one more result
in the memo.

Two things make the second evaluation come to the same as the first.  What was evaluated before a cut is
`Replays.stable`: run again with the results in the memo and the variables unchanged, it has the same
value and asks the host for nothing.  And where the second evaluation is cut, the first one can be run
from there as well and ends as it did from its start (`Cut`).  So the two evaluations go on side by side
from cut to cut (`Tracks.statementAt`).
-/

namespace Colloquy

open Code

/-! ## Hosts -/

/-- What the variables of a host hold. -/
def Host.variables {σ : Type} (h : Host σ) (memory : σ) (name : String) : Option Value :=
  (h.get name memory).1

/-- A host answers like another one, except that it puts off what the other answers at once to an awaited
call.  `R` says that the two remember the same, and `due` what the second one still has to deliver.
Calls change no variables.  What the first host refuses is left open. -/
structure Defers {σ τ : Type} (h : Host σ) (g : Host τ) (R : σ → τ → Prop) (due : τ → Option Value) :
    Prop where
  /-- Reading a variable changes nothing. -/
  get_left (x : String) (m : σ) : (h.get x m).2 = m
  get {m : σ} {n : τ} (x : String) : R m n → g.get x n = (h.variables m x, n)
  set {m m' : σ} {n : τ} {x : String} {v : Value} : R m n → h.set x v m = (.ok (), m') →
    ∃ n', g.set x v n = (.ok (), n') ∧ R m' n'
  call {m m' : σ} {n : τ} {f : String} {args : List Value} {v : Value} : R m n →
    h.call f args m = (.ok v, m') → ∃ n', g.call f args n = (.ok v, n') ∧ R m' n'
  ready {m m' : σ} {n : τ} {f : String} {args : List Value} {v : Value} : R m n →
    h.await f args m = (.ok (.ready v), m') →
    ∃ n', g.await f args n = (.ok .pending, n') ∧ R m' n' ∧ due n' = some v
  pending {m m' : σ} {n : τ} {f : String} {args : List Value} : R m n →
    h.await f args m = (.ok .pending, m') →
    ∃ n', g.await f args n = (.ok .pending, n') ∧ R m' n' ∧ due n' = none
  nameOf {m m' : σ} {n : τ} {v : Value} {name : String} : R m n → h.nameOf v m = (.ok name, m') →
    ∃ n', g.nameOf v n = (.ok name, n') ∧ R m' n'
  call_variables (f : String) (args : List Value) (m : σ) :
    h.variables (h.call f args m).2 = h.variables m
  await_variables (f : String) (args : List Value) (m : σ) :
    h.variables (h.await f args m).2 = h.variables m

/-! ## Memos -/

/-- A memo keeps its results and gets further ones, for offsets from `lo` on. -/
structure Memo.Grows (lo : Nat) (memo memo' : Memo) : Prop where
  keeps : ∀ o v, memo.find? o = some v → memo'.find? o = some v
  below : ∀ o < lo, memo'.find? o = memo.find? o

namespace Memo.Grows

variable {lo lo' : Nat} {memo memo' memo'' : Memo}

theorem refl (lo : Nat) (memo : Memo) : memo.Grows lo memo := ⟨fun _ _ h => h, fun _ _ => rfl⟩

theorem trans (h : memo.Grows lo memo') (h' : memo'.Grows lo memo'') : memo.Grows lo memo'' where
  keeps o v hfind := h'.keeps o v (h.keeps o v hfind)
  below o ho := (h'.below o ho).trans (h.below o ho)

theorem mono (h : memo.Grows lo memo') (hle : lo' ≤ lo) : memo.Grows lo' memo' where
  keeps := h.keeps
  below o ho := h.below o (Nat.lt_of_lt_of_le ho hle)

/-- A memo grows by a result at an offset where it had none. -/
theorem insert {o : Nat} (hfind : memo.find? o = none) (hlo : lo ≤ o) (v : Value) :
    memo.Grows lo (memo.insert o v) where
  keeps o' w hw := by
    rw [Memo.find?_insert, if_neg, hw]
    rintro rfl
    rw [hfind] at hw
    cases hw
  below o' ho' := by rw [Memo.find?_insert, if_neg (by omega)]

end Memo.Grows

/-! ## Evaluations side by side -/

section

variable {σ τ α β : Type} (h : Host σ) (g : Host τ) (R : σ → τ → Prop) (due : τ → Option Value)

/-- Two evaluations ended alike, or the first one with a fault.  A call that is pending in both has no
result due. -/
inductive Alike.Ends : EStateM.Result Interrupt (Stage σ) α → EStateM.Result Interrupt (Stage τ) α →
    Prop where
  | ok {a : α} {memo : Memo} {m : σ} {n : τ} : R m n → Ends (.ok a ⟨memo, m⟩) (.ok a ⟨memo, n⟩)
  | pending {o : Nat} {f : String} {memo : Memo} {m : σ} {n : τ} : R m n → due n = none →
      Ends (.error (.pending o f) ⟨memo, m⟩) (.error (.pending o f) ⟨memo, n⟩)
  | fault {e : SessionError} {ending : Bool} {x : Stage σ} {y : EStateM.Result Interrupt (Stage τ) α} :
      Ends (.error (.fault e ending) x) y

/-- Two evaluations end alike wherever they start. -/
def Alike (p : Eval σ α) (q : Eval τ α) : Prop :=
  ∀ memo m n, R m n → Alike.Ends R due (p ⟨memo, m⟩) (q ⟨memo, n⟩)

variable (size lo : Nat)

/-- The second evaluation is cut at a call whose result is due.  With the result in the memo the first
one, run from there, ends as it does from its start. -/
inductive Cut (p : Eval σ α) (q : Eval τ α) (memo : Memo) (m : σ) (n : τ) : Prop where
  | intro {o : Nat} {f : String} {memo' : Memo} {m' : σ} {n' : τ} {v : Value} :
      q ⟨memo, n⟩ = .error (.pending o f) ⟨memo', n'⟩ → due n' = some v → R m' n' →
      h.variables m' = h.variables m → memo.Grows lo memo' → memo'.find? o = none → lo ≤ o →
      o < size → p ⟨memo, m⟩ = p ⟨memo'.insert o v, m'⟩ → Cut p q memo m n

/-- Two evaluations end alike, or the second one is cut. -/
def Tracks (p : Eval σ α) (q : Eval τ α) : Prop :=
  ∀ memo m n, R m n →
    Alike.Ends R due (p ⟨memo, m⟩) (q ⟨memo, n⟩) ∨ Cut h R due size lo p q memo m n

/-- Besides, the first evaluation can be run again behind its end: it has the same value, and changes
nothing. -/
structure Replays (p : Eval σ α) (q : Eval τ α) : Prop where
  tracks : Tracks h R due size lo p q
  stable {memo memo' : Memo} {m m' : σ} {a : α} : p ⟨memo, m⟩ = .ok a ⟨memo', m'⟩ →
    h.variables m' = h.variables m ∧ memo.Grows lo memo' ∧
      ∀ memo'' m'', memo'.Grows 0 memo'' → h.variables m'' = h.variables m' →
        p ⟨memo'', m''⟩ = .ok a ⟨memo'', m''⟩

end

section

variable {σ τ α β : Type} {h : Host σ} {g : Host τ} {R : σ → τ → Prop} {due : τ → Option Value}
  {size lo : Nat} {p : Eval σ α} {q : Eval τ α} {f : α → Eval σ β} {k : α → Eval τ β}

/-! ### Evaluations that are not cut -/

/-- A request that has a value had it from the host, and leaves the memo as it is. -/
theorem Eval.askFor_eq_ok {m : StateM σ (Except HostError α)} {name : String} {memo memo' : Memo}
    {x x' : σ} {a : α} (heval : Eval.askFor name m ⟨memo, x⟩ = .ok a ⟨memo', x'⟩) :
    m x = (.ok a, x') ∧ memo' = memo := by
  cases hm : m x with
  | mk answer y =>
    cases answer with
    | error e =>
      rw [Eval.askFor_of_error hm] at heval
      cases heval
    | ok b =>
      rw [Eval.askFor_of_ok hm] at heval
      cases heval
      exact ⟨rfl, rfl⟩

namespace Alike

theorem pure (a : α) : Alike R due (Pure.pure a) (Pure.pure a) := fun _ _ _ hR => .ok hR

theorem fail (e : SessionError) (ending : Bool) :
    Alike (α := α) R due (Eval.fail e ending) (Eval.fail e ending) :=
  fun _ _ _ _ => .fault

/-- Evaluations one after another end alike if both pairs do. -/
theorem Ends.bind {x : Stage σ} {y : Stage τ} (hp : Ends R due (p x) (q y))
    (hf : ∀ a memo m n, R m n → Ends R due (f a ⟨memo, m⟩) (k a ⟨memo, n⟩)) :
    Ends R due ((p >>= f) x) ((q >>= k) y) := by
  generalize hx : p x = u at hp
  generalize hy : q y = v at hp
  cases hp with
  | ok hR =>
    rw [Eval.bind_of_ok hx, Eval.bind_of_ok hy]
    exact hf _ _ _ _ hR
  | pending hR hdue =>
    rw [Eval.bind_of_error hx, Eval.bind_of_error hy]
    exact .pending hR hdue
  | fault =>
    rw [Eval.bind_of_error hx]
    exact .fault

theorem bind (hp : Alike R due p q) (hf : ∀ a, Alike R due (f a) (k a)) :
    Alike R due (p >>= f) (q >>= k) :=
  fun memo m n hR => (hp memo m n hR).bind hf

/-- A request that the second host grants if the first one does. -/
theorem askFor {name : String} {p : StateM σ (Except HostError α)}
    {q : StateM τ (Except HostError α)}
    (hask : ∀ m n a m', R m n → p m = (.ok a, m') → ∃ n', q n = (.ok a, n') ∧ R m' n') :
    Alike R due (Eval.askFor name p) (Eval.askFor name q) := by
  intro memo m n hR
  cases hanswer : p m with
  | mk answer m' =>
    cases answer with
    | error e =>
      rw [Eval.askFor_of_error hanswer]
      exact .fault
    | ok a =>
      obtain ⟨n', hq, hR'⟩ := hask m n a m' hR hanswer
      rw [Eval.askFor_of_ok hanswer, Eval.askFor_of_ok hq]
      exact .ok hR'

theorem remember (o : Nat) (v : Value) :
    Alike R due (Eval.remember o v : Eval σ Unit) (Eval.remember o v) := fun _ _ _ hR => .ok hR

end Alike

/-- Reading a variable leaves the host as it is. -/
theorem Defers.ask_get_left (D : Defers h g R due) (x : String) (memo : Memo) (m : σ) :
    Eval.ask (h.get x) ⟨memo, m⟩ = .ok (h.variables m x) ⟨memo, m⟩ := by
  show EStateM.Result.ok (h.get x m).1 (Stage.mk memo (h.get x m).2) = _
  rw [D.get_left]
  rfl

theorem Defers.ask_get (D : Defers h g R due) (x : String) (memo : Memo) {m : σ} {n : τ}
    (hR : R m n) : Eval.ask (g.get x) ⟨memo, n⟩ = .ok (h.variables m x) ⟨memo, n⟩ := by
  show EStateM.Result.ok (g.get x n).1 (Stage.mk memo (g.get x n).2) = _
  rw [D.get x hR]

/-- Ending alike is a relation between evaluations as it is asked for. -/
theorem Alike.pairing (D : Defers h g R due) : Pairing (Alike R due) h g where
  pure := Alike.pure
  fail e ending _ := Alike.fail e ending
  bind := Alike.bind
  get x memo m n hR := by
    rw [D.ask_get_left, D.ask_get x memo hR]
    exact .ok hR

/-! ### Evaluations that may be cut -/

theorem Alike.tracks (hp : Alike R due p q) : Tracks h R due size lo p q :=
  fun memo m n hR => .inl (hp memo m n hR)

namespace Cut

variable {o lo' : Nat} {memo : Memo} {m : σ} {n : τ} {p' : Eval σ α} {q' : Eval τ α}

/-- A cut goes through to all that follows. -/
theorem bind (hcut : Cut h R due size lo p q memo m n) :
    Cut h R due size lo (p >>= f) (q >>= k) memo m n := by
  cases hcut with
  | intro hq hdue hR hvars hgrows hfind hlo hsize hsame =>
    exact .intro (Eval.bind_of_error hq) hdue hR hvars hgrows hfind hlo hsize
      (Eval.bind_congr_left hsame)

/-- A cut above an offset is one above a lower offset. -/
theorem mono (hcut : Cut h R due size lo p q memo m n) (hle : lo' ≤ lo) :
    Cut h R due size lo' p q memo m n := by
  cases hcut with
  | intro hq hdue hR hvars hgrows hfind hlo hsize hsame =>
    exact .intro hq hdue hR hvars (hgrows.mono hle) hfind (Nat.le_trans hle hlo) hsize hsame

/-- A node without a result is cut where its operands are: they lie beyond it, so it has none after the
cut either. -/
theorem of_beyond (hcut : Cut h R due size (o + 1) p q memo m n) (hfind : memo.find? o = none)
    (hp : ∀ memo m, memo.find? o = none → p' ⟨memo, m⟩ = p ⟨memo, m⟩)
    (hq : q' ⟨memo, n⟩ = q ⟨memo, n⟩) : Cut h R due size (o + 1) p' q' memo m n := by
  cases hcut with
  | @intro o' _ memo' m' _ v hcut hdue hR hvars hgrows hmissing hlo hsize hsame =>
    have hfind' : (memo'.insert o' v).find? o = none := by
      rw [Memo.find?_insert, if_neg (by omega), hgrows.below o (Nat.lt_succ_self o), hfind]
    refine .intro (hq.trans hcut) hdue hR hvars hgrows hmissing hlo hsize ?_
    rw [hp memo m hfind, hsame, hp _ m' hfind']

end Cut

namespace Tracks

theorem mono {lo' : Nat} (hp : Tracks h R due size lo p q) (hle : lo' ≤ lo) :
    Tracks h R due size lo' p q :=
  fun memo m n hR => (hp memo m n hR).imp_right fun hcut => hcut.mono hle

/-- What follows may not be cut, if it is not run again. -/
theorem bind (hp : Tracks h R due size lo p q) (hf : ∀ a, Alike R due (f a) (k a)) :
    Tracks h R due size lo (p >>= f) (q >>= k) :=
  fun memo m n hR => (hp memo m n hR).imp (fun hends => hends.bind hf) fun hcut => hcut.bind

end Tracks

/-- What follows an evaluation that can be run again may be cut. -/
theorem Replays.bind_tracks (hp : Replays h R due size lo p q)
    (hf : ∀ a, Tracks h R due size lo (f a) (k a)) :
    Tracks h R due size lo (p >>= f) (q >>= k) := by
  intro memo m n hR
  rcases hp.tracks memo m n hR with hends | hcut
  · generalize hpa : p ⟨memo, m⟩ = x at hends
    generalize hqa : q ⟨memo, n⟩ = y at hends
    cases hends with
    | pending hR' hdue =>
      rw [Eval.bind_of_error hpa, Eval.bind_of_error hqa]
      exact .inl (.pending hR' hdue)
    | fault =>
      rw [Eval.bind_of_error hpa]
      exact .inl .fault
    | @ok a memo' m' n' hR' =>
      obtain ⟨hvars, hgrows, hagain⟩ := hp.stable hpa
      refine (hf a memo' m' n' hR').imp (fun hends => ?_) fun hcut => ?_
      · rwa [Eval.bind_of_ok hpa, Eval.bind_of_ok hqa]
      · cases hcut with
        | @intro o f' memo₂ m₂ n₂ v hq hdue hR₂ hvars₂ hgrows₂ hfind hlo hsize hsame =>
          refine .intro ((Eval.bind_of_ok hqa).trans hq) hdue hR₂ (hvars₂.trans hvars)
            (hgrows.trans hgrows₂) hfind hlo hsize ?_
          -- the first evaluation is run again up to the cut and changes nothing
          have hmore := (hgrows₂.mono (Nat.zero_le lo)).trans (.insert hfind (Nat.zero_le o) v)
          rw [Eval.bind_of_ok hpa, hsame, Eval.bind_of_ok (hagain _ m₂ hmore hvars₂)]
  · exact .inr hcut.bind

namespace Replays

/-- A value is replayed as itself. -/
theorem pure (a : α) : Replays h R due size lo (Pure.pure a) (Pure.pure a) where
  tracks := (Alike.pure a).tracks
  stable := by
    intro memo memo' m m' b hb
    obtain ⟨rfl, hstage⟩ := Eval.pure_eq_ok.mp hb
    cases hstage
    exact ⟨rfl, .refl _ _, fun _ _ _ _ => rfl⟩

theorem fail (e : SessionError) (ending : Bool) :
    Replays (α := α) h R due size lo (Eval.fail e ending) (Eval.fail e ending) where
  tracks := (Alike.fail e ending).tracks
  stable hok := by cases hok

/-- Evaluations one after another are replayed if both are: a cut in the second one is one behind the
first, which is stable. -/
theorem bind (hp : Replays h R due size lo p q) (hf : ∀ a, Replays h R due size lo (f a) (k a)) :
    Replays h R due size lo (p >>= f) (q >>= k) where
  tracks := hp.bind_tracks fun a => (hf a).tracks
  stable := by
    intro memo memo' m m' b hb
    obtain ⟨a, ⟨memo₁, m₁⟩, hpa, hfa⟩ := Eval.bind_eq_ok.mp hb
    obtain ⟨hvars₁, hgrows₁, hagain₁⟩ := hp.stable hpa
    obtain ⟨hvars₂, hgrows₂, hagain₂⟩ := (hf a).stable hfa
    refine ⟨hvars₂.trans hvars₁, hgrows₁.trans hgrows₂, fun memo'' m'' hgrows hvars => ?_⟩
    have hfirst := hagain₁ memo'' m'' ((hgrows₂.mono (Nat.zero_le lo)).trans hgrows)
      (hvars.trans hvars₂)
    rw [Eval.bind_of_ok hfirst]
    exact hagain₂ memo'' m'' hgrows hvars

/-- Being replayed is a relation between evaluations as it is asked for. -/
theorem pairing (D : Defers h g R due) (size lo : Nat) :
    Pairing (Replays h R due size lo) h g where
  pure := pure
  fail e ending _ := fail e ending
  bind := bind
  get x :=
    { tracks := ((Alike.pairing D).get x).tracks
      stable := by
        intro memo memo' m m' v hv
        rw [D.ask_get_left] at hv
        cases hv
        refine ⟨rfl, .refl _ _, fun memo'' m'' _ hvars => ?_⟩
        rw [D.ask_get_left, hvars] }

/-- What is replayed above an offset is replayed above a lower one. -/
theorem mono {lo' : Nat} (hp : Replays h R due size lo p q) (hle : lo' ≤ lo) :
    Replays h R due size lo' p q where
  tracks := hp.tracks.mono hle
  stable hok := by
    obtain ⟨hvars, hgrows, hagain⟩ := hp.stable hok
    exact ⟨hvars, hgrows.mono hle, hagain⟩

end Replays

/-! ## Calls and assignments -/

section

variable {eval : Nat → Eval σ Value} {eval' : Nat → Eval τ Value} {o : Nat} {memo : Memo} {m : σ}
  {n : τ}

/-- A call ends alike against both hosts, or its result is put off. -/
theorem Defers.request (D : Defers h g R due) (hR : R m n) (memo : Memo) (o : Nat) (name : String)
    (awaited : Bool) (args : List Value) :
    Alike.Ends R due (Eval.request h o name awaited args ⟨memo, m⟩)
        (Eval.request g o name awaited args ⟨memo, n⟩) ∨
      ∃ v m' n', Eval.request h o name awaited args ⟨memo, m⟩ = .ok v ⟨memo, m'⟩ ∧
        Eval.request g o name awaited args ⟨memo, n⟩ = .error (.pending o name) ⟨memo, n'⟩ ∧
        R m' n' ∧ due n' = some v := by
  cases awaited with
  | false => exact .inl (Alike.askFor (fun _ _ _ _ => D.call) memo m n hR)
  | true =>
    cases hanswer : h.await name args m with
    | mk answer m' =>
      cases answer with
      | error e =>
        have hrequest : Eval.request h o name true args ⟨memo, m⟩ = .error (.fault _ false) _ :=
          Eval.bind_of_error (Eval.askFor_of_error hanswer name memo)
        rw [hrequest]
        exact .inl .fault
      | ok answer =>
        cases answer with
        | ready v =>
          obtain ⟨n', hg, hR', hdue⟩ := D.ready hR hanswer
          exact .inr ⟨v, m', n', Eval.bind_of_ok (Eval.askFor_of_ok hanswer name memo),
            Eval.bind_of_ok (Eval.askFor_of_ok hg name memo), hR', hdue⟩
        | pending =>
          obtain ⟨n', hg, hR', hdue⟩ := D.pending hR hanswer
          have hleft : Eval.request h o name true args ⟨memo, m⟩ = .error (.pending o name) ⟨memo, m'⟩ :=
            Eval.bind_of_ok (Eval.askFor_of_ok hanswer name memo)
          have hright : Eval.request g o name true args ⟨memo, n⟩ =
              .error (.pending o name) ⟨memo, n'⟩ :=
            Eval.bind_of_ok (Eval.askFor_of_ok hg name memo)
          rw [hleft, hright]
          exact .inl (.pending hR' hdue)

/-- A call that is answered changes neither the memo nor the variables. -/
theorem Defers.request_ok (D : Defers h g R due) {name : String} {awaited : Bool} {args : List Value}
    {v : Value} {memo' : Memo} {m' : σ}
    (hrequest : Eval.request h o name awaited args ⟨memo, m⟩ = .ok v ⟨memo', m'⟩) :
    memo' = memo ∧ h.variables m' = h.variables m := by
  cases awaited with
  | false =>
    obtain ⟨hcall, rfl⟩ := Eval.askFor_eq_ok hrequest
    have hvars := D.call_variables name args m
    rw [hcall] at hvars
    exact ⟨rfl, hvars⟩
  | true =>
    obtain ⟨answer, ⟨memo₁, m₁⟩, hask, hrequest⟩ := Eval.bind_eq_ok.mp hrequest
    obtain ⟨hawait, rfl⟩ := Eval.askFor_eq_ok hask
    have hvars := D.await_variables name args m
    rw [hawait] at hvars
    cases answer with
    | ready w =>
      obtain ⟨-, hstage⟩ := Eval.pure_eq_ok.mp hrequest
      cases hstage
      exact ⟨rfl, hvars⟩
    | pending => cases hrequest

/-- A call with its result, made for the first time. -/
theorem Eval.call_eq_ok_of_missing {name : String} {awaited : Bool} {args : List Nat} {v : Value}
    {x y : Stage σ} (hfind : x.memo.find? o = none)
    (hcall : Eval.call h eval o name awaited args x = .ok v y) :
    ∃ values x₁ x₂, args.mapM eval x = .ok values x₁ ∧
      Eval.request h o name awaited values x₁ = .ok v x₂ ∧ y = ⟨x₂.memo.insert o v, x₂.memory⟩ := by
  rw [Eval.call_of_missing hfind] at hcall
  obtain ⟨values, x₁, hargs, hcall⟩ := Eval.bind_eq_ok.mp hcall
  obtain ⟨w, x₂, hrequest, hcall⟩ := Eval.bind_eq_ok.mp hcall
  cases hcall
  exact ⟨values, x₁, x₂, hargs, hrequest, rfl⟩

/-- A call whose result is in the memo is made neither in the first nor in the second evaluation; if it
is not there, the arguments lie beyond the call and leave its place free. -/
theorem Replays.call (D : Defers h g R due) (hsize : o < size) {args : List Nat}
    (hargs : Replays h R due size (o + 1) (args.mapM eval) (args.mapM eval')) (name : String)
    (awaited : Bool) :
    Replays h R due size o (Eval.call h eval o name awaited args)
      (Eval.call g eval' o name awaited args) where
  tracks memo m n hR := by
    cases hfind : memo.find? o with
    | some v =>
      rw [Eval.call_of_found (x := ⟨memo, m⟩) hfind, Eval.call_of_found (x := ⟨memo, n⟩) hfind]
      exact .inl (.ok hR)
    | none =>
      have hagain : ∀ memo m, Memo.find? memo o = none →
          Eval.call h eval o name awaited args ⟨memo, m⟩ = _ :=
        fun memo m hfind => Eval.call_of_missing (x := ⟨memo, m⟩) hfind name awaited args
      have hleft := hagain memo m hfind
      have hright : Eval.call g eval' o name awaited args ⟨memo, n⟩ = _ :=
        Eval.call_of_missing (x := ⟨memo, n⟩) hfind name awaited args
      rcases hargs.tracks memo m n hR with hends | hcut
      · generalize hpa : args.mapM eval ⟨memo, m⟩ = x at hends
        generalize hqa : args.mapM eval' ⟨memo, n⟩ = y at hends
        cases hends with
        | pending hR' hdue =>
          rw [hleft, hright, Eval.bind_of_error hpa, Eval.bind_of_error hqa]
          exact .inl (.pending hR' hdue)
        | fault =>
          rw [hleft, Eval.bind_of_error hpa]
          exact .inl .fault
        | @ok values memo₁ m₁ n₁ hR₁ =>
          obtain ⟨hvars, hgrows, -⟩ := hargs.stable hpa
          rw [Eval.bind_of_ok hpa] at hleft
          rw [Eval.bind_of_ok hqa] at hright
          rcases D.request hR₁ memo₁ o name awaited values with hends | ⟨v, m₂, n₂, hp, hq, hR₂, hdue⟩
          · rw [hleft, hright]
            exact .inl (hends.bind fun v memo m n hR => .ok hR)
          · -- the result is put off, and with it in the memo the call is not made again
            rw [Eval.bind_of_ok hp] at hleft
            rw [Eval.bind_of_error hq] at hright
            have hmissing : memo₁.find? o = none := (hgrows.below o (Nat.lt_succ_self o)).trans hfind
            have hfound : (memo₁.insert o v).find? o = some v := by rw [Memo.find?_insert, if_pos rfl]
            refine .inr (.intro hright hdue hR₂ ((D.request_ok hp).2.trans hvars)
              (hgrows.mono (Nat.le_succ o)) hmissing (Nat.le_refl o) hsize ?_)
            rw [Eval.call_of_found (x := ⟨memo₁.insert o v, m₂⟩) hfound]
            exact hleft
      · exact .inr (Cut.mono (hcut.bind.of_beyond hfind hagain hright) (Nat.le_succ o))
  stable := by
    intro memo memo' m m' v hv
    cases hfind : memo.find? o with
    | some w =>
      rw [Eval.call_of_found (x := ⟨memo, m⟩) hfind] at hv
      cases hv
      refine ⟨rfl, .refl _ _, fun memo'' m'' hgrows _ => ?_⟩
      exact Eval.call_of_found (x := ⟨memo'', m''⟩) (hgrows.keeps o v hfind) name awaited args
    | none =>
      obtain ⟨values, ⟨memo₁, m₁⟩, ⟨memo₂, m₂⟩, hpa, hrequest, hstage⟩ :=
        Eval.call_eq_ok_of_missing (x := ⟨memo, m⟩) hfind hv
      cases hstage
      obtain ⟨hvars, hgrows, -⟩ := hargs.stable hpa
      obtain ⟨rfl, hvars'⟩ := D.request_ok hrequest
      have hmissing : memo₂.find? o = none := (hgrows.below o (Nat.lt_succ_self o)).trans hfind
      have hinsert := Memo.Grows.insert hmissing (Nat.le_refl o) v
      refine ⟨hvars'.trans hvars, (hgrows.mono (Nat.le_succ o)).trans hinsert,
        fun memo'' m'' hgrows _ => ?_⟩
      have hfound : (memo₂.insert o v).find? o = some v := by rw [Memo.find?_insert, if_pos rfl]
      exact Eval.call_of_found (x := ⟨memo'', m''⟩) (hgrows.keeps o v hfound) name awaited args

/-- An assignment is cut before it is made, if at all. -/
theorem Tracks.assign (D : Defers h g R due) {S : Script} {operand : Nat}
    (hoperand : Replays h R due size (o + 1) (eval operand) (eval' operand)) (op : AssignOp)
    (name : Nat) :
    Tracks h R due size o (Eval.assign S h eval o op name operand)
      (Eval.assign S g eval' o op name operand) := by
  have P := Replays.pairing D size (o + 1)
  intro memo m n hR
  cases hfind : memo.find? o with
  | some v =>
    rw [Eval.assign_of_found (x := ⟨memo, m⟩) hfind, Eval.assign_of_found (x := ⟨memo, n⟩) hfind]
    exact .inl (.ok hR)
  | none =>
    have hset : ∀ name value, Alike R due
        (Eval.askFor name (h.set name value) >>= fun _ => Eval.remember o .void >>= fun _ =>
          Pure.pure Value.void)
        (Eval.askFor name (g.set name value) >>= fun _ => Eval.remember o .void >>= fun _ =>
          Pure.pure Value.void) := fun name value =>
      (Alike.askFor fun _ _ _ _ => D.set).bind fun _ => (Alike.remember o .void).bind fun _ => .pure _
    have hbody := (P.read (S.string name)).bind_tracks fun name =>
      (P.assigned o op name hoperand).bind_tracks fun value => (hset name value).tracks
    have hagain : ∀ memo m, Memo.find? memo o = none →
        Eval.assign S h eval o op name operand ⟨memo, m⟩ = _ :=
      fun memo m hfind => Eval.assign_of_missing (x := ⟨memo, m⟩) hfind op name operand
    have hright : Eval.assign S g eval' o op name operand ⟨memo, n⟩ = _ :=
      Eval.assign_of_missing (x := ⟨memo, n⟩) hfind op name operand
    rcases hbody memo m n hR with hends | hcut
    · rw [hagain memo m hfind, hright]
      exact .inl hends
    · exact .inr (Cut.mono (hcut.of_beyond hfind hagain hright) (Nat.le_succ o))

end

/-! ## Expressions and statements -/

section

variable {S : Script} {sections : Catalog Nat}

/-- Expressions without assignments can be run again. -/
theorem Replays.within (D : Defers h g R due) (fuel : Nat) {offset : Nat}
    (hstill : S.StillExpr offset) :
    Replays h R due S.words.size offset (Eval.within S h fuel offset)
      (Eval.within S g fuel offset) := by
  induction fuel generalizing offset with
  | zero => exact .fail _ _
  | succ fuel ih =>
    have P := Replays.pairing D S.words.size offset
    obtain ⟨hdecode, hassign, hoperands⟩ := hstill
    have hbeyond := fun o ho => (ih (hoperands o ho)).mono (Script.lt_of_mem_operands hdecode ho)
    rw [Eval.within, Eval.within, hdecode]
    refine P.node offset _ (fun o ho => (hbeyond o ho).mono (Nat.le_succ offset)) ?_ ?_
    · rintro name awaited args rfl function
      have hargs := (Replays.pairing D S.words.size (offset + 1)).mapM hbeyond
      exact .call D (Script.lt_size_of_decodeExpr hdecode) hargs function awaited
    · rintro op name value rfl
      cases hassign

theorem Replays.expr (D : Defers h g R due) {offset : Nat} (hstill : S.StillExpr offset) :
    Replays h R due S.words.size 0 (Eval.expr S h offset) (Eval.expr S g offset) :=
  (Replays.within D _ hstill).mono (Nat.zero_le offset)

/-- An instruction may be cut, also one that assigns. -/
theorem Tracks.instruction (D : Defers h g R due) {offset : Nat} (hinstructs : S.Instructs offset) :
    Tracks h R due S.words.size 0 (Eval.expr S h offset) (Eval.expr S g offset) := by
  rcases hinstructs with hstill | ⟨op, name, value, stop, hdecode, hvalue⟩
  · exact (Replays.expr D hstill).tracks
  · have hbeyond := Script.lt_of_mem_operands hdecode (List.mem_singleton_self value)
    rw [Eval.expr, Eval.expr, Eval.within, Eval.within, hdecode]
    exact (Tracks.assign D ((Replays.within D _ hvalue).mono hbeyond) op name).mono (Nat.zero_le _)

theorem Alike.nameOf (D : Defers h g R due) (v : Value) :
    Alike R due (Eval.askFor "get_name" (h.nameOf v)) (Eval.askFor "get_name" (g.nameOf v)) :=
  .askFor fun _ _ _ _ => D.nameOf

/-- A statement is tracked: its expressions are replayed, unless it is an assignment, and that one is cut
before it stores anything. -/
theorem Tracks.statement (D : Defers h g R due) {node : Statement} (hquiet : S.Quiet node) :
    Tracks h R due S.words.size 0 (Eval.statement S h (Eval.expr S h) sections node)
      (Eval.statement S g (Eval.expr S g) sections node) := by
  have P := Replays.pairing D S.words.size 0
  have A := Alike.pairing D
  cases node with
  | entry next name => exact (P.pure _).tracks
  | finish => exact (P.pure _).tracks
  | line l =>
    -- nothing is cut from the speakers on, so they are not run again
    obtain ⟨hsegments, hdirectives⟩ := List.forall_mem_append.mp hquiet
    refine (P.text fun o ho => .expr D (hsegments o ho)).bind_tracks fun raw => ?_
    have hdirectives := P.directives (S := S) l.next fun d hd =>
      ⟨.expr D (hdirectives d hd), fun n stop hdecode o ho =>
        .expr D ((hdirectives d hd).operand hdecode ho)⟩
    refine hdirectives.bind_tracks fun x => Alike.tracks ?_
    refine A.bind (A.mapM fun y _ => A.speaker (Alike.nameOf D) y) fun speakers => ?_
    exact A.map (A.steer sections _ _ _) _
  | instruction next offset => exact (Tracks.instruction D hquiet).bind fun _ => .pure _
  | conditional otherwise branches =>
    exact (P.map (P.firstBranch otherwise fun o ho => .expr D (hquiet o ho)) _).tracks
  | choice next items => exact (P.map (P.options [] fun o ho => .expr D (hquiet o ho)) _).tracks
  | hash next entries => exact (P.map (P.pairs ∅ fun o ho => .expr D (hquiet o ho)) _).tracks
  | speaker next index entries =>
    refine Replays.tracks ?_
    refine P.bind (P.pairs ∅ fun o ho => .expr D (hquiet o ho)) fun data => ?_
    exact P.map (P.read (S.speaker index)) _

/-- A statement against the host that answers later ends as against the other one, or is cut at a call
whose result is due. -/
theorem Tracks.statementAt (D : Defers h g R due) {offset stop : Nat} {node : Statement}
    (hdecode : S.decodeStatement offset = .ok (node, stop)) (hquiet : S.Quiet node) :
    Tracks h R due S.words.size 0 (Eval.statementAt S h (Eval.expr S h) sections offset)
      (Eval.statementAt S g (Eval.expr S g) sections offset) := by
  rw [Eval.statementAt_ok _ _ _ hdecode, Eval.statementAt_ok _ _ _ hdecode]
  exact Tracks.statement D hquiet

end

end

end Colloquy
