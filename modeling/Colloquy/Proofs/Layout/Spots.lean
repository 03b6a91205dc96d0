import Colloquy.Proofs.Layout.Walk
import Colloquy.Proofs.Story.Chart

/-!
# Where the statements of a story stand

The statements of a story stand in its script in the order of its chart, each as one statement of the
script or, for a line with hash data, as two.  Sections are framed: an entry stands in front of their
statements, and an end behind them if control may fall off.  `Script.Spots` gives each statement of a
story its place by this rule alone, so a script has no more than one list of places for a story
(`Script.Spots.unique`).
-/

namespace Colloquy

open Code
open Lower (Reach)

/-! ## Reading -/

/-- Between two offsets statements with these codes are read. -/
def Script.Reads (S : Script) (codes : List StatementCode) (s t : Nat) : Prop :=
  ∃ xs, S.Walk s xs t ∧ xs.map (fun p => p.2.code) = codes

/-- What a statement is lowered to, apart from the blocks inside it. -/
def Stmt.codes : Stmt → List StatementCode
  | .line l => if l.hash.isSome then [.hash, .line] else [.line]
  | .instruction _ | .goto _ => [.instruction]
  | .finish _ => [.finish]
  | .conditional .. => [.conditional]
  | .choice .. => [.choice]
  | .hash _ => [.hash]
  | .speaker .. => [.speaker]

theorem Stmt.codes_ne_nil (x : Stmt) : x.codes ≠ [] := by
  cases x with
  | line l => cases h : l.hash <;> simp [Stmt.codes, h]
  | _ => simp [Stmt.codes]

namespace Script.Reads

variable {S : Script} {codes : List StatementCode} {s m t u : Nat} {node : Statement}

theorem nil (s : Nat) : S.Reads [] s s := ⟨[], .nil s, rfl⟩

theorem cons (hdecode : S.decodeStatement s = .ok (node, m)) (h : S.Reads codes m t) :
    S.Reads (node.code :: codes) s t := by
  obtain ⟨xs, hwalk, rfl⟩ := h
  exact ⟨_, .cons hdecode hwalk, rfl⟩

theorem single (hdecode : S.decodeStatement s = .ok (node, m)) : S.Reads [node.code] s m :=
  .cons hdecode (.nil m)

/-- Where the reading stops is settled by the codes. -/
theorem unique (h : S.Reads codes s t) (h' : S.Reads codes s u) : t = u := by
  obtain ⟨xs, hxs, rfl⟩ := h
  obtain ⟨ys, hys, hcodes⟩ := h'
  induction hxs generalizing ys with
  | nil s =>
    obtain rfl := List.map_eq_nil_iff.mp hcodes
    cases hys
    rfl
  | cons hdecode _ ih =>
    cases hys with
    | nil => cases hcodes
    | cons hdecode' hys =>
      rw [hdecode] at hdecode'
      cases hdecode'
      exact ih _ hys (List.cons.inj hcodes).2

end Script.Reads

/-! ## Places -/

/-- A statement of a story, how it is reached in its block, and between which offsets its words stand. -/
structure Spot where
  reach : Reach
  stmt : Stmt
  start : Nat
  stop : Nat

/-- A statement of a story stands between two offsets. -/
def Script.Seats (S : Script) (p : Reach × Stmt) (spot : Spot) (s t : Nat) : Prop :=
  spot = ⟨p.1, p.2, s, t⟩ ∧ S.Reads p.2.codes s t

/-- The places of the statements in sections that stand one after another. -/
inductive Script.Spots (S : Script) : List Section → List Spot → Nat → Nat → Prop where
  | nil (s : Nat) : S.Spots [] [] s s
  | cons {x : Section} {xs : List Section} {spots more : List Spot} {s m u v t : Nat} :
      S.Reads [.entry] s m → Row S.Seats (Stmt.chartFrom .reached x.body) spots m u →
      (¬FallsOff x.body ∧ v = u ∨ FallsOff x.body ∧ S.Reads [.finish] u v) →
      S.Spots xs more v t → S.Spots (x :: xs) (spots ++ more) s t

/-- A row is unique if each of its parts is. -/
theorem Row.unique {α β : Type} {R : α → β → Nat → Nat → Prop} {as : List α} {bs bs' : List β}
    {s t t' : Nat} (h : Row R as bs s t) (h' : Row R as bs' s t')
    (hR : ∀ a b b' s t t', R a b s t → R a b' s t' → b = b' ∧ t = t') : bs = bs' ∧ t = t' := by
  induction h generalizing bs' with
  | nil s =>
    cases h'
    exact ⟨rfl, rfl⟩
  | cons ha _ ih =>
    cases h' with
    | cons ha' hrest =>
      obtain ⟨rfl, rfl⟩ := hR _ _ _ _ _ _ ha ha'
      obtain ⟨rfl, rfl⟩ := ih hrest
      exact ⟨rfl, rfl⟩

namespace Script

variable {S : Script} {story : List Section} {spots spots' : List Spot} {s t t' : Nat}

/-- A statement has one place from where it starts. -/
theorem Seats.unique {p : Reach × Stmt} {spot spot' : Spot} (h : S.Seats p spot s t)
    (h' : S.Seats p spot' s t') : spot = spot' ∧ t = t' := by
  obtain ⟨rfl, hreads⟩ := h
  obtain ⟨rfl, hreads'⟩ := h'
  rw [hreads.unique hreads']
  exact ⟨rfl, rfl⟩

/-- A story has one list of places in a script. -/
theorem Spots.unique (h : S.Spots story spots s t) (h' : S.Spots story spots' s t') :
    spots = spots' := by
  induction h generalizing spots' with
  | nil s =>
    cases h'
    rfl
  | cons hentry hspots hend _ ih =>
    cases h' with
    | cons hentry' hspots' hend' hrest =>
      obtain rfl := hentry.unique hentry'
      obtain ⟨rfl, rfl⟩ := hspots.unique hspots' fun _ _ _ _ _ _ h h' => h.unique h'
      rcases hend with ⟨hnot, rfl⟩ | ⟨hfalls, hend⟩ <;> rcases hend' with ⟨hnot', rfl⟩ | ⟨hfalls', hend'⟩
      · rw [ih hrest]
      · exact absurd hfalls' hnot
      · exact absurd hfalls hnot'
      · obtain rfl := hend.unique hend'
        rw [ih hrest]

/-- The places of a row of statements are marked as the row is. -/
theorem Seats.chart {ps : List (Reach × Stmt)} (h : Row S.Seats ps spots s t) :
    spots.map (fun q => (q.reach, q.stmt)) = ps := by
  induction h with
  | nil s => rfl
  | cons hseat _ ih =>
    obtain ⟨rfl, -⟩ := hseat
    rw [List.map_cons, ih]

/-- All statements of the chart have a place, in the same order. -/
theorem Spots.chart (h : S.Spots story spots s t) :
    spots.map (fun q => (q.reach, q.stmt)) = Story.chart story := by
  induction h with
  | nil s => rfl
  | cons _ hspots _ _ ih =>
    rw [List.map_append, Seats.chart hspots, ih]
    rfl

end Script

end Colloquy
