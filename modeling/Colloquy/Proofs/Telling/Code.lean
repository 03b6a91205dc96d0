import Colloquy.Proofs.Layout.Walk
import Colloquy.Proofs.Telling.Expr

/-!
# Where a script goes on

`CodeAt n rest` says that at the offset `n` a script goes on with what is left to tell in a story.  A
block in front of the rest is entered at `n`, and control leaves it to where the rest stands; it need
not stand anywhere if control never leaves the block.  With every statement the script goes on where
the story does (`Telling.Statement`), so this relation is all there is to follow a playthrough.
-/

namespace Colloquy

open Code

/-- What is asked of the statements of a story: no float is negative zero, and filters have
branches. -/
abbrev Stmt.Regular (x : Stmt) : Prop := x.Meets (Expr.Floats Number.Unsigned) (0 < ·)

section

variable (A : Artifact) (r : Registry) (sections : Catalog Nat)

/-- A script goes on at an offset with what is left to tell. -/
inductive CodeAt : Nat → Tell.Rest → Prop where
  | block {b xs : List Stmt} {exit : Tell.Exit} {s n e t : Nat} :
      (∀ x ∈ b, x.Regular) → BlockAt Number.Unsigned A r b s n e t →
      (FallsOff b → CodeAt e ⟨xs, exit⟩) → CodeAt n ⟨b ++ xs, exit⟩
  | finish {n t : Nat} :
      A.script.decodeStatement n = .ok (.finish, t) → CodeAt n ⟨[], .finish⟩
  | enter {n : Nat} {name : String} :
      sections.find? name = some n → CodeAt n ⟨[], .enter name⟩

/-- An option that is offered, and what is told once it is selected. -/
structure OfferAt (c : Choice) (o : Tell.Offer) : Prop where
  text : c.text = o.text
  enabled : c.enabled = o.enabled
  next : CodeAt A r sections c.next o.rest

/-- What a statement comes to, in the script and in the story. -/
inductive OutcomeAt : Outcome → Tell.Told → Prop where
  | proceed {n : Nat} {rest : Tell.Rest} (events : List Event) : CodeAt A r sections n rest →
      OutcomeAt (.proceed n events) (.proceed rest (events.map Event.placeless))
  | present {n : Nat} {rest : Tell.Rest} (ending : Bool) (events : List Event) :
      CodeAt A r sections n rest →
      OutcomeAt (.present n ending events) (.present rest ending (events.map Event.placeless))
  | offer {n : Nat} {rest : Tell.Rest} {choices : List Choice} {offers : List Tell.Offer} :
      CodeAt A r sections n rest → List.Forall₂ (OfferAt A r sections) choices offers →
      OutcomeAt (.offer n choices) (.offer rest offers)
  | finish : OutcomeAt .finish .finish

/-- The table of sections leads to the sections of a story, and mentions of a section lead where the
table does. -/
structure Directory (story : Story) : Prop where
  enters : ∀ x n, A.Enters x n → sections.find? x.name = some n
  found : ∀ name x, Tell.findSection? story name = some x →
    ∃ n t, sections.find? name = some n ∧ SectionAt Number.Unsigned A r x n t
  missing : ∀ name, Tell.findSection? story name = none → sections.find? name = none

end

section

variable {A : Artifact} {r : Registry} {sections : Catalog Nat} {story : Story}

/-! ## Statements and blocks -/

/-- A statement in front of what is left stands at the offset, and goes on to where the rest does. -/
theorem CodeAt.cons_inversion {n : Nat} {rest : Tell.Rest} (h : CodeAt A r sections n rest)
    {x : Stmt} {xs : List Stmt} (hrest : rest.stmts = x :: xs) :
    x.Regular ∧ ∃ next t, StmtAt Number.Unsigned A r x n next t ∧
      (Falls x → CodeAt A r sections next ⟨xs, rest.exit⟩) := by
  induction h with
  | finish _ => cases hrest
  | enter _ => cases hrest
  | @block b ys exit s n e t hmeets hblock hexit ih =>
    -- an empty block is left where it is entered, any other starts with the statement
    cases hblock with
    | nil => exact ih .nil hrest
    | @cons y b _ next m _ _ hy hrow =>
      obtain ⟨rfl, rfl⟩ := List.cons.inj hrest
      refine ⟨hmeets y (List.mem_cons_self ..), next, m, hy, fun hfalls => ?_⟩
      cases b with
      | nil =>
        cases hrow with
        | nil => exact hexit (fallsOff_singleton.mpr hfalls)
      | cons z b =>
        rw [fallsOff_cons_cons] at hexit
        exact .block (fun w hw => hmeets w (List.mem_cons_of_mem _ hw)) hrow hexit

/-- Where nothing but the end is left to tell there is an `End`. -/
theorem CodeAt.finish_inversion {n : Nat} {rest : Tell.Rest} (h : CodeAt A r sections n rest)
    (hrest : rest = ⟨[], .finish⟩) : ∃ t, A.script.decodeStatement n = .ok (.finish, t) := by
  induction h with
  | finish hdecode => exact ⟨_, hdecode⟩
  | enter _ => cases hrest
  | @block b ys exit s n e t _ hblock _ ih =>
    obtain ⟨hnil, rfl⟩ := (Tell.Rest.mk.injEq ..).mp hrest
    obtain ⟨rfl, rfl⟩ := List.append_eq_nil_iff.mp hnil
    cases hblock with
    | nil => exact ih .nil rfl

/-- Where a section is all that is left to tell, the script goes on at its entry. -/
theorem CodeAt.enter_inversion {n : Nat} {rest : Tell.Rest} (h : CodeAt A r sections n rest)
    {name : String} (hrest : rest = ⟨[], .enter name⟩) : sections.find? name = some n := by
  induction h with
  | finish _ => cases hrest
  | enter hfind =>
    cases hrest
    exact hfind
  | @block b ys exit s n e t _ hblock _ ih =>
    obtain ⟨hnil, rfl⟩ := (Tell.Rest.mk.injEq ..).mp hrest
    obtain ⟨rfl, rfl⟩ := List.append_eq_nil_iff.mp hnil
    cases hblock with
    | nil => exact ih .nil rfl

/-- A mention of a section leads to it. -/
theorem Directory.codeAt (hdir : Directory A r sections story) {x : Ident} {n : Nat}
    (h : A.Enters x n) : CodeAt A r sections n ⟨[], .enter x.name⟩ :=
  .enter (hdir.enters x n h)

/-- A block inside a statement goes on with what it leads to: a section, or the statement behind. -/
theorem BodyAt.codeAt (hdir : Directory A r sections story) {x : Stmt} (hx : x.Regular)
    {next : Nat} {rest : Tell.Rest} (hnext : Falls x → CodeAt A r sections next rest)
    {y : Option Ident} {b : List Stmt} {n : Nat} (hmem : (y, b) ∈ x.blocks)
    (h : BodyAt Number.Unsigned A r next y b n) :
    CodeAt A r sections n ((rest.to (y.map Ident.name)).push b) := by
  obtain ⟨s, e, t, hblock, hleads⟩ := h
  have hmeets : ∀ z ∈ b, z.Regular := hx.blocks (y, b) hmem
  cases y with
  | none =>
    obtain rfl : e = next := hleads
    have hleft : Left x.blocks e fun m => CodeAt A r sections m rest := left_of_falls hnext
    exact .block hmeets hblock (hleft b hmem)
  | some z => exact .block hmeets hblock fun hfalls => hdir.codeAt (hleads hfalls)

/-- An option without a body goes on with its section, or behind the choice. -/
theorem OptionLeads.codeAt (hdir : Directory A r sections story) {next n : Nat} {rest : Tell.Rest}
    (hnext : CodeAt A r sections next rest) {y : Option Ident} (h : OptionLeads A next y n) :
    CodeAt A r sections n ((rest.to (y.map Ident.name)).push []) := by
  cases y with
  | none =>
    obtain rfl : n = next := h
    exact hnext
  | some z => exact hdir.codeAt h

end

end Colloquy
