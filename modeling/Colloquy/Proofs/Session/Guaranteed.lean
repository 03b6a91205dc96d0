import Colloquy.Proofs.Parser.Story
import Colloquy.Proofs.Session.Offer
import Colloquy.Proofs.Session.Trail

/-!
# Choices that cannot be passed by

A choice is passed by when none of its options can be selected.  The compiler warns of choices where that
may happen.  It looks at guards and filters only: an item is safe if it is an option without a guard, or
a filter with a last branch all of whose branches hold a safe item.

`DrawsAll.enables` says that this is enough, whatever the conditions come to.  So a choice nobody was
warned of is offered each time that it is performed (`compile_always_offers`).
-/

namespace Colloquy

open Code

/-! ## Reading finds an option -/

/-- Whenever options are read, one of them can be selected. -/
def Eval.Enables {σ : Type} (m : Eval σ (List Choice)) : Prop :=
  ∀ x choices y, m x = .ok choices y → choices.any (·.enabled) = true

namespace Eval.Enables

variable {σ : Type} {m k : Eval σ (List Choice)}

/-- What enables an option does so in front of others. -/
theorem before_left (h : Enables m) : Enables (Eval.before m k) := by
  intro x choices y hread
  obtain ⟨first, z, hfirst, hread⟩ := Eval.bind_eq_ok.mp hread
  obtain ⟨others, z, -, hread⟩ := Eval.bind_eq_ok.mp hread
  obtain ⟨rfl, -⟩ := Eval.pure_eq_ok.mp hread
  rw [List.any_append, h x first _ hfirst, Bool.true_or]

/-- It does so behind others. -/
theorem before_right (h : Enables k) : Enables (Eval.before m k) := by
  intro x choices y hread
  obtain ⟨first, z, -, hread⟩ := Eval.bind_eq_ok.mp hread
  obtain ⟨others, z', hothers, hread⟩ := Eval.bind_eq_ok.mp hread
  obtain ⟨rfl, -⟩ := Eval.pure_eq_ok.mp hread
  rw [List.any_append, h z others z' hothers, Bool.or_true]

/-- Whatever a condition comes to, one of two readings goes on. -/
theorem ite {c : Eval σ Bool} (hm : Enables m) (hk : Enables k) :
    Enables (c >>= fun hit => if hit then m else k) := by
  intro x choices y hread
  obtain ⟨hit, z, -, hread⟩ := Eval.bind_eq_ok.mp hread
  cases hit with
  | true => exact hm z choices y hread
  | false => exact hk z choices y hread

end Eval.Enables

/-! ## The analysis of guards and filters -/

section

variable {σ : Type} {S : Script} {r : Registry} {g : Ident → Option String} {next : Nat}
  {eval : Nat → Eval σ Value}

mutual

/-- A safe item offers an option that can be selected, whatever its conditions come to: an option without
a guard, or one in each branch of a filter. -/
theorem Draws.enables (i : ChoiceItem) (hi : Lower.itemGuarantees i = true) {m : Menu}
    (h : Draws S r g next i m) : Eval.Enables (m.read S eval) := by
  match i, h with
  | .option guard text target body _, .option hguard _ _ =>
    rw [Lower.itemGuarantees, Option.isNone_iff_eq_none] at hi
    subst hi
    cases hguard
    rw [Menu.read]
    intro x choices y hread
    obtain ⟨enabled, z, henabled, hread⟩ := Eval.bind_eq_ok.mp hread
    obtain ⟨rfl, -⟩ := Eval.pure_eq_ok.mp henabled
    obtain ⟨raw, z', -, hread⟩ := Eval.bind_eq_ok.mp hread
    obtain ⟨rfl, -⟩ := Eval.pure_eq_ok.mp hread
    rfl
  | .filter ((e, is) :: rest) otherwise _, .filter _ hfirst hothers hlast =>
    rw [Lower.itemGuarantees, Lower.branchesGuarantee, Bool.and_eq_true, Bool.and_eq_true] at hi
    rw [Menu.read]
    refine .ite (DrawsAll.enables is hi.2.1 hfirst) ?_
    exact DrawsOthers.enables rest hi.2.2 hothers (DrawsLast.enables otherwise hi.1 hlast)

/-- Items of which one is safe offer an option that can be selected. -/
theorem DrawsAll.enables (is : List ChoiceItem) (hi : Lower.itemsGuarantee is = true)
    {ms : List Menu} (h : DrawsAll S r g next is ms) : Eval.Enables (Menu.readAll S eval ms) := by
  match is, h with
  | [], _ => cases hi
  | i :: is, .cons hfirst hrest =>
    rw [Lower.itemsGuarantee, Bool.or_eq_true] at hi
    rw [Menu.readAll]
    rcases hi with hi | hi
    · exact .before_left (Draws.enables i hi hfirst)
    · exact .before_right (DrawsAll.enables is hi hrest)

/-- If all branches are safe, and what stands behind them is, it does not matter which one is taken. -/
theorem DrawsOthers.enables (bs : List (Expr × List ChoiceItem))
    (hi : Lower.branchesGuarantee bs = true) {others : List (Nat × List Menu)}
    (h : DrawsOthers S r g next bs others) {last : Eval σ (List Choice)} (hlast : last.Enables) :
    Eval.Enables (Menu.readFirst S eval last others) := by
  match bs, h with
  | [], .nil =>
    rw [Menu.readFirst]
    exact hlast
  | (e, is) :: rest, .cons _ hfirst hrest =>
    rw [Lower.branchesGuarantee, Bool.and_eq_true] at hi
    rw [Menu.readFirst]
    exact .ite (DrawsAll.enables is hi.1 hfirst) (DrawsOthers.enables rest hi.2 hrest hlast)

/-- So do the items behind the branches of a filter. -/
theorem DrawsLast.enables (o : Option (List ChoiceItem)) (hi : Lower.otherwiseGuarantees o = true)
    {last : Option (List Menu)} (h : DrawsLast S r g next o last) :
    Eval.Enables (Menu.readLast S eval last) := by
  match o, h with
  | none, _ => cases hi
  | some is, .some his =>
    rw [Lower.otherwiseGuarantees] at hi
    rw [Menu.readLast]
    exact DrawsAll.enables is hi his

end

end

/-- A choice of which neither warning is given has a safe item. -/
theorem Lower.itemsGuarantee_of_choiceErrors {items : List ChoiceItem} {span : Span}
    (hempty : CompileError.emptyChoice span ∉ Lower.choiceErrors items span)
    (hguaranteed : CompileError.noGuaranteedChoice span ∉ Lower.choiceErrors items span) :
    Lower.itemsGuarantee items = true := by
  rw [Lower.choiceErrors] at hempty hguaranteed
  split at hempty
  · exact absurd (List.mem_singleton_self _) hempty
  · next hsome =>
    rw [if_neg hsome] at hguaranteed
    by_contra hnot
    rw [if_neg hnot] at hguaranteed
    exact hguaranteed (List.mem_singleton_self _)

/-! ## Statements of a parsed story -/

section

variable {E : Expr → Prop} {F : Nat → Prop}

/-- The statements that a statement is lowered to meet what it does. -/
theorem Stmt.Meets.own {x : Stmt} (h : x.Meets E F) : ∀ y ∈ x.own, y.Meets E F := by
  intro y hy
  cases x with
  | line l =>
    rw [Stmt.Meets] at h
    rcases List.mem_append.mp hy with hy | hy
    · obtain ⟨b, hb, rfl⟩ := Option.map_eq_some_iff.mp (Option.mem_toList.mp hy)
      rw [Stmt.Meets]
      exact h.hash b hb
    · obtain rfl := List.mem_singleton.mp hy
      rw [Stmt.Meets]
      exact ⟨h.text, h.directives, by simp⟩
  | finish span => cases hy
  | _ =>
    obtain rfl := List.mem_singleton.mp hy
    exact h

/-- What a statement meets is met by the statements inside it. -/
theorem Stmt.Meets.flat (x : Stmt) (h : x.Meets E F) : ∀ y ∈ x.flat, y.Meets E F := by
  induction x using Stmt.induction with
  | step x ih =>
    intro y hy
    rw [Stmt.flat_eq] at hy
    rcases List.mem_append.mp hy with hy | hy
    · exact h.own y hy
    · obtain ⟨p, hp, hy⟩ := List.mem_flatMap.mp hy
      obtain ⟨z, hz, hy⟩ := List.mem_flatMap.mp hy
      exact ih p hp z hz (h.blocks p hp z hz) y hy

/-- So do those of a story. -/
theorem Story.Meets.flat {story : Story} (h : story.Meets E F) : ∀ y ∈ story.flat, y.Meets E F := by
  intro y hy
  obtain ⟨x, hx, hy⟩ := List.mem_flatMap.mp hy
  obtain ⟨z, hz, hy⟩ := List.mem_flatMap.mp hy
  exact Stmt.Meets.flat z (Stmt.allMeet_iff.mp (h x hx) z hz) y hy

mutual

/-- An item whose filters have branches is branched. -/
theorem ChoiceItem.Meets.branched (i : ChoiceItem) (h : i.Meets E (0 < ·)) : i.branched = true := by
  match i with
  | .option .. => rfl
  | .filter branches otherwise _ =>
    rw [ChoiceItem.Meets] at h
    have hne : branches.isEmpty = false := by
      rw [List.isEmpty_eq_false_iff_exists_mem]
      exact List.length_pos_iff_exists_mem.mp h.1
    rw [ChoiceItem.branched, hne, ChoiceItem.Meets.branchesBranched branches h.2.1,
      ChoiceItem.Meets.otherwiseBranched otherwise h.2.2]
    rfl

/-- If no filter is without a branch, every filter has one. -/
theorem ChoiceItem.Meets.allBranched (is : List ChoiceItem) (h : ChoiceItem.AllMeet E (0 < ·) is) :
    ChoiceItem.allBranched is = true := by
  match is with
  | [] => rfl
  | i :: is =>
    rw [ChoiceItem.AllMeet] at h
    rw [ChoiceItem.allBranched, ChoiceItem.Meets.branched i h.1,
      ChoiceItem.Meets.allBranched is h.2]
    rfl

/-- So are the items in the branches of a filter. -/
theorem ChoiceItem.Meets.branchesBranched (bs : List (Expr × List ChoiceItem))
    (h : ChoiceItem.BranchesMeet E (0 < ·) bs) : ChoiceItem.branchesBranched bs = true := by
  match bs with
  | [] => rfl
  | (e, is) :: rest =>
    rw [ChoiceItem.BranchesMeet] at h
    rw [ChoiceItem.branchesBranched, ChoiceItem.Meets.allBranched is h.1.2,
      ChoiceItem.Meets.branchesBranched rest h.2]
    rfl

/-- So are those behind the branches. -/
theorem ChoiceItem.Meets.otherwiseBranched (o : Option (List ChoiceItem))
    (h : ChoiceItem.OtherwiseMeets E (0 < ·) o) : ChoiceItem.otherwiseBranched o = true := by
  match o with
  | none => rfl
  | some is =>
    rw [ChoiceItem.OtherwiseMeets] at h
    rw [ChoiceItem.otherwiseBranched]
    exact ChoiceItem.Meets.allBranched is h

end

end

/-! ## Sessions -/

/-- How performing the choice at an offset may end if the choice is not passed by. -/
inductive Offering {σ : Type} (n : Nat) : Step × Session × σ → Prop where
  | failed (e : SessionError) (s : Session) (memory : σ) : Offering n (.fault e, s, memory)
  /-- A call is awaited, and the choice is performed again afterwards. -/
  | suspended {s : Session} (memory : σ) : s.status = .awaitingCall → s.pointer = n →
      Offering n (.wait [], s, memory)
  /-- The options are shown, and one of them can be selected. -/
  | presented {choices : List Choice} {s : Session} (memory : σ) :
      (∃ c ∈ choices, c.enabled = true) → s.status = .awaitingChoice → s.choices.items = choices →
      Offering n (.wait [.choice choices], s, memory)

/-- The choice at an offset is never passed by, in any run against any host. -/
def Script.AlwaysOffers (S : Script) (n : Nat) : Prop :=
  ∀ trail s, Trail S trail s → s.status = .running → s.ending = false → s.pointer = n →
    ∀ {σ : Type} (h : Host σ) (memory : σ), Offering n (s.step h memory)

/-- A choice whose entries enable an option is never passed by: a session that comes to it awaits a
selection, fails, or waits for a call. -/
theorem Script.alwaysOffers_of_enables {S : Script} {n next stop : Nat} {nodes : List ItemNode}
    (hdecode : S.decodeStatement n = .ok (.choice next nodes, stop))
    (henables : ∀ {σ : Type} (h : Host σ), Eval.Enables (Eval.options S (Eval.expr S h) [] nodes)) :
    S.AlwaysOffers n := by
  rintro trail s htrail - hending rfl σ h memory
  obtain ⟨rfl, -, hpool⟩ := htrail.script
  rw [Session.step_choice hending hdecode]
  cases hread : Eval.options s.script (Eval.expr s.script h) [] nodes ⟨s.memo, memory⟩ with
  | ok choices stage =>
    have hany := henables h _ _ _ hread
    obtain ⟨s', hoffer, hstatus, hchoices⟩ :=
      Session.offer_of_any (s := { s with memo := stage.memo }) hpool next hany
    rw [Eval.bind_of_ok hread]
    show Offering _ (((_ : Session).offer next choices).1, ((_ : Session).offer next choices).2, _)
    rw [hoffer]
    exact .presented _ (List.any_eq_true.mp hany) hstatus hchoices
  | error e stage =>
    rw [Eval.bind_of_error hread]
    obtain ⟨pool, hbreak, -⟩ := s.exists_breakOff
    cases e with
    | pending offset function =>
      rw [Session.settle, hbreak]
      exact .suspended _ rfl rfl
    | fault e ending => exact .failed e _ _

/-- A choice of a parsed story for which the compiler reports neither that it has no options nor that
it may have none that can be selected is a choice of the script that is never passed by: performing it
fails, awaits a call, or shows options of which one can be selected. -/
theorem compile_always_offers (r : Registry) (o : CompileOptions) (implicit : Option String)
    (source : String) (haddressable : (compile r o (parse implicit source).1).script.Addressable) :
    ∃ xs, (compile r o (parse implicit source).1).script.Walk 0 xs
        (compile r o (parse implicit source).1).script.words.size ∧
      List.Forall₂ (fun x p => ∀ items span, x = Stmt.choice items span →
          .compile (.emptyChoice span) ∉ (compile r o (parse implicit source).1).diagnostics →
          .compile (.noGuaranteedChoice span) ∉ (compile r o (parse implicit source).1).diagnostics →
          (∃ next nodes, p.2 = .choice next nodes) ∧
            (compile r o (parse implicit source).1).script.AlwaysOffers p.1)
        (parse implicit source).1.flat (xs.filter fun p => !p.2.isFrame) := by
  have hmeets := (parse_meets implicit source).flat
  generalize (parse implicit source).1 = story at *
  obtain ⟨A, labels, hA⟩ := exists_compiled_of_any r o story haddressable
  obtain ⟨xs, hxs⟩ := hA.flat
  have hS := hA.fits.addressable.words
  rw [← hA.script, ← hA.diagnostics]
  refine ⟨xs, hxs.walk, ((List.forall₂_and_left _ _).mpr ⟨hmeets, hxs.nodes⟩).imp ?_⟩
  rintro _ ⟨n, node⟩ ⟨hmeets, -, next, m, hdecode, hnode⟩ items span rfl hempty hguaranteed
  cases hnode with
  | @choice _ _ nodes _ _ hreports hitems =>
    refine ⟨⟨next, nodes, rfl⟩, ?_⟩
    have hsafe : Lower.itemsGuarantee items = true :=
      Lower.itemsGuarantee_of_choiceErrors
        (fun he => hempty (List.mem_map_of_mem (hreports _ he)))
        (fun he => hguaranteed (List.mem_map_of_mem (hreports _ he)))
    rw [Stmt.Meets] at hmeets
    have hbranched := ChoiceItem.Meets.allBranched items hmeets
    obtain ⟨ms, hdraws, rfl⟩ := ItemsAt.exists_draws hS (fun _ _ => hA.enters) items hbranched hitems
    apply Script.alwaysOffers_of_enables hdecode
    intro σ h
    rw [Eval.options_entries]
    exact DrawsAll.enables items hsafe hdraws

/-- A choice between a filter's branches, each with an option that has no guard. -/
def doorway : String :=
  "=== main\nAnn: Well?\nchoice \x7b\nif met \x7b\n* Greet\n\x7d else \x7b\n* [gold > 1] Pay\n* Nod\n\x7d\n\x7d\n"

/-- Behind the line of the doorway stands its choice, and that one is never passed by. -/
theorem always_offers_in_doorway : ∃ trail s items span,
    Trail (compile tavernRegistry {} (parse none doorway).1).script trail s ∧ s.status = .running ∧
      s.ending = false ∧ (parse none doorway).1.flat[1]? = some (.choice items span) ∧
      (compile tavernRegistry {} (parse none doorway).1).script.AlwaysOffers s.pointer := by
  -- one evaluation of the doorway's script for all that is read off it
  obtain ⟨haddressable, hsilent, hsecond, hentry, hline, hsize, hnext⟩ :
      (compile tavernRegistry {} (parse none doorway).1).script.Addressable ∧
      (compile tavernRegistry {} (parse none doorway).1).diagnostics = [] ∧
      ((parse none doorway).1.flat[1]?.map fun
        | .choice _ _ => true
        | _ => false) = some true ∧
      (compile tavernRegistry {} (parse none doorway).1).script.decodeStatement 0 = .ok (.entry 3 0, 3) ∧
      (compile tavernRegistry {} (parse none doorway).1).script.decodeStatement 3 =
        .ok (.line ⟨12, [.id 0], [.text 1], []⟩, 12) ∧
      (compile tavernRegistry {} (parse none doorway).1).script.words.size = 44 ∧
      ((compile tavernRegistry {} (parse none doorway).1).script.decodeStatement
        12).toOption.map (·.1.isFrame) = some false := by
    decide +kernel
  obtain ⟨xs, hwalk, hall⟩ := compile_always_offers tavernRegistry {} none doorway haddressable
  obtain ⟨past, s, hpast, hs⟩ := History.exists_of_run TableHost.host .empty
    [.start "main", .advance 9] (fun _ s => s.status = .running && !s.ending && s.pointer == 12)
    (S := (compile tavernRegistry {} (parse none doorway).1).script) (by decide +kernel)
  generalize (compile tavernRegistry {} (parse none doorway).1).script = S at *
  obtain ⟨trail, htrail⟩ := hpast.exists_trail
  simp only [Bool.and_eq_true, decide_eq_true_eq, Bool.not_eq_true', beq_iff_eq] at hs
  obtain ⟨⟨hrunning, hending⟩, hpointer⟩ := hs
  obtain ⟨x, hx, hchoice⟩ := Option.map_eq_some_iff.mp hsecond
  cases x with
  | choice items span =>
    refine ⟨trail, s, items, span, htrail, hrunning, hending, hx, ?_⟩
    -- the statements in front of the choice are the entry and the line
    rw [hsize] at hwalk
    obtain _ | ⟨hdecode, hwalk⟩ := hwalk
    cases hentry.symm.trans hdecode
    obtain _ | ⟨hdecode, hwalk⟩ := hwalk
    cases hline.symm.trans hdecode
    obtain _ | ⟨hdecode, hwalk⟩ := hwalk
    rw [hdecode] at hnext
    have hframe := Option.some.inj hnext
    rw [List.filter_cons_of_neg (by simp [Statement.isFrame]),
      List.filter_cons_of_pos (by simp [Statement.isFrame]),
      List.filter_cons_of_pos (by simpa using hframe)] at hall
    obtain ⟨hlt, hget⟩ := List.getElem?_eq_some_iff.mp hx
    have hread := hall.get hlt (hall.length_eq ▸ hlt)
    rw [List.get_eq_getElem, hget] at hread
    obtain ⟨-, hoffers⟩ := hread items span rfl (by simp [hsilent]) (by simp [hsilent])
    rw [hpointer]
    exact hoffers
  | _ => cases hchoice

end Colloquy
