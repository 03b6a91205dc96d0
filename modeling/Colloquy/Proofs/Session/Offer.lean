import Colloquy.Proofs.Code.Beyond
import Colloquy.Proofs.Layout.Flat
import Colloquy.Proofs.Readback.Story
import Colloquy.Proofs.Session.Grammar
import Colloquy.Proofs.Session.Menu

/-!
# What a session offers

The entries of a compiled choice are those of a menu that is drawn after the items of the story
(`ItemsAt.exists_draws`): it has the same options and filters in the same places, with the same
expressions and texts.  So what a session offers at a choice is what reading the tree of its items gives;
and if none of that can be selected, the session goes on behind the choice (`compile_offers`).
-/

namespace Colloquy

open Code

/-! ## Menus of a story -/

mutual

/-- Every filter in the item has a branch with a condition. -/
def ChoiceItem.branched : ChoiceItem → Bool
  | .option .. => true
  | .filter branches otherwise _ => !branches.isEmpty &&
      (ChoiceItem.branchesBranched branches && ChoiceItem.otherwiseBranched otherwise)

/-- Every filter in the items has a branch with a condition. -/
def ChoiceItem.allBranched : List ChoiceItem → Bool
  | [] => true
  | i :: is => i.branched && ChoiceItem.allBranched is

/-- Every filter in the branches has a branch with a condition. -/
def ChoiceItem.branchesBranched : List (Expr × List ChoiceItem) → Bool
  | [] => true
  | (_, is) :: rest => ChoiceItem.allBranched is && ChoiceItem.branchesBranched rest

/-- Every filter in the last branch has a branch with a condition. -/
def ChoiceItem.otherwiseBranched : Option (List ChoiceItem) → Bool
  | none => true
  | some is => ChoiceItem.allBranched is

end

section

variable (S : Script) (r : Registry) (g : Ident → Option String) (next : Nat)

/-- Where an option without a body leads: to its section, or on to `next`. -/
def Script.Exits : Option Ident → Nat → Prop
  | none, n => n = next
  | some x, n => S.Enters (g x) n

mutual

/-- A menu shows an item of a choice. -/
inductive Draws : ChoiceItem → Menu → Prop where
  | option {guard : Option Expr} {text : List Segment} {target : Option Ident}
      {body : Option (List Stmt)} {span : Span} {n : Nat} {o : Option Nat} {xs : List TextNode} :
      Option.Rel (fun e o => ∃ t, S.Spells (e.term r) o t) guard o →
      List.Forall₂ (fun x b => ∃ s t, S.ShowsText (x.part r) b s t) text xs →
      (body = none → S.Exits g next target n) →
      Draws (.option guard text target body span) (.option n o xs)
  | filter {e : Expr} {o t : Nat} {is : List ChoiceItem} {first : List Menu}
      {rest : List (Expr × List ChoiceItem)} {others : List (Nat × List Menu)}
      {otherwise : Option (List ChoiceItem)} {last : Option (List Menu)} {span : Span} :
      S.Spells (e.term r) o t → DrawsAll is first → DrawsOthers rest others →
      DrawsLast otherwise last →
      Draws (.filter ((e, is) :: rest) otherwise span) (.filter o first others last)

/-- Menus show the items of a choice, one by one. -/
inductive DrawsAll : List ChoiceItem → List Menu → Prop where
  | nil : DrawsAll [] []
  | cons {i : ChoiceItem} {m : Menu} {is : List ChoiceItem} {ms : List Menu} :
      Draws i m → DrawsAll is ms → DrawsAll (i :: is) (m :: ms)

/-- Menus show the branches of a filter. -/
inductive DrawsOthers : List (Expr × List ChoiceItem) → List (Nat × List Menu) → Prop where
  | nil : DrawsOthers [] []
  | cons {e : Expr} {o t : Nat} {is : List ChoiceItem} {ms : List Menu}
      {rest : List (Expr × List ChoiceItem)} {others : List (Nat × List Menu)} :
      S.Spells (e.term r) o t → DrawsAll is ms → DrawsOthers rest others →
      DrawsOthers ((e, is) :: rest) ((o, ms) :: others)

/-- Menus show the last branch of a filter. -/
inductive DrawsLast : Option (List ChoiceItem) → Option (List Menu) → Prop where
  | none : DrawsLast none none
  | some {is : List ChoiceItem} {ms : List Menu} : DrawsAll is ms → DrawsLast (some is) (some ms)

end

end

section

variable {P : Float → Prop} {A : Artifact} {r : Registry} {g : Ident → Option String}
  {B : Option Ident → List Stmt → Nat → Prop} {next : Nat}

/-- Where an option leads, it exits. -/
theorem OptionLeads.exits (hg : ∀ x n, A.Enters x n → A.script.Enters (g x) n)
    {target : Option Ident} {n : Nat} (h : OptionLeads A next target n) :
    A.script.Exits g next target n := by
  cases target with
  | none => exact h
  | some x => exact hg x n h

/-- A guard is spelled by its expression, if it has one. -/
theorem GuardAt.rel (hS : A.script.words.size < UInt32.size) {guard : Option Expr} {o : Option Nat}
    {s t : Nat} (h : GuardAt P A r guard o s t) :
    Option.Rel (fun e o => ∃ t, A.script.Spells (e.term r) o t) guard o := by
  cases h with
  | none => exact .none
  | some he => exact .some ⟨_, he.spells hS⟩

mutual

/-- The entries of an item are those of a menu that is drawn after it. -/
theorem ItemAt.exists_draws (hS : A.script.words.size < UInt32.size)
    (hg : ∀ x n, A.Enters x n → A.script.Enters (g x) n) (i : ChoiceItem) (hi : i.branched = true)
    {nodes : List ItemNode} {s t : Nat} (h : ItemAt P A r B next i nodes s t) :
    ∃ m, Draws A.script r g next i m ∧ nodes = m.entries := by
  match i with
  | .option guard text target body _ =>
    rw [ItemAt] at h
    obtain ⟨n, o, xs, m, rfl, -, hnone, hguard, htext⟩ := h
    have hshown : List.Forall₂ (fun x b => ∃ s t, A.script.ShowsText (x.part r) b s t) text xs :=
      htext.forall₂ fun _ _ s t hsegment => ⟨s, t, hsegment.shows hS⟩
    refine ⟨.option n o xs, .option (hguard.rel hS) hshown ?_, by rw [Menu.entries]⟩
    exact fun hbody => (hnone hbody).exits hg
  | .filter [] otherwise _ =>
    rw [ChoiceItem.branched] at hi
    cases hi
  | .filter ((e, is) :: rest) otherwise _ =>
    rw [ChoiceItem.branched, ChoiceItem.branchesBranched, Bool.and_eq_true, Bool.and_eq_true,
      Bool.and_eq_true] at hi
    rw [ItemAt] at h
    obtain ⟨xs, ys, m, u, rfl, hbranches, hotherwise, -⟩ := h
    rw [BranchesAt] at hbranches
    obtain ⟨zs, ws, k, v, rfl, he, his, hrest⟩ := hbranches
    obtain ⟨first, hfirst, rfl⟩ := ItemsAt.exists_draws hS hg is hi.2.1.1 his
    obtain ⟨others, hothers, rfl⟩ := BranchesAt.exists_draws hS hg rest hi.2.1.2 hrest
    obtain ⟨last, hlast, rfl⟩ := OtherwiseAt.exists_draws hS hg otherwise hi.2.2 hotherwise
    refine ⟨.filter _ first others last, .filter (he.spells hS) hfirst hothers hlast, ?_⟩
    rw [Menu.entries]
    simp only [List.cons_append, List.append_assoc]

/-- The entries of items are those of a menu. -/
theorem ItemsAt.exists_draws (hS : A.script.words.size < UInt32.size)
    (hg : ∀ x n, A.Enters x n → A.script.Enters (g x) n) (is : List ChoiceItem)
    (hi : ChoiceItem.allBranched is = true) {nodes : List ItemNode} {s t : Nat}
    (h : ItemsAt P A r B next is nodes s t) :
    ∃ ms, DrawsAll A.script r g next is ms ∧ nodes = Menu.allEntries ms := by
  match is with
  | [] =>
    rw [ItemsAt] at h
    obtain ⟨rfl, -⟩ := h
    exact ⟨[], .nil, by rw [Menu.allEntries]⟩
  | i :: is =>
    rw [ChoiceItem.allBranched, Bool.and_eq_true] at hi
    rw [ItemsAt] at h
    obtain ⟨xs, ys, m, rfl, hfirst, hrest⟩ := h
    obtain ⟨menu, hmenu, rfl⟩ := ItemAt.exists_draws hS hg i hi.1 hfirst
    obtain ⟨ms, hms, rfl⟩ := ItemsAt.exists_draws hS hg is hi.2 hrest
    exact ⟨menu :: ms, .cons hmenu hms, by rw [Menu.allEntries]⟩

/-- So are those of the branches of a filter. -/
theorem BranchesAt.exists_draws (hS : A.script.words.size < UInt32.size)
    (hg : ∀ x n, A.Enters x n → A.script.Enters (g x) n) (bs : List (Expr × List ChoiceItem))
    (hi : ChoiceItem.branchesBranched bs = true) {nodes : List ItemNode} {s t : Nat}
    (h : BranchesAt P A r B next .elseIf bs nodes s t) :
    ∃ others, DrawsOthers A.script r g next bs others ∧ nodes = Menu.otherEntries others := by
  match bs with
  | [] =>
    rw [BranchesAt] at h
    obtain ⟨rfl, -⟩ := h
    exact ⟨[], .nil, by rw [Menu.otherEntries]⟩
  | (e, is) :: rest =>
    rw [ChoiceItem.branchesBranched, Bool.and_eq_true] at hi
    rw [BranchesAt] at h
    obtain ⟨xs, ys, m, u, rfl, he, his, hrest⟩ := h
    obtain ⟨ms, hms, rfl⟩ := ItemsAt.exists_draws hS hg is hi.1 his
    obtain ⟨others, hothers, rfl⟩ := BranchesAt.exists_draws hS hg rest hi.2 hrest
    exact ⟨(_, ms) :: others, .cons (he.spells hS) hms hothers, by rw [Menu.otherEntries]⟩

/-- So are those behind the branches. -/
theorem OtherwiseAt.exists_draws (hS : A.script.words.size < UInt32.size)
    (hg : ∀ x n, A.Enters x n → A.script.Enters (g x) n) (o : Option (List ChoiceItem))
    (hi : ChoiceItem.otherwiseBranched o = true) {nodes : List ItemNode} {s t : Nat}
    (h : OtherwiseAt P A r B next o nodes s t) :
    ∃ last, DrawsLast A.script r g next o last ∧ nodes = Menu.lastEntries last := by
  match o with
  | none =>
    rw [OtherwiseAt] at h
    obtain ⟨rfl, -⟩ := h
    exact ⟨none, .none, by rw [Menu.lastEntries]⟩
  | some is =>
    rw [ChoiceItem.otherwiseBranched] at hi
    rw [OtherwiseAt] at h
    obtain ⟨xs, rfl, his⟩ := h
    obtain ⟨ms, hms, rfl⟩ := ItemsAt.exists_draws hS hg is hi his
    exact ⟨some ms, .some hms, by rw [Menu.lastEntries]⟩

end

end

/-! ## The order of expressions -/

/-- Offsets that go up from one offset to another. -/
structure Ascends (os : List Nat) (s t : Nat) : Prop where
  le : s ≤ t
  within : ∀ o ∈ os, s ≤ o ∧ o < t
  lt : os.Pairwise (· < ·)

namespace Ascends

variable {os ps : List Nat} {s m t : Nat}

theorem nil (hle : s ≤ t) : Ascends [] s t := ⟨hle, by simp, .nil⟩

/-- An offset in a stretch ascends. -/
theorem single {o : Nat} (hs : s ≤ o) (ht : o < t) : Ascends [o] s t where
  le := by omega
  within := by
    intro p hp
    obtain rfl := List.mem_singleton.mp hp
    exact ⟨hs, ht⟩
  lt := List.pairwise_singleton ..

/-- Offsets of one stretch and of the one behind it ascend together. -/
theorem append (h : Ascends os s m) (h' : Ascends ps m t) : Ascends (os ++ ps) s t where
  le := Nat.le_trans h.le h'.le
  within := by
    intro o ho
    have hle := h.le
    have hle' := h'.le
    rcases List.mem_append.mp ho with ho | ho
    · have := h.within o ho
      omega
    · have := h'.within o ho
      omega
  lt := by
    refine List.pairwise_append.mpr ⟨h.lt, h'.lt, fun o ho p hp => ?_⟩
    have := h.within o ho
    have := h'.within p hp
    omega

/-- What stands in a row goes up if it goes up in every part. -/
theorem row {α β : Type} {R : α → β → Nat → Nat → Prop} {f : β → List Nat} {as : List α} {bs : List β}
    (h : Row R as bs s t) (hR : ∀ a b s t, R a b s t → Ascends (f b) s t) :
    Ascends (bs.flatMap f) s t := by
  induction h with
  | nil s => exact nil (Nat.le_refl s)
  | cons hfirst _ ih =>
    rw [List.flatMap_cons]
    exact (hR _ _ _ _ hfirst).append ih

end Ascends

section

variable {S : Script} {s t : Nat}

theorem Script.Spells.lt {e : Term} (h : S.Spells e s t) : s < t := by
  obtain ⟨node, hdecode⟩ := h.decodes
  exact (lt_of_nodeAt (fun _ _ => lt_of_endWithin) hdecode).2

/-- The expression in a stretch of text lies in its words. -/
theorem Script.ShowsText.ascends {x : TextPart} {b : TextNode} (h : S.ShowsText x b s t) :
    Ascends b.exprs s t := by
  cases h with
  | text _ => exact .nil (by omega)
  | shown he => exact .single (Nat.le_succ s) he.lt

/-- A guard lies in its words. -/
theorem Script.ShowsGuard.ascends {e : Option Term} {o : Option Nat} (h : S.ShowsGuard e o s t) :
    Ascends o.toList s t := by
  cases h with
  | none => exact .nil (Nat.le_succ s)
  | some he => exact .single (Nat.le_succ s) he.lt

/-- The expressions of an entry lie in its words, in the order they are evaluated in. -/
theorem Script.ShowsItem.ascends {x : ItemPart} {b : ItemNode} (h : S.ShowsItem x b s t) :
    Ascends b.exprs s t := by
  cases h with
  | @option _ _ _ nodes _ _ m _ hguard htext =>
    have hfirst := hguard.ascends
    have hsecond := Ascends.row htext fun _ _ _ _ h => h.ascends
    have hgap : Ascends [] m (m + 1) := .nil (Nat.le_succ m)
    have hstart : Ascends [] s (s + 2) := .nil (Nat.le_add_right s 2)
    exact hstart.append (hfirst.append (hgap.append hsecond))
  | ifMarker he => exact .single (Nat.le_succ s) he.lt
  | elseIf he => exact .single (Nat.le_succ s) he.lt
  | elseMarker => exact .nil (Nat.le_succ s)
  | endIf => exact .nil (Nat.le_succ s)

end

/-! ## Sessions at a choice -/

/-- What happens at the choice at an offset, if its entries are those of a menu and the script goes on at
`next` behind it. -/
structure Script.Offers (S : Script) (n next : Nat) (ms : List Menu) : Prop where
  /-- The expressions of the choice have different offsets, in the order of the story. -/
  ordered : ((Menu.allEntries ms).flatMap ItemNode.exprs).Pairwise (· < ·)
  /-- The entries are evaluated as the tree is read, whatever evaluating an expression does. -/
  options : ∀ {σ : Type} (eval : Nat → Eval σ Value),
    Eval.options S eval [] (Menu.allEntries ms) = Menu.readAll S eval ms
  /-- Expressions are evaluated in the order of the story, each at most once. -/
  once : ∀ {σ : Type} (eval : Nat → Eval σ Value),
    Eval.Logs ((Menu.allEntries ms).flatMap ItemNode.exprs) (Menu.readAll S (Eval.logged eval) ms)
  /-- The options that are found are presented if one of them can be selected. -/
  presented : ∀ past s, History S past s → s.status = .running → s.ending = false → s.pointer = n →
    ∀ {σ : Type} (h : Host σ) memory choices stage,
      Menu.readAll S (Eval.expr S h) ms ⟨s.memo, memory⟩ = .ok choices stage →
      choices.any (·.enabled) = true →
      ∃ s', s.step h memory = (.wait [.choice choices], s', stage.memory) ∧
        s'.status = .awaitingChoice ∧ s'.choices.items = choices
  /-- If none can be selected, the script goes on behind the choice without an event. -/
  passed : ∀ past s, History S past s → s.status = .running → s.ending = false → s.pointer = n →
    ∀ {σ : Type} (h : Host σ) memory choices stage,
      Menu.readAll S (Eval.expr S h) ms ⟨s.memo, memory⟩ = .ok choices stage →
      choices.any (·.enabled) = false →
      ∃ s', s.step h memory = (.on [], s', stage.memory) ∧ s'.status = .running ∧ s'.pointer = next
  /-- A call that is awaited, or a fault, interrupts the reading. -/
  interrupted : ∀ past s, History S past s → s.status = .running → s.ending = false → s.pointer = n →
    ∀ {σ : Type} (h : Host σ) memory e stage,
      Menu.readAll S (Eval.expr S h) ms ⟨s.memo, memory⟩ = .error e stage →
      s.step h memory = s.settle (.error e stage)

/-- Offering options shows them if one can be selected. -/
theorem Session.offer_of_any {s : Session} (hpool : s.choicePool.Clean) (next : Nat)
    {choices : List Choice} (hany : choices.any (·.enabled) = true) :
    ∃ s', s.offer next choices = (.wait [.choice choices], s') ∧ s'.status = .awaitingChoice ∧
      s'.choices.items = choices := by
  obtain ⟨hbuffer, hrest⟩ := hpool.take
  obtain ⟨hcopy, -⟩ := hrest.take
  simp only [Session.offer, if_pos hany, Buffer.append, hbuffer, hcopy, List.nil_append]
  exact ⟨_, rfl, rfl, rfl⟩

/-- A session at a choice evaluates the entries of the choice. -/
theorem Session.step_choice {σ : Type} {h : Host σ} {s : Session} {next stop : Nat}
    {nodes : List ItemNode} (hending : s.ending = false)
    (hdecode : s.script.decodeStatement s.pointer = .ok (.choice next nodes, stop)) (memory : σ) :
    s.step h memory = s.settle ((Eval.options s.script (Eval.expr s.script h) [] nodes >>= fun choices =>
      pure (.offer next choices)) ⟨s.memo, memory⟩) := by
  rw [Session.step, if_neg (by simp [hending]), Eval.statementAt_ok _ _ _ hdecode]
  rfl

/-- A choice whose entries are those of a menu offers what the menu holds. -/
theorem Script.offers_of_decode {S : Script} {n next stop : Nat} {ms : List Menu} {s t : Nat}
    {parts : List ItemPart} (hrow : Row S.ShowsItem parts (Menu.allEntries ms) s t)
    (hdecode : S.decodeStatement n = .ok (.choice next (Menu.allEntries ms), stop)) :
    S.Offers n next ms := by
  have hstep : ∀ past s, History S past s → s.ending = false → s.pointer = n →
      ∀ {σ : Type} (h : Host σ) memory, s.step h memory =
        s.settle ((Menu.readAll S (Eval.expr S h) ms >>= fun choices =>
          pure (.offer next choices)) ⟨s.memo, memory⟩) := by
    intro past s hpast hending hpointer σ h memory
    obtain ⟨hscript, -⟩ := hpast.sections
    rw [← hpointer, ← hscript] at hdecode
    rw [Session.step_choice hending hdecode, hscript, Eval.options_entries]
  refine ⟨(Ascends.row hrow fun _ _ _ _ h => h.ascends).lt, fun eval => Eval.options_entries ms, ?_,
    ?_, ?_, ?_⟩
  · intro σ eval
    rw [← Eval.options_entries]
    exact .options _ _
  · intro past s hpast _ hending hpointer σ h memory choices stage hread hany
    rw [hstep past s hpast hending hpointer, Eval.bind_of_ok hread]
    obtain ⟨s', hoffer, hstatus, hchoices⟩ :=
      Session.offer_of_any (s := { s with memo := stage.memo }) hpast.coherent.choicePool next hany
    refine ⟨s', ?_, hstatus, hchoices⟩
    show (((_ : Session).offer next choices).1, ((_ : Session).offer next choices).2, _) = _
    rw [hoffer]
  · intro past s hpast hrunning hending hpointer σ h memory choices stage hread hany
    rw [hstep past s hpast hending hpointer, Eval.bind_of_ok hread]
    have hnot : ¬ choices.any (·.enabled) = true := by simp [hany]
    show ∃ s', (((_ : Session).offer next choices).1, ((_ : Session).offer next choices).2, _) = _ ∧ _
    simp only [Session.offer, if_neg hnot]
    exact ⟨_, rfl, hrunning, rfl⟩
  · intro past s hpast _ hending hpointer σ h memory e stage hread
    rw [hstep past s hpast hending hpointer, Eval.bind_of_error hread]

/-- A choice of a story, its filters with at least one condition each, offers what its items say when
they are read as a tree: the options at the top and in the first branch of a filter whose condition
holds, or else in the last branch, each with its text and whether its guard holds.  Conditions are
evaluated only where the filters around them are open and no branch before was taken, guards and texts
only of the options that are offered, all in the order of the story and each at most once.  If no option
can be selected, the choice is passed by. -/
theorem compile_offers (r : Registry) (o : CompileOptions) (story : Story)
    (haddressable : (compile r o story).script.Addressable) :
    ∃ xs, (compile r o story).script.Walk 0 xs (compile r o story).script.words.size ∧
      List.Forall₂ (fun x p => ∀ items span, x = Stmt.choice items span →
          ChoiceItem.allBranched items = true →
          ∃ next ms, p.2 = .choice next (Menu.allEntries ms) ∧
            DrawsAll (compile r o story).script r story.target next items ms ∧
            (compile r o story).script.Offers p.1 next ms)
        story.flat (xs.filter fun p => !p.2.isFrame) := by
  obtain ⟨A, labels, hA⟩ := exists_compiled_of_any r o story haddressable
  obtain ⟨xs, hxs⟩ := hA.flat
  have hS := hA.fits.addressable.words
  rw [← hA.script]
  refine ⟨xs, hxs.walk, hxs.nodes.imp ?_⟩
  rintro _ ⟨n, node⟩ ⟨-, next, m, hdecode, hnode⟩ items span rfl hbranched
  cases hnode with
  | choice _ hitems =>
    have hrow := ItemsAt.shows hS items hitems
    obtain ⟨ms, hdraws, rfl⟩ := ItemsAt.exists_draws hS (fun _ _ => hA.enters) items hbranched hitems
    exact ⟨next, ms, rfl, hdraws, Script.offers_of_decode hrow hdecode⟩

/-- A choice with filters inside filters. -/
def tavern : String :=
  "=== main\nchoice \x7b\nif gold > 1 \x7b\nif met \x7b\n* Greet\n\x7d else \x7b\n* Nod\n\x7d\n* [met] Pay\n\x7d else if met \x7b\n* Ask\n\x7d else \x7b\n* Beg\n\x7d\n* Leave\n\x7d\n"

/-- The variables of the tavern. -/
def tavernRegistry : Registry :=
  (Registry.empty.addVariable ⟨"gold", .float⟩).addVariable ⟨"met", .bool⟩

/-- The first statement of the tavern is read as a choice of two items. -/
theorem offers_in_tavern : ∃ items span n next ms,
    (parse none tavern).1.flat[0]? = some (.choice items span) ∧ items.length = 2 ∧
      DrawsAll (compile tavernRegistry {} (parse none tavern).1).script tavernRegistry
        (parse none tavern).1.target next items ms ∧
      (compile tavernRegistry {} (parse none tavern).1).script.Offers n next ms := by
  obtain ⟨haddressable, hfirst⟩ :
      (compile tavernRegistry {} (parse none tavern).1).script.Addressable ∧
      ((parse none tavern).1.flat[0]?.bind fun
        | .choice items _ => some (ChoiceItem.allBranched items && items.length == 2)
        | _ => none) = some true := by
    decide +kernel
  obtain ⟨x, hx, hitems⟩ := Option.bind_eq_some_iff.mp hfirst
  obtain ⟨hlt, hget⟩ := List.getElem?_eq_some_iff.mp hx
  obtain ⟨xs, -, hall⟩ := compile_offers tavernRegistry {} (parse none tavern).1 haddressable
  have hread := hall.get hlt (hall.length_eq ▸ hlt)
  rw [List.get_eq_getElem, hget] at hread
  cases x with
  | choice items span =>
    have hitems := Option.some.inj hitems
    rw [Bool.and_eq_true, beq_iff_eq] at hitems
    obtain ⟨next, ms, -, hdraws, hoffers⟩ := hread items span rfl hitems.1
    exact ⟨items, span, _, next, ms, hx, hitems.2, hdraws, hoffers⟩
  | _ => cases hitems

end Colloquy
