import Colloquy.Proofs.Layout.Flat
import Colloquy.Proofs.Layout.WellFormed
import Colloquy.Proofs.Session.Grammar
import Colloquy.Proofs.Session.Pairing
import Colloquy.Proofs.Story.Chart

/-!
# Jumps lead to one place

A section is named in three ways: by targets that are compiled into the script, by tags inside a shown
line, and by a start.  The first are offsets that were filled in when the script was laid down; the
other two look into a table that is read off the finished script.  `SectionsAgree` says that they all
mean the same offset, and `compile_sections_agree` that this is so for every story in which no section
is declared twice.
-/

namespace Colloquy

open Code

/-! ## Targets in a story and in a script -/

/-- The section that a tag names. -/
def Tag.target? : Tag → Option String
  | .goto name => some name
  | _ => none

mutual

/-- The section that each option of an item leads to right away.  An option with a body leads into it. -/
def ChoiceItem.exits : ChoiceItem → List (Option Ident)
  | .option _ _ target body _ => [if body.isSome then none else target]
  | .filter branches otherwise _ =>
    ChoiceItem.branchExits branches ++ ChoiceItem.otherwiseExits otherwise

/-- The sections that the options of items lead to. -/
def ChoiceItem.allExits : List ChoiceItem → List (Option Ident)
  | [] => []
  | i :: is => i.exits ++ ChoiceItem.allExits is

/-- The sections that the options in the branches of a filter lead to. -/
def ChoiceItem.branchExits : List (Expr × List ChoiceItem) → List (Option Ident)
  | [] => []
  | (_, is) :: rest => ChoiceItem.allExits is ++ ChoiceItem.branchExits rest

/-- The sections that the options in the last branch of a filter lead to. -/
def ChoiceItem.otherwiseExits : Option (List ChoiceItem) → List (Option Ident)
  | none => []
  | some is => ChoiceItem.allExits is

end

/-- Where the node at an offset jumps, if it is a jump. -/
def Script.jumpAt (S : Script) (o : Nat) : Option Nat :=
  match S.decodeExpr o with
  | .ok (.goto n, _) => some n
  | _ => none

/-- Where an option leads. -/
def Code.ItemNode.exit? : ItemNode → Option Nat
  | .option n _ _ => some n
  | _ => none

/-- A statement of a story and the one of the script that stands for it: where the first names a
section, the second has an offset that `J` relates to the name. -/
inductive Script.Aimed (S : Script) (J : Ident → Nat → Prop) : Stmt → Statement → Prop where
  | goto {x : Ident} {n o : Nat} :
      S.jumpAt o = some n → J x n → Aimed S J (.goto x) (.instruction n o)
  | line {l : Line} {node : LineNode} :
      List.Forall₂ (fun d o => Option.Rel J d.val.target? (S.jumpAt o)) l.directives node.directives →
      Aimed S J (.line l) (.line node)
  | choice {items : List ChoiceItem} {span : Span} {next : Nat} {nodes : List ItemNode} :
      List.Forall₂ (fun y n => ∀ x, y = some x → J x n) (ChoiceItem.allExits items)
        (nodes.filterMap ItemNode.exit?) →
      Aimed S J (.choice items span) (.choice next nodes)
  | instruction (e : Expr) (next o : Nat) : Aimed S J (.instruction e) (.instruction next o)
  | conditional (branches : List (Expr × List Stmt)) (otherwise : Option (List Stmt)) (span : Span)
      (last : Nat) (nodes : List (Nat × Nat)) :
      Aimed S J (.conditional branches otherwise span) (.conditional last nodes)
  | hash (h : HashBlock) (next : Nat) (pairs : List PairNode) : Aimed S J (.hash h) (.hash next pairs)
  | speaker (x : Ident) (h : HashBlock) (span : Span) (next i : Nat) (pairs : List PairNode) :
      Aimed S J (.speaker x h span) (.speaker next i pairs)

section

variable {P : Float → Prop} {A : Artifact} {r : Registry}
  {B : Option Ident → List Stmt → Nat → Prop} {J : Ident → Nat → Prop} {next s t : Nat}

mutual

/-- The options of an item that lead to a section lead to one place for each. -/
theorem ItemAt.exits (hJ : ∀ x n, A.Enters x n → J x n) : (i : ChoiceItem) →
    {nodes : List ItemNode} → {s t : Nat} → ItemAt P A r B next i nodes s t →
      List.Forall₂ (fun y n => ∀ x, y = some x → J x n) i.exits (nodes.filterMap ItemNode.exit?)
  | .option guard text target body _, nodes, s, t, h => by
    rw [ItemAt] at h
    obtain ⟨n, g, xs, m, rfl, -, hnone, -, -⟩ := h
    rw [ChoiceItem.exits]
    refine .cons ?_ .nil
    intro x hx
    cases body with
    | some b => cases hx
    | none =>
      obtain rfl : target = some x := hx
      exact hJ x n (hnone rfl)
  | .filter branches otherwise _, nodes, s, t, h => by
    rw [ItemAt] at h
    obtain ⟨xs, ys, m, u, rfl, hbranches, hotherwise, -⟩ := h
    rw [ChoiceItem.exits, List.append_assoc, List.filterMap_append, List.filterMap_append]
    refine List.rel_append (BranchesAt.exits hJ (fun _ => rfl) branches hbranches) ?_
    rw [show List.filterMap ItemNode.exit? [.endIf] = [] from rfl, List.append_nil]
    exact OtherwiseAt.exits hJ otherwise hotherwise

/-- So do those of items. -/
theorem ItemsAt.exits (hJ : ∀ x n, A.Enters x n → J x n) : (is : List ChoiceItem) →
    {nodes : List ItemNode} → {s t : Nat} → ItemsAt P A r B next is nodes s t →
      List.Forall₂ (fun y n => ∀ x, y = some x → J x n) (ChoiceItem.allExits is)
        (nodes.filterMap ItemNode.exit?)
  | [], nodes, s, t, h => by
    rw [ItemsAt] at h
    obtain ⟨rfl, -⟩ := h
    exact .nil
  | i :: is, nodes, s, t, h => by
    rw [ItemsAt] at h
    obtain ⟨xs, ys, m, rfl, hi, his⟩ := h
    rw [ChoiceItem.allExits, List.filterMap_append]
    exact List.rel_append (ItemAt.exits hJ i hi) (ItemsAt.exits hJ is his)

/-- So do those of the branches of a filter, if the mark of the first branch is no option. -/
theorem BranchesAt.exits (hJ : ∀ x n, A.Enters x n → J x n) {mark : Nat → ItemNode}
    (hmark : ∀ o, (mark o).exit? = none) : (bs : List (Expr × List ChoiceItem)) →
    {nodes : List ItemNode} → {s t : Nat} → BranchesAt P A r B next mark bs nodes s t →
      List.Forall₂ (fun y n => ∀ x, y = some x → J x n) (ChoiceItem.branchExits bs)
        (nodes.filterMap ItemNode.exit?)
  | [], nodes, s, t, h => by
    rw [BranchesAt] at h
    obtain ⟨rfl, -⟩ := h
    exact .nil
  | (e, is) :: rest, nodes, s, t, h => by
    rw [BranchesAt] at h
    obtain ⟨xs, ys, m, u, rfl, -, his, hrest⟩ := h
    rw [ChoiceItem.branchExits, List.filterMap_cons_none (hmark _), List.filterMap_append]
    exact List.rel_append (ItemsAt.exits hJ is his) (BranchesAt.exits hJ (fun _ => rfl) rest hrest)

/-- So do those behind the branches. -/
theorem OtherwiseAt.exits (hJ : ∀ x n, A.Enters x n → J x n) : (o : Option (List ChoiceItem)) →
    {nodes : List ItemNode} → {s t : Nat} → OtherwiseAt P A r B next o nodes s t →
      List.Forall₂ (fun y n => ∀ x, y = some x → J x n) (ChoiceItem.otherwiseExits o)
        (nodes.filterMap ItemNode.exit?)
  | none, nodes, s, t, h => by
    rw [OtherwiseAt] at h
    obtain ⟨rfl, -⟩ := h
    exact .nil
  | some is, nodes, s, t, h => by
    rw [OtherwiseAt] at h
    obtain ⟨xs, rfl, his⟩ := h
    rw [ChoiceItem.otherwiseExits, List.filterMap_cons_none rfl]
    exact ItemsAt.exits hJ is his

end

/-- A directive is compiled to a jump just if it leads to a section. -/
theorem DirectiveAt.aimed (hJ : ∀ x n, A.Enters x n → J x n) {d : Spanned Directive} {o : Nat}
    (h : DirectiveAt P A r d o s t) : Option.Rel J d.val.target? (A.script.jumpAt o) := by
  cases h with
  | goto hdecode hx =>
    rw [Script.jumpAt, hdecode]
    exact .some (hJ _ _ hx)
  | auto hdecode =>
    rw [Script.jumpAt, hdecode]
    exact .none
  | speed hdecode _ =>
    rw [Script.jumpAt, hdecode]
    exact .none
  | pause hdecode _ =>
    rw [Script.jumpAt, hdecode]
    exact .none

/-- A statement is compiled to one that is aimed where it leads. -/
theorem NodeAt.aimed (hJ : ∀ x n, A.Enters x n → J x n) {x : Stmt} {node : Statement}
    (h : NodeAt P A r B next x node s t) (hframe : node.isFrame = false) :
    A.script.Aimed J x node := by
  cases h with
  | line _ _ _ _ hdirectives => exact .line (hdirectives.forall₂ fun _ _ _ _ h => h.aimed hJ)
  | instruction _ => exact .instruction ..
  | goto hx hdecode =>
    refine .goto ?_ (hJ _ _ hx)
    rw [Script.jumpAt, hdecode]
  | finish => cases hframe
  | conditional _ _ => exact .conditional ..
  | choice _ hitems => exact .choice (ItemsAt.exits hJ _ hitems)
  | hash _ => exact .hash ..
  | speaker _ _ => exact .speaker ..

end

/-! ## Tags in a line -/

section

variable {σ : Type} {S : Script} {h : Host σ} {sections : Catalog Nat}

/-- Of the sections that the tags of a line name, the last one is where the script goes on. -/
theorem Eval.steer_last {tags : List Tag} {next next' : Nat} {ending ending' : Bool} {x y : Stage σ}
    (hsteer : Eval.steer sections next ending tags x = .ok (next', ending') y) :
    ((tags.filterMap Tag.target?).getLast? = none ∧ next' = next) ∨
      ∃ name, (tags.filterMap Tag.target?).getLast? = some name ∧ sections.find? name = some next' := by
  induction tags generalizing next ending x with
  | nil =>
    obtain ⟨hpair, -⟩ := Eval.pure_eq_ok.mp hsteer
    cases hpair
    exact .inl ⟨rfl, rfl⟩
  | cons tag tags ih =>
    cases tag with
    | goto target =>
      rw [Eval.steer] at hsteer
      obtain ⟨offset, z, hsection, hrest⟩ := Eval.bind_eq_ok.mp hsteer
      have hfind : sections.find? target = some offset := by
        rw [Eval.sectionAt] at hsection
        cases hcase : sections.find? target with
        | none =>
          rw [hcase] at hsection
          cases hsection
        | some n =>
          rw [hcase] at hsection
          rw [(Eval.pure_eq_ok.mp hsection).1]
      have htargets : (Tag.goto target :: tags).filterMap Tag.target? =
          target :: tags.filterMap Tag.target? := rfl
      rw [htargets, List.getLast?_cons]
      -- a section that is named further on takes the place of this one
      rcases ih hrest with ⟨hnone, rfl⟩ | ⟨name, hlast, hname⟩
      · exact .inr ⟨target, by rw [hnone]; rfl, hfind⟩
      · exact .inr ⟨name, by rw [hlast]; rfl, hname⟩
    | _ => exact ih hsteer

/-- The last of the tags that lead to a section says where a line goes on. -/
theorem Eval.find?_of_steer {tags : List Tag} {next next' : Nat} {ending ending' : Bool} {x y : Stage σ}
    (hsteer : Eval.steer sections next ending tags x = .ok (next', ending') y) {name : String}
    (hname : (tags.filterMap Tag.target?).getLast? = some name) :
    sections.find? name = some next' := by
  rcases Eval.steer_last hsteer with ⟨hnone, -⟩ | ⟨name', hlast, hfind⟩
  · rw [hname] at hnone
    cases hnone
  · rw [hname] at hlast
    cases hlast
    exact hfind

/-- Tags that name sections which there are do not fail. -/
theorem Eval.exists_steer {tags : List Tag}
    (htags : ∀ name ∈ tags.filterMap Tag.target?, (sections.find? name).isSome) (next : Nat)
    (ending : Bool) (x : Stage σ) :
    ∃ next' ending', Eval.steer sections next ending tags x = .ok (next', ending') x := by
  induction tags generalizing next ending with
  | nil => exact ⟨next, ending, rfl⟩
  | cons tag tags ih =>
    cases tag with
    | goto target =>
      have htargets : (Tag.goto target :: tags).filterMap Tag.target? =
          target :: tags.filterMap Tag.target? := rfl
      rw [htargets, List.forall_mem_cons] at htags
      obtain ⟨offset, hoffset⟩ := Option.isSome_iff_exists.mp htags.1
      obtain ⟨next', ending', hrest⟩ := ih htags.2 offset ending
      refine ⟨next', ending', ?_⟩
      rw [Eval.steer, Eval.bind_of_ok (a := offset) (y := x), hrest]
      rw [Eval.sectionAt, hoffset]
      rfl
    | finish => exact ih htags next true
    | _ => exact ih htags next ending

/-- A line that names a section in its timeline leads there. -/
theorem LineComes.target {l : LineNode} {next : Nat} {ending : Bool} {speakers : List String}
    {text : String} {cues : List Cue} {events : List Event} {name : String}
    (hline : LineComes S h sections l next ending (.line speakers text cues :: events))
    (hname : (cues.filterMap fun c => c.tag.target?).getLast? = some name) :
    sections.find? name = some next := by
  obtain ⟨heval, -⟩ := hline
  rw [Eval.line, Eval.bind_eq_ok] at heval
  obtain ⟨raw, x₁, -, heval⟩ := heval
  obtain ⟨⟨more, next'⟩, x₂, -, heval⟩ := Eval.bind_eq_ok.mp heval
  obtain ⟨names, x₃, -, heval⟩ := Eval.bind_eq_ok.mp heval
  obtain ⟨⟨target, closing⟩, x₄, hsteer, heval⟩ := Eval.bind_eq_ok.mp heval
  obtain ⟨houtcome, -⟩ := Eval.pure_eq_ok.mp heval
  cases houtcome
  rw [← Function.comp_def, ← List.filterMap_map] at hname
  exact Eval.find?_of_steer hsteer hname

/-- Directives deliver no line. -/
theorem Directed.line_notMem {eval : Nat → Eval σ Value} {ds : List Nat} {events : List Event}
    (hds : Directed S eval ds events) (speakers : List String) (text : String) (cues : List Cue) :
    .line speakers text cues ∉ events := by
  induction hds with
  | nil => simp
  | silent _ _ _ _ _ ih => exact ih
  | _ => simpa

/-- An advance that shows a line stops where the line leads. -/
theorem Session.Coherent.advance_line {events : List Event} {s s' : Session} {limit : Nat}
    {returned : Buffer Event} {memory memory' : σ} (hs : s.Coherent events)
    (hadvance : s.advance h limit memory = some (.ok returned, s', memory')) {speakers : List String}
    {text : String} {cues : List Cue} (hmem : .line speakers text cues ∈ returned.items)
    {name : String} (hname : (cues.filterMap fun c => c.tag.target?).getLast? = some name) :
    s.sections.find? name = some s'.pointer := by
  have hrunning : s.status = .running := by
    by_contra hstatus
    rw [Session.advance, Session.advanceWith, if_neg hstatus] at hadvance
    cases hadvance
  obtain ⟨pool, -, hadvances⟩ :=
    Session.advance_advances hs.eventPool hs.choicePool hrunning hadvance
  generalize hreply : Except.map Buffer.items (.ok returned) = reply at hadvances
  cases hadvances with
  | error _ _ _ => cases hreply
  | @ok t _ hashes last hturns hwait =>
    have hitems : returned.items = hashes ++ last := Except.ok.inj hreply
    obtain ⟨hhashes, -, -, hsections⟩ := hturns.isHash
    rw [hitems] at hmem
    -- statements that lead on return hash data only, so the line is the one that the advance stops at
    rcases List.mem_append.mp hmem with hmem | hmem
    · have := hhashes _ hmem
      cases this
    cases hwait with
    | shown _ _ hline =>
      have hcopy := hline
      obtain ⟨-, hdirected⟩ := hcopy
      rcases List.mem_cons.mp hmem with heq | hmem
      · cases heq
        have hfind := hline.target hname
        rwa [hsections] at hfind
      · exact absurd hmem (hdirected.line_notMem _ _ _)
    | suspended _ => cases hmem
    | _ => simp at hmem

end

/-! ## Agreement -/

/-- A target that names a section leads to where the table has it.  Nothing is said of a name that is
not in the table. -/
def Catalog.Sends (table : Catalog Nat) (x : Ident) (n : Nat) : Prop :=
  ∀ m, table.find? x.name = some m → n = m

/-- The table of the sections of a script, the statements `xs` of the script, and what runs of it do
agree on where the sections of a story are. -/
structure SectionsAgree (story : Story) (S : Script) (table : Catalog Nat)
    (xs : List (Nat × Statement)) : Prop where
  sectionTable : S.sectionTable = .ok table
  /-- The names in the table are those of the story. -/
  declared : ∀ name, (table.find? name).isSome ↔ ∃ x ∈ story, x.name.name = name
  /-- These are all statements of the script. -/
  walk : S.Walk 0 xs S.words.size
  /-- A section is where its entry is, and no other entry has its name. -/
  entry : ∀ name n, table.find? name = some n ↔ S.Entry xs n name
  /-- Statements, directives and options that name a section lead to it. -/
  compiled : List.Forall₂ (fun x p => S.Aimed table.Sends x p.2) story.flat
    (xs.filter fun p => !p.2.isFrame)
  /-- A start enters the section. -/
  start : ∀ past s name n, History S past s → s.status ≠ .awaitingCall → table.find? name = some n →
    (s.start name).1 = .ok () ∧ (s.start name).2.pointer = n
  /-- Tags that name sections of the story lead to the last one of them. -/
  steer : ∀ tags, (∀ name ∈ tags.filterMap Tag.target?, ∃ x ∈ story, x.name.name = name) →
    ∀ {σ : Type} next ending (x : Stage σ), ∃ next' ending',
      Eval.steer table next ending tags x = .ok (next', ending') x ∧
      ∀ name, (tags.filterMap Tag.target?).getLast? = some name → table.find? name = some next'
  /-- A line that names a section in its text goes on there; of several names the last one counts. -/
  inline : ∀ past s, History S past s → ∀ {σ : Type} (h : Host σ) limit memory returned s' memory',
    s.advance h limit memory = some (.ok returned, s', memory') →
    ∀ speakers text cues name, .line speakers text cues ∈ returned.items →
      (cues.filterMap fun c => c.tag.target?).getLast? = some name →
      table.find? name = some s'.pointer

section

variable {P : Float → Prop} {r : Registry} {story : Story} {c : Compilation} {A : Artifact}
  {labels : List Label} {table : Catalog Nat}

/-- A mention of a section of the story leads to where a section of that name stands. -/
theorem Compiled.stands_of_enters (h : Compiled P r story c A labels) {x : Ident} {n : Nat}
    (hx : A.Enters x n) (hstory : ∃ y ∈ story, y.name.name = x.name) :
    story.Stands A labels n x.name := by
  obtain ⟨l, hmention, rfl, -⟩ := hx
  obtain ⟨y, hy, hname⟩ := h.found x l hmention.labels hstory
  exact ⟨y, l, hy, rfl, hname⟩

/-- A table that has the sections of a story has their names. -/
theorem Compiled.isSome_find?_iff (h : Compiled P r story c A labels)
    (hfind : ∀ name n, table.find? name = some n ↔ story.Stands A labels n name) (name : String) :
    (table.find? name).isSome ↔ ∃ x ∈ story, x.name.name = name := by
  constructor
  · intro hsome
    obtain ⟨n, hn⟩ := Option.isSome_iff_exists.mp hsome
    obtain ⟨x, l, hx, -, hname⟩ := (hfind name n).mp hn
    exact ⟨x, (List.of_mem_zip hx).1, hname⟩
  · rintro ⟨x, hx, rfl⟩
    obtain ⟨l, hl, -⟩ := h.sections.exists_of_mem_left hx
    rw [(hfind x.name.name (A.target l)).mpr ⟨x, l, hl, rfl, rfl⟩]
    rfl

/-- A table that has the sections of a story has them where all mentions of them lead. -/
theorem Compiled.sends (h : Compiled P r story c A labels)
    (hfind : ∀ name n, table.find? name = some n ↔ story.Stands A labels n name) {x : Ident} {n : Nat}
    (hx : A.Enters x n) : table.Sends x n := by
  intro m hm
  have hdeclared := (h.isSome_find?_iff hfind x.name).mp (by rw [hm]; rfl)
  rw [(hfind x.name n).mpr (h.stands_of_enters hx hdeclared)] at hm
  exact Option.some.inj hm

end

/-- In the script of a story that declares no section twice, the table of sections, all compiled targets,
tags in shown lines and starts agree on where the sections are. -/
theorem compile_sections_agree (r : Registry) (o : CompileOptions) (story : Story)
    (haddressable : (compile r o story).script.Addressable)
    (hunique : ∀ name span first,
      .compile (.duplicateSection name span first) ∉ (compile r o story).diagnostics) :
    ∃ table xs, SectionsAgree story (compile r o story).script table xs := by
  obtain ⟨A, labels, hA⟩ := exists_compiled_of_any r o story haddressable
  obtain ⟨table, htable, hfind⟩ := hA.exists_table hunique
  obtain ⟨xs, hxs⟩ := hA.flat
  obtain ⟨ws, hlaid⟩ := hA.exists_laid
  -- both are what is read from the start of the script to its end
  obtain rfl := hxs.walk.unique hlaid.walk
  rw [← hA.script]
  refine ⟨table, ws, htable, hA.isSome_find?_iff hfind, hlaid.walk, ?_, ?_, ?_, ?_, ?_⟩
  · intro name n
    rw [hfind, hlaid.entry_iff]
  · refine hxs.nodes.imp ?_
    rintro x p ⟨hframe, next, m, -, hnode⟩
    exact hnode.aimed (fun _ _ => hA.sends hfind) hframe
  · intro past s name n hpast hstatus hn
    rw [← hpast.sections_eq htable] at hn
    rw [Session.start_of_section hstatus hn]
    exact ⟨rfl, rfl⟩
  · intro tags htags σ next ending x
    obtain ⟨next', ending', hsteer⟩ := Eval.exists_steer
      (fun name hname => (hA.isSome_find?_iff hfind name).mpr (htags name hname)) next ending x
    exact ⟨next', ending', hsteer, fun name hname => Eval.find?_of_steer hsteer hname⟩
  · intro past s hpast σ h limit memory returned s' memory' hadvance speakers text cues name hmem hname
    rw [← hpast.sections_eq htable]
    exact hpast.coherent.advance_line hadvance hmem hname

/-- A story with jumps of all kinds to the pond. -/
def crossroads : String :=
  "=== fork\nchoice \x7b\n* Swim -> pond\n* Walk \x7b\nAnn: Mind the mud. <<goto pond>>\n\x7d\n\x7d\n-> pond\n=== pond\nAnn: Wet again.[goto=pond]\n"

/-- At the crossroads a directive, a target, a jump and a tag lead to the pond. -/
theorem sections_agree_at_crossroads : ∃ table xs, SectionsAgree (parse none crossroads).1
    (compile Registry.empty {} (parse none crossroads).1).script table xs ∧
      (table.find? "pond").isSome := by
  obtain ⟨haddressable, hnone, hpond⟩ :
      (compile Registry.empty {} (parse none crossroads).1).script.Addressable ∧
      (compile Registry.empty {} (parse none crossroads).1).diagnostics = [] ∧
      ∃ x ∈ (parse none crossroads).1, x.name.name = "pond" := by
    decide +kernel
  obtain ⟨table, xs, hagree⟩ := compile_sections_agree Registry.empty {} (parse none crossroads).1
    haddressable (by simp [hnone])
  exact ⟨table, xs, hagree, (hagree.declared "pond").mpr hpond⟩

end Colloquy
