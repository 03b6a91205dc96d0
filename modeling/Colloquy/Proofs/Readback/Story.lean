import Colloquy.Proofs.Layout.WellFormed
import Colloquy.Proofs.Readback.Clause

/-!
# Stories read back

Reading a compiled script from its start to its end gives back the story: section by section, its entry,
the clauses of its body in order, and an end where control may fall off the body.  At most one end for
targets that lead nowhere stands behind all sections (`compile_readback`).
-/

namespace Colloquy

open Code

/-! ## A statement and the blocks inside it -/

section

variable (r : Registry) (g : Ident → Option String)

/-- The clause of a statement itself, without the hash data of a line and the blocks inside. -/
def Stmt.clause : Stmt → Clause
  | .line l => .line (l.speakers.map SpeakerRef.part) (l.text.map (Segment.part r))
      (l.directives.map fun d => d.val.term r g)
  | .instruction e => .instruction (e.term r)
  | .goto x => .instruction (.goto (g x))
  | .finish _ => .finish
  | .conditional branches _ _ => .conditional (branches.map fun b => b.1.term r)
  | .choice items _ => .choice (ChoiceItem.allEntries r items)
  | .hash h => .hash (h.parts r)
  | .speaker x h _ => .speaker x.name (h.parts r)

/-- The clauses of blocks. -/
def blockClauses (bs : List (Option Ident × List Stmt)) : List Clause :=
  bs.flatMap fun b => Stmt.allClauses r g b.2

/-- The clauses of a section, up to its end. -/
def Section.clauses (x : Section) : List Clause :=
  .entry x.name.name :: Stmt.allClauses r g x.body

end

section

variable {r : Registry} {g : Ident → Option String}

theorem blockClauses_append (as bs : List (Option Ident × List Stmt)) :
    blockClauses r g (as ++ bs) = blockClauses r g as ++ blockClauses r g bs :=
  List.flatMap_append

mutual

/-- The clauses of an item are those of the bodies in it. -/
theorem ChoiceItem.clauses_eq : (i : ChoiceItem) → i.clauses r g = blockClauses r g i.bodies
  | .option _ _ target body _ => by
    rw [ChoiceItem.clauses, ChoiceItem.bodies]
    cases body with
    | none =>
      rw [Stmt.otherwiseClauses]
      rfl
    | some b =>
      rw [Stmt.otherwiseClauses]
      exact (List.append_nil _).symm
  | .filter branches otherwise _ => by
    rw [ChoiceItem.clauses, ChoiceItem.bodies, blockClauses_append,
      ChoiceItem.branchClauses_eq branches, ChoiceItem.otherwiseClauses_eq otherwise]

/-- So are those of items. -/
theorem ChoiceItem.allClauses_eq : (is : List ChoiceItem) →
    ChoiceItem.allClauses r g is = blockClauses r g (ChoiceItem.allBodies is)
  | [] => by
    rw [ChoiceItem.allClauses, ChoiceItem.allBodies]
    rfl
  | i :: is => by
    rw [ChoiceItem.allClauses, ChoiceItem.allBodies, blockClauses_append,
      ChoiceItem.clauses_eq i, ChoiceItem.allClauses_eq is]

/-- So are those of the branches of a filter. -/
theorem ChoiceItem.branchClauses_eq : (bs : List (Expr × List ChoiceItem)) →
    ChoiceItem.branchClauses r g bs = blockClauses r g (ChoiceItem.branchBodies bs)
  | [] => by
    rw [ChoiceItem.branchClauses, ChoiceItem.branchBodies]
    rfl
  | (_, is) :: rest => by
    rw [ChoiceItem.branchClauses, ChoiceItem.branchBodies, blockClauses_append,
      ChoiceItem.allClauses_eq is, ChoiceItem.branchClauses_eq rest]

/-- So are those of what stands behind the branches. -/
theorem ChoiceItem.otherwiseClauses_eq : (o : Option (List ChoiceItem)) →
    ChoiceItem.otherwiseClauses r g o = blockClauses r g (ChoiceItem.otherwiseBodies o)
  | none => by
    rw [ChoiceItem.otherwiseClauses, ChoiceItem.otherwiseBodies]
    rfl
  | some is => by
    rw [ChoiceItem.otherwiseClauses, ChoiceItem.otherwiseBodies, ChoiceItem.allClauses_eq is]

end

/-- The clauses of the branches of a conditional are those of their blocks. -/
theorem Stmt.branchClauses_eq (bs : List (Expr × List Stmt)) :
    Stmt.branchClauses r g bs = blockClauses r g (bs.map fun b => (none, b.2)) := by
  induction bs with
  | nil =>
    rw [Stmt.branchClauses]
    rfl
  | cons b bs ih =>
    rw [Stmt.branchClauses, ih]
    rfl

/-- The clauses of a statement are its own and then those of its blocks; a line has its hash data in
front. -/
theorem Stmt.clauses_eq {x : Stmt} (hhash : ∀ l, x = .line l → l.hash = none) :
    x.clauses r g = x.clause r g :: blockClauses r g x.blocks := by
  cases x with
  | line l =>
    rw [Stmt.clauses, Line.clauses, hhash l rfl]
    rfl
  | conditional branches otherwise span =>
    rw [Stmt.clauses, Stmt.blocks, blockClauses_append, Stmt.branchClauses_eq]
    cases otherwise with
    | none =>
      rw [Stmt.otherwiseClauses, Option.getD_none]
      rfl
    | some b =>
      rw [Stmt.otherwiseClauses, Option.getD_some]
      have hlast : blockClauses r g [(none, b)] = Stmt.allClauses r g b := List.append_nil _
      rw [hlast]
      rfl
  | choice items span =>
    rw [Stmt.clauses, ChoiceItem.allClauses_eq]
    rfl
  | _ =>
    rw [Stmt.clauses]
    rfl

end

/-! ## Statements are read back -/

section

variable {P : Float → Prop} {A : Artifact} {r : Registry} {g : Ident → Option String}
  {B : Option Ident → List Stmt → Nat → Prop} {s n e m t next : Nat}

/-- A statement of a script shows the clause of the statement it was lowered from. -/
theorem NodeAt.shows (hS : A.script.words.size < UInt32.size)
    (hg : ∀ x n, A.Enters x n → A.script.Enters (g x) n) {x : Stmt} {node : Statement}
    (h : NodeAt P A r B next x node s t) : A.script.Shows (x.clause r g) node s t := by
  cases h with
  | line _ hspeakers htext _ hdirectives =>
    refine .line (hspeakers.map_left fun _ _ _ _ h => h.shows)
      (htext.map_left fun _ _ _ _ h => h.shows hS) ?_
    exact .of_row hdirectives fun _ _ _ _ _ h => h.spells hS hg
  | instruction he => exact .instruction (he.spells hS)
  | goto hx hdecode => exact .instruction (.goto hdecode (hg _ _ hx))
  | finish => exact .finish
  | conditional hbranches _ =>
    refine .conditional (hbranches.map_left ?_)
    rintro _ _ _ _ ⟨he, _⟩
    exact .intro (he.spells hS)
  | choice _ hitems => exact .choice (ItemsAt.shows hS _ hitems)
  | hash hpairs => exact .hash (hpairs.map_left fun _ _ _ _ h => h.shows hS)
  | speaker hx hpairs => exact .speaker hx (hpairs.map_left fun _ _ _ _ h => h.shows hS)

/-- One of some statements leads to an offset. -/
def Aims (nodes : List Statement) (n : Nat) : Prop := ∃ node ∈ nodes, n ∈ node.targets

theorem Aims.left {xs : List Statement} (h : Aims xs n) (ys : List Statement) : Aims (xs ++ ys) n := by
  obtain ⟨node, hmem, hn⟩ := h
  exact ⟨node, List.mem_append_left _ hmem, hn⟩

theorem Aims.right {ys : List Statement} (xs : List Statement) (h : Aims ys n) : Aims (xs ++ ys) n := by
  obtain ⟨node, hmem, hn⟩ := h
  exact ⟨node, List.mem_append_right _ hmem, hn⟩

/-- A statement and its blocks are read back, and where control may go on behind it, a target leads
there. -/
def StmtTold (P : Float → Prop) (A : Artifact) (r : Registry) (g : Ident → Option String) (x : Stmt) :
    Prop :=
  ∀ s next t, StmtAt P A r x s next t → ∃ nodes, Row A.script.Tells (x.clauses r g) nodes s t ∧
    (Falls x → Aims nodes next)

/-- A block is read back.  Where control may fall off it, a target leads there; an empty block is left
where it is entered. -/
theorem BlockAt.told {b : List Stmt} (hb : ∀ x ∈ b, StmtTold P A r g x)
    (h : BlockAt P A r b s n e t) : ∃ nodes, Row A.script.Tells (Stmt.allClauses r g b) nodes s t ∧
      (FallsOff b → b = [] ∧ n = e ∨ Aims nodes e) := by
  induction b generalizing s n with
  | nil =>
    cases h
    rw [Stmt.allClauses]
    exact ⟨[], .nil _, fun _ => .inl ⟨rfl, rfl⟩⟩
  | cons x b ih =>
    cases h with
    | cons hx hrest =>
      obtain ⟨nodes, hnodes, hfalls⟩ := hb x (List.mem_cons_self ..) _ _ _ hx
      obtain ⟨rest, hrow, hoff⟩ := ih (fun y hy => hb y (List.mem_cons_of_mem _ hy)) hrest
      rw [Stmt.allClauses]
      refine ⟨nodes ++ rest, hnodes.append hrow, ?_⟩
      intro hlast
      right
      cases b with
      | nil =>
        -- the only statement leads to where the block is left to
        cases hrest
        exact (hfalls (fallsOff_singleton.mp hlast)).left rest
      | cons y b =>
        rw [fallsOff_cons_cons] at hlast
        rcases hoff hlast with ⟨hnil, _⟩ | haims
        · cases hnil
        · exact haims.right nodes

/-- Blocks are read back one after another. -/
theorem BlocksAt.told {bs : List (Option Ident × List Stmt)} {ns : List Nat}
    (hb : ∀ p ∈ bs, ∀ x ∈ p.2, StmtTold P A r g x) (h : BlocksAt P A r bs ns next s t) :
    ∃ nodes, Row A.script.Tells (blockClauses r g bs) nodes s t ∧
      ∀ b n, ((none, b), n) ∈ bs.zip ns → FallsOff b → n = next ∨ Aims nodes next := by
  induction bs generalizing s ns with
  | nil =>
    cases h
    exact ⟨[], .nil _, by simp⟩
  | cons p bs ih =>
    cases h with
    | cons hblock hleads hrest =>
      obtain ⟨nodes, hnodes, hoff⟩ := hblock.told (hb _ (List.mem_cons_self ..))
      obtain ⟨rest, hrow, haims⟩ := ih (fun q hq => hb q (List.mem_cons_of_mem _ hq)) hrest
      refine ⟨nodes ++ rest, hnodes.append hrow, ?_⟩
      intro b n hmem hfalls
      rcases List.mem_cons.mp hmem with heq | hmem
      · cases heq
        cases hleads
        exact (hoff hfalls).imp And.right fun h => h.left rest
      · exact (haims b n hmem hfalls).imp_right fun h => h.right nodes

/-- A block that control may fall off behind a conditional is entered at one of its targets. -/
theorem NodeAt.exists_target {x : Stmt} {node : Statement} (h : NodeAt P A r B next x node s t)
    (hfalls : Falls x) :
    next ∈ node.targets ∨ ∃ b n, B none b n ∧ FallsOff b ∧ n ∈ node.targets := by
  cases h with
  | @conditional branches otherwise _ last nodes _ _ hbranches hlast =>
    right
    obtain ⟨b, hmem, hoff⟩ := falls_conditional.mp hfalls
    rcases List.mem_append.mp hmem with hmem | hmem
    · obtain ⟨c, hc, heq⟩ := List.mem_map.mp hmem
      cases heq
      obtain ⟨_, hzip, _, _, hbranch⟩ := hbranches.exists_of_mem_left hc
      cases hbranch with
      | intro _ hB =>
        refine ⟨_, _, hB, hoff, List.mem_cons_of_mem _ ?_⟩
        exact List.mem_map_of_mem (List.of_mem_zip hzip).2
    · cases List.mem_singleton.mp hmem
      exact ⟨_, last, hlast, hoff, List.mem_cons_self ..⟩
  | goto _ _ => cases hfalls
  | finish => cases hfalls
  | _ => exact .inl (List.mem_cons_self ..)

/-- A statement with its blocks is told, if the statements in its blocks are: first its clause, and then
the clauses of the blocks. -/
theorem NodeAt.told {x : Stmt} {node : Statement} {entries : List Nat}
    (hS : A.script.words.size < UInt32.size) (hg : ∀ x n, A.Enters x n → A.script.Enters (g x) n)
    (hx : ∀ p ∈ x.blocks, ∀ y ∈ p.2, StmtTold P A r g y) (hhash : ∀ l, x = .line l → l.hash = none)
    (hdecode : A.script.decodeStatement s = .ok (node, m))
    (hnode : NodeAt P A r (fun y b n => ((y, b), n) ∈ x.blocks.zip entries) next x node s m)
    (hblocks : BlocksAt P A r x.blocks entries next m t) :
    ∃ nodes, Row A.script.Tells (x.clauses r g) nodes s t ∧ (Falls x → Aims nodes next) := by
  obtain ⟨nodes, hrow, haims⟩ := hblocks.told hx
  rw [Stmt.clauses_eq hhash]
  refine ⟨node :: nodes, .cons ⟨hdecode, hnode.shows hS hg⟩ hrow, ?_⟩
  intro hfalls
  rcases hnode.exists_target hfalls with hnext | ⟨b, n, hmem, hoff, hn⟩
  · exact ⟨node, List.mem_cons_self .., hnext⟩
  · rcases haims b n hmem hoff with rfl | h
    · exact ⟨node, List.mem_cons_self .., hn⟩
    · exact h.right [node]

/-- Every statement is told, by induction on its size. -/
theorem stmtTold (hS : A.script.words.size < UInt32.size)
    (hg : ∀ x n, A.Enters x n → A.script.Enters (g x) n) (x : Stmt) : StmtTold P A r g x := by
  induction x using Stmt.induction with
  | step x ih =>
    intro s next t h
    cases h with
    | node hdecode hnode hblocks =>
      refine hnode.told hS hg ih ?_ hdecode hblocks
      rintro l rfl
      cases hnode with
      | line hhash => exact hhash
    | @hashed l hash pairs _ _ m _ hhash hdecode hpairs hline =>
      -- the line that follows has no hash data of its own
      cases hline with
      | hashed hnone => cases hnone
      | node hdecode' hnode hblocks =>
        obtain ⟨nodes, hrow, haims⟩ := hnode.told hS hg (by simp [Stmt.blocks])
          (fun _ h => Stmt.line.inj h ▸ rfl) hdecode' hblocks
        have hclauses : (Stmt.line l).clauses r g
            = .hash (hash.parts r) :: (Stmt.line { l with hash := none }).clauses r g := by
          rw [Stmt.clauses, Stmt.clauses, Line.clauses, Line.clauses, hhash]
          rfl
        rw [hclauses]
        refine ⟨_, .cons ⟨hdecode, .hash (hpairs.map_left fun _ _ _ _ h => h.shows hS)⟩ hrow, ?_⟩
        intro _
        exact (haims (.line _)).right [_]

end

/-! ## Sections are read back -/

/-- A section between two offsets.  It has an end exactly if control may fall off its body, and then
one of its targets leads there. -/
inductive Script.TellsSection (S : Script) (r : Registry) (g : Ident → Option String) (x : Section) :
    List Statement → Nat → Nat → Prop where
  | left {nodes : List Statement} {s t : Nat} : ¬FallsOff x.body →
      Row S.Tells (x.clauses r g) nodes s t → TellsSection S r g x nodes s t
  | ended {nodes : List Statement} {s t : Nat} : FallsOff x.body →
      Row S.Tells (x.clauses r g) nodes s t → Aims nodes t → S.Tells .finish .finish t (t + 1) →
      TellsSection S r g x (nodes ++ [.finish]) s (t + 1)

/-- A section is told: its entry, the clauses of its body, and an end if control may fall off. -/
theorem SectionAt.told {P : Float → Prop} {A : Artifact} {r : Registry}
    {g : Ident → Option String} {x : Section} {s t : Nat} (hS : A.script.words.size < UInt32.size)
    (hg : ∀ x n, A.Enters x n → A.script.Enters (g x) n) (h : SectionAt P A r x s t) :
    ∃ nodes, A.script.TellsSection r g x nodes s t := by
  obtain ⟨n, i, e, m, hdecode, hname, hbody, hend⟩ := h.body
  obtain ⟨nodes, hrow, haims⟩ := hbody.told fun y _ => stmtTold hS hg y
  have hall : Row A.script.Tells (x.clauses r g) (.entry n i :: nodes) s m :=
    .cons ⟨hdecode, .entry hname⟩ hrow
  rcases hend with ⟨hnot, rfl⟩ | ⟨hfalls, rfl, hfinish, rfl⟩
  · exact ⟨_, .left hnot hall⟩
  · refine ⟨_, .ended hfalls hall ?_ ⟨hfinish, .finish⟩⟩
    rcases haims hfalls with ⟨_, rfl⟩ | h
    · exact ⟨_, List.mem_cons_self .., List.mem_singleton_self _⟩
    · exact h.right [_]

/-! ## Compiled stories are read back -/

/-- The section that a name stands for, if there is one. -/
def Story.target (story : Story) (x : Ident) : Option String :=
  if story.any fun y => y.name.name = x.name then some x.name else none

section

variable {P : Float → Prop} {r : Registry} {story : Story} {c : Compilation} {A : Artifact}
  {labels : List Label}

/-- A mention of a section leads to its entry, and one of a section that there is not to the end of the
script. -/
theorem Compiled.enters (h : Compiled P r story c A labels) {x : Ident} {n : Nat}
    (hx : A.Enters x n) : A.script.Enters (story.target x) n := by
  obtain ⟨l, hmention, rfl, hl⟩ := hx
  rw [Story.target]
  by_cases hany : (story.any fun y => y.name.name = x.name) = true
  · rw [if_pos hany]
    obtain ⟨z, hz, hzname⟩ := List.any_eq_true.mp hany
    obtain ⟨y, hy, hname⟩ := h.found x l hmention.labels ⟨z, hz, by simpa using hzname⟩
    obtain ⟨s, t, rfl, hsection⟩ := h.sections.exists_of_mem_zip hy
    obtain ⟨n, i, e, m, hdecode, hi, _⟩ := hsection.body
    exact ⟨n, i, _, hdecode, hname ▸ hi⟩
  · rw [if_neg hany]
    rcases hl with hbound | ⟨htrap, htrapped⟩
    · obtain ⟨y, hy, hname⟩ := h.declared x l hmention.labels hbound
      exact absurd (List.any_eq_true.mpr ⟨y, (List.of_mem_zip hy).1, by simpa using hname⟩) hany
    · show A.script.decodeStatement _ = _
      rw [htrap, ← htrapped.size]
      exact decode_finish htrapped.word

/-- What is read in a compiled script from its start to its end: the sections of the story in order, and
behind them nothing or an end for targets that lead nowhere. -/
theorem Compiled.told (h : Compiled P r story c A labels) :
    ∃ nodes, Row (A.script.TellsSection r story.target) story nodes 0 A.trap ∧
      (A.script.words.size = A.trap ∨ A.script.Tells .finish .finish A.trap A.script.words.size) := by
  have hS := h.fits.addressable.words
  have hsections : ∀ {xs : List Section} {ls : List Label} {s t : Nat},
      Row (SectionBetween P A r) xs ls s t →
      ∃ nodes, Row (A.script.TellsSection r story.target) xs nodes s t := by
    intro xs ls s t hrow
    induction hrow with
    | nil s => exact ⟨[], .nil s⟩
    | cons hfirst _ ih =>
      obtain ⟨nodes, hnodes⟩ := hfirst.2.told hS fun _ _ => h.enters
      obtain ⟨rest, hrest⟩ := ih
      exact ⟨_, .cons hnodes hrest⟩
  obtain ⟨nodes, hnodes⟩ := hsections h.sections
  refine ⟨nodes, hnodes, h.size.imp_right ?_⟩
  intro htrapped
  rw [← htrapped.size]
  exact ⟨decode_finish htrapped.word, .finish⟩

end

/-- Decoding a compiled script from its start, statement by statement, gives back the story: each
section as its entry and the clauses of its body, with an end exactly where control may fall off it, and
then at most one more end for targets that lead nowhere.  Operands are the terms of the story's
expressions, with floats up to those that share a place in the pool. -/
theorem compile_readback (r : Registry) (o : CompileOptions) (story : Story)
    (h : (compile r o story).script.Addressable) :
    ∃ nodes trap, Row ((compile r o story).script.TellsSection r story.target) story nodes 0 trap ∧
      ((compile r o story).script.words.size = trap ∨
        (compile r o story).script.Tells .finish .finish trap
          (compile r o story).script.words.size) := by
  obtain ⟨A, labels, hA⟩ := exists_compiled_of_any r o story h
  obtain ⟨nodes, hnodes, hend⟩ := hA.told
  rw [← hA.script]
  exact ⟨nodes, A.trap, hnodes, hend⟩

/-- A registry with a function that has a default. -/
def innRegistry : Registry :=
  Registry.empty.addFunction ⟨"price", .float, [⟨.string, none⟩, ⟨.bool, some (.bool false)⟩], false⟩

/-- A story with hash data on a line, a filter, an option to a section that there is not, and a section
that is never left. -/
def innStory : Story :=
  [⟨⟨"inn", ⟨0, 3⟩⟩, ⟨0, 3⟩,
    [.line ⟨[.named ⟨"Host", ⟨4, 4⟩⟩],
      [.text ⟨"A bed is ", ⟨9, 9⟩⟩, .placeholder (.group (.call ⟨"price", ⟨19, 5⟩⟩
        [.literal (.string "bed") ⟨25, 5⟩] none ⟨30, 1⟩))], [⟨.auto, ⟨32, 4⟩⟩],
      some ⟨[⟨⟨"loud", ⟨37, 4⟩⟩, []⟩], ⟨35, 8⟩⟩, ⟨4, 39⟩⟩,
    .choice [.filter [(.literal (.bool true) ⟨45, 4⟩,
        [.option none [.text ⟨"Pay", ⟨50, 3⟩⟩] (some ⟨"cellar", ⟨55, 6⟩⟩) none ⟨50, 11⟩])]
        (some [.option none [.text ⟨"Wait", ⟨62, 4⟩⟩] none (some []) ⟨62, 4⟩]) ⟨45, 21⟩] ⟨44, 23⟩]⟩,
  ⟨⟨"yard", ⟨70, 4⟩⟩, ⟨70, 4⟩, [.goto ⟨"inn", ⟨75, 3⟩⟩]⟩]

/-- The inn is read back with its default, and what stands behind it is nothing or one end. -/
theorem readback_of_inn :
    ∃ nodes trap, Row ((compile innRegistry {} innStory).script.TellsSection innRegistry
        innStory.target) innStory nodes 0 trap ∧
      ((compile innRegistry {} innStory).script.words.size = trap ∨
        (compile innRegistry {} innStory).script.Tells .finish .finish trap
          (compile innRegistry {} innStory).script.words.size) :=
  compile_readback innRegistry {} innStory (by decide +kernel)

end Colloquy
