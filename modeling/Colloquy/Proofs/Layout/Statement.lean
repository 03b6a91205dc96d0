import Colloquy.Proofs.Layout.Item

/-!
# Statements in a script

`StmtAt x s next t` says that the words from `s` up to `t` are those of the statement `x` and of the
blocks inside it, and that control goes on to `next` after it.  `BlockAt b s n e t` says the same of a
block that is entered at `n` and left to `e`; an empty block takes up no words and is left where it is
entered.  What is left is described by what comes next in the source, so no labels appear here.
-/

namespace Colloquy

open Code

/-! ## Blocks inside statements -/

/-- The blocks inside a statement, in the order of their words.  A block of an option may lead on to a
section; all others lead on to the statement behind. -/
def Stmt.blocks : Stmt → List (Option Ident × List Stmt)
  | .conditional branches otherwise _ =>
    (branches.map fun b => (none, b.2)) ++ [(none, otherwise.getD [])]
  | .choice items _ => ChoiceItem.allBodies items
  | _ => []

/-- Control may go on to what stands behind a statement. -/
inductive Falls : Stmt → Prop where
  | line (l : Line) : Falls (.line l)
  | instruction (e : Expr) : Falls (.instruction e)
  | hash (h : HashBlock) : Falls (.hash h)
  | speaker (x : Ident) (h : HashBlock) (span : Span) : Falls (.speaker x h span)
  | choice (items : List ChoiceItem) (span : Span) : Falls (.choice items span)
  | empty {branches : List (Expr × List Stmt)} {otherwise : Option (List Stmt)} {span : Span} :
      (none, []) ∈ (Stmt.conditional branches otherwise span).blocks →
      Falls (.conditional branches otherwise span)
  | last {branches : List (Expr × List Stmt)} {otherwise : Option (List Stmt)} {span : Span}
      {b : List Stmt} {x : Stmt} :
      (none, b) ∈ (Stmt.conditional branches otherwise span).blocks → b.getLast? = some x →
      Falls x → Falls (.conditional branches otherwise span)

/-- Control may go on to what stands behind a block. -/
def FallsOff (b : List Stmt) : Prop := ∀ x, b.getLast? = some x → Falls x

theorem FallsOff.nil : FallsOff [] := by simp [FallsOff]

theorem fallsOff_singleton {x : Stmt} : FallsOff [x] ↔ Falls x := by simp [FallsOff]

theorem fallsOff_cons_cons {x y : Stmt} {ys : List Stmt} :
    FallsOff (x :: y :: ys) ↔ FallsOff (y :: ys) := by
  simp [FallsOff, List.getLast?_cons_cons]

/-- Control goes on behind a conditional if it does so behind one of its blocks. -/
theorem falls_conditional {branches : List (Expr × List Stmt)} {otherwise : Option (List Stmt)}
    {span : Span} : Falls (.conditional branches otherwise span) ↔
      ∃ b, (none, b) ∈ (Stmt.conditional branches otherwise span).blocks ∧ FallsOff b := by
  constructor
  · intro h
    cases h with
    | empty hmem => exact ⟨[], hmem, .nil⟩
    | @last _ _ _ b x hmem hlast hx =>
      refine ⟨b, hmem, ?_⟩
      intro y hy
      rw [hlast] at hy
      exact Option.some.inj hy ▸ hx
  · rintro ⟨b, hmem, hb⟩
    cases hlast : b.getLast? with
    | none => exact .empty (List.getLast?_eq_none_iff.mp hlast ▸ hmem)
    | some x => exact .last hmem hlast (hb x hlast)

/-! ## Statements -/

section

variable (P : Float → Prop) (A : Artifact) (r : Registry)
variable (B : Option Ident → List Stmt → Nat → Prop) (next : Nat)

/-- A condition and the offset of its block. -/
inductive BranchAt : Expr × List Stmt → Nat × Nat → Nat → Nat → Prop where
  | intro {e : Expr} {b : List Stmt} {s m n : Nat} :
      KindAt P A r .bool e s m → B none b n → BranchAt (e, b) (s, n) s (m + 1)

/-- A statement and what it is decoded as, apart from the blocks inside it: `B y b n` says that a
block `b` which leads on to `y` is entered at `n`.  A line stands here without its hash data. -/
inductive NodeAt : Stmt → Statement → Nat → Nat → Prop where
  | line {l : Line} {speakers : List SpeakerNode} {segments : List TextNode} {directives : List Nat}
      {s m u t : Nat} :
      l.hash = none → Row (SpeakerAt A r) l.speakers speakers (s + 3) m →
      Row (SegmentAt P A r) l.text segments (m + 1) u →
      (∀ x ∈ l.text.flatMap Lower.inlineTargets, ∃ label, A.Mentions x label) →
      Row (DirectiveAt P A r) l.directives directives (u + 1) t →
      NodeAt (.line l) (.line ⟨next, speakers, segments, directives⟩) s t
  | instruction {e : Expr} {s t : Nat} :
      CheckedAt P A r e (s + 2) t → NodeAt (.instruction e) (.instruction next (s + 2)) s t
  | goto {x : Ident} {s n : Nat} :
      A.Enters x n → A.script.decodeExpr (s + 2) = .ok (.goto n, s + 4) →
      NodeAt (.goto x) (.instruction n (s + 2)) s (s + 4)
  | finish {span : Span} {s : Nat} : NodeAt (.finish span) .finish s (s + 1)
  | conditional {branches : List (Expr × List Stmt)} {otherwise : Option (List Stmt)} {span : Span}
      {last : Nat} {nodes : List (Nat × Nat)} {s t : Nat} :
      Row (BranchAt P A r B) branches nodes (s + 3) t → B none (otherwise.getD []) last →
      NodeAt (.conditional branches otherwise span) (.conditional last nodes) s t
  | choice {items : List ChoiceItem} {span : Span} {nodes : List ItemNode} {s t : Nat} :
      A.Reports (Lower.choiceErrors items span) →
      ItemsAt P A r B next items nodes (s + 3) t →
      NodeAt (.choice items span) (.choice next nodes) s t
  | hash {h : HashBlock} {pairs : List PairNode} {s t : Nat} :
      Row (PairAt P A r) h.entries pairs (s + 3) t → NodeAt (.hash h) (.hash next pairs) s t
  | speaker {x : Ident} {h : HashBlock} {span : Span} {i : Nat} {pairs : List PairNode} {s t : Nat} :
      A.script.speakers[i]? = some x.name → Row (PairAt P A r) h.entries pairs (s + 4) t →
      NodeAt (.speaker x h span) (.speaker next i pairs) s t

end

/-- Where a block leads: on to `next`, or to a section if control ever gets there. -/
def BodyLeads (A : Artifact) (next : Nat) : Option Ident → List Stmt → Nat → Prop
  | none, _, e => e = next
  | some x, b, e => FallsOff b → A.Enters x e

section

variable (P : Float → Prop) (A : Artifact) (r : Registry)

mutual

/-- A statement with the blocks inside it. -/
inductive StmtAt : Stmt → Nat → Nat → Nat → Prop where
  | node {x : Stmt} {node : Statement} {entries : List Nat} {s next m t : Nat} :
      A.script.decodeStatement s = .ok (node, m) →
      NodeAt P A r (fun y b n => ((y, b), n) ∈ x.blocks.zip entries) next x node s m →
      BlocksAt x.blocks entries next m t → StmtAt x s next t
  /-- The hash data of a line is a statement in front of it. -/
  | hashed {l : Line} {h : HashBlock} {pairs : List PairNode} {s next m t : Nat} :
      l.hash = some h → A.script.decodeStatement s = .ok (.hash m pairs, m) →
      Row (PairAt P A r) h.entries pairs (s + 3) m →
      StmtAt (.line { l with hash := none }) m next t → StmtAt (.line l) s next t

/-- A block, with the offsets where it is entered and left to. -/
inductive BlockAt : List Stmt → Nat → Nat → Nat → Nat → Prop where
  | nil (s n : Nat) : BlockAt [] s n n s
  | cons {x : Stmt} {xs : List Stmt} {s next m e t : Nat} :
      StmtAt x s next m → BlockAt xs m next e t → BlockAt (x :: xs) s s e t

/-- Blocks one after another, with the offsets where they are entered. -/
inductive BlocksAt : List (Option Ident × List Stmt) → List Nat → Nat → Nat → Nat → Prop where
  | nil (next s : Nat) : BlocksAt [] [] next s s
  | cons {y : Option Ident} {b : List Stmt} {bs : List (Option Ident × List Stmt)} {ns : List Nat}
      {next s n e m t : Nat} :
      BlockAt b s n e m → BodyLeads A next y b e → BlocksAt bs ns next m t →
      BlocksAt ((y, b) :: bs) (n :: ns) next s t

end

end

/-! ## What is known of a statement -/

section

variable {P : Float → Prop} {A : Artifact} {r : Registry}
  {B B' : Option Ident → List Stmt → Nat → Prop} {next s t : Nat} {x : Stmt} {node : Statement}

/-- What is known of blocks may be replaced by something that follows from it. -/
theorem NodeAt.imp (h : NodeAt P A r B next x node s t) (hB : ∀ y b n, B y b n → B' y b n) :
    NodeAt P A r B' next x node s t := by
  cases h with
  | line hhash hspeakers htext hinline hdirectives =>
    exact .line hhash hspeakers htext hinline hdirectives
  | instruction he => exact .instruction he
  | goto hx hnode => exact .goto hx hnode
  | finish => exact .finish
  | conditional hbranches hlast =>
    refine .conditional (hbranches.imp ?_) (hB _ _ _ hlast)
    rintro _ _ _ _ _ ⟨he, hb⟩
    exact .intro he (hB _ _ _ hb)
  | choice hreports hitems => exact .choice hreports (hitems.imp hB)
  | hash hpairs => exact .hash hpairs
  | speaker hspeaker hpairs => exact .speaker hspeaker hpairs

theorem BranchAt.lt {b : Expr × List Stmt} {n : Nat × Nat} (h : BranchAt P A r B b n s t) : s < t := by
  obtain ⟨he, _⟩ := h
  have := he.expr.bounds.1
  omega

/-- Every statement takes up words. -/
theorem NodeAt.lt (h : NodeAt P A r B next x node s t) : s < t := by
  cases h with
  | line _ hspeakers htext _ hdirectives =>
    have := hspeakers.length_le fun _ _ _ _ h => h.lt
    have := htext.length_le fun _ _ _ _ h => h.lt
    have := hdirectives.length_le fun _ _ _ _ h => h.lt
    omega
  | instruction he =>
    have := he.expr.bounds.1
    omega
  | goto _ _ => omega
  | finish => omega
  | conditional hbranches _ =>
    have := hbranches.length_le fun _ _ _ _ h => h.lt
    omega
  | choice _ hitems =>
    have := ItemsAt.le _ hitems
    omega
  | hash hpairs =>
    have := hpairs.length_le fun _ _ _ _ h => h.lt
    omega
  | speaker _ hpairs =>
    have := hpairs.length_le fun _ _ _ _ h => h.lt
    omega

variable (P A r next) in
/-- A block that leads on to `y`, or on to `next`, is entered at `n`. -/
def BodyAt (y : Option Ident) (b : List Stmt) (n : Nat) : Prop :=
  ∃ s e t, BlockAt P A r b s n e t ∧ BodyLeads A next y b e

/-- A block inside a statement stands at its place and leads where it is meant to. -/
theorem BlocksAt.bodyAt {bs : List (Option Ident × List Stmt)} {ns : List Nat}
    (h : BlocksAt P A r bs ns next s t) {y : Option Ident} {b : List Stmt} {n : Nat}
    (hmem : ((y, b), n) ∈ bs.zip ns) : BodyAt P A r next y b n := by
  induction bs generalizing ns s with
  | nil => simp at hmem
  | cons p bs ih =>
    cases h with
    | cons hb hleads hbs =>
      rcases List.mem_cons.mp hmem with heq | hmem
      · cases heq
        exact ⟨_, _, _, hb, hleads⟩
      · exact ih hbs hmem

/-- A statement is its hash data and a line, or decodes to a node with blocks behind it. -/
theorem StmtAt.inversion (h : StmtAt P A r x s next t) :
    (∃ node m, A.script.decodeStatement s = .ok (node, m) ∧
      NodeAt P A r (fun y b n => (y, b) ∈ x.blocks ∧ BodyAt P A r next y b n) next x node s m) ∨
    ∃ l hash pairs m, x = .line l ∧ l.hash = some hash ∧
      A.script.decodeStatement s = .ok (.hash m pairs, m) ∧
      Row (PairAt P A r) hash.entries pairs (s + 3) m ∧
      StmtAt P A r (.line { l with hash := none }) m next t := by
  cases h with
  | node hdecode hnode hblocks =>
    refine .inl ⟨_, _, hdecode, hnode.imp ?_⟩
    intro y b n hmem
    exact ⟨(List.of_mem_zip hmem).1, hblocks.bodyAt hmem⟩
  | hashed hhash hdecode hpairs hline => exact .inr ⟨_, _, _, _, rfl, hhash, hdecode, hpairs, hline⟩

end

/-! ## The expressions of the blocks inside statements -/

section

variable {E : Expr → Prop} {F : Nat → Prop}

mutual

/-- The bodies in an item meet what the item does. -/
theorem ChoiceItem.Meets.bodies : (i : ChoiceItem) → i.Meets E F →
    ∀ p ∈ i.bodies, Stmt.AllMeet E F p.2
  | .option _ _ target body _, h => by
    intro p hp
    rw [ChoiceItem.Meets] at h
    rw [ChoiceItem.bodies] at hp
    obtain ⟨b, hb, rfl⟩ := List.mem_map.mp hp
    obtain rfl := Option.mem_toList.mp hb
    have hbody := h.2.2
    rwa [Stmt.OtherwiseMeets] at hbody
  | .filter branches otherwise _, h => by
    intro p hp
    rw [ChoiceItem.Meets] at h
    rw [ChoiceItem.bodies] at hp
    rcases List.mem_append.mp hp with hp | hp
    · exact ChoiceItem.Meets.branchBodies branches h.2.1 p hp
    · exact ChoiceItem.Meets.otherwiseBodies otherwise h.2.2 p hp

/-- So do those in items. -/
theorem ChoiceItem.Meets.allBodies : (is : List ChoiceItem) → ChoiceItem.AllMeet E F is →
    ∀ p ∈ ChoiceItem.allBodies is, Stmt.AllMeet E F p.2
  | [], _ => by
    intro p hp
    rw [ChoiceItem.allBodies] at hp
    cases hp
  | i :: is, h => by
    intro p hp
    rw [ChoiceItem.AllMeet] at h
    rw [ChoiceItem.allBodies] at hp
    rcases List.mem_append.mp hp with hp | hp
    · exact ChoiceItem.Meets.bodies i h.1 p hp
    · exact ChoiceItem.Meets.allBodies is h.2 p hp

/-- So do those in the branches of a filter. -/
theorem ChoiceItem.Meets.branchBodies : (bs : List (Expr × List ChoiceItem)) →
    ChoiceItem.BranchesMeet E F bs → ∀ p ∈ ChoiceItem.branchBodies bs, Stmt.AllMeet E F p.2
  | [], _ => by
    intro p hp
    rw [ChoiceItem.branchBodies] at hp
    cases hp
  | (e, is) :: rest, h => by
    intro p hp
    rw [ChoiceItem.BranchesMeet] at h
    rw [ChoiceItem.branchBodies] at hp
    rcases List.mem_append.mp hp with hp | hp
    · exact ChoiceItem.Meets.allBodies is h.1.2 p hp
    · exact ChoiceItem.Meets.branchBodies rest h.2 p hp

/-- So do those behind the branches. -/
theorem ChoiceItem.Meets.otherwiseBodies : (o : Option (List ChoiceItem)) →
    ChoiceItem.OtherwiseMeets E F o → ∀ p ∈ ChoiceItem.otherwiseBodies o, Stmt.AllMeet E F p.2
  | none, _ => by
    intro p hp
    rw [ChoiceItem.otherwiseBodies] at hp
    cases hp
  | some is, h => by
    intro p hp
    rw [ChoiceItem.OtherwiseMeets] at h
    rw [ChoiceItem.otherwiseBodies] at hp
    exact ChoiceItem.Meets.allBodies is h p hp

end

/-- The statements in the blocks of a statement meet what it does. -/
theorem Stmt.Meets.blocks {x : Stmt} (h : x.Meets E F) : ∀ p ∈ x.blocks, ∀ y ∈ p.2, y.Meets E F := by
  intro p hp
  rw [← Stmt.allMeet_iff]
  cases x with
  | conditional branches otherwise span =>
    rw [Stmt.Meets, Stmt.branchesMeet_iff, Stmt.otherwiseMeets_iff] at h
    rcases List.mem_append.mp hp with hp | hp
    · obtain ⟨b, hb, rfl⟩ := List.mem_map.mp hp
      exact (h.1 b hb).2
    · obtain rfl := List.mem_singleton.mp hp
      exact h.2
  | choice items span =>
    rw [Stmt.Meets] at h
    exact ChoiceItem.Meets.allBodies items h p hp
  | _ => cases hp

end

/-! ## Induction over the blocks inside statements -/

mutual

/-- The bodies in an item are smaller than it. -/
theorem ChoiceItem.sizeOf_bodies : (i : ChoiceItem) → ∀ p ∈ i.bodies, sizeOf p.2 < sizeOf i
  | .option g text target body span => by
    intro p hp
    rw [ChoiceItem.bodies] at hp
    cases body with
    | none => simp at hp
    | some b =>
      obtain rfl : p = (target, b) := by simpa using hp
      simp only [ChoiceItem.option.sizeOf_spec, Option.some.sizeOf_spec]
      omega
  | .filter branches otherwise span => by
    intro p hp
    rw [ChoiceItem.bodies] at hp
    simp only [ChoiceItem.filter.sizeOf_spec]
    rcases List.mem_append.mp hp with hp | hp
    · have := ChoiceItem.sizeOf_branchBodies branches p hp
      omega
    · have := ChoiceItem.sizeOf_otherwiseBodies otherwise p hp
      omega

/-- So are those in items. -/
theorem ChoiceItem.sizeOf_allBodies :
    (is : List ChoiceItem) → ∀ p ∈ ChoiceItem.allBodies is, sizeOf p.2 < sizeOf is
  | [] => by
    intro p hp
    rw [ChoiceItem.allBodies] at hp
    cases hp
  | i :: is => by
    intro p hp
    rw [ChoiceItem.allBodies] at hp
    simp only [List.cons.sizeOf_spec]
    rcases List.mem_append.mp hp with hp | hp
    · have := ChoiceItem.sizeOf_bodies i p hp
      omega
    · have := ChoiceItem.sizeOf_allBodies is p hp
      omega

/-- So are those in the branches of a filter. -/
theorem ChoiceItem.sizeOf_branchBodies : (bs : List (Expr × List ChoiceItem)) →
    ∀ p ∈ ChoiceItem.branchBodies bs, sizeOf p.2 < sizeOf bs
  | [] => by
    intro p hp
    rw [ChoiceItem.branchBodies] at hp
    cases hp
  | (e, is) :: rest => by
    intro p hp
    rw [ChoiceItem.branchBodies] at hp
    simp only [List.cons.sizeOf_spec, Prod.mk.sizeOf_spec]
    rcases List.mem_append.mp hp with hp | hp
    · have := ChoiceItem.sizeOf_allBodies is p hp
      omega
    · have := ChoiceItem.sizeOf_branchBodies rest p hp
      omega

/-- So are those behind the branches. -/
theorem ChoiceItem.sizeOf_otherwiseBodies : (o : Option (List ChoiceItem)) →
    ∀ p ∈ ChoiceItem.otherwiseBodies o, sizeOf p.2 < sizeOf o
  | none => by
    intro p hp
    rw [ChoiceItem.otherwiseBodies] at hp
    cases hp
  | some is => by
    intro p hp
    rw [ChoiceItem.otherwiseBodies] at hp
    simp only [Option.some.sizeOf_spec]
    have := ChoiceItem.sizeOf_allBodies is p hp
    omega

end

/-- The blocks inside a statement are smaller than it, so a recursion may go into them. -/
theorem Stmt.sizeOf_blocks (x : Stmt) : ∀ p ∈ x.blocks, sizeOf p.2 < sizeOf x := by
  intro p hp
  cases x with
  | conditional branches otherwise span =>
    simp only [Stmt.conditional.sizeOf_spec]
    rcases List.mem_append.mp hp with hp | hp
    · obtain ⟨⟨e, b⟩, hb, rfl⟩ := List.mem_map.mp hp
      have := List.sizeOf_lt_of_mem hb
      simp only [Prod.mk.sizeOf_spec] at this ⊢
      omega
    · obtain rfl := List.mem_singleton.mp hp
      cases otherwise with
      | none =>
        simp only [Option.getD_none, List.nil.sizeOf_spec, Option.none.sizeOf_spec]
        omega
      | some b =>
        simp only [Option.getD_some, Option.some.sizeOf_spec]
        omega
  | choice items span =>
    have := ChoiceItem.sizeOf_allBodies items p hp
    simp only [Stmt.choice.sizeOf_spec]
    omega
  | _ => cases hp

/-- A recursion that goes through the members of a list gives what it gives on the list. -/
theorem flatMap_attach {α β : Type} (l : List α) (f : α → List β) :
    (l.attach.flatMap fun p => f p.1) = l.flatMap f := by
  rw [← List.flatMap_map, List.attach_map_subtype_val]

/-- What holds of a statement if it holds of all statements in its blocks holds of every statement. -/
theorem Stmt.induction {M : Stmt → Prop}
    (step : ∀ x : Stmt, (∀ p ∈ x.blocks, ∀ y ∈ p.2, M y) → M x) (x : Stmt) : M x := by
  refine step x ?_
  intro p hp y hy
  have := Stmt.sizeOf_blocks x p hp
  have := List.sizeOf_lt_of_mem hy
  exact Stmt.induction step y
termination_by sizeOf x

end Colloquy
