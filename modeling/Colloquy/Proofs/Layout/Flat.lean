import Colloquy.Proofs.Layout.Table

/-!
# The statements of a script are those of its story

A script has the statements of all blocks of a story in one row.  `Story.flat` lists the statements of a
story in that order: a statement comes before the blocks inside it, and hash data comes before the line
it belongs to.  Apart from the entries and the ends of sections, the statements that are read in a
compiled script from its start to its end are those of the story, one by one (`Compiled.flat`).
-/

namespace Colloquy

open Code

/-- The statement without its blocks, as it stands in a script.  Hash data stands in front of its line.
An end is left out, because a script has more ends than its story. -/
def Stmt.own : Stmt → List Stmt
  | .line l => (l.hash.map Stmt.hash).toList ++ [.line { l with hash := none }]
  | .finish _ => []
  | x => [x]

/-- The statement and the statements inside it, in the order of their words. -/
def Stmt.flat (x : Stmt) : List Stmt :=
  x.own ++ x.blocks.attach.flatMap fun p => p.1.2.attach.flatMap fun y => y.1.flat
termination_by sizeOf x
decreasing_by
  have := Stmt.sizeOf_blocks x p.1 p.2
  have := List.sizeOf_lt_of_mem y.2
  omega

theorem Stmt.flat_eq (x : Stmt) : x.flat = x.own ++ x.blocks.flatMap fun p => p.2.flatMap Stmt.flat := by
  rw [Stmt.flat]
  simp only [flatMap_attach _ Stmt.flat]
  rw [flatMap_attach _ fun p : Option Ident × List Stmt => p.2.flatMap Stmt.flat]

/-- The statements of a story, in the order of their words. -/
def Story.flat (story : Story) : List Stmt := story.flatMap fun x => x.body.flatMap Stmt.flat

/-- The statement frames a section: it is an entry or an end. -/
def Code.Statement.isFrame : Statement → Bool
  | .entry .. | .finish => true
  | _ => false

/-- A statement of a story and one that is read for it, whatever the blocks inside it are. -/
structure ReadAs (P : Float → Prop) (A : Artifact) (r : Registry) (y : Stmt) (p : Nat × Statement) :
    Prop where
  isFrame : p.2.isFrame = false
  node : ∃ next m, A.script.decodeStatement p.1 = .ok (p.2, m) ∧
    NodeAt P A r (fun _ _ _ => True) next y p.2 p.1 m

/-- Statements of a story and the statements that are read for them between two offsets. -/
structure Reading (P : Float → Prop) (A : Artifact) (r : Registry) (ys : List Stmt)
    (xs : List (Nat × Statement)) (s t : Nat) : Prop where
  walk : A.script.Walk s xs t
  nodes : List.Forall₂ (ReadAs P A r) ys (xs.filter fun p => !p.2.isFrame)

section

variable {P : Float → Prop} {A : Artifact} {r : Registry} {s n m e t next : Nat}

namespace Reading

variable {ys zs : List Stmt} {xs ws : List (Nat × Statement)}

theorem nil (s : Nat) : Reading P A r [] [] s s := ⟨.nil s, .nil⟩

/-- Two readings one behind the other are a reading. -/
theorem append (h : Reading P A r ys xs s m) (h' : Reading P A r zs ws m t) :
    Reading P A r (ys ++ zs) (xs ++ ws) s t where
  walk := h.walk.append h'.walk
  nodes := by
    rw [List.filter_append]
    exact List.rel_append h.nodes h'.nodes

/-- A statement in front of others. -/
theorem cons {y : Stmt} {node : Statement} {B : Option Ident → List Stmt → Nat → Prop}
    (hdecode : A.script.decodeStatement s = .ok (node, m)) (hframe : node.isFrame = false)
    (hnode : NodeAt P A r B next y node s m) (h : Reading P A r ys xs m t) :
    Reading P A r (y :: ys) ((s, node) :: xs) s t where
  walk := .cons hdecode h.walk
  nodes := by
    rw [List.filter_cons_of_pos (by simp [hframe])]
    exact .cons ⟨hframe, next, m, hdecode, hnode.imp fun _ _ _ _ => trivial⟩ h.nodes

/-- An entry or an end in front of others. -/
theorem frame {node : Statement} (hdecode : A.script.decodeStatement s = .ok (node, m))
    (hframe : node.isFrame = true) (h : Reading P A r ys xs m t) :
    Reading P A r ys ((s, node) :: xs) s t where
  walk := .cons hdecode h.walk
  nodes := by
    rw [List.filter_cons_of_neg (by simp [hframe])]
    exact h.nodes

end Reading

/-- What is read between the two ends of a statement. -/
def StmtReading (P : Float → Prop) (A : Artifact) (r : Registry) (x : Stmt) : Prop :=
  ∀ s next t, StmtAt P A r x s next t → ∃ xs, Reading P A r x.flat xs s t

/-- A block is read statement by statement, given that each of its statements is. -/
theorem BlockAt.reading {b : List Stmt} (hb : ∀ x ∈ b, StmtReading P A r x)
    (h : BlockAt P A r b s n e t) : ∃ xs, Reading P A r (b.flatMap Stmt.flat) xs s t := by
  induction b generalizing s n with
  | nil =>
    cases h
    exact ⟨[], .nil _⟩
  | cons x b ih =>
    cases h with
    | cons hx hrest =>
      obtain ⟨xs, hxs⟩ := hb x (List.mem_cons_self ..) _ _ _ hx
      obtain ⟨ws, hws⟩ := ih (fun y hy => hb y (List.mem_cons_of_mem _ hy)) hrest
      rw [List.flatMap_cons]
      exact ⟨xs ++ ws, hxs.append hws⟩

/-- So are the blocks of a statement, one after the other. -/
theorem BlocksAt.reading {bs : List (Option Ident × List Stmt)} {ns : List Nat}
    (hb : ∀ p ∈ bs, ∀ x ∈ p.2, StmtReading P A r x) (h : BlocksAt P A r bs ns next s t) :
    ∃ xs, Reading P A r (bs.flatMap fun p => p.2.flatMap Stmt.flat) xs s t := by
  induction bs generalizing s ns with
  | nil =>
    cases h
    exact ⟨[], .nil _⟩
  | cons p bs ih =>
    cases h with
    | cons hblock _ hrest =>
      obtain ⟨xs, hxs⟩ := hblock.reading (hb _ (List.mem_cons_self ..))
      obtain ⟨ws, hws⟩ := ih (fun q hq => hb q (List.mem_cons_of_mem _ hq)) hrest
      rw [List.flatMap_cons]
      exact ⟨xs ++ ws, hxs.append hws⟩

/-- A statement that is not the hash data of a line. -/
theorem NodeAt.reading {x : Stmt} {node : Statement} {B : Option Ident → List Stmt → Nat → Prop}
    (hnode : NodeAt P A r B next x node s m) (hdecode : A.script.decodeStatement s = .ok (node, m))
    (hblocks : ∃ xs, Reading P A r (x.blocks.flatMap fun p => p.2.flatMap Stmt.flat) xs m t) :
    ∃ xs, Reading P A r x.flat xs s t := by
  obtain ⟨xs, hxs⟩ := hblocks
  rw [Stmt.flat_eq]
  refine ⟨(s, node) :: xs, ?_⟩
  have hcopy := hnode
  cases hcopy with
  | @line l _ _ _ _ _ _ _ hhash =>
    have hown : (Stmt.line l).own = [.line l] := by
      obtain ⟨speakers, text, directives, hash, span⟩ := l
      obtain rfl : hash = none := hhash
      rfl
    rw [hown]
    exact .cons hdecode rfl hnode hxs
  | finish => exact .frame hdecode rfl hxs
  | _ => exact .cons hdecode rfl hnode hxs

/-- A statement is read with what is inside it, by recursion into its blocks. -/
theorem stmtReading (x : Stmt) : StmtReading P A r x := by
  induction x using Stmt.induction with
  | step x ih =>
    intro s next t h
    cases h with
    | node hdecode hnode hblocks => exact hnode.reading hdecode (hblocks.reading ih)
    | @hashed l hash pairs _ _ m _ hhash hdecode hpairs hline =>
      -- the line that follows has no hash data of its own
      cases hline with
      | hashed hnone => cases hnone
      | node hdecode' hnode hblocks =>
        obtain ⟨xs, hxs⟩ := hnode.reading hdecode' (hblocks.reading (by simp [Stmt.blocks]))
        have hflat : (Stmt.line l).flat = .hash hash :: (Stmt.line { l with hash := none }).flat := by
          rw [Stmt.flat_eq, Stmt.flat_eq, Stmt.own, Stmt.own, hhash]
          rfl
        rw [hflat]
        have hnode : NodeAt P A r (fun _ _ _ => True) m (.hash hash) (.hash m pairs) s m := .hash hpairs
        exact ⟨_, .cons hdecode rfl hnode hxs⟩

/-- A section is read between its entry and its end. -/
theorem SectionAt.reading {x : Section} (h : SectionAt P A r x s t) :
    ∃ xs, Reading P A r (x.body.flatMap Stmt.flat) xs s t := by
  obtain ⟨n, i, e, m, hdecode, -, hbody, hend⟩ := h.body
  obtain ⟨xs, hxs⟩ := hbody.reading fun y _ => stmtReading y
  rcases hend with ⟨-, rfl⟩ | ⟨-, rfl, hfinish, rfl⟩
  · exact ⟨_, .frame hdecode rfl hxs⟩
  · have hall := hxs.append (.frame hfinish rfl (.nil _))
    rw [List.append_nil] at hall
    exact ⟨_, .frame hdecode rfl hall⟩

/-- The sections are read one after the other. -/
theorem sections_reading {story : List Section} {labels : List Label}
    (h : Row (SectionBetween P A r) story labels s t) : ∃ xs, Reading P A r (Story.flat story) xs s t := by
  induction h with
  | nil s => exact ⟨[], .nil s⟩
  | cons hfirst _ ih =>
    obtain ⟨xs, hxs⟩ := hfirst.2.reading
    obtain ⟨ws, hws⟩ := ih
    exact ⟨xs ++ ws, hxs.append hws⟩

end

/-- A script is read in one way only. -/
theorem Script.Walk.unique {S : Script} {s : Nat} {xs ws : List (Nat × Statement)}
    (h : S.Walk s xs S.words.size) (h' : S.Walk s ws S.words.size) : ws = xs := by
  have hend : ∀ node t, S.decodeStatement S.words.size ≠ .ok (node, t) :=
    fun node t hdecode => absurd (Script.lt_size_of_decodeStatement hdecode) (Nat.lt_irrefl _)
  generalize hstop : S.words.size = stop at h
  -- along the first walk: decoding decides each step, and nothing is decoded at the end
  induction h generalizing ws with
  | nil s =>
    subst hstop
    cases h' with
    | nil => rfl
    | cons hdecode _ => exact absurd hdecode (hend _ _)
  | cons hdecode _ ih =>
    cases h' with
    | nil => exact absurd hdecode (hend _ _)
    | cons hdecode' hrest =>
      rw [hdecode] at hdecode'
      cases hdecode'
      rw [ih hrest hstop]

/-- What is read in a compiled script from its start to its end are the statements of its story, with
entries and ends between them. -/
theorem Compiled.flat {P : Float → Prop} {r : Registry} {story : Story} {c : Compilation}
    {A : Artifact} {labels : List Label} (h : Compiled P r story c A labels) :
    ∃ xs, Reading P A r story.flat xs 0 A.script.words.size := by
  obtain ⟨xs, hxs⟩ := sections_reading h.sections
  rcases h.size with hsize | htrap
  · rw [hsize]
    exact ⟨xs, hxs⟩
  · have hall := hxs.append (.frame (decode_finish htrap.word) rfl (.nil _))
    rw [List.append_nil, htrap.size] at hall
    exact ⟨_, hall⟩

end Colloquy
