import Colloquy.Proofs.Layout.Story

/-!
# Walking through a script

The statements of a compiled script are read one after another from its start to its end.  Each of them
`Stands` for something of the story, and every offset it leads to is one where another statement starts:
a label is bound where a statement follows, and where control may leave a section there is its end.
-/

namespace Colloquy

open Code

/-- Statements read one after another, each with its offset. -/
inductive Script.Walk (S : Script) : Nat → List (Nat × Statement) → Nat → Prop where
  | nil (s : Nat) : S.Walk s [] s
  | cons {s m t : Nat} {node : Statement} {xs : List (Nat × Statement)} :
      S.decodeStatement s = .ok (node, m) → S.Walk m xs t → S.Walk s ((s, node) :: xs) t

/-- Two walks of which the second starts where the first one ends are one walk. -/
theorem Script.Walk.append {S : Script} {s m t : Nat} {xs ys : List (Nat × Statement)}
    (h : S.Walk s xs m) (h' : S.Walk m ys t) : S.Walk s (xs ++ ys) t := by
  induction h with
  | nil => exact h'
  | cons hdecode _ ih => exact .cons hdecode (ih h')

/-- Among some statements there is the entry of a section. -/
def Script.Entry (S : Script) (xs : List (Nat × Statement)) (n : Nat) (name : String) : Prop :=
  ∃ next i, (n, .entry next i) ∈ xs ∧ S.strings[i]? = some name

section

variable (P : Float → Prop) (A : Artifact) (r : Registry) (E : Nat → String → Prop) (K : Nat → Prop)

/-- What a statement at an offset stands for, if statements start at the offsets of `K`.  Sections
stand where `E` says. -/
inductive Stands : Nat → Statement → Prop where
  | entry {s n i : Nat} {name : String} :
      E s name → K n → A.script.strings[i]? = some name → Stands s (.entry n i)
  | finish (s : Nat) : Stands s .finish
  /-- The hash data in front of a line. -/
  | hash {h : HashBlock} {pairs : List PairNode} {s m n : Nat} :
      K n → Row (PairAt P A r) h.entries pairs (s + 3) m → Stands s (.hash n pairs)
  | node {x : Stmt} {node : Statement} {s m next : Nat} :
      NodeAt P A r (fun _ _ n => K n) next x node s m → (Falls x → K next) → Stands s node

/-- The offsets that mentions of sections lead to are among those of `K`. -/
def Entered : Prop := ∀ x n, A.Enters x n → K n

end

/-- Statements that are read between two offsets, and stand for something if statements start at their
offsets, at those of sections, and where `C` says that they are left to. -/
structure Stretch (P : Float → Prop) (A : Artifact) (r : Registry) (E : Nat → String → Prop)
    (xs : List (Nat × Statement)) (s t : Nat) (C : (Nat → Prop) → Prop) : Prop where
  walk : A.script.Walk s xs t
  length_le : s + xs.length ≤ t
  stands : ∀ K : Nat → Prop, (∀ p ∈ xs, K p.1) → Entered A K → C K →
    ∀ p ∈ xs, Stands P A r E K p.1 p.2

section

variable {P : Float → Prop} {A : Artifact} {r : Registry} {E : Nat → String → Prop}
  {s n m e t next : Nat}
  {xs ys : List (Nat × Statement)} {C D : (Nat → Prop) → Prop}

/-- Two stretches put one behind the other are a stretch, if what the whole needs of the code behind it
gives what each of the two needs. -/
theorem Stretch.append {F : (Nat → Prop) → Prop} (h : Stretch P A r E xs s m C)
    (h' : Stretch P A r E ys m t D)
    (hF : ∀ K : Nat → Prop, (∀ p ∈ ys, K p.1) → Entered A K → F K → C K ∧ D K) :
    Stretch P A r E (xs ++ ys) s t F where
  walk := h.walk.append h'.walk
  length_le := by
    have := h.length_le
    have := h'.length_le
    rw [List.length_append]
    omega
  stands K hK hentered hC p hp := by
    have hxs : ∀ p ∈ xs, K p.1 := fun p hp => hK p (List.mem_append_left _ hp)
    have hys : ∀ p ∈ ys, K p.1 := fun p hp => hK p (List.mem_append_right _ hp)
    obtain ⟨hfirst, hsecond⟩ := hF K hys hentered hC
    rcases List.mem_append.mp hp with hp | hp
    · exact h.stands K hxs hentered hfirst p hp
    · exact h'.stands K hys hentered hsecond p hp

/-- A statement in front of others that it leads to. -/
theorem Stretch.cons {node : Statement} (hdecode : A.script.decodeStatement s = .ok (node, m))
    (hlt : s < m) (h : Stretch P A r E xs m t C)
    (hnode : ∀ K : Nat → Prop, (∀ p ∈ xs, K p.1) → Entered A K → C K → Stands P A r E K s node) :
    Stretch P A r E ((s, node) :: xs) s t C where
  walk := .cons hdecode h.walk
  length_le := by
    have := h.length_le
    rw [List.length_cons]
    omega
  stands K hK hentered hC p hp := by
    have hxs : ∀ p ∈ xs, K p.1 := fun p hp => hK p (List.mem_cons_of_mem _ hp)
    rcases List.mem_cons.mp hp with rfl | hp
    · exact hnode K hxs hentered hC
    · exact h.stands K hxs hentered hC p hp

/-- An `End` is a stretch that needs nothing of what is behind it. -/
theorem Stretch.finish (hdecode : A.script.decodeStatement s = .ok (.finish, s + 1)) :
    Stretch P A r E [(s, .finish)] s (s + 1) fun _ => True where
  walk := .cons hdecode (.nil _)
  length_le := Nat.le_refl _
  stands _ _ _ _ _ hp := List.mem_singleton.mp hp ▸ .finish s

/-! ## Blocks -/

/-- What is known of the statements of a block: its entry is one of them, or where it is left to. -/
def BlockWalk (P : Float → Prop) (A : Artifact) (r : Registry) (E : Nat → String → Prop)
    (b : List Stmt) (s n e t : Nat) : Prop :=
  ∃ xs, Stretch P A r E xs s t (fun K => FallsOff b → K e) ∧
    ∀ K : Nat → Prop, (∀ p ∈ xs, K p.1) → (FallsOff b → K e) → K n

/-- What is known of the words of a statement and its blocks. -/
def StmtWalk (P : Float → Prop) (A : Artifact) (r : Registry) (E : Nat → String → Prop) (x : Stmt) :
    Prop :=
  ∀ s next t, StmtAt P A r x s next t →
    ∃ node xs, Stretch P A r E ((s, node) :: xs) s t fun K => Falls x → K next

/-- A block is walked from its first statement to its last, given that each of its statements is. -/
theorem BlockAt.walk {b : List Stmt} (hb : ∀ x ∈ b, StmtWalk P A r E x)
    (h : BlockAt P A r b s n e t) : BlockWalk P A r E b s n e t := by
  induction b generalizing s n with
  | nil =>
    cases h with
    | nil => exact ⟨[], ⟨.nil _, Nat.le_refl _, by simp⟩, fun K _ hC => hC .nil⟩
  | cons x b ih =>
    cases h with
    | @cons _ _ _ next m _ _ hx hrest =>
      obtain ⟨node, xs, hxs⟩ := hb x (List.mem_cons_self ..) _ _ _ hx
      cases b with
      | nil =>
        cases hrest with
        | nil =>
          refine ⟨(s, node) :: xs, ⟨hxs.walk, hxs.length_le, ?_⟩, fun K hK _ => hK _ (List.mem_cons_self ..)⟩
          intro K hK hentered hC
          exact hxs.stands K hK hentered fun hx => hC (fallsOff_singleton.mpr hx)
      | cons y b =>
        obtain ⟨ys, hys, hentry⟩ := ih (fun z hz => hb z (List.mem_cons_of_mem _ hz)) hrest
        refine ⟨(s, node) :: xs ++ ys, hxs.append hys ?_, ?_⟩
        · intro K hK _ hC
          rw [fallsOff_cons_cons] at hC
          exact ⟨fun _ => hentry K hK hC, hC⟩
        · intro K hK _
          exact hK _ (List.mem_append_left _ (List.mem_cons_self ..))

/-- Where the blocks inside a statement are left to: behind the statement. -/
def Left (bs : List (Option Ident × List Stmt)) (next : Nat) (K : Nat → Prop) : Prop :=
  ∀ b, (none, b) ∈ bs → FallsOff b → K next

theorem Left.tail {p : Option Ident × List Stmt} {bs : List (Option Ident × List Stmt)}
    {K : Nat → Prop} (h : Left (p :: bs) next K) : Left bs next K :=
  fun b hb => h b (List.mem_cons_of_mem _ hb)

/-- A block that is left leads to its section, or behind the statement. -/
theorem Left.exit {y : Option Ident} {b : List Stmt} {bs : List (Option Ident × List Stmt)}
    {K : Nat → Prop} (h : Left ((y, b) :: bs) next K) (hentered : Entered A K)
    (hleads : BodyLeads A next y b e) (hfalls : FallsOff b) : K e := by
  cases y with
  | none =>
    obtain rfl : e = next := hleads
    exact h b (List.mem_cons_self ..) hfalls
  | some x => exact hentered x e (hleads hfalls)

/-- The blocks of a statement are walked one after the other, and each is entered at its first statement. -/
theorem BlocksAt.walk {bs : List (Option Ident × List Stmt)} {ns : List Nat}
    (hb : ∀ p ∈ bs, ∀ x ∈ p.2, StmtWalk P A r E x) (h : BlocksAt P A r bs ns next s t) :
    ∃ xs, Stretch P A r E xs s t (Left bs next) ∧ ∀ K : Nat → Prop, (∀ p ∈ xs, K p.1) →
      Entered A K → Left bs next K → ∀ p n, (p, n) ∈ bs.zip ns → K n := by
  induction bs generalizing s ns with
  | nil =>
    cases h with
    | nil => exact ⟨[], ⟨.nil _, Nat.le_refl _, by simp⟩, by simp⟩
  | cons p bs ih =>
    cases h with
    | @cons y b _ ns _ _ n e m _ hblock hleads hrest =>
      obtain ⟨xs, hxs, hentry⟩ := hblock.walk (hb _ (List.mem_cons_self ..))
      obtain ⟨ys, hys, hentries⟩ := ih (fun q hq => hb q (List.mem_cons_of_mem _ hq)) hrest
      refine ⟨xs ++ ys, hxs.append hys ?_, ?_⟩
      · intro K _ hentered hC
        exact ⟨hC.exit hentered hleads, hC.tail⟩
      · intro K hK hentered hC q k hmem
        rcases List.mem_cons.mp hmem with heq | hmem
        · obtain ⟨rfl, rfl⟩ := Prod.mk.inj heq
          exact hentry K (fun p hp => hK p (List.mem_append_left _ hp)) (hC.exit hentered hleads)
        · exact hentries K (fun p hp => hK p (List.mem_append_right _ hp)) hentered hC.tail q k hmem

/-! ## Statements -/

/-- The blocks inside a statement are left behind it only where control may go on there. -/
theorem left_of_falls {x : Stmt} {K : Nat → Prop} (h : Falls x → K next) : Left x.blocks next K := by
  intro b hmem hfalls
  apply h
  cases x with
  | conditional branches otherwise span => exact falls_conditional.mpr ⟨b, hmem, hfalls⟩
  | choice items span => exact .choice items span
  | _ => cases hmem

/-- A statement that is not the hash data of a line. -/
theorem NodeAt.walk {x : Stmt} {node : Statement} {entries : List Nat}
    (hx : ∀ p ∈ x.blocks, ∀ y ∈ p.2, StmtWalk P A r E y)
    (hdecode : A.script.decodeStatement s = .ok (node, m))
    (hnode : NodeAt P A r (fun y b n => ((y, b), n) ∈ x.blocks.zip entries) next x node s m)
    (hblocks : BlocksAt P A r x.blocks entries next m t) :
    ∃ xs, Stretch P A r E ((s, node) :: xs) s t fun K => Falls x → K next := by
  obtain ⟨xs, hxs, hentries⟩ := hblocks.walk hx
  refine ⟨xs, Stretch.cons hdecode hnode.lt ⟨hxs.walk, hxs.length_le, ?_⟩ ?_⟩
  · intro K hK hentered hC
    exact hxs.stands K hK hentered (left_of_falls hC)
  · intro K hK hentered hC
    refine .node (hnode.imp ?_) hC
    intro y b n hmem
    exact hentries K hK hentered (left_of_falls hC) (y, b) n hmem

/-- Every statement is walked, by recursion into its blocks. -/
theorem stmtWalk (x : Stmt) : StmtWalk P A r E x := by
  induction x using Stmt.induction with
  | step x ih =>
    intro s next t h
    cases h with
    | node hdecode hnode hblocks => exact ⟨_, hnode.walk ih hdecode hblocks⟩
    | @hashed l hash pairs _ _ m _ hhash hdecode hpairs hline =>
      -- the line that follows has no hash data of its own
      cases hline with
      | hashed hnone => cases hnone
      | node hdecode' hnode hblocks =>
        obtain ⟨xs, hxs⟩ := hnode.walk (E := E) (by simp [Stmt.blocks]) hdecode' hblocks
        have hle := hpairs.length_le fun _ _ _ _ h => h.lt
        refine ⟨_, _, Stretch.cons hdecode (by omega) ⟨hxs.walk, hxs.length_le, ?_⟩ ?_⟩
        · intro K hK hentered hC
          exact hxs.stands K hK hentered fun _ => hC (.line l)
        · intro K hK _ _
          exact .hash (hK _ (List.mem_cons_self ..)) hpairs

/-! ## Sections -/

/-- A section starts with its entry and is not left. -/
theorem SectionAt.walk {x : Section} (h : SectionAt P A r x s t) (hE : E s x.name.name) :
    ∃ next i xs, A.script.strings[i]? = some x.name.name ∧
      Stretch P A r E ((s, .entry next i) :: xs) s t fun _ => True := by
  obtain ⟨n, i, e, m, hdecode, hname, hbody, hend⟩ := h.body
  obtain ⟨xs, hxs, hentry⟩ := hbody.walk fun y _ => stmtWalk (E := E) y
  rcases hend with ⟨hnot, rfl⟩ | ⟨_, rfl, hfinish, rfl⟩
  · refine ⟨n, i, xs, hname, Stretch.cons hdecode (by omega) ⟨hxs.walk, hxs.length_le, ?_⟩ ?_⟩
    · intro K hK hentered _
      exact hxs.stands K hK hentered fun hfalls => absurd hfalls hnot
    · intro K hK _ _
      exact .entry hE (hentry K hK fun hfalls => absurd hfalls hnot) hname
  · have hfin : Stretch P A r E [(e, .finish)] e (e + 1) fun _ => True :=
      .finish hfinish
    have hall : Stretch P A r E (xs ++ [(e, .finish)]) (s + 3) (e + 1) fun _ => True :=
      hxs.append hfin fun K hK _ _ => ⟨fun _ => hK _ (List.mem_singleton_self _), trivial⟩
    refine ⟨n, i, _, hname, Stretch.cons hdecode (by omega) hall ?_⟩
    intro K hK _ _
    refine .entry hE (hentry K (fun p hp => hK p (List.mem_append_left _ hp)) fun _ => ?_) hname
    exact hK (e, .finish) (List.mem_append_right _ (List.mem_singleton_self _))

/-- The sections are walked one after the other, and each of them is entered by its name. -/
theorem sections_walk {story : List Section} {labels : List Label}
    (h : Row (SectionBetween P A r) story labels s t)
    (hE : ∀ x l, (x, l) ∈ story.zip labels → E (A.target l) x.name.name) :
    ∃ xs, Stretch P A r E xs s t (fun _ => True) ∧
      ∀ x l, (x, l) ∈ story.zip labels → A.script.Entry xs (A.target l) x.name.name := by
  induction h with
  | nil s => exact ⟨[], ⟨.nil s, Nat.le_refl _, by simp⟩, by simp⟩
  | cons hfirst _ ih =>
    have hhead := hE _ _ (List.mem_cons_self ..)
    rw [hfirst.1] at hhead
    obtain ⟨next, i, xs, hname, hxs⟩ := hfirst.2.walk hhead
    obtain ⟨ys, hys, hentries⟩ := ih fun x l hmem => hE x l (List.mem_cons_of_mem _ hmem)
    refine ⟨_ ++ ys, hxs.append hys fun _ _ _ _ => ⟨trivial, trivial⟩, ?_⟩
    intro x l hmem
    rcases List.mem_cons.mp hmem with heq | hmem
    · obtain ⟨rfl, rfl⟩ := Prod.mk.inj heq
      rw [hfirst.1]
      exact ⟨next, i, List.mem_append_left _ (List.mem_cons_self ..), hname⟩
    · obtain ⟨next, i, hentry, hname⟩ := hentries x l hmem
      exact ⟨next, i, List.mem_append_right _ hentry, hname⟩

end

/-- The statements of a compiled script from its start to its end: each stands for something, and
where statements and mentions of sections lead, statements start. -/
structure Script.Laid (P : Float → Prop) (A : Artifact) (r : Registry) (E : Nat → String → Prop)
    (xs : List (Nat × Statement)) : Prop where
  walk : A.script.Walk 0 xs A.script.words.size
  length_le : xs.length ≤ A.script.words.size
  stands : ∀ p ∈ xs, Stands P A r E (fun n => ∃ q ∈ xs, q.1 = n) p.1 p.2
  entered : Entered A fun n => ∃ q ∈ xs, q.1 = n
  entry : ∀ n name, E n name → A.script.Entry xs n name

/-- Where the sections of a story stand. -/
def Story.Stands (story : Story) (A : Artifact) (labels : List Label) (n : Nat) (name : String) : Prop :=
  ∃ x l, (x, l) ∈ story.zip labels ∧ A.target l = n ∧ x.name.name = name

/-- A compiled story is one row of statements from the start of its words to their end, and all that they
lead to starts one of them. -/
theorem Compiled.exists_laid {P : Float → Prop} {r : Registry} {story : Story} {c : Compilation}
    {A : Artifact} {labels : List Label} (h : Compiled P r story c A labels) :
    ∃ xs, Script.Laid P A r (story.Stands A labels) xs := by
  obtain ⟨xs, hxs, hentries⟩ := sections_walk h.sections (E := story.Stands A labels)
    fun x l hmem => ⟨x, l, hmem, rfl, rfl⟩
  have hentry : ∀ ys n name, story.Stands A labels n name → A.script.Entry (xs ++ ys) n name := by
    rintro ys _ _ ⟨x, l, hmem, rfl, rfl⟩
    obtain ⟨next, i, hmem, hname⟩ := hentries x l hmem
    exact ⟨next, i, List.mem_append_left _ hmem, hname⟩
  have hbound : ∀ ys x l, A.Mentions x l → A.bound l → ∃ p ∈ xs ++ ys, p.1 = A.target l := by
    intro ys x l hx hl
    obtain ⟨y, hy, hname⟩ := h.declared x l hx.labels hl
    obtain ⟨next, i, hmem, _⟩ := hentry ys _ _ ⟨y, l, hy, rfl, hname⟩
    exact ⟨_, hmem, rfl⟩
  by_cases htrap : A.Trapped
  · have hfin : Stretch P A r (story.Stands A labels) [(A.trap, .finish)] A.trap (A.trap + 1)
        fun _ => True := .finish (decode_finish htrap.word)
    have hall := hxs.append hfin (F := fun _ => True) fun _ _ _ _ => ⟨trivial, trivial⟩
    have hentered : Entered A fun n => ∃ q ∈ xs ++ [(A.trap, .finish)], q.1 = n := by
      rintro x n ⟨l, hx, rfl, hl | ⟨htarget, _⟩⟩
      · exact hbound _ x l hx hl
      · exact ⟨_, List.mem_append_right _ (List.mem_singleton_self _), htarget.symm⟩
    have hlen := hall.length_le
    rw [Nat.zero_add, htrap.size] at hlen
    refine ⟨_, htrap.size ▸ hall.walk, hlen, ?_, hentered, hentry _⟩
    exact hall.stands _ (fun p hp => ⟨p, hp, rfl⟩) hentered trivial
  · have hentered : Entered A fun n => ∃ q ∈ xs, q.1 = n := by
      rintro x n ⟨l, hx, rfl, hl | ⟨_, hl⟩⟩
      · exact List.append_nil xs ▸ hbound [] x l hx hl
      · exact absurd hl htrap
    have hsize : A.script.words.size = A.trap := h.size.resolve_right htrap
    have hlen := hxs.length_le
    rw [Nat.zero_add, ← hsize] at hlen
    refine ⟨xs, hsize ▸ hxs.walk, hlen, ?_, hentered, List.append_nil xs ▸ hentry []⟩
    exact hxs.stands _ (fun p hp => ⟨p, hp, rfl⟩) hentered trivial

end Colloquy
