import Mathlib.Logic.Relation
import Colloquy.Proofs.Code.Tiles
import Colloquy.Proofs.Session.Jump
import Colloquy.Proofs.Session.Placed

/-!
# Statements lead onward

The words of a story stand in the order in which control goes through them.  A statement leads to a later
one of its section, because the blocks inside it stand behind it and are left to what stands behind them
all; or it leads to where a section is entered; or to the end behind all sections, where names that no
section has are sent.

`Course` says this of the statements read between two offsets, and which sections they lead to: those that
their statements name.  `Compiled.onward` puts it together for a whole script.
-/

namespace Colloquy

open Code

/-! ## Goals -/

/-- Where control may go from a statement without a wait.  Behind a line it waits, and an option has to be
selected. -/
def Code.Statement.passes : Statement → List Nat
  | .entry n _ => [n]
  | .finish => []
  | .line _ => []
  | .instruction n _ => [n]
  | .conditional n branches => n :: branches.map Prod.snd
  | .choice n _ => [n]
  | .hash n _ => [n]
  | .speaker n _ _ => [n]

theorem Code.Statement.passes_subset_targets (node : Statement) : node.passes ⊆ node.targets := by
  cases node <;> simp [Statement.passes, Statement.targets]

/-- The sections that a statement names as goals, apart from the statements inside it: its own goto, those
in the directives and in the text of a line, and those of the options of a choice. -/
def Stmt.goals : Stmt → List Ident
  | .line l => l.directives.filterMap (·.val.target?) ++ l.text.flatMap Lower.inlineTargets
  | .goto x => [x]
  | .choice items _ =>
    (ChoiceItem.allExits items).reduceOption ++ (ChoiceItem.allBodies items).filterMap Prod.fst
  | _ => []

/-- The sections that are named as goals in a section. -/
def Section.goals (x : Section) : List Ident := (x.body.flatMap Stmt.flat).flatMap Stmt.goals

/-- A section of a story has the name of a goal in another one. -/
def Story.Edge (story : Story) (x y : Section) : Prop :=
  y ∈ story ∧ ∃ z ∈ x.goals, z.name = y.name.name

namespace Story

variable {story : Story} {x y : Section}

theorem mem_of_transGen (h : Relation.TransGen story.Edge x y) : y ∈ story := by
  cases h with
  | single h => exact h.1
  | tail _ h => exact h.1

/-- If the sections that are named rank higher than those that name them, so do all sections that are
reached. -/
theorem rank_lt_of_transGen (rank : String → Nat)
    (hrank : ∀ x ∈ story, ∀ z ∈ x.goals, rank x.name.name < rank z.name) (hx : x ∈ story)
    (h : Relation.TransGen story.Edge x y) : rank x.name.name < rank y.name.name := by
  induction h with
  | single h =>
    obtain ⟨-, z, hz, hname⟩ := h
    exact hname ▸ hrank x hx z hz
  | tail h h' ih =>
    obtain ⟨-, z, hz, hname⟩ := h'
    exact Nat.lt_trans ih (hname ▸ hrank _ (mem_of_transGen h) z hz)

/-- Where goals can be ranked above the sections that name them, no section leads back to itself. -/
theorem irreflexive_of_rank (rank : String → Nat)
    (hrank : ∀ x ∈ story, ∀ z ∈ x.goals, rank x.name.name < rank z.name) (x : Section) :
    ¬Relation.TransGen story.Edge x x :=
  fun h => Nat.lt_irrefl _ (rank_lt_of_transGen rank hrank (mem_of_transGen h) h)

end Story

/-- Among some statements the entry of a section stands at an offset. -/
def IsEntry (xs : List (Nat × Statement)) (n : Nat) : Prop := ∃ next i, (n, .entry next i) ∈ xs

/-- The goals of all statements inside a statement are its own and those of its blocks. -/
theorem Stmt.flatMap_goals_flat (x : Stmt) : x.flat.flatMap Stmt.goals =
    x.goals ++ (x.blocks.flatMap fun p => p.2.flatMap Stmt.flat).flatMap Stmt.goals := by
  rw [Stmt.flat_eq, List.flatMap_append]
  congr 1
  cases x with
  | line l =>
    rw [Stmt.own, List.flatMap_append]
    cases l.hash <;> simp [Stmt.goals]
  | _ => simp [Stmt.own, Stmt.goals]

/-- The target of a block is a goal of the statement that has the block. -/
theorem Stmt.mem_goals_of_mem_blocks {x : Stmt} {y : Ident} {b : List Stmt}
    (h : (some y, b) ∈ x.blocks) : y ∈ x.goals := by
  cases x with
  | conditional branches otherwise span => simp [Stmt.blocks] at h
  | choice items span =>
    exact List.mem_append_right _ (List.mem_filterMap.mpr ⟨_, h, rfl⟩)
  | _ => cases h

/-- A block that leads on to the statement behind is left there. -/
def Leaves (bs : List (Option Ident × List Stmt)) : Prop := ∃ b, (none, b) ∈ bs ∧ FallsOff b

theorem Leaves.cons {bs : List (Option Ident × List Stmt)} (h : Leaves bs)
    (p : Option Ident × List Stmt) : Leaves (p :: bs) := by
  obtain ⟨b, hb, hfalls⟩ := h
  exact ⟨b, List.mem_cons_of_mem _ hb, hfalls⟩

/-- Control may fall off a statement if it may fall off one of its blocks that has no target. -/
theorem Leaves.falls {x : Stmt} (h : Leaves x.blocks) : Falls x := by
  cases x with
  | conditional branches otherwise span => exact falls_conditional.mpr h
  | choice items span => exact .choice items span
  | _ =>
    obtain ⟨b, hb, -⟩ := h
    cases hb

/-! ## Courses -/

section

variable {S : Script} {xs : List (Nat × Statement)} {s t : Nat}

theorem Script.Walk.le (h : S.Walk s xs t) : s ≤ t := by
  induction h with
  | nil s => exact Nat.le_refl s
  | cons hdecode _ ih => exact Nat.le_trans (Nat.le_of_lt (decodeStatement_occupies hdecode).lt) ih

/-- Statements that are read between two offsets stand there. -/
theorem Script.Walk.within (h : S.Walk s xs t) {p : Nat × Statement} (hp : p ∈ xs) : s ≤ p.1 ∧ p.1 < t := by
  induction h with
  | nil s => cases hp
  | cons hdecode hwalk ih =>
    have hlt := (decodeStatement_occupies hdecode).lt
    rcases List.mem_cons.mp hp with rfl | hp
    · exact ⟨Nat.le_refl _, Nat.lt_of_lt_of_le hlt hwalk.le⟩
    · exact ⟨Nat.le_trans (Nat.le_of_lt hlt) (ih hp).1, (ih hp).2⟩

end

section

variable (A : Artifact) (G : Ident → Prop)

/-- A section named in `G` is entered at an offset. -/
def Artifact.EntersFrom (n : Nat) : Prop := ∃ y, G y ∧ A.Enters y n

/-- A statement leads to offsets of `K` and to sections, without a wait to those named in `G` only. -/
structure Leads (K : Nat → Prop) (node : Statement) : Prop where
  passes : ∀ n ∈ node.passes, K n ∨ A.EntersFrom G n
  sound : Entered A K → A.script.SoundStatement K node

/-- Statements that are read between two offsets.  Each leads to a later offset between them, to one of
`C`, or to a section. -/
structure Course (xs : List (Nat × Statement)) (s t : Nat) (C : Nat → Prop) : Prop where
  walk : A.script.Walk s xs t
  leads : ∀ p ∈ xs, ∀ K : Nat → Prop, (∀ n, p.1 < n → n < t → K n) →
    (∀ n, C n → K n ∨ A.EntersFrom G n) → Leads A G K p.2

end

section

variable {P : Float → Prop} {A : Artifact} {r : Registry} {G : Ident → Prop}
  {xs ys : List (Nat × Statement)} {s n m e t next : Nat} {C D : Nat → Prop}

namespace Course

theorem nil (s : Nat) (C : Nat → Prop) : Course A G [] s s C where
  walk := .nil s
  leads := by simp

theorem mono (h : Course A G xs s t C) (hC : ∀ n, C n → D n ∨ A.EntersFrom G n) :
    Course A G xs s t D where
  walk := h.walk
  leads p hp K hK hD := h.leads p hp K hK fun n hn => (hC n hn).elim (hD n) .inr

/-- What the first statements lead to may be among those behind them. -/
theorem append (h : Course A G xs s m C) (h' : Course A G ys m t D)
    (hC : ∀ n, C n → (m ≤ n ∧ n < t) ∨ D n ∨ A.EntersFrom G n) : Course A G (xs ++ ys) s t D where
  walk := h.walk.append h'.walk
  leads p hp K hK hD := by
    rcases List.mem_append.mp hp with hp | hp
    · refine h.leads p hp K (fun n hn hlt => hK n hn (Nat.lt_of_lt_of_le hlt h'.walk.le)) fun n hn => ?_
      rcases hC n hn with hrange | hn | henters
      · exact .inl (hK n (Nat.lt_of_lt_of_le (h.walk.within hp).2 hrange.1) hrange.2)
      · exact hD n hn
      · exact .inr henters
    · exact h'.leads p hp K hK hD

/-- A statement in front of others. -/
theorem cons {node : Statement} (hdecode : A.script.decodeStatement s = .ok (node, m))
    (h : Course A G xs m t C) (hnode : ∀ K : Nat → Prop, (∀ n, s < n → n < t → K n) →
      (∀ n, C n → K n ∨ A.EntersFrom G n) → Leads A G K node) :
    Course A G ((s, node) :: xs) s t C where
  walk := .cons hdecode h.walk
  leads := by
    rw [List.forall_mem_cons]
    exact ⟨hnode, h.leads⟩

end Course

/-! ## Statements -/

/-- A statement leads to where the blocks inside it are entered, or behind it if control goes on there. -/
theorem NodeAt.leads (hA : A.Fits) {x : Stmt} {node : Statement}
    {B : Option Ident → List Stmt → Nat → Prop} (h : NodeAt P A r B next x node s t)
    (hG : ∀ y ∈ x.goals, G y) {K : Nat → Prop} (hnext : Falls x → K next ∨ A.EntersFrom G next)
    (hB : ∀ y b n, B y b n → K n ∨ A.EntersFrom G n) : Leads A G K node := by
  refine ⟨?_, fun hentered => ?_⟩
  · cases h with
    | line => simp [Statement.passes]
    | finish => simp [Statement.passes]
    | instruction _ => simpa [Statement.passes] using hnext (.instruction _)
    | @goto x _ n hx _ =>
      have hn : A.EntersFrom G n := ⟨x, hG x (List.mem_singleton_self x), hx⟩
      simpa [Statement.passes] using .inr hn
    | conditional hbranches hlast =>
      rw [Statement.passes, List.forall_mem_cons, List.forall_mem_map]
      refine ⟨hB _ _ _ hlast, fun p hp => ?_⟩
      obtain ⟨b, -, _, _, hb⟩ := hbranches.exists_of_mem hp
      obtain ⟨-, hb⟩ := hb
      exact hB _ _ _ hb
    | choice _ _ => simpa [Statement.passes] using hnext (.choice _ _)
    | hash _ => simpa [Statement.passes] using hnext (.hash _)
    | speaker _ _ => simpa [Statement.passes] using hnext (.speaker _ _ _)
  · have henters : ∀ n, K n ∨ A.EntersFrom G n → K n := by
      rintro n (hn | ⟨y, -, hy⟩)
      · exact hn
      · exact hentered y n hy
    have hnode := h.imp fun y b n hb => henters n (hB y b n hb)
    exact hnode.sound hA hentered fun hfalls => henters next (hnext hfalls)

variable (P A r) in
/-- What is known of the words of a statement and the blocks inside it. -/
def StmtCourse (x : Stmt) (s next t : Nat) : Prop :=
  ∀ G : Ident → Prop, (∀ y ∈ x.flat.flatMap Stmt.goals, G y) →
    s < t ∧ ∃ xs, Course A G xs s t fun n => Falls x ∧ n = next

variable (P A r) in
/-- What is known of the words of a block.  It is entered among them, or where it is left to. -/
def BlockCourse (b : List Stmt) (s n e t : Nat) : Prop :=
  ∀ G : Ident → Prop, (∀ y ∈ (b.flatMap Stmt.flat).flatMap Stmt.goals, G y) →
    (∃ xs, Course A G xs s t fun k => FallsOff b ∧ k = e) ∧
      ((s ≤ n ∧ n < t) ∨ FallsOff b ∧ n = e)

variable (P A r) in
/-- What is known of the words of the blocks inside a statement. -/
def BlocksCourse (bs : List (Option Ident × List Stmt)) (ns : List Nat) (next s t : Nat) : Prop :=
  ∀ G : Ident → Prop, (∀ y b, (some y, b) ∈ bs → G y) →
    (∀ y ∈ (bs.flatMap fun p => p.2.flatMap Stmt.flat).flatMap Stmt.goals, G y) →
    (∃ xs, Course A G xs s t fun k => Leaves bs ∧ k = next) ∧ ∀ p n, (p, n) ∈ bs.zip ns →
      (s ≤ n ∧ n < t) ∨ (Leaves bs ∧ n = next) ∨ A.EntersFrom G n

/-- A statement that is not the hash data of a line. -/
theorem NodeAt.course (hA : A.Fits) {x : Stmt} {node : Statement} {entries : List Nat}
    (hdecode : A.script.decodeStatement s = .ok (node, m))
    (hnode : NodeAt P A r (fun y b n => ((y, b), n) ∈ x.blocks.zip entries) next x node s m)
    (hblocks : BlocksCourse A x.blocks entries next m t) : StmtCourse A x s next t := by
  intro G hG
  rw [Stmt.flatMap_goals_flat, List.forall_mem_append] at hG
  obtain ⟨⟨xs, hxs⟩, hentries⟩ := hblocks G (fun y b hb => hG.1 y (Stmt.mem_goals_of_mem_blocks hb)) hG.2
  have hbehind : Course A G xs m t fun n => Falls x ∧ n = next :=
    hxs.mono fun n hn => .inl ⟨hn.1.falls, hn.2⟩
  refine ⟨Nat.lt_of_lt_of_le hnode.lt hxs.walk.le, _, .cons hdecode hbehind ?_⟩
  -- The blocks stand behind the statement, so to enter one leads onward, unless it is empty.
  intro K hK hC
  refine hnode.leads hA hG.1 (fun hfalls => hC next ⟨hfalls, rfl⟩) fun y b n hmem => ?_
  rcases hentries (y, b) n hmem with hrange | ⟨hleaves, rfl⟩ | henters
  · exact .inl (hK n (Nat.lt_of_lt_of_le hnode.lt hrange.1) hrange.2)
  · exact hC n ⟨hleaves.falls, rfl⟩
  · exact .inr henters

/-- A line behind its hash data. -/
theorem StmtCourse.hashed (hA : A.Fits) {l : Line} {h : HashBlock} {pairs : List PairNode}
    (hdecode : A.script.decodeStatement s = .ok (.hash m pairs, m))
    (hpairs : Row (PairAt P A r) h.entries pairs (s + 3) m)
    (hline : StmtCourse A (.line { l with hash := none }) m next t) : StmtCourse A (.line l) s next t := by
  intro G hG
  -- Hash data names no sections.
  have hgoals : (Stmt.line { l with hash := none }).flat.flatMap Stmt.goals =
      (Stmt.line l).flat.flatMap Stmt.goals := by
    rw [Stmt.flatMap_goals_flat, Stmt.flatMap_goals_flat]
    rfl
  obtain ⟨hlt, xs, hxs⟩ := hline G (hgoals ▸ hG)
  have hle := hpairs.length_le fun _ _ _ _ h => h.lt
  have hsm : s < m := by omega
  have hhash : NodeAt P A r (fun _ _ _ => False) m (.hash h) (.hash m pairs) s m := .hash hpairs
  refine ⟨Nat.lt_trans hsm hlt, _, .cons hdecode (hxs.mono fun n hn => .inl ⟨.line l, hn.2⟩) ?_⟩
  intro K hK _
  exact hhash.leads hA (by simp [Stmt.goals]) (fun _ => .inl (hK m hsm hlt)) fun _ _ _ => False.elim

/-! ## Blocks -/

theorem BlockCourse.nil (s n : Nat) : BlockCourse A [] s n n s :=
  fun _ _ => ⟨⟨[], .nil s _⟩, .inr ⟨.nil, rfl⟩⟩

/-- A statement in front of a block leads on to the block. -/
theorem BlockCourse.cons {x : Stmt} {b : List Stmt} (hx : StmtCourse A x s next m)
    (hblock : BlockAt P A r b m next e t) (hb : BlockCourse A b m next e t) :
    BlockCourse A (x :: b) s s e t := by
  intro G hG
  rw [List.flatMap_cons, List.flatMap_append, List.forall_mem_append] at hG
  obtain ⟨hlt, xs, hxs⟩ := hx G hG.1
  obtain ⟨⟨ys, hys⟩, hentry⟩ := hb G hG.2
  refine ⟨?_, .inl ⟨Nat.le_refl s, Nat.lt_of_lt_of_le hlt hys.walk.le⟩⟩
  cases b with
  | nil =>
    cases hblock
    exact ⟨xs, hxs.mono fun n hn => .inl ⟨fallsOff_singleton.mpr hn.1, hn.2⟩⟩
  | cons y b =>
    simp only [fallsOff_cons_cons]
    refine ⟨xs ++ ys, hxs.append hys ?_⟩
    rintro n ⟨-, rfl⟩
    exact hentry.imp_right .inl

theorem BlocksCourse.nil (next s : Nat) : BlocksCourse A [] [] next s s :=
  fun _ _ _ => ⟨⟨[], .nil s _⟩, by simp⟩

/-- A branch in front of the others leads to what stands behind it, or behind the last of them. -/
theorem BlocksCourse.cons {y : Option Ident} {b : List Stmt} {bs : List (Option Ident × List Stmt)}
    {ns : List Nat} (hb : BlockCourse A b s n e m) (hleads : BodyLeads A next y b e)
    (hbs : BlocksCourse A bs ns next m t) : BlocksCourse A ((y, b) :: bs) (n :: ns) next s t := by
  intro G hgoals hG
  rw [List.flatMap_cons, List.flatMap_append, List.forall_mem_append] at hG
  obtain ⟨⟨xs, hxs⟩, hentry⟩ := hb G hG.1
  obtain ⟨⟨ys, hys⟩, hentries⟩ := hbs G (fun z c hc => hgoals z c (List.mem_cons_of_mem _ hc)) hG.2
  -- A block without a goal is left to what stands behind all of them, the body of an option to its goal.
  have hexit : ∀ k, FallsOff b ∧ k = e → (Leaves ((y, b) :: bs) ∧ k = next) ∨ A.EntersFrom G k := by
    rintro k ⟨hfalls, rfl⟩
    cases y with
    | none => exact .inl ⟨⟨b, List.mem_cons_self .., hfalls⟩, hleads⟩
    | some z => exact .inr ⟨z, hgoals z b (List.mem_cons_self ..), hleads hfalls⟩
  have hbehind : Course A G ys m t fun k => Leaves ((y, b) :: bs) ∧ k = next :=
    hys.mono fun k hk => .inl ⟨hk.1.cons (y, b), hk.2⟩
  refine ⟨⟨xs ++ ys, hxs.append hbehind fun k hk => .inr (hexit k hk)⟩, ?_⟩
  have hsm := hxs.walk.le
  have hmt := hys.walk.le
  intro p k hmem
  rcases List.mem_cons.mp hmem with heq | hmem
  · obtain ⟨rfl, rfl⟩ := Prod.mk.inj heq
    rcases hentry with hrange | hk
    · exact .inl ⟨hrange.1, by omega⟩
    · exact .inr (hexit k hk)
  · rcases hentries p k hmem with hrange | ⟨hleaves, hk⟩ | henters
    · exact .inl ⟨by omega, hrange.2⟩
    · exact .inr (.inl ⟨hleaves.cons (y, b), hk⟩)
    · exact .inr (.inr henters)

/-- The statements of a block lead onward. -/
theorem BlockAt.course (hA : A.Fits) {b : List Stmt} (h : BlockAt P A r b s n e t) :
    BlockCourse A b s n e t :=
  @BlockAt.rec P A r (fun x s next t _ => StmtCourse A x s next t)
    (fun b s n e t _ => BlockCourse A b s n e t)
    (fun bs ns next s t _ => BlocksCourse A bs ns next s t)
    (fun hdecode hnode _ hblocks => hnode.course hA hdecode hblocks)
    (fun _ hdecode hpairs _ hline => .hashed hA hdecode hpairs hline)
    .nil (fun _ hblock hx hb => .cons hx hblock hb)
    .nil (fun _ hleads _ hb hbs => .cons hb hleads hbs) b s n e t h

/-! ## Sections -/

theorem Script.soundStatement_finish {S : Script} {K : Nat → Prop} : S.SoundStatement K .finish :=
  ⟨by simp [Statement.targets], by simp [Statement.places], by simp [Statement.exprs]⟩

theorem Course.finish (hdecode : A.script.decodeStatement s = .ok (.finish, s + 1)) :
    Course A G [(s, .finish)] s (s + 1) C := by
  refine .cons hdecode (.nil (s + 1) C) fun K _ _ => ?_
  exact ⟨by simp [Statement.passes], fun _ => Script.soundStatement_finish⟩

/-- The statements of a section lead to each other and to sections that are named in it. -/
theorem SectionAt.course (hA : A.Fits) {x : Section} (h : SectionAt P A r x s t) :
    s < t ∧ ∃ xs, Course A (· ∈ x.goals) xs s t fun _ => False := by
  obtain ⟨n, i, e, m, hdecode, hname, hbody, hend⟩ := h.body
  obtain ⟨⟨xs, hxs⟩, hentry⟩ := hbody.course hA (· ∈ x.goals) fun _ hy => hy
  have hhead : ∀ K : Nat → Prop, K n → Leads A (· ∈ x.goals) K (.entry n i) := by
    intro K hn
    refine ⟨by simpa [Statement.passes] using .inl hn, fun hentered => ?_⟩
    exact (Stands.entry (P := P) (r := r) (E := fun _ _ => True) (s := s) trivial hn hname).sound hA hentered
  have hle := hxs.walk.le
  rcases hend with ⟨hnot, rfl⟩ | ⟨-, rfl, hfinish, rfl⟩
  · have hrange : s + 3 ≤ n ∧ n < t := hentry.resolve_right fun hn => hnot hn.1
    refine ⟨by omega, _, .cons hdecode (hxs.mono fun k hk => absurd hk.1 hnot) fun K hK _ => hhead K ?_⟩
    exact hK n (by omega) hrange.2
  · have hall : Course A (· ∈ x.goals) (xs ++ [(e, .finish)]) (s + 3) (e + 1) fun _ => False := by
      refine hxs.append (.finish hfinish) ?_
      rintro k ⟨-, rfl⟩
      exact .inl ⟨Nat.le_refl k, Nat.lt_succ_self k⟩
    have hrange : s + 3 ≤ n ∧ n < e + 1 := by
      rcases hentry with hrange | ⟨-, rfl⟩ <;> omega
    refine ⟨by omega, _, .cons hdecode hall fun K hK _ => hhead K ?_⟩
    exact hK n (by omega) hrange.2

/-- Statements that are read between two offsets, each at home in a section of a story.  It leads to a
later one of its section, or to a section. -/
structure Homes (A : Artifact) (story : Story) (labels : List Label) (home : Nat → Option Section)
    (xs : List (Nat × Statement)) (s t : Nat) : Prop where
  walk : A.script.Walk s xs t
  entry : ∀ x l, (x, l) ∈ story.zip labels → s ≤ A.target l ∧ home (A.target l) = some x
  leads : ∀ p ∈ xs, ∃ x, home p.1 = some x ∧ ∀ K : Nat → Prop,
    (∀ n, p.1 < n → n < t → home n = some x → K n) → Leads A (· ∈ x.goals) K p.2

/-- A section is home to its statements, in front of other sections. -/
theorem Homes.cons {story : Story} {labels : List Label} {home : Nat → Option Section} {x : Section}
    {l : Label} (htarget : A.target l = s) (hlt : s < m) (hxs : Course A (· ∈ x.goals) xs s m fun _ => False)
    (hys : Homes A story labels home ys m t) :
    Homes A (x :: story) (l :: labels) (fun n => if n < m then some x else home n) (xs ++ ys) s t := by
  have hlow : ∀ n, n < m → (fun n => if n < m then some x else home n) n = some x := fun n hn => if_pos hn
  have hhigh : ∀ n, m ≤ n → (fun n => if n < m then some x else home n) n = home n :=
    fun n hn => if_neg (Nat.not_lt.mpr hn)
  have hmt := hys.walk.le
  refine ⟨hxs.walk.append hys.walk, ?_, ?_⟩
  · intro y k hmem
    rcases List.mem_cons.mp hmem with heq | hmem
    · obtain ⟨rfl, rfl⟩ := Prod.mk.inj heq
      rw [htarget]
      exact ⟨Nat.le_refl s, hlow s hlt⟩
    · obtain ⟨hge, hhome⟩ := hys.entry y k hmem
      exact ⟨Nat.le_trans (Nat.le_of_lt hlt) hge, (hhigh _ hge).trans hhome⟩
  · intro p hp
    rcases List.mem_append.mp hp with hp | hp
    · refine ⟨x, hlow p.1 (hxs.walk.within hp).2, fun K hK => ?_⟩
      exact hxs.leads p hp K (fun n hn hnm => hK n hn (Nat.lt_of_lt_of_le hnm hmt) (hlow n hnm)) (by simp)
    · obtain ⟨y, hy, hleads⟩ := hys.leads p hp
      have hge := (hys.walk.within hp).1
      refine ⟨y, (hhigh p.1 hge).trans hy, fun K hK => hleads K fun n hn hnt hnhome => ?_⟩
      exact hK n hn hnt ((hhigh n (by omega)).trans hnhome)

/-- Each statement has the section it stands in as its home, and leads to a later one of it or to an entry
that the section names. -/
theorem exists_homes (hA : A.Fits) {story : Story} {labels : List Label}
    (h : Row (SectionBetween P A r) story labels s t) : ∃ home xs, Homes A story labels home xs s t := by
  induction h with
  | nil s => exact ⟨fun _ => none, [], .nil s, by simp, by simp⟩
  | cons hfirst _ ih =>
    obtain ⟨hlt, xs, hxs⟩ := hfirst.2.course hA
    obtain ⟨home, ys, hys⟩ := ih
    exact ⟨_, _, .cons hfirst.1 hlt hxs hys⟩

end

/-! ## Scripts -/

/-- The statements of a script lead onward.  Every target is a later offset or the entry of a section.
Without a wait control goes on in the section that a statement is at home in, goes to a section that is
named there, or comes to an end. -/
structure Script.Onward (S : Script) (story : Story) (home : Nat → Option Section)
    (xs : List (Nat × Statement)) : Prop where
  walk : S.Walk 0 xs S.words.size
  length_le : xs.length ≤ S.words.size
  closed : S.Closed fun n => ∃ q ∈ xs, q.1 = n
  sound : ∀ p ∈ xs, S.SoundStatement (fun n => p.1 < n ∨ IsEntry xs n) p.2
  sections : ∀ table, S.sectionTable = .ok table → table.Within (IsEntry xs)
  passes : ∀ p ∈ xs, ∀ n ∈ p.2.passes, (p.1 < n ∧ home n = home p.1) ∨
    (∃ x y, home p.1 = some x ∧ home n = some y ∧ story.Edge x y) ∨
    S.decodeStatement n = .ok (.finish, n + 1)

section

variable {P : Float → Prop} {A : Artifact} {r : Registry} {story : Story} {c : Compilation}
  {labels : List Label}

/-- A name leads to a section that has it, or to the end behind all sections. -/
theorem Compiled.enters_cases (h : Compiled P r story c A labels) {y : Ident} {n : Nat}
    (hy : A.Enters y n) :
    (∃ x l, (x, l) ∈ story.zip labels ∧ x.name.name = y.name ∧ A.target l = n) ∨
      n = A.trap ∧ A.Trapped := by
  obtain ⟨l, hmention, htarget, hbound | htrap⟩ := hy
  · obtain ⟨x, hx, hname⟩ := h.declared y l hmention.labels hbound
    exact .inl ⟨x, l, hx, hname, htarget⟩
  · exact .inr htrap

/-- What is known of a statement at home, if the sections stand at the offsets of `K`. -/
theorem Homes.onward (h : Compiled P r story c A labels) {home : Nat → Option Section}
    {xs : List (Nat × Statement)} (hxs : Homes A story labels home xs 0 A.trap) {K : Nat → Prop}
    (hK : ∀ x l, (x, l) ∈ story.zip labels → K (A.target l)) :
    ∀ p ∈ xs, A.script.SoundStatement (fun n => p.1 < n ∨ K n) p.2 ∧
      ∀ n ∈ p.2.passes, (p.1 < n ∧ home n = home p.1) ∨
        (∃ x y, home p.1 = some x ∧ home n = some y ∧ story.Edge x y) ∨
        A.script.decodeStatement n = .ok (.finish, n + 1) := by
  intro p hp
  obtain ⟨x, hx, hleads⟩ := hxs.leads p hp
  refine ⟨(hleads (fun n => p.1 < n ∨ K n) fun n hn _ _ => .inl hn).sound ?_, ?_⟩
  · intro y n hy
    rcases h.enters_cases hy with ⟨z, l, hz, -, rfl⟩ | ⟨rfl, -⟩
    · exact .inr (hK z l hz)
    · exact .inl (hxs.walk.within hp).2
  · intro n hn
    rw [hx]
    rcases (hleads (fun n => p.1 < n ∧ home n = some x) fun n hn _ hhome => ⟨hn, hhome⟩).passes n hn with
      hlater | ⟨y, hy, henters⟩
    · exact .inl hlater
    rcases h.enters_cases henters with ⟨z, l, hz, hname, rfl⟩ | ⟨rfl, htrap⟩
    · have hedge : story.Edge x z := ⟨(List.of_mem_zip hz).1, y, hy, hname.symm⟩
      exact .inr (.inl ⟨x, z, rfl, (hxs.entry z l hz).2, hedge⟩)
    · exact .inr (.inr (decode_finish htrap.word))

/-- A compiled script leads onward. -/
theorem Compiled.onward (h : Compiled P r story c A labels) :
    ∃ home xs, A.script.Onward story home xs := by
  obtain ⟨ws, hlaid⟩ := h.exists_laid
  obtain ⟨table, htable, hstands, -⟩ := hlaid.exists_table
  obtain ⟨home, xs, hxs⟩ := exists_homes h.fits h.sections
  have hentry : ∀ n name, story.Stands A labels n name → IsEntry ws n := by
    intro n name hn
    obtain ⟨next, i, hmem, -⟩ := hlaid.entry n name hn
    exact ⟨next, i, hmem⟩
  have honward := hxs.onward h fun x l hx => hentry _ _ ⟨x, l, hx, rfl, rfl⟩
  have hclosed := hlaid.walk.closed fun p hp => (hlaid.stands p hp).sound h.fits hlaid.entered
  have hsections : ∀ table, A.script.sectionTable = .ok table → table.Within (IsEntry ws) := by
    rintro _ h name n hfind
    rw [htable] at h
    cases h
    exact hentry n name (hstands name n hfind)
  -- the end behind all sections is the one statement that is not at home in any
  have hhome : ∀ p ∈ ws, p ∈ xs ∨ p.2 = .finish := by
    by_cases htrap : A.Trapped
    · have hwalk := hxs.walk.append (.cons (decode_finish htrap.word) (.nil _))
      rw [htrap.size] at hwalk
      rw [hwalk.unique hlaid.walk, List.forall_mem_append, List.forall_mem_singleton]
      exact ⟨fun p hp => .inl hp, .inr rfl⟩
    · rw [← h.size.resolve_right htrap] at hxs
      rw [hxs.walk.unique hlaid.walk]
      exact fun p hp => .inl hp
  refine ⟨home, ws, hlaid.walk, hlaid.length_le, hclosed, fun p hp => ?_, hsections, fun p hp => ?_⟩
  · rcases hhome p hp with hp | hfinish
    · exact (honward p hp).1
    · exact hfinish ▸ Script.soundStatement_finish
  · rcases hhome p hp with hp | hfinish
    · exact (honward p hp).2
    · simp [hfinish, Statement.passes]

end

end Colloquy
