import Colloquy.Proofs.Layout.Spots
import Colloquy.Proofs.Session.Onward

/-!
# Statements that control can come to

Behind a goto or an end of its block a statement is cut off: nothing in front of it leads there, because
the statements in front do not use the label behind the one that cuts, and no section is entered there.
`Lively` says of the words between two offsets which statements are left when those are set aside: what
they lead to is among them again, or where the words are left to, or a section.  So they keep control to
themselves (`Compiled.exists_live`).
-/

namespace Colloquy

open Code
open Lower (Reach)

/-- Statements of a script between two offsets that lead to each other, to where `C` says that they are
left to, and to sections; and places between the same offsets, of which those that are cut off are none of
the statements. -/
structure Lively (A : Artifact) (live : List (Nat × Statement)) (spots : List Spot) (s t : Nat)
    (C : (Nat → Prop) → Prop) : Prop where
  le : s ≤ t
  within : ∀ p ∈ live, s ≤ p.1 ∧ p.1 < t
  between : ∀ q ∈ spots, s ≤ q.start ∧ q.stop ≤ t
  apart : ∀ q ∈ spots, q.reach ≠ .reached → ∀ p ∈ live, p.1 < q.start ∨ q.stop ≤ p.1
  decodes : ∀ p ∈ live, ∃ m, A.script.decodeStatement p.1 = .ok (p.2, m)
  sound : ∀ K : Nat → Prop, (∀ p ∈ live, K p.1) → Entered A K → C K →
    ∀ p ∈ live, A.script.SoundStatement K p.2

section

variable {A : Artifact} {live more : List (Nat × Statement)} {spots others : List Spot} {s m t : Nat}
  {C D F : (Nat → Prop) → Prop}

/-- Places that no statement stands at. -/
theorem Lively.dead (hle : s ≤ t) (h : ∀ q ∈ spots, s ≤ q.start ∧ q.stop ≤ t) :
    Lively A [] spots s t C where
  le := hle
  within := by simp
  between := h
  apart := by simp
  decodes := by simp
  sound := by simp

/-- Two stretches put one behind the other keep control to themselves, if what the whole needs of the code
behind it gives what each of the two needs. -/
theorem Lively.append (h : Lively A live spots s m C) (h' : Lively A more others m t D)
    (hF : ∀ K : Nat → Prop, (∀ p ∈ more, K p.1) → Entered A K → F K → C K ∧ D K) :
    Lively A (live ++ more) (spots ++ others) s t F where
  le := h.le.trans h'.le
  within := by
    have := h.le
    have := h'.le
    rw [List.forall_mem_append]
    refine ⟨fun p hp => ?_, fun p hp => ?_⟩
    · have := h.within p hp
      omega
    · have := h'.within p hp
      omega
  between := by
    have := h.le
    have := h'.le
    rw [List.forall_mem_append]
    refine ⟨fun q hq => ?_, fun q hq => ?_⟩
    · have := h.between q hq
      omega
    · have := h'.between q hq
      omega
  apart := by
    simp only [List.forall_mem_append]
    refine ⟨fun q hq hcut => ⟨h.apart q hq hcut, fun p hp => ?_⟩,
      fun q hq hcut => ⟨fun p hp => ?_, h'.apart q hq hcut⟩⟩
    · have := (h.between q hq).2
      have := (h'.within p hp).1
      omega
    · have := (h'.between q hq).1
      have := (h.within p hp).2
      omega
  decodes := List.forall_mem_append.mpr ⟨h.decodes, h'.decodes⟩
  sound K hK hentered hF' := by
    rw [List.forall_mem_append] at hK ⊢
    obtain ⟨hC, hD⟩ := hF K hK.2 hentered hF'
    exact ⟨h.sound K hK.1 hentered hC, h'.sound K hK.2 hentered hD⟩

/-- A statement in front of others. -/
theorem Lively.cons {node : Statement} (hdecode : A.script.decodeStatement s = .ok (node, m))
    (h : Lively A live spots m t C) (hnode : ∀ K : Nat → Prop, (∀ p ∈ live, K p.1) → Entered A K → C K →
      A.script.SoundStatement K node) : Lively A ((s, node) :: live) spots s t C := by
  have hlt := (Script.decodeStatement_occupies hdecode).lt
  have hle := h.le
  refine ⟨by omega, ?_, ?_, ?_, List.forall_mem_cons.mpr ⟨⟨m, hdecode⟩, h.decodes⟩, ?_⟩
  · rw [List.forall_mem_cons]
    refine ⟨⟨Nat.le_refl s, by omega⟩, fun p hp => ?_⟩
    have := h.within p hp
    omega
  · intro q hq
    have := h.between q hq
    omega
  · intro q hq hcut
    rw [List.forall_mem_cons]
    have := h.between q hq
    exact ⟨.inl (by omega), h.apart q hq hcut⟩
  · intro K hK hentered hC
    rw [List.forall_mem_cons] at hK ⊢
    exact ⟨hnode K hK.2 hentered hC, h.sound K hK.2 hentered hC⟩

/-- A place that is not cut off. -/
theorem Lively.seat (h : Lively A live spots s t C) (x : Stmt) (hm : m ≤ t) :
    Lively A live (⟨.reached, x, s, m⟩ :: spots) s t C :=
  { h with
    between := List.forall_mem_cons.mpr ⟨⟨Nat.le_refl s, hm⟩, h.between⟩
    apart := List.forall_mem_cons.mpr ⟨fun hcut => absurd rfl hcut, h.apart⟩ }

theorem Lively.mono (h : Lively A live spots s t C)
    (hC : ∀ K : Nat → Prop, (∀ p ∈ live, K p.1) → D K → C K) : Lively A live spots s t D :=
  { h with sound := fun K hK hentered hD => h.sound K hK hentered (hC K hK hD) }

theorem Script.Reads.le {S : Script} {codes : List StatementCode} (h : S.Reads codes s t) : s ≤ t := by
  obtain ⟨xs, hwalk, -⟩ := h
  exact hwalk.le

/-- Statements that are read take up words. -/
theorem Script.Reads.lt {S : Script} {codes : List StatementCode} (h : S.Reads codes s t)
    (hcodes : codes ≠ []) : s < t := by
  obtain ⟨xs, hwalk, rfl⟩ := h
  cases hwalk with
  | nil => exact absurd rfl hcodes
  | cons hdecode hrest => exact (Script.decodeStatement_occupies hdecode).lt.trans_le hrest.le

/-- The places of a row of statements lie between its ends. -/
theorem Script.Seats.between {S : Script} {ps : List (Reach × Stmt)} (h : Row S.Seats ps spots s t) :
    s ≤ t ∧ ∀ q ∈ spots, s ≤ q.start ∧ q.stop ≤ t := by
  induction h with
  | nil s => exact ⟨Nat.le_refl s, by simp⟩
  | cons hseat _ ih =>
    obtain ⟨rfl, hreads⟩ := hseat
    have hle := hreads.le
    refine ⟨hle.trans ih.1, List.forall_mem_cons.mpr ⟨⟨Nat.le_refl _, ih.1⟩, fun q hq => ?_⟩⟩
    exact ⟨hle.trans (ih.2 q hq).1, (ih.2 q hq).2⟩

end

/-! ## Statements and blocks -/

section

variable {P : Float → Prop} {A : Artifact} {r : Registry} {s n m e t next : Nat}

/-- A statement that is not a line is read as one statement of its own code. -/
theorem NodeAt.codes {x : Stmt} {node : Statement} {B : Option Ident → List Stmt → Nat → Prop}
    (h : NodeAt P A r B next x node s t) : x.codes = [node.code] := by
  cases h with
  | line hhash => simp [Stmt.codes, hhash, Statement.code]
  | _ => rfl

variable (A) in
/-- What is known of a statement that is not cut off, and of the blocks inside it. -/
def StmtLives (x : Stmt) (s next t : Nat) : Prop :=
  ∃ m spots live, A.script.Reads x.codes s m ∧ Row A.script.Seats x.inside spots m t ∧
    Lively A live spots s t (fun K => Falls x → K next) ∧ ∃ node, (s, node) ∈ live

variable (A) in
/-- What is known of a block.  If its first statement is not cut off, the block is entered at it, or an
empty block where it is left to. -/
def BlockLives (b : List Stmt) (s n e t : Nat) : Prop :=
  ∀ reach, ∃ spots, Row A.script.Seats (Stmt.chartFrom reach b) spots s t ∧
    (reach = .reached → ∃ live, Lively A live spots s t (fun K => FallsOff b → K e) ∧
      ∀ K : Nat → Prop, (∀ p ∈ live, K p.1) → (FallsOff b → K e) → K n)

variable (A) in
/-- What is known of the blocks inside a statement. -/
def BlocksLive (bs : List (Option Ident × List Stmt)) (ns : List Nat) (next s t : Nat) : Prop :=
  ∃ spots live, Row A.script.Seats (bs.flatMap fun p => Stmt.chartFrom .reached p.2) spots s t ∧
    Lively A live spots s t (Left bs next) ∧ ∀ K : Nat → Prop, (∀ p ∈ live, K p.1) →
      Entered A K → Left bs next K → ∀ p n, (p, n) ∈ bs.zip ns → K n

/-- A statement that is not the hash data of a line. -/
theorem NodeAt.lives (hA : A.Fits) {x : Stmt} {node : Statement} {entries : List Nat}
    (hdecode : A.script.decodeStatement s = .ok (node, m))
    (hnode : NodeAt P A r (fun y b n => ((y, b), n) ∈ x.blocks.zip entries) next x node s m)
    (hblocks : BlocksLive A x.blocks entries next m t) : StmtLives A x s next t := by
  obtain ⟨spots, live, hspots, hlive, hentries⟩ := hblocks
  refine ⟨m, spots, _, hnode.codes ▸ .single hdecode, hspots, .cons hdecode (hlive.mono ?_) ?_, node,
    List.mem_cons_self ..⟩
  · exact fun K _ hC => left_of_falls hC
  · intro K hK hentered hC
    refine (hnode.imp fun y b n hmem => ?_).sound hA hentered hC
    exact hentries K hK hentered (left_of_falls hC) (y, b) n hmem

/-- A line behind its hash data. -/
theorem StmtLives.hashed (hA : A.Fits) {l : Line} {h : HashBlock} {pairs : List PairNode}
    (hhash : l.hash = some h) (hdecode : A.script.decodeStatement s = .ok (.hash m pairs, m))
    (hpairs : Row (PairAt P A r) h.entries pairs (s + 3) m)
    (hline : StmtLives A (.line { l with hash := none }) m next t) : StmtLives A (.line l) s next t := by
  obtain ⟨u, spots, live, hreads, hspots, hlive, node, hmem⟩ := hline
  have hcodes : (Stmt.line l).codes = .hash :: (Stmt.line { l with hash := none }).codes := by
    simp [Stmt.codes, hhash]
  have hnode : NodeAt P A r (fun _ _ _ => False) m (.hash h) (.hash m pairs) s m := .hash hpairs
  refine ⟨u, spots, _, hcodes ▸ .cons hdecode hreads, hspots, .cons hdecode (hlive.mono ?_) ?_, _,
    List.mem_cons_self ..⟩
  · exact fun K _ hC _ => hC (.line l)
  · intro K hK hentered _
    exact (hnode.imp fun _ _ _ => False.elim).sound hA hentered fun _ => hK _ hmem

theorem BlockLives.nil (s n : Nat) : BlockLives A [] s n n s := by
  intro reach
  refine ⟨[], .nil s, fun _ => ⟨[], .dead (Nat.le_refl s) (by simp), ?_⟩⟩
  exact fun K _ hC => hC .nil

/-- Control does not go on behind a terminal statement. -/
theorem not_falls_of_isTerminal {x : Stmt} (h : x.isTerminal = true) : ¬Falls x := by
  rintro ⟨⟩ <;> cases h

/-- A statement in front of a block leads on to the block, unless it cuts the block off. -/
theorem BlockLives.cons {x : Stmt} {b : List Stmt} (hx : StmtLives A x s next m)
    (hblock : BlockAt P A r b m next e t) (hb : BlockLives A b m next e t) :
    BlockLives A (x :: b) s s e t := by
  intro reach
  obtain ⟨u, inner, live, hreads, hinner, hlive, node, hmem⟩ := hx
  obtain ⟨rest, hrest, hlively⟩ := hb (reach.behind x)
  have hseats : Row A.script.Seats (Stmt.chartFrom reach (x :: b))
      (⟨reach, x, s, u⟩ :: (inner ++ rest)) s t := by
    rw [Stmt.chartFrom_cons]
    exact .cons ⟨rfl, hreads⟩ (hinner.append hrest)
  refine ⟨_, hseats, ?_⟩
  rintro rfl
  have hu := (Script.Seats.between hinner).1
  have hentry : ∀ K : Nat → Prop, ∀ more, (∀ p ∈ live ++ more, K p.1) → K s :=
    fun K more hK => hK (s, node) (List.mem_append_left _ hmem)
  by_cases hon : x.isTerminal = false ∧ b ≠ []
  · obtain ⟨hterminal, hne⟩ := hon
    obtain ⟨more, hmore, hnext⟩ := hlively (Reach.behind_eq_reached.mpr ⟨rfl, hterminal⟩)
    have hall : Lively A (live ++ more) (inner ++ rest) s t (fun K => FallsOff (x :: b) → K e) := by
      refine hlive.append hmore fun K hK _ hC => ?_
      obtain ⟨y, ys, rfl⟩ := List.exists_cons_of_ne_nil hne
      rw [fallsOff_cons_cons] at hC
      exact ⟨fun _ => hnext K hK hC, hC⟩
    exact ⟨_, hall.seat x (hu.trans hmore.le), fun K hK _ => hentry K more hK⟩
  · -- nothing leads to what follows the statement, if anything does, so that is left out
    obtain ⟨hle, hbetween⟩ := Script.Seats.between hrest
    have hall : Lively A (live ++ []) (inner ++ rest) s t (fun K => FallsOff (x :: b) → K e) := by
      have hdead : Lively A [] rest m t fun _ => True := .dead hle hbetween
      refine hlive.append hdead fun K _ _ hC => ⟨fun hfalls => ?_, trivial⟩
      have hlast : b = [] := by
        by_contra hne
        exact hon ⟨Bool.eq_false_iff.mpr fun h => not_falls_of_isTerminal h hfalls, hne⟩
      subst hlast
      cases hblock
      exact hC (fallsOff_singleton.mpr hfalls)
    exact ⟨_, hall.seat x (hu.trans hle), fun K hK _ => hentry K [] hK⟩

theorem BlocksLive.nil (next s : Nat) : BlocksLive A [] [] next s s :=
  ⟨[], [], .nil s, .dead (Nat.le_refl s) (by simp), by simp⟩

/-- A branch in front of the others keeps control to itself, and goes on behind the last of them. -/
theorem BlocksLive.cons {y : Option Ident} {b : List Stmt} {bs : List (Option Ident × List Stmt)}
    {ns : List Nat} (hb : BlockLives A b s n e m) (hleads : BodyLeads A next y b e)
    (hbs : BlocksLive A bs ns next m t) : BlocksLive A ((y, b) :: bs) (n :: ns) next s t := by
  obtain ⟨spots, hspots, hlives⟩ := hb .reached
  obtain ⟨live, hlive, hentry⟩ := hlives rfl
  obtain ⟨others, more, hothers, hmore, hentries⟩ := hbs
  refine ⟨_, _, hspots.append hothers, hlive.append hmore ?_, ?_⟩
  · exact fun K _ hentered hC => ⟨hC.exit hentered hleads, hC.tail⟩
  · intro K hK hentered hC q k hmem
    rw [List.forall_mem_append] at hK
    rcases List.mem_cons.mp hmem with heq | hmem
    · obtain ⟨rfl, rfl⟩ := Prod.mk.inj heq
      exact hentry K hK.1 (hC.exit hentered hleads)
    · exact hentries K hK.2 hentered hC.tail q k hmem

/-- A block keeps control to itself, however it is reached, by recursion into the blocks of its
statements. -/
theorem BlockAt.lives (hA : A.Fits) {b : List Stmt} (h : BlockAt P A r b s n e t) :
    BlockLives A b s n e t :=
  @BlockAt.rec P A r (fun x s next t _ => StmtLives A x s next t)
    (fun b s n e t _ => BlockLives A b s n e t)
    (fun bs ns next s t _ => BlocksLive A bs ns next s t)
    (fun hdecode hnode _ hblocks => hnode.lives hA hdecode hblocks)
    (fun hhash hdecode hpairs _ hline => .hashed hA hhash hdecode hpairs hline)
    .nil (fun _ hblock hx hb => .cons hx hblock hb)
    .nil (fun _ hleads _ hb hbs => .cons hb hleads hbs) b s n e t h

/-! ## Sections -/

theorem Lively.finish (hdecode : A.script.decodeStatement s = .ok (.finish, s + 1)) :
    Lively A [(s, .finish)] [] s (s + 1) fun _ => True :=
  .cons hdecode (.dead (Nat.le_refl _) (by simp)) fun _ _ _ _ => Script.soundStatement_finish

/-- A section starts with its entry, which leads to its body, and is not left. -/
theorem SectionAt.lives (hA : A.Fits) {x : Section} (h : SectionAt P A r x s t) :
    ∃ spots live u, A.script.Reads [.entry] s (s + 3) ∧
      Row A.script.Seats (Stmt.chartFrom .reached x.body) spots (s + 3) u ∧
      (¬FallsOff x.body ∧ t = u ∨ FallsOff x.body ∧ A.script.Reads [.finish] u t) ∧
      Lively A live spots s t (fun _ => True) ∧ ∃ node, (s, node) ∈ live := by
  obtain ⟨n, i, e, m, hdecode, hname, hbody, hend⟩ := h.body
  obtain ⟨spots, hspots, hlives⟩ := hbody.lives hA .reached
  obtain ⟨live, hlive, hentry⟩ := hlives rfl
  have hhead : ∀ K : Nat → Prop, Entered A K → K n → A.script.SoundStatement K (.entry n i) := fun K hK hn =>
    (Stands.entry (P := P) (r := r) (E := fun _ _ => True) (s := s) trivial hn hname).sound hA hK
  rcases hend with ⟨hnot, rfl⟩ | ⟨hfalls, rfl, hfinish, rfl⟩
  · have hall : Lively A live spots (s + 3) t fun _ => True := hlive.mono fun K _ _ hoff => absurd hoff hnot
    refine ⟨spots, _, t, .single hdecode, hspots, .inl ⟨hnot, rfl⟩, .cons hdecode hall ?_, _,
      List.mem_cons_self ..⟩
    intro K hK hentered _
    exact hhead K hentered (hentry K hK fun hoff => absurd hoff hnot)
  · have hall : Lively A (live ++ [(e, .finish)]) (spots ++ []) (s + 3) (e + 1) fun _ => True :=
      hlive.append (.finish hfinish) fun K hK _ _ => ⟨fun _ => hK _ (List.mem_singleton_self _), trivial⟩
    rw [List.append_nil] at hall
    refine ⟨spots, _, e, .single hdecode, hspots, .inr ⟨hfalls, .single hfinish⟩, .cons hdecode hall ?_, _,
      List.mem_cons_self ..⟩
    intro K hK hentered _
    rw [List.forall_mem_append] at hK
    exact hhead K hentered (hentry K hK.1 fun _ => hK.2 _ (List.mem_singleton_self _))

/-- The sections keep control to themselves one after the other, and each entry is among the statements
that are left. -/
theorem sections_live (hA : A.Fits) {story : Story} {labels : List Label}
    (h : Row (SectionBetween P A r) story labels s t) :
    ∃ spots live, A.script.Spots story spots s t ∧ Lively A live spots s t (fun _ => True) ∧
      ∀ x l, (x, l) ∈ story.zip labels → ∃ node, (A.target l, node) ∈ live := by
  induction h with
  | nil s => exact ⟨[], [], .nil s, .dead (Nat.le_refl s) (by simp), by simp⟩
  | cons hfirst _ ih =>
    obtain ⟨htarget, hsection⟩ := hfirst
    obtain ⟨spots, live, u, hentry, hspots, hend, hlive, node, hmem⟩ := hsection.lives hA
    obtain ⟨others, more, hothers, hmore, hentries⟩ := ih
    refine ⟨_, _, .cons hentry hspots hend hothers, hlive.append hmore fun _ _ _ _ => ⟨trivial, trivial⟩, ?_⟩
    intro x l hx
    rcases List.mem_cons.mp hx with heq | hx
    · obtain ⟨rfl, rfl⟩ := Prod.mk.inj heq
      exact ⟨node, List.mem_append_left _ (htarget ▸ hmem)⟩
    · obtain ⟨node, hmem⟩ := hentries x l hx
      exact ⟨node, List.mem_append_right _ hmem⟩

/-! ## Scripts -/

/-- Offsets that control does not leave once it is at one of them, with all sections among them and no
statement that is cut off. -/
structure Script.Keeps (S : Script) (spots : List Spot) (K : Nat → Prop) : Prop where
  closed : S.Closed K
  sections : ∀ table, S.sectionTable = .ok table → table.Within K
  apart : ∀ q ∈ spots, q.reach ≠ .reached → ∀ n, K n → n < q.start ∨ q.stop ≤ n

/-- The statements of a compiled script that are not cut off keep control to themselves, with the end
behind all sections. -/
theorem Compiled.exists_live {story : Story} {c : Compilation} {labels : List Label}
    (h : Compiled P r story c A labels) :
    ∃ spots K, A.script.Spots story spots 0 A.trap ∧ A.script.Keeps spots K := by
  obtain ⟨spots, live, hspots, hlive, hentries⟩ := sections_live h.fits h.sections
  have hentry : ∀ x l, (x, l) ∈ story.zip labels → ∃ p ∈ live, p.1 = A.target l := by
    intro x l hx
    obtain ⟨node, hmem⟩ := hentries x l hx
    exact ⟨_, hmem, rfl⟩
  have hentered : Entered A fun n => (∃ p ∈ live, p.1 = n) ∨ n = A.trap ∧ A.Trapped := by
    intro y n hy
    rcases h.enters_cases hy with ⟨x, l, hx, -, rfl⟩ | htrap
    · exact .inl (hentry x l hx)
    · exact .inr htrap
  refine ⟨spots, fun n => (∃ p ∈ live, p.1 = n) ∨ n = A.trap ∧ A.Trapped, hspots, ?_, ?_, ?_⟩
  · rintro n (⟨p, hp, rfl⟩ | ⟨rfl, htrap⟩)
    · obtain ⟨m, hdecode⟩ := hlive.decodes p hp
      exact ⟨p.2, m, hdecode, hlive.sound _ (fun q hq => .inl ⟨q, hq, rfl⟩) hentered trivial p hp⟩
    · exact ⟨.finish, _, decode_finish htrap.word, Script.soundStatement_finish⟩
  · obtain ⟨xs, hlaid⟩ := h.exists_laid
    obtain ⟨table, htable, hstands, -⟩ := hlaid.exists_table
    rintro table' htable' name n hfind
    rw [htable] at htable'
    cases htable'
    obtain ⟨x, l, hx, rfl, -⟩ := hstands name n hfind
    exact .inl (hentry x l hx)
  · rintro q hq hcut n (⟨p, hp, rfl⟩ | ⟨rfl, -⟩)
    · exact hlive.apart q hq hcut p hp
    · exact .inr (hlive.between q hq).2

end

end Colloquy
