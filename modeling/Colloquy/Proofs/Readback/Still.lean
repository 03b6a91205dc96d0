import Colloquy.Proofs.Layout.Table
import Colloquy.Proofs.Parser.Story
import Colloquy.Proofs.Readback.Story

/-!
# Where assignments stand

The parser makes an assignment of an instruction only, so no other expression of a parsed story holds
one, and the value that is assigned holds none.  A script that is compiled from a source has its
assignments in the same places (`compile_quiet`): an expression that can be evaluated again without
storing anything is `Script.StillExpr`, and every statement that is not an assignment is made of such
expressions.
-/

namespace Colloquy

open Code

/-! ## Terms -/

mutual

/-- There is no assignment in a term. -/
def Term.Still : Term → Prop
  | .literal _ | .variable _ | .auto | .goto _ => True
  | .unary _ e | .speed e | .pause e => e.Still
  | .binary _ left right => left.Still ∧ right.Still
  | .assign _ _ _ => False
  | .call _ _ args => Term.AllStill args

/-- There is no assignment in some terms. -/
def Term.AllStill : List Term → Prop
  | [] => True
  | e :: es => e.Still ∧ Term.AllStill es

end

/-- There is no assignment in a term, or only the one that it is. -/
def Term.Instructs : Term → Prop
  | .assign _ _ value => value.Still
  | e => e.Still

theorem Term.allStill_iff {es : List Term} : Term.AllStill es ↔ ∀ e ∈ es, e.Still := by
  induction es with
  | nil => simp [Term.AllStill]
  | cons e es ih => rw [Term.AllStill, ih, List.forall_mem_cons]

theorem Term.still_literal (v : Literal) : (Term.literal v).Still := by
  rw [Term.Still]
  trivial

section

variable (r : Registry)

/-- Arguments that assign nothing, and the defaults behind them, are terms that assign nothing. -/
theorem Expr.terms_still {args : List Expr} (h : ∀ e ∈ args, (e.term r).Still) :
    ∀ e ∈ Expr.terms r args, e.Still := by
  induction args with
  | nil => simp [Expr.terms]
  | cons e es ih =>
    rw [List.forall_mem_cons] at h
    rw [Expr.terms, List.forall_mem_cons]
    exact ⟨h.1, ih h.2⟩

/-- The parser puts no assignment into an expression. -/
theorem Parse.Inherited.still (P : Float → Prop) : Inherited P fun e => (e.term r).Still where
  literal _ := by
    rw [Expr.term]
    exact Term.still_literal _
  name := by simp [Expr.term, Term.Still]
  group h := by rwa [Expr.term]
  unary h := by rwa [Expr.term, Term.Still]
  binary hl hr := by
    rw [Expr.term, Term.Still]
    exact ⟨hl, hr⟩
  call h := by
    rw [Expr.term, Term.Still, Term.allStill_iff]
    intro e he
    rcases List.mem_append.mp he with he | he
    · exact Expr.terms_still r h e he
    · obtain ⟨v, -, rfl⟩ := List.mem_map.mp he
      exact Term.still_literal v
  value h := by
    rw [Expr.term, Term.Still] at h
    exact h.elim

end

/-! ## Clauses -/

/-- The terms in a stretch of text. -/
def TextPart.terms : TextPart → List Term
  | .text _ => []
  | .shown e => [e]

/-- The terms in an entry of a choice. -/
def ItemPart.terms : ItemPart → List Term
  | .option guard text => guard.toList ++ text.flatMap TextPart.terms
  | .ifMarker e => [e]
  | .elseIf e => [e]
  | _ => []

/-- The terms in a clause. -/
def Clause.terms : Clause → List Term
  | .line _ text directives => text.flatMap TextPart.terms ++ directives
  | .instruction e => [e]
  | .conditional conditions => conditions
  | .choice items => items.flatMap ItemPart.terms
  | .hash pairs => pairs.flatMap PairPart.values
  | .speaker _ pairs => pairs.flatMap PairPart.values
  | _ => []

/-- There is no assignment in a clause, except for one that is an instruction. -/
def Clause.Still : Clause → Prop
  | .instruction e => e.Instructs
  | c => ∀ e ∈ c.terms, e.Still

section

variable {r : Registry} {g : Ident → Option String} {F : Nat → Prop}

/-- What is shown in a text assigns nothing if its segments do not. -/
theorem Segment.part_still {text : List Segment}
    (h : ∀ s ∈ text, s.Meets fun e => (e.term r).Still) :
    ∀ e ∈ (text.map (Segment.part r)).flatMap TextPart.terms, e.Still := by
  simp only [List.mem_flatMap, List.mem_map]
  rintro e ⟨_, ⟨s, hs, rfl⟩, he⟩
  cases s with
  | text t => cases he
  | placeholder e' =>
    obtain rfl := List.mem_singleton.mp he
    exact h _ hs

/-- A directive assigns nothing if its number does not. -/
theorem Directive.term_still {d : Directive} (h : d.Meets fun e => (e.term r).Still) :
    (d.term r g).Still := by
  cases d with
  | speed e | pause e =>
    rw [Directive.term, Term.Still]
    exact h
  | auto | goto x =>
    rw [Directive.term, Term.Still]
    trivial

/-- Hash data assign nothing if their values do not. -/
theorem HashBlock.parts_still {h : HashBlock} (hh : h.Meets fun e => (e.term r).Still) :
    ∀ e ∈ (h.parts r).flatMap PairPart.values, e.Still := by
  simp only [HashBlock.parts, List.mem_flatMap, List.mem_map]
  rintro e ⟨_, ⟨entry, hentry, rfl⟩, he⟩
  rw [HashEntry.part] at he
  split at he
  · obtain rfl := List.mem_singleton.mp he
    exact Term.still_literal _
  · obtain ⟨v, hv, rfl⟩ := List.mem_map.mp he
    exact hh entry hentry v hv

mutual

/-- The entries of an item assign nothing if its guards, its texts and its conditions do not. -/
theorem ChoiceItem.entries_still : (i : ChoiceItem) → (i.Meets (fun e => (e.term r).Still) F) →
    ∀ p ∈ i.entries r, ∀ e ∈ p.terms, e.Still
  | .option guard text _ _ _, h => by
    rw [ChoiceItem.Meets] at h
    rw [ChoiceItem.entries, List.forall_mem_singleton]
    intro e he
    rcases List.mem_append.mp he with he | he
    · cases guard with
      | none => cases he
      | some e' =>
        obtain rfl := List.mem_singleton.mp he
        exact h.1 e' rfl
    · exact Segment.part_still h.2.1 e he
  | .filter branches otherwise _, h => by
    rw [ChoiceItem.Meets] at h
    rw [ChoiceItem.entries, List.forall_mem_append, List.forall_mem_append,
      List.forall_mem_singleton]
    refine ⟨⟨?_, ChoiceItem.otherwiseEntries_still otherwise h.2.2⟩, by simp [ItemPart.terms]⟩
    exact ChoiceItem.branchEntries_still (fun _ => rfl) branches h.2.1

/-- Nor do the entries of items. -/
theorem ChoiceItem.allEntries_still : (is : List ChoiceItem) →
    ChoiceItem.AllMeet (fun e => (e.term r).Still) F is →
    ∀ p ∈ ChoiceItem.allEntries r is, ∀ e ∈ p.terms, e.Still
  | [], _ => by simp [ChoiceItem.allEntries]
  | i :: is, h => by
    rw [ChoiceItem.AllMeet] at h
    rw [ChoiceItem.allEntries, List.forall_mem_append]
    exact ⟨ChoiceItem.entries_still i h.1, ChoiceItem.allEntries_still is h.2⟩

/-- Nor do those of the branches of a filter, whatever entry stands for a condition. -/
theorem ChoiceItem.branchEntries_still {mark : Term → ItemPart} (hmark : ∀ e, (mark e).terms = [e]) :
    (bs : List (Expr × List ChoiceItem)) → ChoiceItem.BranchesMeet (fun e => (e.term r).Still) F bs →
    ∀ p ∈ ChoiceItem.branchEntries r mark bs, ∀ e ∈ p.terms, e.Still
  | [], _ => by simp [ChoiceItem.branchEntries]
  | (e, is) :: rest, h => by
    rw [ChoiceItem.BranchesMeet] at h
    rw [ChoiceItem.branchEntries, List.forall_mem_cons, List.forall_mem_append, hmark,
      List.forall_mem_singleton]
    exact ⟨h.1.1, ChoiceItem.allEntries_still is h.1.2,
      ChoiceItem.branchEntries_still (fun _ => rfl) rest h.2⟩

/-- Nor do those behind the branches. -/
theorem ChoiceItem.otherwiseEntries_still : (o : Option (List ChoiceItem)) →
    ChoiceItem.OtherwiseMeets (fun e => (e.term r).Still) F o →
    ∀ p ∈ ChoiceItem.otherwiseEntries r o, ∀ e ∈ p.terms, e.Still
  | none, _ => by simp [ChoiceItem.otherwiseEntries]
  | some is, h => by
    rw [ChoiceItem.OtherwiseMeets] at h
    rw [ChoiceItem.otherwiseEntries, List.forall_mem_cons]
    exact ⟨by simp [ItemPart.terms], ChoiceItem.allEntries_still is h⟩

end

/-- An instruction may be a term that assigns nothing. -/
theorem Term.Still.instructs {e : Term} (h : e.Still) : e.Instructs := by
  cases e with
  | assign op x value =>
    rw [Term.Still] at h
    exact h.elim
  | _ => exact h

/-- The term of an instruction assigns once at most, as a whole. -/
theorem Expr.Instructs.term {e : Expr} (h : e.Instructs fun e => (e.term r).Still) :
    (e.term r).Instructs := by
  cases e with
  | assign x op value =>
    rw [Expr.term]
    exact h
  | _ => exact Term.Still.instructs h

/-- The clause of a statement assigns nothing, unless it is an instruction. -/
theorem Stmt.clause_still {x : Stmt} (h : x.Meets (fun e => (e.term r).Still) F) :
    (x.clause r g).Still := by
  cases x with
  | line l =>
    rw [Stmt.Meets] at h
    intro e he
    rcases List.mem_append.mp he with he | he
    · exact Segment.part_still h.text e he
    · obtain ⟨d, hd, rfl⟩ := List.mem_map.mp he
      exact Directive.term_still (h.directives d hd)
  | instruction e =>
    rw [Stmt.Meets] at h
    exact h.term
  | goto x =>
    show Term.Still _
    rw [Term.Still]
    trivial
  | finish span => simp [Stmt.clause, Clause.Still, Clause.terms]
  | conditional branches otherwise span =>
    rw [Stmt.Meets, Stmt.branchesMeet_iff] at h
    intro e he
    obtain ⟨b, hb, rfl⟩ := List.mem_map.mp he
    exact (h.1 b hb).1
  | choice items span =>
    rw [Stmt.Meets] at h
    intro e he
    obtain ⟨p, hp, he⟩ := List.mem_flatMap.mp he
    exact ChoiceItem.allEntries_still items h p hp e he
  | hash b | speaker x b span =>
    rw [Stmt.Meets] at h
    exact HashBlock.parts_still h

/-- The clauses of a block are as those of its statements. -/
theorem Stmt.allClauses_still {b : List Stmt} (h : ∀ x ∈ b, ∀ c ∈ x.clauses r g, c.Still) :
    ∀ c ∈ Stmt.allClauses r g b, c.Still := by
  induction b with
  | nil => simp [Stmt.allClauses]
  | cons x b ih =>
    rw [List.forall_mem_cons] at h
    rw [Stmt.allClauses, List.forall_mem_append]
    exact ⟨h.1, ih h.2⟩

/-- The clauses of a statement hold an assignment only where it does. -/
theorem Stmt.clauses_still (x : Stmt) (h : x.Meets (fun e => (e.term r).Still) F) :
    ∀ c ∈ x.clauses r g, c.Still := by
  induction x using Stmt.induction with
  | step x ih =>
    by_cases hline : ∃ l, x = .line l
    · -- the hash data of a line stands in front of it
      obtain ⟨l, rfl⟩ := hline
      have hclause := Stmt.clause_still (g := g) h
      rw [Stmt.Meets] at h
      rw [Stmt.clauses, Line.clauses, List.forall_mem_append, List.forall_mem_singleton]
      refine ⟨?_, hclause⟩
      intro c hc
      obtain ⟨b, hb, rfl⟩ := List.mem_map.mp hc
      exact HashBlock.parts_still (h.hash b (Option.mem_toList.mp hb))
    · rw [Stmt.clauses_eq fun l hl => absurd ⟨l, hl⟩ hline, List.forall_mem_cons]
      refine ⟨Stmt.clause_still h, ?_⟩
      intro c hc
      obtain ⟨p, hp, hc⟩ := List.mem_flatMap.mp hc
      exact Stmt.allClauses_still (fun y hy => ih p hp y hy (h.blocks p hp y hy)) c hc

end

/-! ## Scripts -/

/-- The node is an assignment. -/
def Code.Node.isAssign : Node → Bool
  | .assign .. => true
  | _ => false

namespace Script

variable (S : Script)

/-- There is no assignment in an expression. -/
inductive StillExpr : Nat → Prop where
  | node {s t : Nat} {x : Node} : S.decodeExpr s = .ok (x, t) → x.isAssign = false →
      (∀ e ∈ x.operands, StillExpr e) → StillExpr s

/-- There is no assignment in an expression, or only the one that it is. -/
def Instructs (e : Nat) : Prop :=
  S.StillExpr e ∨ ∃ op name value t, S.decodeExpr e = .ok (.assign op name value, t) ∧
    S.StillExpr value

/-- There is no assignment in a statement, except for one that is an instruction. -/
def Quiet : Statement → Prop
  | .instruction _ e => S.Instructs e
  | node => ∀ e ∈ node.exprs, S.StillExpr e

/-- The operands of an expression that assigns nothing assign nothing. -/
theorem StillExpr.operand {S : Script} {s t o : Nat} {x : Node} (h : S.StillExpr s)
    (hdecode : S.decodeExpr s = .ok (x, t)) (ho : o ∈ x.operands) : S.StillExpr o := by
  cases h with
  | node hnode _ hoperands =>
    rw [hdecode] at hnode
    cases hnode
    exact hoperands o ho

end Script

section

variable {S : Script} {s t : Nat}

mutual

/-- The words of a term hold an assignment only where the term does. -/
theorem Script.Spells.still : (e : Term) → {s t : Nat} → S.Spells e s t → e.Still → S.StillExpr s
  | .literal _, s, t, h, _ => by
    cases h with
    | literal hdecode hnode => cases hnode <;> exact .node hdecode rfl (by simp [Node.operands])
  | .variable _, s, t, h, _ => by
    cases h with
    | «variable» hdecode _ => exact .node hdecode rfl (by simp [Node.operands])
  | .unary _ e, s, t, h, he => by
    rw [Term.Still] at he
    cases h with
    | unary hdecode hspells =>
      exact .node hdecode rfl (by simpa [Node.operands] using Script.Spells.still e hspells he)
  | .binary _ left right, s, t, h, he => by
    rw [Term.Still] at he
    cases h with
    | binary hdecode hleft hright =>
      refine .node hdecode rfl ?_
      rw [Node.operands, List.forall_mem_cons, List.forall_mem_singleton]
      exact ⟨Script.Spells.still left hleft he.1, Script.Spells.still right hright he.2⟩
  | .assign _ _ _, s, t, _, he => by
    rw [Term.Still] at he
    exact he.elim
  | .call _ _ args, s, t, h, he => by
    rw [Term.Still] at he
    cases h with
    | call hdecode _ hargs => exact .node hdecode rfl (Script.SpellsAll.still args hargs he)
  | .auto, s, t, h, _ => by
    cases h with
    | auto hdecode => exact .node hdecode rfl (by simp [Node.operands])
  | .speed e, s, t, h, he => by
    rw [Term.Still] at he
    cases h with
    | speed hdecode hspells =>
      exact .node hdecode rfl (by simpa [Node.operands] using Script.Spells.still e hspells he)
  | .pause e, s, t, h, he => by
    rw [Term.Still] at he
    cases h with
    | pause hdecode hspells =>
      exact .node hdecode rfl (by simpa [Node.operands] using Script.Spells.still e hspells he)
  | .goto _, s, t, h, _ => by
    cases h with
    | goto hdecode _ => exact .node hdecode rfl (by simp [Node.operands])

/-- Words that spell terms which assign nothing are expressions that assign nothing. -/
theorem Script.SpellsAll.still : (es : List Term) → {os : List Nat} → {s t : Nat} →
    S.SpellsAll es os s t → Term.AllStill es → ∀ o ∈ os, S.StillExpr o
  | [], os, s, t, h, _ => by
    cases h
    simp
  | e :: es, os, s, t, h, hes => by
    rw [Term.AllStill] at hes
    cases h with
    | cons he hrest =>
      rw [List.forall_mem_cons]
      exact ⟨Script.Spells.still e he hes.1, Script.SpellsAll.still es hrest hes.2⟩

end

/-- Words that spell an instruction are one. -/
theorem Script.Spells.instructs {e : Term} (h : S.Spells e s t) (he : e.Instructs) :
    S.Instructs s := by
  cases e with
  | assign op x value =>
    cases h with
    | assign hdecode _ hvalue => exact .inr ⟨_, _, _, _, hdecode, hvalue.still value he⟩
  | _ => exact .inl (h.still _ he)

/-- The expressions in a text assign nothing if the terms that it shows do not. -/
theorem Script.ShowsText.still {parts : List TextPart} {nodes : List TextNode}
    (h : Row S.ShowsText parts nodes s t) (hparts : ∀ e ∈ parts.flatMap TextPart.terms, e.Still) :
    ∀ o ∈ nodes.flatMap TextNode.exprs, S.StillExpr o := by
  intro o ho
  obtain ⟨node, hnode, ho⟩ := List.mem_flatMap.mp ho
  obtain ⟨part, hpart, _, _, hshows⟩ := h.exists_of_mem hnode
  cases hshows with
  | text _ => cases ho
  | shown hspells =>
    obtain rfl := List.mem_singleton.mp ho
    exact hspells.still _ (hparts _ (List.mem_flatMap.mpr ⟨_, hpart, List.mem_singleton_self _⟩))

/-- The values of keys assign nothing if their terms do not. -/
theorem Script.ShowsPair.still {parts : List PairPart} {nodes : List PairNode}
    (h : Row S.ShowsPair parts nodes s t) (hparts : ∀ e ∈ parts.flatMap PairPart.values, e.Still) :
    ∀ o ∈ nodes.flatMap PairNode.values, S.StillExpr o := by
  intro o ho
  obtain ⟨node, hnode, ho⟩ := List.mem_flatMap.mp ho
  obtain ⟨part, hpart, _, _, hshows⟩ := h.exists_of_mem hnode
  cases hshows with
  | intro _ hspells =>
    refine hspells.still _ (Term.allStill_iff.mpr fun e he => ?_) o ho
    exact hparts e (List.mem_flatMap.mpr ⟨part, hpart, he⟩)

/-- The expressions of an entry assign nothing if its terms do not. -/
theorem Script.ShowsItem.still {part : ItemPart} {node : ItemNode} (h : S.ShowsItem part node s t)
    (hpart : ∀ e ∈ part.terms, e.Still) : ∀ o ∈ node.exprs, S.StillExpr o := by
  cases h with
  | option hguard htext =>
    rw [ItemPart.terms, List.forall_mem_append] at hpart
    rw [ItemNode.exprs, List.forall_mem_append]
    refine ⟨?_, Script.ShowsText.still htext hpart.2⟩
    cases hguard with
    | none => simp
    | some hspells => simpa using hspells.still _ (hpart.1 _ (by simp))
  | ifMarker hspells | elseIf hspells =>
    simpa [ItemNode.exprs] using hspells.still _ (hpart _ (List.mem_singleton_self _))
  | elseMarker | endIf => simp [ItemNode.exprs]

/-- A statement holds an assignment only where the clause does that it shows. -/
theorem Script.Shows.quiet {c : Clause} {node : Statement} (h : S.Shows c node s t)
    (hc : c.Still) : S.Quiet node := by
  cases h with
  | entry _ | finish => simp [Script.Quiet, Statement.exprs]
  | line _ htext hdirectives =>
    obtain ⟨hparts, hterms⟩ := List.forall_mem_append.mp hc
    refine List.forall_mem_append.mpr ⟨Script.ShowsText.still htext hparts, ?_⟩
    exact hdirectives.still _ (Term.allStill_iff.mpr hterms)
  | instruction hspells => exact hspells.instructs hc
  | conditional hbranches =>
    intro o ho
    obtain ⟨b, hb, rfl⟩ := List.mem_map.mp ho
    obtain ⟨e, he, _, _, hshows⟩ := hbranches.exists_of_mem hb
    cases hshows with
    | intro hspells => exact hspells.still e (hc e he)
  | choice hitems =>
    intro o ho
    obtain ⟨node, hnode, ho⟩ := List.mem_flatMap.mp ho
    obtain ⟨part, hpart, _, _, hshows⟩ := hitems.exists_of_mem hnode
    exact hshows.still (fun e he => hc e (List.mem_flatMap.mpr ⟨part, hpart, he⟩)) o ho
  | hash hpairs | speaker _ hpairs => exact Script.ShowsPair.still hpairs hc

/-! ## Walks -/

/-- All statements that are read from an offset to the end are quiet. -/
def Script.QuietFrom (S : Script) (s : Nat) : Prop :=
  ∀ xs, S.Walk s xs S.words.size → ∀ p ∈ xs, S.Quiet p.2

/-- At its end a script is quiet. -/
theorem Script.QuietFrom.end (S : Script) : S.QuietFrom S.words.size := by
  intro xs hwalk
  cases hwalk with
  | nil => simp
  | cons hdecode _ => exact absurd (Script.lt_size_of_decodeStatement hdecode) (Nat.lt_irrefl _)

/-- A script is quiet from a clause on if it is quiet behind it. -/
theorem Script.Tells.quietFrom {c : Clause} {node : Statement} (h : S.Tells c node s t)
    (hc : c.Still) (ht : S.QuietFrom t) : S.QuietFrom s := by
  intro xs hwalk
  cases hwalk with
  | nil => simp
  | cons hdecode hrest =>
    rw [h.decode] at hdecode
    cases hdecode
    rw [List.forall_mem_cons]
    exact ⟨h.shows.quiet hc, ht _ hrest⟩

/-- A script is quiet from clauses on if it is quiet behind them. -/
theorem Script.QuietFrom.of_row {cs : List Clause} {nodes : List Statement}
    (h : Row S.Tells cs nodes s t) (hcs : ∀ c ∈ cs, c.Still) (ht : S.QuietFrom t) :
    S.QuietFrom s := by
  induction h with
  | nil s => exact ht
  | cons htells _ ih =>
    rw [List.forall_mem_cons] at hcs
    exact htells.quietFrom hcs.1 (ih hcs.2 ht)

/-- A script is quiet from a section on if it is quiet behind it. -/
theorem Script.TellsSection.quietFrom {r : Registry} {g : Ident → Option String} {x : Section}
    {nodes : List Statement} (h : S.TellsSection r g x nodes s t)
    (hx : ∀ c ∈ x.clauses r g, c.Still) (ht : S.QuietFrom t) : S.QuietFrom s := by
  have hfinish : Clause.finish.Still := by simp [Clause.Still, Clause.terms]
  cases h with
  | left _ hrow => exact .of_row hrow hx ht
  | ended _ hrow _ htells => exact .of_row hrow hx (htells.quietFrom hfinish ht)

/-- A script is quiet from sections on if it is quiet behind them. -/
theorem Script.QuietFrom.of_sections {r : Registry} {g : Ident → Option String} {story : Story}
    {nodes : List (List Statement)} (h : Row (S.TellsSection r g) story nodes s t)
    (hstory : ∀ x ∈ story, ∀ c ∈ x.clauses r g, c.Still) (ht : S.QuietFrom t) : S.QuietFrom s := by
  induction h with
  | nil s => exact ht
  | cons htells _ ih =>
    rw [List.forall_mem_cons] at hstory
    exact htells.quietFrom hstory.1 (ih hstory.2 ht)

end

/-- The script of a source is the one of its story. -/
theorem compileText_script (r : Registry) (o : CompileOptions) (implicit : Option String)
    (source : String) : (compileText r o implicit source).script =
      (compile r o (parse implicit source).1).script := by
  rw [compileText, parse]

/-- In a script that is compiled from a source, a statement holds an assignment only if it is an
instruction that assigns, and then no other one. -/
theorem compile_quiet (r : Registry) (o : CompileOptions) (implicit : Option String) (source : String)
    (h : (compile r o (parse implicit source).1).script.Addressable) :
    (compile r o (parse implicit source).1).script.QuietFrom 0 := by
  have hstill := parse_inherits (.still r _) implicit source
  generalize (parse implicit source).1 = story at h hstill ⊢
  obtain ⟨A, labels, hA⟩ := exists_compiled_of_any r o story h
  obtain ⟨nodes, hnodes, hend⟩ := hA.told
  rw [← hA.script]
  have htrap : A.script.QuietFrom A.trap := by
    rcases hend with hsize | htells
    · exact hsize ▸ .end _
    · exact htells.quietFrom (by simp [Clause.Still, Clause.terms]) (.end _)
  refine .of_sections hnodes (fun x hx => ?_) htrap
  rw [Section.clauses, List.forall_mem_cons]
  refine ⟨by simp [Clause.Still, Clause.terms], Stmt.allClauses_still ?_⟩
  exact fun y hy => Stmt.clauses_still y (Stmt.allMeet_iff.mp (hstill x hx) y hy)

end Colloquy
