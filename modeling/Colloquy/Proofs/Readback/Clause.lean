import Colloquy.Proofs.Readback.Term

/-!
# Statements read back

A `Clause` is what a statement of a script says, with its operands as terms.  Where statements lead is no
part of it.  `Stmt.clauses` lists the clauses that a statement of a story is lowered to, in order: the hash
data of a line in front of it, and the blocks inside a statement behind it.  `Script.Shows` reads a
clause back: the parts of a statement stand one after another, and each starts where the words of the
part before it end.
-/

namespace Colloquy

open Code

/-- A speaker of a line. -/
inductive SpeakerPart where
  | named (name : String)
  | variable (name : String)

/-- A stretch of text. -/
inductive TextPart where
  | text (text : String)
  | shown (expr : Term)

/-- A key and its values. -/
structure PairPart where
  key : String
  values : List Term

/-- An entry of a choice: an option, or a mark of a filter around options. -/
inductive ItemPart where
  | option (guard : Option Term) (text : List TextPart)
  | ifMarker (condition : Term)
  | elseIf (condition : Term)
  | elseMarker
  | endIf

/-- A statement. -/
inductive Clause where
  | entry (name : String)
  | finish
  | line (speakers : List SpeakerPart) (text : List TextPart) (directives : List Term)
  | instruction (expr : Term)
  | conditional (conditions : List Term)
  | choice (items : List ItemPart)
  | hash (pairs : List PairPart)
  | speaker (name : String) (pairs : List PairPart)

/-! ## The clauses of a story -/

section

variable (r : Registry)

/-- The part of a speaker. -/
def SpeakerRef.part : SpeakerRef → SpeakerPart
  | .named x => .named x.name
  | .variable x => .variable x.name

/-- The part of a stretch of text. -/
def Segment.part : Segment → TextPart
  | .text t => .text t.val
  | .placeholder e => .shown (e.term r)

/-- The part of a key and its values; a key without values is a flag. -/
def HashEntry.part (e : HashEntry) : PairPart where
  key := e.key.name
  values := if e.values.isEmpty then [.literal (.bool true)] else e.values.map (Expr.term r)

/-- The parts of hash data. -/
def HashBlock.parts (h : HashBlock) : List PairPart := h.entries.map (HashEntry.part r)

mutual

/-- The entries of an item of a choice. -/
def ChoiceItem.entries : ChoiceItem → List ItemPart
  | .option guard text _ _ _ => [.option (guard.map (Expr.term r)) (text.map (Segment.part r))]
  | .filter branches otherwise _ =>
    ChoiceItem.branchEntries .ifMarker branches ++ ChoiceItem.otherwiseEntries otherwise ++ [.endIf]

/-- The entries of items. -/
def ChoiceItem.allEntries : List ChoiceItem → List ItemPart
  | [] => []
  | i :: is => i.entries ++ ChoiceItem.allEntries is

/-- The entries of the branches of a filter, the first of them behind `mark`. -/
def ChoiceItem.branchEntries (mark : Term → ItemPart) :
    List (Expr × List ChoiceItem) → List ItemPart
  | [] => []
  | (e, is) :: rest =>
    mark (e.term r) :: (ChoiceItem.allEntries is ++ ChoiceItem.branchEntries .elseIf rest)

/-- The entries of the last branch of a filter. -/
def ChoiceItem.otherwiseEntries : Option (List ChoiceItem) → List ItemPart
  | none => []
  | some is => .elseMarker :: ChoiceItem.allEntries is

end

variable (g : Ident → Option String)

/-- The clauses of a line: its hash data stands in front of it. -/
def Line.clauses (l : Line) : List Clause :=
  l.hash.toList.map (fun h => .hash (h.parts r)) ++
    [.line (l.speakers.map SpeakerRef.part) (l.text.map (Segment.part r))
      (l.directives.map fun d => d.val.term r g)]

mutual

/-- The clauses of a statement: its own and then those of the blocks inside it. -/
def Stmt.clauses : Stmt → List Clause
  | .line l => l.clauses r g
  | .instruction e => [.instruction (e.term r)]
  | .goto x => [.instruction (.goto (g x))]
  | .finish _ => [.finish]
  | .conditional branches otherwise _ =>
    .conditional (branches.map fun b => b.1.term r) ::
      (Stmt.branchClauses branches ++ Stmt.otherwiseClauses otherwise)
  | .choice items _ => .choice (ChoiceItem.allEntries r items) :: ChoiceItem.allClauses items
  | .hash h => [.hash (h.parts r)]
  | .speaker x h _ => [.speaker x.name (h.parts r)]

/-- The clauses of a block. -/
def Stmt.allClauses : List Stmt → List Clause
  | [] => []
  | x :: xs => x.clauses ++ Stmt.allClauses xs

/-- The clauses of the bodies of branches. -/
def Stmt.branchClauses : List (Expr × List Stmt) → List Clause
  | [] => []
  | (_, b) :: rest => Stmt.allClauses b ++ Stmt.branchClauses rest

/-- The clauses of the body of a last branch, or of an option. -/
def Stmt.otherwiseClauses : Option (List Stmt) → List Clause
  | none => []
  | some b => Stmt.allClauses b

/-- The clauses of the bodies of the options in an item. -/
def ChoiceItem.clauses : ChoiceItem → List Clause
  | .option _ _ _ body _ => Stmt.otherwiseClauses body
  | .filter branches otherwise _ =>
    ChoiceItem.branchClauses branches ++ ChoiceItem.otherwiseClauses otherwise

/-- The clauses of the bodies of the options in items. -/
def ChoiceItem.allClauses : List ChoiceItem → List Clause
  | [] => []
  | i :: is => i.clauses ++ ChoiceItem.allClauses is

/-- The clauses of the bodies of the options in the branches of a filter. -/
def ChoiceItem.branchClauses : List (Expr × List ChoiceItem) → List Clause
  | [] => []
  | (_, is) :: rest => ChoiceItem.allClauses is ++ ChoiceItem.branchClauses rest

/-- The clauses of the bodies of the options in the last branch of a filter. -/
def ChoiceItem.otherwiseClauses : Option (List ChoiceItem) → List Clause
  | none => []
  | some is => ChoiceItem.allClauses is

end

end

/-! ## The clauses of a script -/

namespace Script

variable (S : Script)

/-- A speaker of a line. -/
inductive ShowsSpeaker : SpeakerPart → SpeakerNode → Nat → Nat → Prop where
  | named {x : String} {i s : Nat} : S.speakers[i]? = some x →
      ShowsSpeaker (.named x) (.id i) s (s + 2)
  | variable {x : String} {i s : Nat} : S.strings[i]? = some x →
      ShowsSpeaker (.variable x) (.variable i) s (s + 2)

/-- A stretch of text. -/
inductive ShowsText : TextPart → TextNode → Nat → Nat → Prop where
  | text {x : String} {i s : Nat} : S.strings[i]? = some x → ShowsText (.text x) (.text i) s (s + 2)
  | shown {e : Term} {s t : Nat} : S.Spells e (s + 1) t →
      ShowsText (.shown e) (.expr (s + 1)) s t

/-- A key and its values. -/
inductive ShowsPair : PairPart → PairNode → Nat → Nat → Prop where
  | intro {p : PairPart} {i s t : Nat} {os : List Nat} : S.strings[i]? = some p.key →
      S.SpellsAll p.values os (s + 2) t → ShowsPair p ⟨i, os⟩ s t

/-- A guard, if there is one. -/
inductive ShowsGuard : Option Term → Option Nat → Nat → Nat → Prop where
  | none {s : Nat} : ShowsGuard none none s (s + 1)
  | some {e : Term} {s t : Nat} : S.Spells e (s + 1) t → ShowsGuard (some e) (some (s + 1)) s t

/-- An entry of a choice. -/
inductive ShowsItem : ItemPart → ItemNode → Nat → Nat → Prop where
  | option {guard : Option Term} {o : Option Nat} {text : List TextPart} {nodes : List TextNode}
      {n s m t : Nat} : S.ShowsGuard guard o (s + 2) m → Row S.ShowsText text nodes (m + 1) t →
      ShowsItem (.option guard text) (.option n o nodes) s t
  | ifMarker {e : Term} {s t : Nat} : S.Spells e (s + 1) t →
      ShowsItem (.ifMarker e) (.ifMarker (s + 1)) s t
  | elseIf {e : Term} {s t : Nat} : S.Spells e (s + 1) t →
      ShowsItem (.elseIf e) (.elseIf (s + 1)) s t
  | elseMarker {s : Nat} : ShowsItem .elseMarker .elseMarker s (s + 1)
  | endIf {s : Nat} : ShowsItem .endIf .endIf s (s + 1)

/-- A condition and the target behind it. -/
inductive ShowsBranch : Term → Nat × Nat → Nat → Nat → Prop where
  | intro {e : Term} {n s t : Nat} : S.Spells e s t → ShowsBranch e (s, n) s (t + 1)

/-- A statement between two offsets says what a clause says. -/
inductive Shows : Clause → Statement → Nat → Nat → Prop where
  | entry {name : String} {n i s : Nat} : S.strings[i]? = some name →
      Shows (.entry name) (.entry n i) s (s + 3)
  | finish {s : Nat} : Shows .finish .finish s (s + 1)
  | line {speakers : List SpeakerPart} {text : List TextPart} {directives : List Term}
      {xs : List SpeakerNode} {ys : List TextNode} {zs : List Nat} {n s m u t : Nat} :
      Row S.ShowsSpeaker speakers xs (s + 3) m → Row S.ShowsText text ys (m + 1) u →
      S.SpellsAll directives zs (u + 1) t →
      Shows (.line speakers text directives) (.line ⟨n, xs, ys, zs⟩) s t
  | instruction {e : Term} {n s t : Nat} : S.Spells e (s + 2) t →
      Shows (.instruction e) (.instruction n (s + 2)) s t
  | conditional {conditions : List Term} {nodes : List (Nat × Nat)} {n s t : Nat} :
      Row S.ShowsBranch conditions nodes (s + 3) t →
      Shows (.conditional conditions) (.conditional n nodes) s t
  | choice {items : List ItemPart} {nodes : List ItemNode} {n s t : Nat} :
      Row S.ShowsItem items nodes (s + 3) t → Shows (.choice items) (.choice n nodes) s t
  | hash {pairs : List PairPart} {nodes : List PairNode} {n s t : Nat} :
      Row S.ShowsPair pairs nodes (s + 3) t → Shows (.hash pairs) (.hash n nodes) s t
  | speaker {x : String} {pairs : List PairPart} {nodes : List PairNode} {n i s t : Nat} :
      S.speakers[i]? = some x → Row S.ShowsPair pairs nodes (s + 4) t →
      Shows (.speaker x pairs) (.speaker n i nodes) s t

/-- A statement is decoded between two offsets and says what a clause says. -/
structure Tells (p : Clause) (node : Statement) (s t : Nat) : Prop where
  decode : S.decodeStatement s = .ok (node, t)
  shows : S.Shows p node s t

end Script

/-! ## Parts of statements are read back -/

section

variable {P : Float → Prop} {A : Artifact} {r : Registry} {g : Ident → Option String}
  {s t : Nat}

/-- What stands on the left of a row may be replaced by what is made of it. -/
theorem Row.map_left {α β γ : Type} {R : α → β → Nat → Nat → Prop} {Q : γ → β → Nat → Nat → Prop}
    {f : α → γ} {as : List α} {bs : List β} (h : Row R as bs s t)
    (hR : ∀ a b s t, R a b s t → Q (f a) b s t) : Row Q (as.map f) bs s t := by
  induction h with
  | nil s => exact .nil s
  | cons ha _ ih => exact .cons (hR _ _ _ _ ha) ih

/-- Terms whose words stand in a row are spelled one behind the other. -/
theorem Script.SpellsAll.of_row {α : Type} {S : Script} {R : α → Nat → Nat → Nat → Prop}
    {f : α → Term} {as : List α} {os : List Nat} (h : Row R as os s t)
    (hR : ∀ a ∈ as, ∀ o s t, R a o s t → o = s ∧ S.Spells (f a) s t) :
    S.SpellsAll (as.map f) os s t := by
  induction h with
  | nil s => exact .nil s
  | cons ha _ ih =>
    obtain ⟨rfl, hspells⟩ := hR _ (List.mem_cons_self ..) _ _ _ ha
    exact .cons hspells (ih fun a ha => hR a (List.mem_cons_of_mem _ ha))

/-- A speaker is shown by its name or by that of its variable. -/
theorem SpeakerAt.shows {x : SpeakerRef} {b : SpeakerNode} (h : SpeakerAt A r x b s t) :
    A.script.ShowsSpeaker x.part b s t := by
  cases h with
  | named hx => exact .named hx
  | «variable» hx _ => exact .variable hx

variable (hS : A.script.words.size < UInt32.size)

include hS

theorem CheckedAt.spells {e : Expr} (h : CheckedAt P A r e s t) :
    A.script.Spells (e.term r) s t := h.expr.spells hS

theorem KindAt.spells {k : Kind} {e : Expr} (h : KindAt P A r k e s t) :
    A.script.Spells (e.term r) s t := h.expr.spells hS

/-- A segment is shown by its text or by its term. -/
theorem SegmentAt.shows {x : Segment} {b : TextNode} (h : SegmentAt P A r x b s t) :
    A.script.ShowsText (x.part r) b s t := by
  cases h with
  | text hx => exact .text hx
  | placeholder he => exact .shown (he.spells hS)

/-- A key is shown with its values; a flag is shown as true. -/
theorem PairAt.shows {e : HashEntry} {p : PairNode} (h : PairAt P A r e p s t) :
    A.script.ShowsPair (e.part r) p s t := by
  cases h with
  | flag hkey hvalue => exact .intro hkey (.cons hvalue.spells (.nil _))
  | @values key values _ _ _ _ hne hkey hvalues =>
    refine .intro hkey ?_
    have hempty : values.isEmpty = false := by simpa using hne
    simp only [HashEntry.part, hempty, Bool.false_eq_true, if_false]
    exact .of_row hvalues fun _ _ _ _ _ h => ⟨h.1, h.1 ▸ h.2.spells hS⟩

/-- A directive is spelled by its term. -/
theorem DirectiveAt.spells (hg : ∀ x n, A.Enters x n → A.script.Enters (g x) n)
    {x : Spanned Directive} {o : Nat} (h : DirectiveAt P A r x o s t) :
    o = s ∧ A.script.Spells (x.val.term r g) s t := by
  cases h with
  | auto hdecode => exact ⟨rfl, .auto hdecode⟩
  | speed hdecode he => exact ⟨rfl, .speed hdecode (he.spells hS)⟩
  | pause hdecode he => exact ⟨rfl, .pause hdecode (he.spells hS)⟩
  | goto hdecode hy => exact ⟨rfl, .goto hdecode (hg _ _ hy)⟩

/-- A guard is shown by its term, if there is one. -/
theorem GuardAt.shows {e : Option Expr} {o : Option Nat} (h : GuardAt P A r e o s t) :
    A.script.ShowsGuard (e.map (Expr.term r)) o s t := by
  cases h with
  | none => exact .none
  | some he => exact .some (he.spells hS)

/-! ## Choices are read back -/

end

section

variable {P : Float → Prop} {A : Artifact} {r : Registry} {B : Option Ident → List Stmt → Nat → Prop}
  {next : Nat}

mutual

/-- The entries of an item are shown one behind the other. -/
theorem ItemAt.shows (hS : A.script.words.size < UInt32.size) :
    (i : ChoiceItem) → {nodes : List ItemNode} → {s t : Nat} →
    ItemAt P A r B next i nodes s t → Row A.script.ShowsItem (i.entries r) nodes s t
  | .option guard text target body _, nodes, s, t, h => by
    rw [ItemAt] at h
    obtain ⟨n, o, xs, m, rfl, _, _, hguard, htext⟩ := h
    rw [ChoiceItem.entries]
    refine .cons (.option (hguard.shows hS) (htext.map_left ?_)) (.nil t)
    exact fun _ _ _ _ h => h.shows hS
  | .filter branches otherwise _, nodes, s, t, h => by
    rw [ItemAt] at h
    obtain ⟨xs, ys, m, u, rfl, hbranches, hotherwise, rfl⟩ := h
    rw [ChoiceItem.entries]
    have hinside := (BranchesAt.shows hS (fun _ _ _ => .ifMarker) branches hbranches).append
      (OtherwiseAt.shows hS otherwise hotherwise)
    exact hinside.append (.cons .endIf (.nil _))

/-- The entries of a choice are those of its items, in order. -/
theorem ItemsAt.shows (hS : A.script.words.size < UInt32.size) : (is : List ChoiceItem) →
    {nodes : List ItemNode} → {s t : Nat} →
    ItemsAt P A r B next is nodes s t → Row A.script.ShowsItem (ChoiceItem.allEntries r is) nodes s t
  | [], nodes, s, t, h => by
    rw [ItemsAt] at h
    obtain ⟨rfl, rfl⟩ := h
    rw [ChoiceItem.allEntries]
    exact .nil t
  | i :: is, nodes, s, t, h => by
    rw [ItemsAt] at h
    obtain ⟨xs, ys, m, rfl, hi, his⟩ := h
    rw [ChoiceItem.allEntries]
    exact (ItemAt.shows hS i hi).append (ItemsAt.shows hS is his)

/-- So are those of the branches of a filter, if the mark of the first branch is. -/
theorem BranchesAt.shows (hS : A.script.words.size < UInt32.size) {mark : Nat → ItemNode} {part : Term → ItemPart}
    (hmark : ∀ e s t, A.script.Spells e (s + 1) t →
      A.script.ShowsItem (part e) (mark (s + 1)) s t) :
    (bs : List (Expr × List ChoiceItem)) → {nodes : List ItemNode} → {s t : Nat} →
      BranchesAt P A r B next mark bs nodes s t →
      Row A.script.ShowsItem (ChoiceItem.branchEntries r part bs) nodes s t
  | [], nodes, s, t, h => by
    rw [BranchesAt] at h
    obtain ⟨rfl, rfl⟩ := h
    rw [ChoiceItem.branchEntries]
    exact .nil t
  | (e, is) :: rest, nodes, s, t, h => by
    rw [BranchesAt] at h
    obtain ⟨xs, ys, m, u, rfl, he, his, hrest⟩ := h
    rw [ChoiceItem.branchEntries]
    refine .cons (hmark _ _ _ (he.spells hS)) ((ItemsAt.shows hS is his).append ?_)
    exact BranchesAt.shows hS (fun _ _ _ => .elseIf) rest hrest

/-- So are those of the items behind the branches. -/
theorem OtherwiseAt.shows (hS : A.script.words.size < UInt32.size) :
    (o : Option (List ChoiceItem)) → {nodes : List ItemNode} →
    {s t : Nat} → OtherwiseAt P A r B next o nodes s t →
      Row A.script.ShowsItem (ChoiceItem.otherwiseEntries r o) nodes s t
  | none, nodes, s, t, h => by
    rw [OtherwiseAt] at h
    obtain ⟨rfl, rfl⟩ := h
    rw [ChoiceItem.otherwiseEntries]
    exact .nil t
  | some is, nodes, s, t, h => by
    rw [OtherwiseAt] at h
    obtain ⟨xs, rfl, his⟩ := h
    rw [ChoiceItem.otherwiseEntries]
    exact .cons .elseMarker (ItemsAt.shows hS is his)

end

end

end Colloquy
