import Colloquy.Proofs.Layout.Walk

/-!
# Well-formed scripts

A script is well formed if its statements can be read one after another up to its end, every target is
the offset of one of them, and every place lies in its pool, also those inside nested expressions.
Nothing here depends on where a script comes from.  Every story is compiled to a well-formed script,
with or without errors (`compile_wellFormed`).
-/

namespace Colloquy

namespace Code

/-! ## What nodes and statements refer to -/

/-- The expressions inside a node. -/
def Node.operands : Node → List Nat
  | .call _ _ args => args
  | .unary _ e => [e]
  | .binary _ left right => [left, right]
  | .assign _ _ e => [e]
  | .speed e => [e]
  | .pause e => [e]
  | _ => []

/-- The target of a node. -/
def Node.targets : Node → List Nat
  | .goto n => [n]
  | _ => []

/-- The places that a node refers to. -/
def Node.places : Node → List (PoolName × Nat)
  | .float i => [(.floats, i)]
  | .string i => [(.strings, i)]
  | .variable i => [(.strings, i)]
  | .call i _ _ => [(.strings, i)]
  | .assign _ i _ => [(.strings, i)]
  | _ => []

/-- The expressions in a stretch of text. -/
def TextNode.exprs : TextNode → List Nat
  | .text _ => []
  | .expr e => [e]

/-- The places that a stretch of text refers to. -/
def TextNode.places : TextNode → List (PoolName × Nat)
  | .text i => [(.strings, i)]
  | .expr _ => []

/-- The place that a speaker refers to. -/
def SpeakerNode.places : SpeakerNode → List (PoolName × Nat)
  | .id i => [(.speakers, i)]
  | .variable i => [(.strings, i)]

/-- The target of an entry of a choice. -/
def ItemNode.targets : ItemNode → List Nat
  | .option n _ _ => [n]
  | _ => []

/-- The expressions in an entry of a choice. -/
def ItemNode.exprs : ItemNode → List Nat
  | .option _ guard segments => guard.toList ++ segments.flatMap TextNode.exprs
  | .ifMarker e => [e]
  | .elseIf e => [e]
  | _ => []

/-- The places that an entry of a choice refers to, apart from its expressions. -/
def ItemNode.places : ItemNode → List (PoolName × Nat)
  | .option _ _ segments => segments.flatMap TextNode.places
  | _ => []

/-- The targets of a statement, apart from its expressions. -/
def Statement.targets : Statement → List Nat
  | .entry n _ => [n]
  | .finish => []
  | .line l => [l.next]
  | .instruction n _ => [n]
  | .conditional n branches => n :: branches.map Prod.snd
  | .choice n items => n :: items.flatMap ItemNode.targets
  | .hash n _ => [n]
  | .speaker n _ _ => [n]

/-- The expressions in a statement. -/
def Statement.exprs : Statement → List Nat
  | .line l => l.segments.flatMap TextNode.exprs ++ l.directives
  | .instruction _ e => [e]
  | .conditional _ branches => branches.map Prod.fst
  | .choice _ items => items.flatMap ItemNode.exprs
  | .hash _ pairs => pairs.flatMap PairNode.values
  | .speaker _ _ pairs => pairs.flatMap PairNode.values
  | _ => []

/-- The places that a statement refers to, apart from its expressions. -/
def Statement.places : Statement → List (PoolName × Nat)
  | .entry _ i => [(.strings, i)]
  | .line l => l.speakers.flatMap SpeakerNode.places ++ l.segments.flatMap TextNode.places
  | .choice _ items => items.flatMap ItemNode.places
  | .hash _ pairs => pairs.map fun p => (.strings, p.key)
  | .speaker _ i pairs => (.speakers, i) :: pairs.map fun p => (.strings, p.key)
  | _ => []

end Code

open Code

namespace Script

variable (S : Script)

/-- A place lies in its pool. -/
def HasPlace : PoolName × Nat → Prop
  | (.speakers, i) => i < S.speakers.size
  | (.floats, i) => i < S.floats.size
  | (.strings, i) => i < S.strings.size

/-- An expression can be read with all expressions inside it, its targets are among those of `K`, and
its places lie in their pools. -/
inductive SoundExpr (K : Nat → Prop) : Nat → Prop where
  | node {s t : Nat} {x : Node} :
      S.decodeExpr s = .ok (x, t) → (∀ n ∈ x.targets, K n) → (∀ p ∈ x.places, S.HasPlace p) →
      (∀ e ∈ x.operands, SoundExpr K e) → SoundExpr K s

/-- The same of a statement that was read. -/
structure SoundStatement (K : Nat → Prop) (x : Statement) : Prop where
  targets : ∀ n ∈ x.targets, K n
  places : ∀ p ∈ x.places, S.HasPlace p
  exprs : ∀ e ∈ x.exprs, S.SoundExpr K e

/-- The statements of a script are read from its start to its end, they lead to each other only, and
all places lie in their pools. -/
def WellFormed : Prop :=
  ∃ xs, S.Walk 0 xs S.words.size ∧
    ∀ p ∈ xs, S.SoundStatement (fun n => ∃ q ∈ xs, q.1 = n) p.2

end Script

/-! ## Expressions -/

section

variable {P : Float → Prop} {S : Script} {r : Registry} {K : Nat → Prop} {s t : Nat}

theorem Script.hasPlace_string {i : Nat} {x : String} (h : S.strings[i]? = some x) :
    S.HasPlace (.strings, i) := (Array.getElem?_eq_some_iff.mp h).1

theorem Script.hasPlace_speaker {i : Nat} {x : String} (h : S.speakers[i]? = some x) :
    S.HasPlace (.speakers, i) := (Array.getElem?_eq_some_iff.mp h).1

/-- A literal is sound: it lies in its pool. -/
theorem LiteralAt.sound {v : Literal} (h : LiteralAt P S v s t) : S.SoundExpr K s := by
  obtain ⟨node, hdecode, hnode⟩ := h.nodeAt (endWithin S S.words.size)
  cases hnode with
  | float hy =>
    refine .node hdecode (by simp [Node.targets]) ?_ (by simp [Node.operands])
    simpa [Node.places, Script.HasPlace] using (Array.getElem?_eq_some_iff.mp hy).1
  | string hx =>
    refine .node hdecode (by simp [Node.targets]) ?_ (by simp [Node.operands])
    simpa [Node.places] using Script.hasPlace_string hx
  | bool b =>
    exact .node hdecode (by simp [Node.targets]) (by simp [Node.places]) (by simp [Node.operands])

mutual

/-- The words of an expression of a story make a sound expression. -/
theorem ExprAt.sound (hS : S.words.size < UInt32.size) : (e : Expr) → {s t : Nat} →
    ExprAt P S r e s t → S.SoundExpr K s
  | .literal v _, s, t, h => by
    rw [ExprAt] at h
    exact h.sound
  | .variable x, s, t, h => by
    obtain ⟨i, hdecode, hx⟩ := h.decode_variable
    refine .node hdecode (by simp [Node.targets]) ?_ (by simp [Node.operands])
    simpa [Node.places] using Script.hasPlace_string hx
  | .group e, s, t, h => by
    rw [ExprAt] at h
    exact ExprAt.sound hS e h
  | .unary op e, s, t, h => by
    obtain ⟨hdecode, he⟩ := h.decode_unary hS
    refine .node hdecode (by simp [Node.targets]) (by simp [Node.places]) ?_
    simpa [Node.operands] using ExprAt.sound hS e he
  | .binary op left right, s, t, h => by
    obtain ⟨m, hdecode, hleft, hright⟩ := h.decode_binary hS
    refine .node hdecode (by simp [Node.targets]) (by simp [Node.places]) ?_
    simpa [Node.operands] using ⟨ExprAt.sound hS left hleft, ExprAt.sound hS right hright⟩
  | .assign x op value, s, t, h => by
    obtain ⟨i, hdecode, hx, hvalue⟩ := h.decode_assign hS
    refine .node hdecode (by simp [Node.targets]) ?_ ?_
    · simpa [Node.places] using Script.hasPlace_string hx
    · simpa [Node.operands] using ExprAt.sound hS value hvalue
  | .call f args awaited close, s, t, h => by
    obtain ⟨i, os, ps, m, hdecode, hf, hargs, hfill⟩ := h.decode_call hS
    refine .node hdecode (by simp [Node.targets]) ?_ ?_
    · simpa [Node.places] using Script.hasPlace_string hf
    · intro o ho
      rcases List.mem_append.mp ho with ho | ho
      · exact ExprsAt.sound hS args hargs o ho
      · obtain ⟨v, _, _, _, rfl, hv⟩ := hfill.exists_of_mem ho
        exact hv.sound

/-- The operands that expressions stand for are sound. -/
theorem ExprsAt.sound (hS : S.words.size < UInt32.size) : (es : List Expr) → {os : List Nat} →
    {s t : Nat} → Row (Operand (ExprAt P S r)) es os s t → ∀ o ∈ os, S.SoundExpr K o
  | [], os, s, t, h => by
    cases h
    simp
  | e :: es, os, s, t, h => by
    cases h with
    | cons he hes =>
      obtain ⟨rfl, he⟩ := he
      rw [List.forall_mem_cons]
      exact ⟨ExprAt.sound hS e he, ExprsAt.sound hS es hes⟩

end

end

/-! ## Expressions of statements -/

/-- An expression that a statement evaluates for its value: one of the story that was checked, or what
stands for the value of a key without values. -/
inductive HeldAt (P : Float → Prop) (A : Artifact) (r : Registry) : Nat → Prop where
  | checked {e : Expr} {s t : Nat} : CheckedAt P A r e s t → HeldAt P A r s
  | flag {v : Literal} {s t : Nat} : LiteralAt P A.script v s t → HeldAt P A r s

/-- An expression that a statement holds, with what was checked of it. -/
inductive RootAt (P : Float → Prop) (A : Artifact) (r : Registry) : Nat → Prop where
  | checked {e : Expr} {s t : Nat} : CheckedAt P A r e s t → RootAt P A r s
  /-- The value of a key without values. -/
  | flag {v : Literal} {s t : Nat} : LiteralAt P A.script v s t → RootAt P A r s
  | directive {d : Spanned Directive} {o s t : Nat} : DirectiveAt P A r d o s t → RootAt P A r o
  /-- The target of a jump. -/
  | goto {x : Ident} {n s t : Nat} :
      A.Enters x n → A.script.decodeExpr s = .ok (.goto n, t) → RootAt P A r s

section

variable {P : Float → Prop} {A : Artifact} {r : Registry} {K : Nat → Prop} {s t : Nat}

/-- An expression that was checked to be of a kind was checked. -/
theorem KindAt.checkedAt {k : Kind} {e : Expr} (h : KindAt P A r k e s t) : CheckedAt P A r e s t :=
  ⟨h.expr, fun x hx => h.checked x (List.mem_append_left _ hx)⟩

theorem HeldAt.root (h : HeldAt P A r s) : RootAt P A r s := by
  cases h with
  | checked he => exact .checked he
  | flag hv => exact .flag hv

/-- The expressions in a text are held by it as checked ones. -/
theorem SegmentAt.held {xs : List Segment} {nodes : List TextNode}
    (h : Row (SegmentAt P A r) xs nodes s t) : ∀ e ∈ nodes.flatMap TextNode.exprs, HeldAt P A r e := by
  intro e he
  obtain ⟨node, hmem, he⟩ := List.mem_flatMap.mp he
  obtain ⟨x, _, s, t, hx⟩ := h.exists_of_mem hmem
  cases hx with
  | text hi => cases he
  | placeholder hx =>
    obtain rfl := List.mem_singleton.mp he
    exact .checked hx

/-- So are the values of keys. -/
theorem PairAt.held {xs : List HashEntry} {nodes : List PairNode} (h : Row (PairAt P A r) xs nodes s t) :
    ∀ e ∈ nodes.flatMap PairNode.values, HeldAt P A r e := by
  intro e he
  obtain ⟨p, hp, he⟩ := List.mem_flatMap.mp he
  obtain ⟨x, _, s, t, hx⟩ := h.exists_of_mem hp
  cases hx with
  | flag _ hflag =>
    obtain rfl := List.mem_singleton.mp he
    exact .flag hflag
  | values _ _ hvalues =>
    obtain ⟨x, _, _, _, rfl, hx⟩ := hvalues.exists_of_mem he
    exact .checked hx

/-- So are the expressions of an entry of a choice. -/
theorem EntryAt.held {B : Option Ident → List Stmt → Nat → Prop} {next : Nat} {node : ItemNode}
    (h : EntryAt P A r B next node) : ∀ e ∈ node.exprs, HeldAt P A r e := by
  intro e he
  cases h with
  | option _ hguard htext =>
    rcases List.mem_append.mp he with he | he
    · cases hguard with
      | none => cases he
      | some hx =>
        obtain rfl := List.mem_singleton.mp he
        exact .checked hx.checkedAt
    · exact SegmentAt.held htext e he
  | ifMarker hx | elseIf hx =>
    obtain rfl := List.mem_singleton.mp he
    exact .checked hx.checkedAt
  | elseMarker | endIf => cases he

/-- All expressions of a statement of a story are accounted for. -/
theorem NodeAt.roots {B : Option Ident → List Stmt → Nat → Prop} {x : Stmt} {node : Statement} {next : Nat}
    (h : NodeAt P A r B next x node s t) : ∀ e ∈ node.exprs, RootAt P A r e := by
  intro e he
  cases h with
  | line _ _ htext _ hdirectives =>
    rcases List.mem_append.mp he with he | he
    · exact (SegmentAt.held htext e he).root
    · obtain ⟨d, _, _, _, hd⟩ := hdirectives.exists_of_mem he
      exact .directive hd
  | instruction hx =>
    obtain rfl := List.mem_singleton.mp he
    exact .checked hx
  | goto hx hdecode =>
    obtain rfl := List.mem_singleton.mp he
    exact .goto hx hdecode
  | finish => cases he
  | conditional hbranches =>
    obtain ⟨p, hp, rfl⟩ := List.mem_map.mp he
    obtain ⟨b, _, _, _, hb⟩ := hbranches.exists_of_mem hp
    obtain ⟨hx, _⟩ := hb
    exact .checked hx.checkedAt
  | choice _ hitems =>
    obtain ⟨node, hnode, he⟩ := List.mem_flatMap.mp he
    exact ((hitems.entries _ node hnode).held e he).root
  | hash hpairs | speaker _ hpairs => exact (PairAt.held hpairs e he).root

/-- The expressions of a statement are held by it, or are its directives. -/
theorem Stands.roots {E : Nat → String → Prop} {node : Statement} (h : Stands P A r E K s node) :
    ∀ e ∈ node.exprs, RootAt P A r e := by
  cases h with
  | entry | finish =>
    intro e he
    cases he
  | hash _ hpairs => exact fun e he => (PairAt.held hpairs e he).root
  | node hnode _ => exact hnode.roots

/-- A directive is sound: one that leads to a section leads to its entry. -/
theorem DirectiveAt.sound (hA : A.Fits) (hK : Entered A K) {d : Spanned Directive} {o : Nat}
    (h : DirectiveAt P A r d o s t) : A.script.SoundExpr K o := by
  cases h with
  | auto hdecode =>
    exact .node hdecode (by simp [Node.targets]) (by simp [Node.places]) (by simp [Node.operands])
  | speed hdecode hx =>
    refine .node hdecode (by simp [Node.targets]) (by simp [Node.places]) ?_
    simpa [Node.operands] using hx.expr.sound hA.addressable.words
  | pause hdecode hx =>
    refine .node hdecode (by simp [Node.targets]) (by simp [Node.places]) ?_
    simpa [Node.operands] using hx.expr.sound hA.addressable.words
  | goto hdecode hx =>
    refine .node hdecode ?_ (by simp [Node.places]) (by simp [Node.operands])
    simpa [Node.targets] using hK _ _ hx

/-- What stands at the root of a statement is sound. -/
theorem RootAt.sound (hA : A.Fits) (hK : Entered A K) (h : RootAt P A r s) : A.script.SoundExpr K s := by
  cases h with
  | checked he => exact he.expr.sound hA.addressable.words
  | flag hv => exact hv.sound
  | directive hd => exact hd.sound hA hK
  | goto hx hdecode =>
    refine .node hdecode ?_ (by simp [Node.places]) (by simp [Node.operands])
    simpa [Node.targets] using hK _ _ hx

/-! ## Parts of statements -/

/-- The texts of segments lie in the pool. -/
theorem SegmentAt.hasPlace {xs : List Segment} {nodes : List TextNode}
    (h : Row (SegmentAt P A r) xs nodes s t) : ∀ p ∈ nodes.flatMap TextNode.places, A.script.HasPlace p := by
  intro p hp
  obtain ⟨node, hmem, hp⟩ := List.mem_flatMap.mp hp
  obtain ⟨x, _, s, t, hx⟩ := h.exists_of_mem hmem
  cases hx with
  | text hi =>
    obtain rfl := List.mem_singleton.mp hp
    exact Script.hasPlace_string hi
  | placeholder he => cases hp

/-- So do the speakers of a line and the names of their variables. -/
theorem SpeakerAt.hasPlace {xs : List SpeakerRef} {nodes : List SpeakerNode}
    (h : Row (SpeakerAt A r) xs nodes s t) :
    ∀ p ∈ nodes.flatMap SpeakerNode.places, A.script.HasPlace p := by
  intro p hp
  obtain ⟨node, hmem, hp⟩ := List.mem_flatMap.mp hp
  obtain ⟨x, _, s, t, hx⟩ := h.exists_of_mem hmem
  rcases hx with hi | hi
  · obtain rfl := List.mem_singleton.mp hp
    exact Script.hasPlace_speaker hi
  · obtain rfl := List.mem_singleton.mp hp
    exact Script.hasPlace_string hi

/-- So do keys. -/
theorem PairAt.hasPlace {xs : List HashEntry} {nodes : List PairNode}
    (h : Row (PairAt P A r) xs nodes s t) : ∀ p ∈ nodes, A.script.HasPlace (.strings, p.key) := by
  intro p hp
  obtain ⟨x, _, s, t, hx⟩ := h.exists_of_mem hp
  cases hx with
  | flag hi => exact Script.hasPlace_string hi
  | values _ hi => exact Script.hasPlace_string hi

/-- An entry of a choice leads to a statement and refers to places. -/
theorem EntryAt.sound (hK : Entered A K) {next : Nat} (hnext : K next) {node : ItemNode}
    (h : EntryAt P A r (fun _ _ n => K n) next node) :
    (∀ n ∈ node.targets, K n) ∧ ∀ p ∈ node.places, A.script.HasPlace p := by
  cases h with
  | @option target b n _ _ _ _ _ _ _ _ hn hguard htext =>
    refine ⟨fun k hk => ?_, SegmentAt.hasPlace htext⟩
    obtain rfl := List.mem_singleton.mp hk
    rcases hn with hn | hn
    · exact hn
    · cases target with
      | none =>
        obtain rfl : k = next := hn
        exact hnext
      | some x => exact hK x k hn
  | _ => simp [ItemNode.targets, ItemNode.places]

/-! ## Statements -/

/-- A statement of a story is sound where control may go on behind it to another statement. -/
theorem NodeAt.sound (hA : A.Fits) (hK : Entered A K) {x : Stmt} {node : Statement} {next : Nat}
    (h : NodeAt P A r (fun _ _ n => K n) next x node s t) (hnext : Falls x → K next) :
    A.script.SoundStatement K node := by
  have hexprs : ∀ e ∈ node.exprs, A.script.SoundExpr K e := fun e he => (h.roots e he).sound hA hK
  cases h with
  | line _ hspeakers htext =>
    refine ⟨?_, ?_, hexprs⟩
    · simpa [Statement.targets] using hnext (.line _)
    · intro p hp
      rcases List.mem_append.mp hp with hp | hp
      · exact SpeakerAt.hasPlace hspeakers p hp
      · exact SegmentAt.hasPlace htext p hp
  | instruction hx =>
    refine ⟨?_, by simp [Statement.places], hexprs⟩
    simpa [Statement.targets] using hnext (.instruction _)
  | goto hx hdecode =>
    refine ⟨?_, by simp [Statement.places], hexprs⟩
    simpa [Statement.targets] using hK _ _ hx
  | finish => exact ⟨by simp [Statement.targets], by simp [Statement.places], hexprs⟩
  | conditional hbranches hlast =>
    refine ⟨?_, by simp [Statement.places], hexprs⟩
    intro n hn
    rcases List.mem_cons.mp hn with rfl | hn
    · exact hlast
    · obtain ⟨p, hp, rfl⟩ := List.mem_map.mp hn
      obtain ⟨b, _, _, _, hb⟩ := hbranches.exists_of_mem hp
      obtain ⟨_, hb⟩ := hb
      exact hb
  | choice _ hitems =>
    have hnext := hnext (.choice _ _)
    have hentries := fun node hnode => (hitems.entries _ node hnode).sound hK hnext
    refine ⟨?_, ?_, hexprs⟩
    · intro n hn
      rcases List.mem_cons.mp hn with rfl | hn
      · exact hnext
      · obtain ⟨node, hnode, hn⟩ := List.mem_flatMap.mp hn
        exact (hentries node hnode).1 n hn
    · intro p hp
      obtain ⟨node, hnode, hp⟩ := List.mem_flatMap.mp hp
      exact (hentries node hnode).2 p hp
  | hash hpairs =>
    refine ⟨?_, ?_, hexprs⟩
    · simpa [Statement.targets] using hnext (.hash _)
    · intro p hp
      obtain ⟨pair, hpair, rfl⟩ := List.mem_map.mp hp
      exact PairAt.hasPlace hpairs pair hpair
  | speaker hspeaker hpairs =>
    refine ⟨?_, ?_, hexprs⟩
    · simpa [Statement.targets] using hnext (.speaker _ _ _)
    · intro p hp
      rcases List.mem_cons.mp hp with rfl | hp
      · exact Script.hasPlace_speaker hspeaker
      · obtain ⟨pair, hpair, rfl⟩ := List.mem_map.mp hp
        exact PairAt.hasPlace hpairs pair hpair

/-- A statement that stands for one of a story is sound. -/
theorem Stands.sound {E : Nat → String → Prop} (hA : A.Fits) (hK : Entered A K) {node : Statement}
    (h : Stands P A r E K s node) : A.script.SoundStatement K node := by
  have hexprs : ∀ e ∈ node.exprs, A.script.SoundExpr K e := fun e he => (h.roots e he).sound hA hK
  cases h with
  | entry _ hn hname =>
    refine ⟨?_, ?_, hexprs⟩
    · simpa [Statement.targets] using hn
    · simpa [Statement.places] using Script.hasPlace_string hname
  | finish => exact ⟨by simp [Statement.targets], by simp [Statement.places], hexprs⟩
  | hash hn hpairs =>
    refine ⟨?_, ?_, hexprs⟩
    · simpa [Statement.targets] using hn
    · intro p hp
      obtain ⟨pair, hpair, rfl⟩ := List.mem_map.mp hp
      exact PairAt.hasPlace hpairs pair hpair
  | node hnode hnext => exact hnode.sound hA hK hnext

/-- Whatever floats a story holds, compiling it lays it out. -/
theorem exists_compiled_of_any (r : Registry) (o : CompileOptions) (story : Story)
    (h : (compile r o story).script.Addressable) :
    ∃ A labels, Compiled (fun _ => True) r story (compile r o story) A labels := by
  have hall : ∀ x : Float, (fun _ => True) x := fun _ => trivial
  have hcount : ∀ n : Nat, (fun _ => True) n := fun _ => trivial
  exact exists_compiled o (r.floats_all hall) (story.meets_all (fun e => e.floats_all hall) hcount) h

/-- A compiled script is well formed. -/
theorem Compiled.wellFormed {story : Story} {c : Compilation} {labels : List Label}
    (hA : Compiled P r story c A labels) : c.script.WellFormed := by
  obtain ⟨xs, hxs⟩ := hA.exists_laid
  rw [← hA.script]
  exact ⟨xs, hxs.walk, fun p hp => (hxs.stands p hp).sound hA.fits hxs.entered⟩

/-- Every story is compiled to a well-formed script, whatever is reported, as long as words are wide
enough for it. -/
theorem compile_wellFormed (r : Registry) (o : CompileOptions) (story : Story)
    (h : (compile r o story).script.Addressable) : (compile r o story).script.WellFormed := by
  obtain ⟨A, labels, hA⟩ := exists_compiled_of_any r o story h
  exact hA.wellFormed

end

/-- A story with an option to a section that does not exist and with empty blocks. -/
theorem wellFormed_of_unknown_target :
    (compile .empty {} [⟨⟨"main", ⟨0, 4⟩⟩, ⟨0, 4⟩,
      [.choice [.option none [.text ⟨"Leave", ⟨5, 5⟩⟩] (some ⟨"nowhere", ⟨10, 7⟩⟩) (some []) ⟨5, 12⟩]
          ⟨5, 12⟩,
        .conditional [(.literal (.bool true) ⟨18, 4⟩, [])] none ⟨18, 4⟩,
        .goto ⟨"main", ⟨22, 4⟩⟩]⟩]).script.WellFormed :=
  compile_wellFormed _ _ _ (by decide +kernel)

end Colloquy
