import Colloquy.Code.Listing
import Colloquy.Proofs.Readback.Floats
import Colloquy.Session.Eval

/-!
# Whether floats keep their values

Each float of a story has a node of its own in the compiled script, in the same order.  The entry of the
pool that the node refers to is the first float of the story that shares its place, and this is the float
itself unless it is a zero and the first zero of the story has the other sign.  So all floats of a story
keep their values, and are shown as they were, if and only if the story does not have zeros of both signs
(`compile_keeps_floats`).
-/

namespace Colloquy

open Code

/-! ## The floats of a script -/

namespace Script

variable (S : Script)

mutual

/-- The nodes of floats in an expression, in order. -/
inductive FloatNodes : Nat → List Nat → Prop where
  | float {n i t : Nat} : S.decodeExpr n = .ok (.float i, t) → FloatNodes n [n]
  | node {n t : Nat} {x : Node} {ns : List Nat} : S.decodeExpr n = .ok (x, t) → (∀ i, x ≠ .float i) →
      FloatNodesAll x.operands ns → FloatNodes n ns

/-- The nodes of floats in expressions, in order. -/
inductive FloatNodesAll : List Nat → List Nat → Prop where
  | nil : FloatNodesAll [] []
  | cons {e : Nat} {es ns ms : List Nat} : FloatNodes e ns → FloatNodesAll es ms →
      FloatNodesAll (e :: es) (ns ++ ms)

end

/-- The nodes of floats in a script from its start to its end, in order. -/
def AllFloatNodes (ns : List Nat) : Prop :=
  ∃ xs, S.Walk 0 xs S.words.size ∧ S.FloatNodesAll (xs.flatMap fun x => x.2.exprs) ns

/-- A node has a float: the entry of the pool that it refers to, its value with any host, and what a
listing shows. -/
structure HasFloat (n : Nat) (x : Float) : Prop where
  entry : ∃ i t, S.decodeExpr n = .ok (.float i, t) ∧ S.floats[i]? = some x
  value : ∀ {σ : Type} (h : Host σ) (stage : Stage σ), Eval.expr S h n stage = .ok (.float x) stage
  text : S.exprText n = .ok (Value.text (.float x))

/-- A node has a float that is the same as another one. -/
def Resembles (x : Float) (n : Nat) : Prop := ∃ y, S.HasFloat n y ∧ Assembly.sameFloat x y = true

/-- The floats in some expressions are the same as those of a list, one by one. -/
def Lists (xs : List Float) (es : List Nat) : Prop :=
  ∃ ns, S.FloatNodesAll es ns ∧ List.Forall₂ S.Resembles xs ns

end Script

section

variable {S : Script} {s t : Nat}

/-- A node that refers to a float of the pool has it. -/
theorem Script.HasFloat.of_decode {n i : Nat} {x : Float} (hdecode : S.decodeExpr n = .ok (.float i, t))
    (hx : S.floats[i]? = some x) : S.HasFloat n x where
  entry := ⟨i, t, hdecode, hx⟩
  value h stage := by
    show (Eval.read (S.decodeExpr n) >>= fun p => Eval.node S h _ n p.1) stage = _
    rw [hdecode]
    show (Eval.read (S.float i) >>= fun x => pure (Value.float x)) stage = _
    rw [Eval.read_float hx]
    rfl
  text := by
    rw [Script.exprText, Script.exprTextWithin, hdecode]
    show (S.float i >>= fun x => pure (Number.plain x)) = _
    rw [Script.float, hx]
    rfl

/-- A node has one float. -/
theorem Script.HasFloat.unique {n : Nat} {x y : Float} (hx : S.HasFloat n x) (hy : S.HasFloat n y) :
    x = y := by
  obtain ⟨i, _, hdecode, hi⟩ := hx.entry
  obtain ⟨j, _, hdecode', hj⟩ := hy.entry
  rw [hdecode] at hdecode'
  cases hdecode'
  rw [hi] at hj
  exact Option.some.inj hj

/-- The float nodes of expressions are those of the first with those of the others behind them. -/
theorem Script.FloatNodesAll.append {es fs ns ms : List Nat} (h : S.FloatNodesAll es ns)
    (h' : S.FloatNodesAll fs ms) : S.FloatNodesAll (es ++ fs) (ns ++ ms) := by
  induction es generalizing ns with
  | nil =>
    cases h
    exact h'
  | cons e es ih =>
    cases h with
    | cons he hes =>
      rw [List.cons_append, List.append_assoc]
      exact .cons he (ih hes)

namespace Script.Lists

variable {xs ys : List Float} {es fs : List Nat}

theorem nil (S : Script) : S.Lists [] [] := ⟨[], .nil, .nil⟩

theorem append (h : S.Lists xs es) (h' : S.Lists ys fs) : S.Lists (xs ++ ys) (es ++ fs) := by
  obtain ⟨ns, hns, hxs⟩ := h
  obtain ⟨ms, hms, hys⟩ := h'
  exact ⟨ns ++ ms, hns.append hms, List.rel_append hxs hys⟩

/-- A node that is no float has the floats of its operands. -/
theorem node {x : Node} (hdecode : S.decodeExpr s = .ok (x, t)) (hx : ∀ i, x ≠ .float i)
    (h : S.Lists xs x.operands) : S.Lists xs [s] := by
  obtain ⟨ns, hns, hxs⟩ := h
  refine ⟨ns ++ [], .cons (.node hdecode hx hns) .nil, ?_⟩
  rwa [List.append_nil]

theorem float {x y : Float} {i : Nat} (hdecode : S.decodeExpr s = .ok (.float i, t))
    (hy : S.floats[i]? = some y) (hsame : Assembly.sameFloat x y = true) : S.Lists [x] [s] :=
  ⟨[s], .cons (.float hdecode) .nil, .cons ⟨y, .of_decode hdecode hy, hsame⟩ .nil⟩

end Script.Lists

/-! ## Terms and clauses -/

mutual

/-- The words of a term have its floats. -/
theorem Script.Spells.lists : (e : Term) → {s t : Nat} → S.Spells e s t → S.Lists e.floats [s]
  | .literal v, s, t, h => by
    rw [Term.floats]
    cases h with
    | literal hdecode hnode =>
      cases hnode with
      | float hy hsame _ _ => exact .float hdecode hy hsame
      | string _ | bool _ => exact .node hdecode (by simp) (.nil S)
  | .variable x, s, t, h => by
    rw [Term.floats]
    cases h with
    | «variable» hdecode _ => exact .node hdecode (by simp) (.nil S)
  | .unary _ e, s, t, h => by
    rw [Term.floats]
    cases h with
    | unary hdecode he => exact .node hdecode (by simp) (Script.Spells.lists e he)
  | .binary _ left right, s, t, h => by
    rw [Term.floats]
    cases h with
    | binary hdecode hleft hright =>
      exact .node hdecode (by simp) ((Script.Spells.lists left hleft).append (Script.Spells.lists right hright))
  | .assign _ _ value, s, t, h => by
    rw [Term.floats]
    cases h with
    | assign hdecode _ hvalue => exact .node hdecode (by simp) (Script.Spells.lists value hvalue)
  | .call _ _ args, s, t, h => by
    rw [Term.floats]
    cases h with
    | call hdecode _ hargs => exact .node hdecode (by simp) (Script.SpellsAll.lists args hargs)
  | .auto, s, t, h => by
    rw [Term.floats]
    cases h with
    | auto hdecode => exact .node hdecode (by simp) (.nil S)
  | .speed e, s, t, h => by
    rw [Term.floats]
    cases h with
    | speed hdecode he => exact .node hdecode (by simp) (Script.Spells.lists e he)
  | .pause e, s, t, h => by
    rw [Term.floats]
    cases h with
    | pause hdecode he => exact .node hdecode (by simp) (Script.Spells.lists e he)
  | .goto x, s, t, h => by
    rw [Term.floats]
    cases h with
    | goto hdecode _ => exact .node hdecode (by simp) (.nil S)

/-- Operands list the floats of the terms that they spell. -/
theorem Script.SpellsAll.lists : (es : List Term) → {os : List Nat} → {s t : Nat} →
    S.SpellsAll es os s t → S.Lists (Term.allFloats es) os
  | [], os, s, t, h => by
    cases h
    rw [Term.allFloats]
    exact .nil S
  | e :: es, os, s, t, h => by
    cases h with
    | cons he hes =>
      rw [Term.allFloats]
      exact (Script.Spells.lists e he).append (Script.SpellsAll.lists es hes)

end

/-- Parts one after another have their floats one after another. -/
theorem Script.Lists.of_row {α β : Type} {R : α → β → Nat → Nat → Prop} {as : List α} {bs : List β}
    {terms : α → List Term} {exprs : β → List Nat} (h : Row R as bs s t)
    (hR : ∀ a b s t, R a b s t → S.Lists (Term.allFloats (terms a)) (exprs b)) :
    S.Lists (Term.allFloats (as.flatMap terms)) (bs.flatMap exprs) := by
  induction h with
  | nil s =>
    rw [List.flatMap_nil, List.flatMap_nil, Term.allFloats_nil]
    exact .nil S
  | cons ha _ ih =>
    rw [List.flatMap_cons, List.flatMap_cons, Term.allFloats_append]
    exact (hR _ _ _ _ ha).append ih

/-- A stretch of text lists the floats of its term, if it shows one. -/
theorem Script.ShowsText.lists {part : TextPart} {node : TextNode} (h : S.ShowsText part node s t) :
    S.Lists (Term.allFloats part.terms) node.exprs := by
  cases h with
  | text _ =>
    rw [TextPart.terms, Term.allFloats_nil]
    exact .nil S
  | shown he =>
    rw [TextPart.terms, Term.allFloats_singleton]
    exact he.lists

theorem Script.ShowsPair.lists {part : PairPart} {node : PairNode} (h : S.ShowsPair part node s t) :
    S.Lists (Term.allFloats part.values) node.values := by
  cases h with
  | intro _ hvalues => exact hvalues.lists

/-- An entry lists the floats of its terms. -/
theorem Script.ShowsItem.lists {part : ItemPart} {node : ItemNode} (h : S.ShowsItem part node s t) :
    S.Lists (Term.allFloats part.terms) node.exprs := by
  cases h with
  | option hguard htext =>
    rw [ItemPart.terms, Term.allFloats_append]
    refine .append ?_ (.of_row htext fun _ _ _ _ h => h.lists)
    cases hguard with
    | none =>
      rw [Option.toList_none, Term.allFloats_nil]
      exact .nil S
    | some he =>
      rw [Option.toList_some, Term.allFloats_singleton]
      exact he.lists
  | ifMarker he | elseIf he =>
    rw [ItemPart.terms, Term.allFloats_singleton]
    exact he.lists
  | elseMarker | endIf => exact Term.allFloats_nil ▸ .nil S

/-- A statement has the floats of the clause that it shows. -/
theorem Script.Shows.lists {c : Clause} {node : Statement} (h : S.Shows c node s t) :
    S.Lists c.floats node.exprs := by
  rw [Clause.floats]
  cases h with
  | entry _ | finish => exact Term.allFloats_nil ▸ .nil S
  | line _ htext hdirectives =>
    rw [Clause.terms, Term.allFloats_append]
    exact .append (.of_row htext fun _ _ _ _ h => h.lists) hdirectives.lists
  | instruction he =>
    rw [Clause.terms, Term.allFloats_singleton]
    exact he.lists
  | @conditional conditions nodes _ _ _ hbranches =>
    have hlists : S.Lists (Term.allFloats (conditions.flatMap fun e => [e]))
        (nodes.flatMap fun b => [b.1]) := by
      refine .of_row hbranches fun e _ _ _ h => ?_
      cases h with
      | intro he => exact Term.allFloats_singleton e ▸ he.lists
    rw [List.flatMap_singleton', ← List.map_eq_flatMap] at hlists
    exact hlists
  | choice hitems => exact .of_row hitems fun _ _ _ _ h => h.lists
  | hash hpairs | speaker _ hpairs => exact .of_row hpairs fun _ _ _ _ h => h.lists

/-! ## From an offset to the end -/

/-- The statements from an offset to the end have these floats. -/
def Script.ListsFrom (S : Script) (s : Nat) (xs : List Float) : Prop :=
  ∃ nodes, S.Walk s nodes S.words.size ∧ S.Lists xs (nodes.flatMap fun x => x.2.exprs)

theorem Script.ListsFrom.end (S : Script) : S.ListsFrom S.words.size [] := ⟨[], .nil _, .nil S⟩

theorem Script.Tells.listsFrom {c : Clause} {node : Statement} {xs : List Float} (h : S.Tells c node s t)
    (ht : S.ListsFrom t xs) : S.ListsFrom s (c.floats ++ xs) := by
  obtain ⟨nodes, hwalk, hxs⟩ := ht
  exact ⟨(s, node) :: nodes, .cons h.decode hwalk, h.shows.lists.append hxs⟩

/-- From clauses on, a script lists their floats and then those behind them. -/
theorem Script.ListsFrom.of_row {cs : List Clause} {nodes : List Statement} {xs : List Float}
    (h : Row S.Tells cs nodes s t) (ht : S.ListsFrom t xs) :
    S.ListsFrom s (cs.flatMap Clause.floats ++ xs) := by
  induction h with
  | nil s => exact ht
  | cons htells _ ih =>
    rw [List.flatMap_cons, List.append_assoc]
    exact htells.listsFrom (ih ht)

/-- So it does from a section on. -/
theorem Script.TellsSection.listsFrom {r : Registry} {g : Ident → Option String} {x : Section}
    {nodes : List Statement} {xs : List Float} (h : S.TellsSection r g x nodes s t)
    (ht : S.ListsFrom t xs) : S.ListsFrom s ((x.clauses r g).flatMap Clause.floats ++ xs) := by
  have hfinish : Clause.finish.floats = [] := Term.allFloats_nil
  cases h with
  | left _ hrow => exact .of_row hrow ht
  | ended _ hrow _ htells =>
    have hend := htells.listsFrom ht
    rw [hfinish, List.nil_append] at hend
    exact .of_row hrow hend

/-- So it does from sections on. -/
theorem Script.ListsFrom.of_sections {r : Registry} {g : Ident → Option String} {story : Story}
    {nodes : List (List Statement)} {xs : List Float} (h : Row (S.TellsSection r g) story nodes s t)
    (ht : S.ListsFrom t xs) :
    S.ListsFrom s ((story.flatMap fun x => (x.clauses r g).flatMap Clause.floats) ++ xs) := by
  induction h with
  | nil s => exact ht
  | cons htells _ ih =>
    rw [List.flatMap_cons, List.append_assoc]
    exact htells.listsFrom (ih ht)

end

/-- The floats in a compiled script are the same as those of its story, one by one. -/
theorem compile_lists (r : Registry) (o : CompileOptions) (story : Story)
    (h : (compile r o story).script.Addressable) :
    (compile r o story).script.ListsFrom 0 (story.floats r) := by
  obtain ⟨nodes, trap, hsections, hend⟩ := compile_readback r o story h
  have htrap : (compile r o story).script.ListsFrom trap [] := by
    rcases hend with hsize | htells
    · exact hsize ▸ .end _
    · have hfinish : Clause.finish.floats = [] := Term.allFloats_nil
      have hfrom := htells.listsFrom (.end _)
      rwa [hfinish] at hfrom
  have hfrom := Script.ListsFrom.of_sections hsections htrap
  rwa [List.append_nil] at hfrom

/-! ## Zeros -/

/-- A story has zeros of both signs, written in it or among the defaults that fill up its calls. -/
def Story.MixesZeros (r : Registry) (story : Story) : Prop :=
  0.0 ∈ story.floats r ∧ -0.0 ∈ story.floats r

/-- Zeros of different sign are shown differently. -/
theorem Assembly.OppositeZeros.text_ne {x y : Float} (h : OppositeZeros x y) :
    Value.text (.float y) ≠ Value.text (.float x) := by
  have hzeros : Number.plain 0.0 ≠ Number.plain (-0.0) := by decide +kernel
  rcases h with ⟨rfl, rfl⟩ | ⟨rfl, rfl⟩
  · exact hzeros.symm
  · exact hzeros

/-- Each float of a list is the first that shares its place, unless the list has zeros of both signs. -/
theorem Assembly.firsts_iff {xs : List Float} :
    (∀ x ∈ xs, xs.find? (sameFloat x) = some x) ↔ ¬(0.0 ∈ xs ∧ -0.0 ∈ xs) := by
  constructor
  · rintro h ⟨hplus, hminus⟩
    -- the zeros share one place, so the same float is found for both
    have hsame : sameFloat 0.0 = sameFloat (-0.0) := by
      funext y
      have hzeros : sameFloat 0.0 (-0.0) = true := by decide
      rw [Bool.eq_iff_iff]
      exact ⟨sameFloat_classes.trans (sameFloat_classes.symm hzeros), sameFloat_classes.trans hzeros⟩
    have hfound := h _ hplus
    rw [hsame, h _ hminus] at hfound
    exact absurd (Option.some.inj hfound) (by decide)
  · intro h x hx
    have hsome : (xs.find? (sameFloat x)).isSome = true :=
      List.find?_isSome.mpr ⟨x, hx, sameFloat_classes.refl x⟩
    obtain ⟨y, hy⟩ := Option.isSome_iff_exists.mp hsome
    rcases sameFloat_iff.mp (List.find?_some hy) with rfl | ⟨rfl, rfl⟩ | ⟨rfl, rfl⟩
    · exact hy
    · exact absurd ⟨hx, List.mem_of_find?_eq_some hy⟩ h
    · exact absurd ⟨List.mem_of_find?_eq_some hy, hx⟩ h

/-- A node has the first float of a list that is the same as another one: that float, or a zero of the
other sign. -/
def Script.HasFirst (S : Script) (xs : List Float) (x : Float) (n : Nat) : Prop :=
  ∃ y, S.HasFloat n y ∧ xs.find? (Assembly.sameFloat x) = some y ∧
    (y = x ∨ Assembly.OppositeZeros x y)

section

variable {S : Script} {xs ys : List Float} {ns : List Nat}

/-- In a pool that was filled from the start, a float has the place of the first one that is the same. -/
theorem Script.Resembles.hasFirst (hpool : S.floats = Assembly.internAll Assembly.sameFloat #[] xs)
    (hdistinct : Assembly.Distinct Assembly.sameFloat S.floats) {x : Float} {n : Nat}
    (h : S.Resembles x n) : S.HasFirst xs x n := by
  obtain ⟨y, hy, hsame⟩ := h
  obtain ⟨i, t, -, hi⟩ := hy.entry
  have hfind := hdistinct.find?_eq Assembly.sameFloat_classes hi hsame
  rw [hpool, Assembly.find?_internAll Assembly.sameFloat_classes, Array.find?_empty, Option.none_or] at hfind
  exact ⟨y, hy, hfind, (Assembly.sameFloat_iff.mp hsame).imp_left Eq.symm⟩

/-- Nodes have the floats of a list if and only if each of them is the first that is the same. -/
theorem Script.keeps_iff (h : List.Forall₂ (S.HasFirst ys) xs ns) :
    List.Forall₂ (fun x n => S.HasFloat n x) xs ns ↔
      ∀ x ∈ xs, ys.find? (Assembly.sameFloat x) = some x := by
  constructor
  · intro hkeeps
    have hfirsts : List.Forall₂ (fun x n => ys.find? (Assembly.sameFloat x) = some x ∧ S.HasFloat n x)
        xs ns := by
      refine List.Forall₂.mp ?_ h hkeeps
      rintro x n ⟨y, hy, hfind, -⟩ hx
      exact ⟨hx.unique hy ▸ hfind, hx⟩
    exact ((List.forall₂_and_left _ _).mp hfirsts).1
  · intro hfirsts
    refine ((List.forall₂_and_left _ _).mpr ⟨hfirsts, h⟩).imp ?_
    rintro x n ⟨hx, y, hy, hfind, -⟩
    rw [hx] at hfind
    exact Option.some.inj hfind ▸ hy

/-- Nodes show the floats of a list if and only if they have them. -/
theorem Script.shows_iff (h : List.Forall₂ (S.HasFirst ys) xs ns) :
    List.Forall₂ (fun x n => S.exprText n = .ok (Value.text (.float x))) xs ns ↔
      List.Forall₂ (fun x n => S.HasFloat n x) xs ns := by
  constructor
  · intro htexts
    refine List.Forall₂.mp ?_ h htexts
    rintro x n ⟨y, hy, -, hyx⟩ htext
    have heq : Value.text (.float y) = Value.text (.float x) := by
      rw [hy.text] at htext
      exact Except.ok.inj htext
    rcases hyx with rfl | hzeros
    · exact hy
    · exact absurd heq hzeros.text_ne
  · intro hkeeps
    exact hkeeps.imp fun _ _ hx => hx.text

end

/-- Each float of a story has a node in the compiled script, in order, and these are all nodes of floats
in it.  A node has the first float of the story that shares its place.  All floats keep their values, and
all are shown as they were, if and only if the story does not have zeros of both signs. -/
theorem compile_keeps_floats (r : Registry) (o : CompileOptions) (story : Story)
    (h : (compile r o story).script.Addressable) :
    ∃ ns, (compile r o story).script.AllFloatNodes ns ∧
      List.Forall₂ ((compile r o story).script.HasFirst (story.floats r)) (story.floats r) ns ∧
      (List.Forall₂ (fun x n => (compile r o story).script.HasFloat n x) (story.floats r) ns ↔
        ¬story.MixesZeros r) ∧
      (List.Forall₂ (fun x n => (compile r o story).script.exprText n = .ok (Value.text (.float x)))
        (story.floats r) ns ↔ ¬story.MixesZeros r) := by
  obtain ⟨nodes, hwalk, ns, hns, hresembles⟩ := compile_lists r o story h
  have hfirsts : List.Forall₂ ((compile r o story).script.HasFirst (story.floats r))
      (story.floats r) ns :=
    hresembles.imp fun _ _ hx => hx.hasFirst (compile_floatPool r o story) (compile_distinct r o story).1
  have hkeeps : List.Forall₂ (fun x n => (compile r o story).script.HasFloat n x) (story.floats r) ns ↔
      ¬story.MixesZeros r := (Script.keeps_iff hfirsts).trans Assembly.firsts_iff
  exact ⟨ns, ⟨nodes, hwalk, hns⟩, hfirsts, hkeeps, (Script.shows_iff hfirsts).trans hkeeps⟩

/-- A registry with a function whose second parameter has a zero with a minus as its default. -/
def tollRegistry : Registry :=
  Registry.empty.addFunction ⟨"toll", .void, [⟨.float, none⟩, ⟨.float, some (.float (-0.0))⟩], false⟩

/-- The story of a call that leaves the default out, of a number for the first parameter. -/
def tollStory (number : String) : Story := (parse none ("=== a\n~ toll(" ++ number ++ ")\n")).1

/-- A number and a default of the other sign are both kept, since neither is the zero that the other one
shares. -/
theorem toll_keeps_floats :
    (compile tollRegistry {} (tollStory "0.5")).script.Addressable ∧
      ∃ ns, (compile tollRegistry {} (tollStory "0.5")).script.AllFloatNodes ns ∧
        List.Forall₂ (fun x n => (compile tollRegistry {} (tollStory "0.5")).script.HasFloat n x)
          [0.5, -0.0] ns := by
  have haddressable : (compile tollRegistry {} (tollStory "0.5")).script.Addressable := by decide +kernel
  have hfloats : (tollStory "0.5").floats tollRegistry = [0.5, -0.0] := by decide +kernel
  have hzeros : ¬(tollStory "0.5").MixesZeros tollRegistry := by
    simp only [Story.MixesZeros, hfloats, List.mem_cons, List.not_mem_nil, or_false]
    decide
  obtain ⟨ns, hns, -, hkeeps, -⟩ := compile_keeps_floats tollRegistry {} (tollStory "0.5") haddressable
  exact ⟨haddressable, ns, hns, hfloats ▸ hkeeps.mpr hzeros⟩

/-- The zero of a call takes the place of the default of the other sign: no node has it. -/
theorem toll_loses_sign :
    (tollStory "0").floats tollRegistry = [0.0, -0.0] ∧
      ∀ n, ¬(compile tollRegistry {} (tollStory "0")).script.HasFloat n (-0.0) := by
  refine ⟨by decide +kernel, fun n hn => ?_⟩
  obtain ⟨i, t, -, hi⟩ := hn.entry
  have hpool : (compile tollRegistry {} (tollStory "0")).script.floats = #[0.0] := by decide +kernel
  rw [hpool] at hi
  have hmem : -0.0 ∈ #[(0.0 : Float)] := Array.mem_of_getElem? hi
  exact absurd (Array.mem_singleton.mp hmem) (by decide)

end Colloquy
