import Colloquy.Proofs.Telling.Line

/-!
# Choices are offered as they are told

In a script the items of a choice are one list, and a stack of filters keeps track of which of them are
offered.  In the story the items are a tree.  Entries in a closed filter are passed over without a
request (`ItemsAt.skip`), and entries in an open one give the options of their items in front of those
of the entries behind them (`ItemsAt.follows`).
-/

namespace Colloquy

open Code

/-- What is asked of the items of a choice, as of statements. -/
abbrev ChoiceItem.Regular (i : ChoiceItem) : Prop := i.Meets (Expr.Floats Number.Unsigned) (0 < ·)

section

variable {σ : Type} {A : Artifact} {r : Registry} {B : Option Ident → List Stmt → Nat → Prop}
  {next : Nat} {S : Script} {eval : Nat → Eval σ Value}

/-! ## Closed filters -/

/-- No branch of the filter that is still to come is taken. -/
def Filter.Settled (f : Filter) : Prop := (f.enclosing && !f.taken) = false

mutual

/-- An item in a closed filter asks the host for nothing and offers nothing. -/
theorem ItemAt.skip (i : ChoiceItem) (hi : i.Regular) {nodes tail : List ItemNode}
    {filters : List Filter} {s t : Nat} (h : ItemAt Number.Unsigned A r B next i nodes s t)
    (hclosed : Filter.isOpen filters = false) :
    Eval.options S eval filters (nodes ++ tail) = Eval.options S eval filters tail := by
  match i with
  | .option guard text target body _ =>
    rw [ItemAt] at h
    obtain ⟨n, g, xs, m, rfl, _⟩ := h
    rw [List.singleton_append, Eval.options, hclosed]
    rfl
  | .filter [] otherwise _ =>
    rw [ChoiceItem.Regular, ChoiceItem.Meets] at hi
    exact absurd hi.1 (Nat.lt_irrefl 0)
  | .filter ((e, is) :: rest) otherwise _ =>
    rw [ChoiceItem.Regular, ChoiceItem.Meets, ChoiceItem.BranchesMeet] at hi
    rw [ItemAt] at h
    obtain ⟨xs, ys, m, u, rfl, hbranches, hotherwise, _⟩ := h
    rw [BranchesAt] at hbranches
    obtain ⟨zs, ws, k, v, rfl, _, his, hrest⟩ := hbranches
    simp only [List.cons_append, List.append_assoc, List.nil_append]
    rw [Eval.options, hclosed, Eval.conditionIf, if_neg Bool.false_ne_true, pure_bind,
      ItemsAt.skip is hi.2.1.1.2 his rfl]
    exact BranchesAt.skip rest hi.2.1.2 hrest rfl fun f hf =>
      OtherwiseAt.skip otherwise hi.2.2 hotherwise hf

/-- The entries of items in a closed filter are passed over. -/
theorem ItemsAt.skip (is : List ChoiceItem) (hi : ChoiceItem.AllMeet (Expr.Floats Number.Unsigned) (0 < ·) is)
    {nodes tail : List ItemNode} {filters : List Filter} {s t : Nat}
    (h : ItemsAt Number.Unsigned A r B next is nodes s t) (hclosed : Filter.isOpen filters = false) :
    Eval.options S eval filters (nodes ++ tail) = Eval.options S eval filters tail := by
  match is with
  | [] =>
    rw [ItemsAt] at h
    obtain ⟨rfl, _⟩ := h
    rfl
  | i :: is =>
    rw [ChoiceItem.AllMeet] at hi
    rw [ItemsAt] at h
    obtain ⟨xs, ys, m, rfl, hfirst, hrest⟩ := h
    rw [List.append_assoc, ItemAt.skip i hi.1 hfirst hclosed, ItemsAt.skip is hi.2 hrest hclosed]

/-- Once a filter is settled, its other branches are passed over, and it stays settled. -/
theorem BranchesAt.skip (bs : List (Expr × List ChoiceItem))
    (hbs : ChoiceItem.BranchesMeet (Expr.Floats Number.Unsigned) (0 < ·) bs) {nodes tail : List ItemNode}
    {f : Filter} {filters : List Filter} {m : Eval σ (List Choice)} {s t : Nat}
    (h : BranchesAt Number.Unsigned A r B next .elseIf bs nodes s t) (hf : f.Settled)
    (htail : ∀ f : Filter, f.Settled → Eval.options S eval (f :: filters) tail = m) :
    Eval.options S eval (f :: filters) (nodes ++ tail) = m := by
  match bs with
  | [] =>
    rw [BranchesAt] at h
    obtain ⟨rfl, _⟩ := h
    exact htail f hf
  | (e, is) :: rest =>
    rw [ChoiceItem.BranchesMeet] at hbs
    rw [BranchesAt] at h
    obtain ⟨xs, ys, k, u, rfl, _, his, hrest⟩ := h
    rw [List.cons_append, List.append_assoc, Eval.options, hf, Eval.conditionIf,
      if_neg Bool.false_ne_true, pure_bind, ItemsAt.skip is hbs.1.2 his rfl]
    refine BranchesAt.skip rest hbs.2 hrest ?_ htail
    rw [Filter.Settled, Bool.or_false]
    exact hf

/-- The alternative of a settled filter asks the host for nothing and offers nothing. -/
theorem OtherwiseAt.skip (o : Option (List ChoiceItem))
    (ho : ChoiceItem.OtherwiseMeets (Expr.Floats Number.Unsigned) (0 < ·) o) {ys tail : List ItemNode}
    {f : Filter} {filters : List Filter} {s t : Nat}
    (h : OtherwiseAt Number.Unsigned A r B next o ys s t) (hf : f.Settled) :
    Eval.options S eval (f :: filters) (ys ++ .endIf :: tail) = Eval.options S eval filters tail := by
  match o with
  | none =>
    rw [OtherwiseAt] at h
    obtain ⟨rfl, _⟩ := h
    rw [List.nil_append, Eval.options]
  | some is =>
    rw [ChoiceItem.OtherwiseMeets] at ho
    rw [OtherwiseAt] at h
    obtain ⟨xs, rfl, his⟩ := h
    rw [List.cons_append, Eval.options, hf, ItemsAt.skip is ho his rfl, Eval.options]

end

end

section

variable {σ : Type} {A : Artifact} {r : Registry} {h : Host σ} {sections : Catalog Nat}
  {story : Story} {rest : Tell.Rest} {next : Nat}

/-! ## Open filters -/

/-- The options of an item in front of others. -/
def Tell.before (first others : Tell σ (List Tell.Offer)) : Tell σ (List Tell.Offer) := do
  let offers ← first
  return offers ++ (← others)

theorem Tell.before_pure_nil (k : Tell σ (List Tell.Offer)) : Tell.before (pure []) k = k := by
  simp [Tell.before]

theorem Tell.before_before (a b c : Tell σ (List Tell.Offer)) :
    Tell.before (Tell.before a b) c = Tell.before a (Tell.before b c) := by
  simp only [Tell.before, bind_assoc, pure_bind, List.append_assoc]

/-- The items of a list are told one in front of the other. -/
theorem Tell.before_items (i : ChoiceItem) (is : List ChoiceItem) (k : Tell σ (List Tell.Offer)) :
    Tell.before (Tell.items r h rest (i :: is)) k =
      Tell.before (Tell.item r h rest i) (Tell.before (Tell.items r h rest is) k) := by
  rw [← Tell.before_before, Tell.items]
  rfl

/-- Of the branches of a filter the first whose condition holds is told in front of what follows the
filter. -/
theorem Tell.before_firstItems (last k : Tell σ (List Tell.Offer)) (e : Expr) (is : List ChoiceItem)
    (bs : List (Expr × List ChoiceItem)) :
    Tell.before (Tell.firstItems r h rest last ((e, is) :: bs)) k =
      Tell.truth (Tell.expr r h e) >>= fun hit =>
        if hit then Tell.before (Tell.items r h rest is) k
        else Tell.before (Tell.firstItems r h rest last bs) k := by
  rw [Tell.firstItems, Tell.before, bind_assoc]
  refine bind_congr fun hit => ?_
  cases hit <;> rfl

variable (A r sections rest) in
/-- A body of an option goes on with what the option leads to. -/
def Onward (y : Option Ident) (b : List Stmt) (n : Nat) : Prop :=
  CodeAt A r sections n ((rest.to (y.map Ident.name)).push b)

/-- An option in an open filter is offered with its text, if its guard holds, in front of the entries
behind it. -/
theorem option_follows (hS : A.script.words.size < UInt32.size) (hprompt : h.Prompt)
    {guard : Option Expr} {text : List Segment} {g : Option Nat} {xs : List TextNode}
    {tail : List ItemNode} {filters : List Filter} {n s m t u : Nat} {after : Tell.Rest}
    {k : Tell σ (List Tell.Offer)} (hopen : Filter.isOpen filters = true)
    (hguard : GuardAt Number.Unsigned A r guard g s m)
    (htext : Row (SegmentAt Number.Unsigned A r) text xs (m + 1) t)
    (hn : CodeAt A r sections n after)
    (hk : Follows t u (List.Forall₂ (OfferAt A r sections))
      (Eval.options A.script (Eval.expr A.script h) filters tail) k) :
    Follows s u (List.Forall₂ (OfferAt A r sections))
      (Eval.options A.script (Eval.expr A.script h) filters (.option n g xs :: tail))
      (Tell.before (do
        let enabled ← Tell.guard r h guard
        let raw ← Tell.text r h text
        return [⟨(interpolate raw).text, enabled, after⟩]) k) := by
  have hoption : ∀ enabled, Follows m u (List.Forall₂ (OfferAt A r sections))
      (Eval.text A.script (Eval.expr A.script h) xs >>= fun raw =>
        Eval.options A.script (Eval.expr A.script h) filters tail >>= fun others =>
          pure (⟨n, (interpolate raw).text, enabled⟩ :: others))
      (Tell.text r h text >>= fun raw => k >>= fun others =>
        pure (⟨(interpolate raw).text, enabled, after⟩ :: others)) := by
    intro enabled
    refine ((text_follows hS hprompt htext).lower (Nat.le_succ m)).bind_eq fun raw => ?_
    refine hk.bind fun choices offers hoffers => ?_
    exact .pure (.cons ⟨rfl, rfl, hn⟩ hoffers) (Nat.le_refl _)
  rw [Eval.options, hopen, if_pos rfl, Tell.before]
  simp only [bind_assoc, pure_bind, List.singleton_append]
  cases hguard with
  | none =>
    rw [Tell.guard, pure_bind]
    exact (hoption true).lower (Nat.le_succ s)
  | some he => exact ((he.truth hS hprompt).lower (Nat.le_succ s)).bind_eq hoption

mutual

/-- An item in an open filter gives its offers in front of those of the entries behind it, by recursion
into the filter. -/
theorem ItemAt.follows (hS : A.script.words.size < UInt32.size) (hprompt : h.Prompt)
    (hdir : Directory A r sections story) (hnext : CodeAt A r sections next rest) (i : ChoiceItem)
    (hi : i.Regular) {nodes tail : List ItemNode} {filters : List Filter} {s t u : Nat}
    {k : Tell σ (List Tell.Offer)}
    (hitem : ItemAt Number.Unsigned A r (Onward A r sections rest) next i nodes s t)
    (hopen : Filter.isOpen filters = true)
    (hk : Follows t u (List.Forall₂ (OfferAt A r sections))
      (Eval.options A.script (Eval.expr A.script h) filters tail) k) :
    Follows s u (List.Forall₂ (OfferAt A r sections))
      (Eval.options A.script (Eval.expr A.script h) filters (nodes ++ tail))
      (Tell.before (Tell.item r h rest i) k) := by
  match i with
  | .option guard text target body _ =>
    rw [ItemAt] at hitem
    obtain ⟨n, g, xs, m, rfl, hsome, hnone, hguard, htext⟩ := hitem
    have hn : CodeAt A r sections n ((rest.to (target.map Ident.name)).push (body.getD [])) := by
      cases body with
      | none => exact (hnone rfl).codeAt hdir hnext
      | some b => exact hsome b rfl
    rw [Tell.item]
    exact (option_follows hS hprompt hopen hguard htext hn hk).lower (by omega)
  | .filter [] otherwise _ =>
    rw [ChoiceItem.Regular, ChoiceItem.Meets] at hi
    exact absurd hi.1 (Nat.lt_irrefl 0)
  | .filter ((e, is) :: bs) otherwise _ =>
    rw [ChoiceItem.Regular, ChoiceItem.Meets, ChoiceItem.BranchesMeet] at hi
    rw [ItemAt] at hitem
    obtain ⟨xs, ys, m, v, rfl, hbranches, hotherwise, rfl⟩ := hitem
    rw [BranchesAt] at hbranches
    obtain ⟨zs, ws, a, b, rfl, he, his, hbs⟩ := hbranches
    simp only [List.cons_append, List.append_assoc, List.nil_append]
    rw [Eval.options, hopen, Eval.conditionIf, if_pos rfl, Tell.item, Tell.before_firstItems]
    refine ((he.truth hS hprompt).lower (Nat.le_succ s)).bind_eq fun hit => ?_
    have hle := OtherwiseAt.le otherwise hotherwise
    have hle' := BranchesAt.le bs hbs
    cases hit with
    | true =>
      refine ItemsAt.follows hS hprompt hdir hnext is hi.2.1.1.2 his rfl ?_
      have htaken : Filter.Settled ⟨true, true, true⟩ := rfl
      rw [BranchesAt.skip bs hi.2.1.2 hbs htaken fun f hf =>
        OtherwiseAt.skip otherwise hi.2.2 hotherwise hf]
      exact hk.lower (by omega)
    | false =>
      have hle'' := ItemsAt.le is his
      rw [ItemsAt.skip is hi.2.1.1.2 his rfl]
      refine (BranchesAt.follows hS hprompt hdir hnext bs hi.2.1.2 hbs rfl ?_ ⟨?_, ?_⟩ hk).lower hle''
      · exact fun f hf => OtherwiseAt.follows hS hprompt hdir hnext otherwise hi.2.2 hotherwise hf hk
      · omega
      · exact fun f hf => OtherwiseAt.skip otherwise hi.2.2 hotherwise hf

/-- So does a list of items, one after the other. -/
theorem ItemsAt.follows (hS : A.script.words.size < UInt32.size) (hprompt : h.Prompt)
    (hdir : Directory A r sections story) (hnext : CodeAt A r sections next rest)
    (is : List ChoiceItem) (hi : ChoiceItem.AllMeet (Expr.Floats Number.Unsigned) (0 < ·) is)
    {nodes tail : List ItemNode} {filters : List Filter} {s t u : Nat}
    {k : Tell σ (List Tell.Offer)}
    (hitems : ItemsAt Number.Unsigned A r (Onward A r sections rest) next is nodes s t)
    (hopen : Filter.isOpen filters = true)
    (hk : Follows t u (List.Forall₂ (OfferAt A r sections))
      (Eval.options A.script (Eval.expr A.script h) filters tail) k) :
    Follows s u (List.Forall₂ (OfferAt A r sections))
      (Eval.options A.script (Eval.expr A.script h) filters (nodes ++ tail))
      (Tell.before (Tell.items r h rest is) k) := by
  match is with
  | [] =>
    rw [ItemsAt] at hitems
    obtain ⟨rfl, rfl⟩ := hitems
    rw [Tell.items, Tell.before_pure_nil]
    exact hk
  | i :: is =>
    rw [ChoiceItem.AllMeet] at hi
    rw [ItemsAt] at hitems
    obtain ⟨xs, ys, m, rfl, hfirst, hrest⟩ := hitems
    rw [List.append_assoc, Tell.before_items]
    exact ItemAt.follows hS hprompt hdir hnext i hi.1 hfirst hopen
      (ItemsAt.follows hS hprompt hdir hnext is hi.2 hrest hopen hk)

/-- As long as no branch was taken, the next condition decides. -/
theorem BranchesAt.follows (hS : A.script.words.size < UInt32.size) (hprompt : h.Prompt)
    (hdir : Directory A r sections story) (hnext : CodeAt A r sections next rest)
    (bs : List (Expr × List ChoiceItem))
    (hmeets : ChoiceItem.BranchesMeet (Expr.Floats Number.Unsigned) (0 < ·) bs) {nodes tail : List ItemNode}
    {f : Filter} {filters : List Filter} {s t u v : Nat} {last k : Tell σ (List Tell.Offer)}
    {m : Eval σ (List Choice)}
    (hbs : BranchesAt Number.Unsigned A r (Onward A r sections rest) next .elseIf bs nodes s t)
    (hf : (f.enclosing && !f.taken) = true)
    (hlast : ∀ f : Filter, (f.enclosing && !f.taken) = true →
      Follows t u (List.Forall₂ (OfferAt A r sections))
        (Eval.options A.script (Eval.expr A.script h) (f :: filters) tail) (Tell.before last k))
    (hskip : t ≤ v ∧ ∀ f : Filter, f.Settled →
      Eval.options A.script (Eval.expr A.script h) (f :: filters) tail = m)
    (hk : Follows v u (List.Forall₂ (OfferAt A r sections)) m k) :
    Follows s u (List.Forall₂ (OfferAt A r sections))
      (Eval.options A.script (Eval.expr A.script h) (f :: filters) (nodes ++ tail))
      (Tell.before (Tell.firstItems r h rest last bs) k) := by
  match bs with
  | [] =>
    rw [BranchesAt] at hbs
    obtain ⟨rfl, rfl⟩ := hbs
    rw [Tell.firstItems]
    exact hlast f hf
  | (e, is) :: bs =>
    rw [ChoiceItem.BranchesMeet] at hmeets
    rw [BranchesAt] at hbs
    obtain ⟨xs, ys, a, b, rfl, he, his, hbs⟩ := hbs
    rw [List.cons_append, List.append_assoc, Eval.options, hf, Eval.conditionIf, if_pos rfl,
      Tell.before_firstItems]
    refine ((he.truth hS hprompt).lower (Nat.le_succ s)).bind_eq fun hit => ?_
    have hle := BranchesAt.le bs hbs
    cases hit with
    | true =>
      refine ItemsAt.follows hS hprompt hdir hnext is hmeets.1.2 his rfl ?_
      rw [BranchesAt.skip bs hmeets.2 hbs (by simp [Filter.Settled]) hskip.2]
      exact hk.lower (by omega)
    | false =>
      rw [ItemsAt.skip is hmeets.1.2 his rfl]
      refine (BranchesAt.follows hS hprompt hdir hnext bs hmeets.2 hbs ?_ hlast hskip hk).lower
        (ItemsAt.le is his)
      rw [Bool.or_false]
      exact hf

/-- If no branch was taken, the last one is. -/
theorem OtherwiseAt.follows (hS : A.script.words.size < UInt32.size) (hprompt : h.Prompt)
    (hdir : Directory A r sections story) (hnext : CodeAt A r sections next rest)
    (o : Option (List ChoiceItem)) (hmeets : ChoiceItem.OtherwiseMeets (Expr.Floats Number.Unsigned) (0 < ·) o)
    {nodes tail : List ItemNode} {f : Filter} {filters : List Filter} {s t u : Nat}
    {k : Tell σ (List Tell.Offer)}
    (ho : OtherwiseAt Number.Unsigned A r (Onward A r sections rest) next o nodes s t)
    (hf : (f.enclosing && !f.taken) = true)
    (hk : Follows (t + 1) u (List.Forall₂ (OfferAt A r sections))
      (Eval.options A.script (Eval.expr A.script h) filters tail) k) :
    Follows s u (List.Forall₂ (OfferAt A r sections))
      (Eval.options A.script (Eval.expr A.script h) (f :: filters) (nodes ++ .endIf :: tail))
      (Tell.before (Tell.otherwiseItems r h rest o) k) := by
  match o with
  | none =>
    rw [OtherwiseAt] at ho
    obtain ⟨rfl, rfl⟩ := ho
    rw [List.nil_append, Eval.options, Tell.otherwiseItems, Tell.before_pure_nil]
    exact hk.lower (Nat.le_succ t)
  | some is =>
    rw [ChoiceItem.OtherwiseMeets] at hmeets
    rw [OtherwiseAt] at ho
    obtain ⟨xs, rfl, his⟩ := ho
    rw [List.cons_append, Eval.options, hf, Tell.otherwiseItems]
    refine (ItemsAt.follows hS hprompt hdir hnext is hmeets his rfl ?_).lower (Nat.le_succ s)
    rw [Eval.options]
    exact hk.lower (Nat.le_succ t)

end

end

end Colloquy
