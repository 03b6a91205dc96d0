import Colloquy.Proofs.Session.Pairing
import Colloquy.Proofs.Telling.Item

/-!
# Choices mean what they nest

In a story the items of a choice are a tree: options, and filters around items.  In a script they are one
list with marks for the branches of filters, and a stack of filters tells which of them are offered.
A `Menu` is the tree that such a list stands for, with expressions given by their offsets, and
`Menu.read` reads it off in the plain way: of a filter the first branch whose condition holds, or the
last branch, and of that branch everything in order.

`Eval.options_entries` says that the list is evaluated as the tree is read, whatever evaluating an
expression does.  `Eval.Logs.options` adds that no expression is evaluated twice or out of order.
-/

namespace Colloquy

open Code

/-! ## Menus -/

/-- An item of a choice, with its expressions given by their offsets.  A filter has a first branch, maybe
others, and maybe a last one without a condition. -/
inductive Menu where
  | option (next : Nat) (guard : Option Nat) (segments : List TextNode)
  | filter (condition : Nat) (first : List Menu) (others : List (Nat × List Menu))
      (last : Option (List Menu))

mutual

/-- The entries of an item. -/
def Menu.entries : Menu → List ItemNode
  | .option next guard segments => [.option next guard segments]
  | .filter condition first others last =>
    .ifMarker condition ::
      (Menu.allEntries first ++ (Menu.otherEntries others ++ (Menu.lastEntries last ++ [.endIf])))

/-- The entries of items. -/
def Menu.allEntries : List Menu → List ItemNode
  | [] => []
  | m :: ms => m.entries ++ Menu.allEntries ms

/-- The entries of branches behind the first one. -/
def Menu.otherEntries : List (Nat × List Menu) → List ItemNode
  | [] => []
  | (condition, ms) :: others => .elseIf condition :: (Menu.allEntries ms ++ Menu.otherEntries others)

/-- The entries of a branch without a condition. -/
def Menu.lastEntries : Option (List Menu) → List ItemNode
  | none => []
  | some ms => .elseMarker :: Menu.allEntries ms

end

section

variable {σ : Type} (S : Script) (eval : Nat → Eval σ Value)

/-- Whether an option can be selected.  Without a guard it can. -/
def Menu.enabled : Option Nat → Eval σ Bool
  | some offset => Eval.condition eval offset
  | none => pure true

mutual

/-- The options of an item. -/
def Menu.read : Menu → Eval σ (List Choice)
  | .option next guard segments => do
    let enabled ← Menu.enabled eval guard
    let raw ← Eval.text S eval segments
    return [⟨next, (interpolate raw).text, enabled⟩]
  | .filter condition first others last => do
    if ← Eval.condition eval condition then Menu.readAll first
    else Menu.readFirst (Menu.readLast last) others

/-- The options of items, in order. -/
def Menu.readAll : List Menu → Eval σ (List Choice)
  | [] => return []
  | m :: ms => do
    let choices ← m.read
    return choices ++ (← Menu.readAll ms)

/-- The options of the first branch whose condition holds, or else those that `last` finds. -/
def Menu.readFirst (last : Eval σ (List Choice)) : List (Nat × List Menu) → Eval σ (List Choice)
  | [] => last
  | (condition, ms) :: others => do
    if ← Eval.condition eval condition then Menu.readAll ms else Menu.readFirst last others

/-- The options of a branch without a condition. -/
def Menu.readLast : Option (List Menu) → Eval σ (List Choice)
  | none => return []
  | some ms => Menu.readAll ms

end

end

/-! ## Entries in a closed filter -/

section

variable {σ : Type} {S : Script} {eval : Nat → Eval σ Value}

mutual

/-- Entries in a closed filter are passed over, by induction on the menu. -/
theorem Menu.skip (m : Menu) {tail : List ItemNode} {filters : List Filter}
    (hclosed : Filter.isOpen filters = false) :
    Eval.options S eval filters (m.entries ++ tail) = Eval.options S eval filters tail := by
  match m with
  | .option next guard segments =>
    rw [Menu.entries, List.singleton_append, Eval.options, hclosed]
    rfl
  | .filter condition first others last =>
    rw [Menu.entries]
    simp only [List.cons_append, List.append_assoc, List.nil_append]
    rw [Eval.options, hclosed, Eval.conditionIf, if_neg Bool.false_ne_true, pure_bind,
      Menu.skipAll first rfl]
    exact Menu.skipOthers others rfl fun f hf => Menu.skipLast last hf

/-- The entries of items in a closed filter are passed over. -/
theorem Menu.skipAll (ms : List Menu) {tail : List ItemNode} {filters : List Filter}
    (hclosed : Filter.isOpen filters = false) :
    Eval.options S eval filters (Menu.allEntries ms ++ tail) = Eval.options S eval filters tail := by
  match ms with
  | [] => rfl
  | m :: ms =>
    rw [Menu.allEntries, List.append_assoc, Menu.skip m hclosed, Menu.skipAll ms hclosed]

/-- Once a filter is settled, its other branches are passed over, and it stays settled. -/
theorem Menu.skipOthers (others : List (Nat × List Menu)) {tail : List ItemNode} {f : Filter}
    {filters : List Filter} {k : Eval σ (List Choice)} (hf : f.Settled)
    (htail : ∀ f : Filter, f.Settled → Eval.options S eval (f :: filters) tail = k) :
    Eval.options S eval (f :: filters) (Menu.otherEntries others ++ tail) = k := by
  match others with
  | [] => exact htail f hf
  | (condition, ms) :: others =>
    rw [Menu.otherEntries, List.cons_append, List.append_assoc, Eval.options, hf, Eval.conditionIf,
      if_neg Bool.false_ne_true, pure_bind, Menu.skipAll ms rfl]
    refine Menu.skipOthers others ?_ htail
    rw [Filter.Settled, Bool.or_false]
    exact hf

/-- So are those behind the branches of a filter of which one was taken. -/
theorem Menu.skipLast (last : Option (List Menu)) {tail : List ItemNode} {f : Filter}
    {filters : List Filter} (hf : f.Settled) :
    Eval.options S eval (f :: filters) (Menu.lastEntries last ++ .endIf :: tail) =
      Eval.options S eval filters tail := by
  match last with
  | none => rw [Menu.lastEntries, List.nil_append, Eval.options]
  | some ms =>
    rw [Menu.lastEntries, List.cons_append, Eval.options, hf, Menu.skipAll ms rfl, Eval.options]

end

/-! ## Entries in an open filter -/

/-- Options in front of others. -/
def Eval.before (first others : Eval σ (List Choice)) : Eval σ (List Choice) := do
  let choices ← first
  return choices ++ (← others)

theorem Eval.before_before (a b c : Eval σ (List Choice)) :
    Eval.before (Eval.before a b) c = Eval.before a (Eval.before b c) := by
  simp only [Eval.before, bind_assoc, pure_bind, List.append_assoc]

/-- What stands behind a test may be moved into its branches. -/
theorem Eval.before_ite (m : Eval σ Bool) (a b k : Eval σ (List Choice)) :
    Eval.before (m >>= fun hit => if hit then a else b) k =
      m >>= fun hit => if hit then Eval.before a k else Eval.before b k := by
  rw [Eval.before, bind_assoc]
  refine bind_congr fun hit => ?_
  cases hit <;> rfl

mutual

/-- In an open filter the entries of a menu are evaluated as the menu is read, in front of those that
follow. -/
theorem Menu.options_entries (m : Menu) {tail : List ItemNode} {filters : List Filter}
    (hopen : Filter.isOpen filters = true) :
    Eval.options S eval filters (m.entries ++ tail) =
      Eval.before (m.read S eval) (Eval.options S eval filters tail) := by
  match m with
  | .option next guard segments =>
    rw [Menu.entries, List.singleton_append, Eval.options, hopen, if_pos rfl, Menu.read, Eval.before]
    simp only [bind_assoc, pure_bind, List.singleton_append]
    cases guard <;> rfl
  | .filter condition first others last =>
    rw [Menu.entries, Menu.read, Eval.before_ite]
    simp only [List.cons_append, List.append_assoc, List.nil_append]
    rw [Eval.options, hopen, Eval.conditionIf, if_pos rfl]
    refine bind_congr fun hit => ?_
    -- what is behind a branch that was taken is passed over, up to the end of the filter
    cases hit with
    | true =>
      rw [Menu.options_allEntries first rfl]
      have htaken : Filter.Settled ⟨true, true, true⟩ := rfl
      rw [Menu.skipOthers others htaken fun f hf => Menu.skipLast last hf]
      rfl
    | false =>
      rw [Menu.skipAll first rfl]
      refine Menu.options_otherEntries others rfl ?_ fun f hf => Menu.skipLast last hf
      exact fun f hf => Menu.options_lastEntries last hf

/-- The entries of items give the options of the items in front of what follows. -/
theorem Menu.options_allEntries (ms : List Menu) {tail : List ItemNode} {filters : List Filter}
    (hopen : Filter.isOpen filters = true) :
    Eval.options S eval filters (Menu.allEntries ms ++ tail) =
      Eval.before (Menu.readAll S eval ms) (Eval.options S eval filters tail) := by
  match ms with
  | [] =>
    rw [Menu.allEntries, Menu.readAll, List.nil_append, Eval.before, pure_bind]
    simp
  | m :: ms =>
    have hread : Menu.readAll S eval (m :: ms) =
        Eval.before (m.read S eval) (Menu.readAll S eval ms) := by
      rw [Menu.readAll, Eval.before]
    rw [hread, Eval.before_before, Menu.allEntries, List.append_assoc,
      Menu.options_entries m hopen, Menu.options_allEntries ms hopen]

/-- As long as no branch was taken, the next condition decides. -/
theorem Menu.options_otherEntries (others : List (Nat × List Menu)) {tail : List ItemNode} {f : Filter}
    {filters : List Filter} {last k : Eval σ (List Choice)} (hf : (f.enclosing && !f.taken) = true)
    (hlast : ∀ f : Filter, (f.enclosing && !f.taken) = true →
      Eval.options S eval (f :: filters) tail = Eval.before last k)
    (hskip : ∀ f : Filter, f.Settled → Eval.options S eval (f :: filters) tail = k) :
    Eval.options S eval (f :: filters) (Menu.otherEntries others ++ tail) =
      Eval.before (Menu.readFirst S eval last others) k := by
  match others with
  | [] => exact hlast f hf
  | (condition, ms) :: others =>
    rw [Menu.otherEntries, Menu.readFirst, Eval.before_ite, List.cons_append, List.append_assoc,
      Eval.options, hf, Eval.conditionIf, if_pos rfl]
    refine bind_congr fun hit => ?_
    cases hit with
    | true =>
      rw [Menu.options_allEntries ms rfl, Menu.skipOthers others (by simp [Filter.Settled]) hskip]
      rfl
    | false =>
      rw [Menu.skipAll ms rfl]
      refine Menu.options_otherEntries others ?_ hlast hskip
      rw [Bool.or_false]
      exact hf

/-- If no branch was taken, the last one is. -/
theorem Menu.options_lastEntries (last : Option (List Menu)) {tail : List ItemNode} {f : Filter}
    {filters : List Filter} (hf : (f.enclosing && !f.taken) = true) :
    Eval.options S eval (f :: filters) (Menu.lastEntries last ++ .endIf :: tail) =
      Eval.before (Menu.readLast S eval last) (Eval.options S eval filters tail) := by
  match last with
  | none =>
    rw [Menu.lastEntries, Menu.readLast, List.nil_append, Eval.options, Eval.before, pure_bind]
    simp
  | some ms =>
    rw [Menu.lastEntries, Menu.readLast, List.cons_append, Eval.options, hf,
      Menu.options_allEntries ms rfl, Eval.options]

end

/-- The entries of a choice are evaluated as its tree is read. -/
theorem Eval.options_entries (ms : List Menu) :
    Eval.options S eval [] (Menu.allEntries ms) = Menu.readAll S eval ms := by
  have hread : Eval.options S eval [] (Menu.allEntries ms ++ []) =
      Eval.before (Menu.readAll S eval ms) (Eval.options S eval [] []) :=
    Menu.options_allEntries ms rfl
  rw [List.append_nil] at hread
  rw [hread, Eval.options, Eval.before]
  simp

end

/-! ## Which expressions are evaluated -/

section

variable {σ α β : Type}

/-- Evaluate expressions and keep a list of their offsets. -/
def Eval.logged (eval : Nat → Eval σ Value) (offset : Nat) : Eval (σ × List Nat) Value := fun x =>
  match eval offset ⟨x.memo, x.memory.1⟩ with
  | .ok v y => .ok v ⟨y.memo, y.memory, x.memory.2 ++ [offset]⟩
  | .error e y => .error e ⟨y.memo, y.memory, x.memory.2 ++ [offset]⟩

/-- The list of offsets after an evaluation. -/
def Eval.logOf : EStateM.Result Interrupt (Stage (σ × List Nat)) α → List Nat
  | .ok _ x => x.memory.2
  | .error _ x => x.memory.2

/-- What an evaluation adds to the list is taken from `offsets`, in order. -/
def Eval.Logs (offsets : List Nat) (m : Eval (σ × List Nat) α) : Prop :=
  ∀ x, ∃ visited : List Nat, visited.Sublist offsets ∧ Eval.logOf (m x) = x.memory.2 ++ visited

namespace Eval.Logs

variable {S : Script} {eval : Nat → Eval σ Value} {os ps : List Nat}

theorem mono {m : Eval (σ × List Nat) α} (h : Logs os m) (hsub : os.Sublist ps) : Logs ps m := by
  intro x
  obtain ⟨visited, hvisited, hlog⟩ := h x
  exact ⟨visited, hvisited.trans hsub, hlog⟩

theorem pure (a : α) : Logs [] (Pure.pure a : Eval (σ × List Nat) α) :=
  fun _ => ⟨[], .slnil, (List.append_nil _).symm⟩

theorem fail (e : SessionError) : Logs [] (Eval.fail e : Eval (σ × List Nat) α) :=
  fun _ => ⟨[], .slnil, (List.append_nil _).symm⟩

/-- Evaluations one after another log their expressions one behind the other. -/
theorem bind {m : Eval (σ × List Nat) α} {f : α → Eval (σ × List Nat) β} (hm : Logs os m)
    (hf : ∀ a, Logs ps (f a)) : Logs (os ++ ps) (m >>= f) := by
  intro x
  obtain ⟨visited, hvisited, hlog⟩ := hm x
  cases hrun : m x with
  | ok a y =>
    rw [hrun] at hlog
    obtain ⟨visited', hvisited', hlog'⟩ := hf a y
    refine ⟨visited ++ visited', hvisited.append hvisited', ?_⟩
    rw [Eval.bind_of_ok hrun, hlog', ← List.append_assoc, ← hlog]
    rfl
  | error e y =>
    rw [hrun] at hlog
    refine ⟨visited, hvisited.trans (List.sublist_append_left ..), ?_⟩
    rw [Eval.bind_of_error hrun]
    exact hlog

theorem map {m : Eval (σ × List Nat) α} (hm : Logs os m) (f : α → β) :
    Logs os (m >>= fun a => Pure.pure (f a)) := by
  have hbind := hm.bind fun a => pure (σ := σ) (f a)
  rwa [List.append_nil] at hbind

theorem read (x : Except CodeError α) : Logs [] (Eval.read x : Eval (σ × List Nat) α) := by
  cases x with
  | ok a => exact pure a
  | error e => exact fail _

/-- An expression logs itself. -/
theorem logged (eval : Nat → Eval σ Value) (o : Nat) : Logs [o] (Eval.logged eval o) := by
  intro x
  refine ⟨[o], List.Sublist.refl _, ?_⟩
  rw [Eval.logged]
  cases eval o ⟨x.memo, x.memory.1⟩ <;> rfl

/-- A condition logs its expression. -/
theorem condition (o : Nat) : Logs [o] (Eval.condition (Eval.logged eval) o) := by
  have hdemand : ∀ v : Value, Logs [] (Eval.demand o v.asBool : Eval (σ × List Nat) Bool) := by
    intro v
    cases v.asBool with
    | ok b => exact pure b
    | error e => exact fail _
  have hbind := (logged eval o).bind hdemand
  rwa [List.append_nil] at hbind

/-- So does one that may be passed over. -/
theorem conditionIf (relevant : Bool) (o : Nat) :
    Logs [o] (Eval.conditionIf (Eval.logged eval) relevant o) := by
  cases relevant with
  | true => exact condition o
  | false => exact (pure false).mono (List.nil_sublist _)

/-- A text logs the expressions in it. -/
theorem text (xs : List TextNode) :
    Logs (xs.flatMap TextNode.exprs) (Eval.text S (Eval.logged eval) xs) := by
  have hsegment : ∀ x : TextNode, Logs x.exprs (Eval.segment S (Eval.logged eval) x) := by
    intro x
    cases x with
    | text i => exact read _
    | expr o => exact (logged eval o).map _
  have hall : Logs (xs.flatMap TextNode.exprs) (xs.mapM (Eval.segment S (Eval.logged eval))) := by
    induction xs with
    | nil => exact pure []
    | cons x xs ih =>
      rw [List.mapM_cons, List.flatMap_cons]
      exact (hsegment x).bind fun _ => ih.map _
  exact hall.map _

/-- The expressions of entries are evaluated in order, each at most once. -/
theorem options (items : List ItemNode) (filters : List Filter) :
    Logs (items.flatMap ItemNode.exprs) (Eval.options S (Eval.logged eval) filters items) := by
  induction items generalizing filters with
  | nil =>
    rw [Eval.options]
    exact pure []
  | cons item items ih =>
    rw [List.flatMap_cons]
    have hskip : ∀ filters, Logs (item.exprs ++ items.flatMap ItemNode.exprs)
        (Eval.options S (Eval.logged eval) filters items) :=
      fun filters => (ih filters).mono (List.sublist_append_right ..)
    cases item with
    | option next guard segments =>
      rw [Eval.options]
      by_cases hopen : Filter.isOpen filters = true
      · rw [if_pos hopen, ItemNode.exprs, List.append_assoc]
        cases guard with
        | none =>
          refine (pure true).bind fun enabled => ?_
          exact (text segments).bind fun raw => (ih filters).map _
        | some o =>
          refine (condition o).bind fun enabled => ?_
          exact (text segments).bind fun raw => (ih filters).map _
      · rw [if_neg hopen]
        exact hskip filters
    | ifMarker o =>
      rw [Eval.options]
      exact (conditionIf _ o).bind fun hit => ih _
    | elseIf o =>
      cases filters with
      | nil => exact hskip []
      | cons f filters =>
        rw [Eval.options]
        exact (conditionIf _ o).bind fun hit => ih _
    | elseMarker =>
      cases filters with
      | nil => exact ih []
      | cons f filters => exact ih _
    | endIf =>
      cases filters with
      | nil => exact ih []
      | cons f filters => exact ih _

end Eval.Logs

end

end Colloquy
