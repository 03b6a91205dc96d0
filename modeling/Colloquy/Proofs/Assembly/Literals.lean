import Colloquy.Proofs.Assembly.Edit
import Colloquy.Proofs.Readback.Floats

/-!
# Pools list each literal once

Whatever is done to an assembly, each of its pools lists the different values that were asked for, in the
order in which they were asked for first; a place that was returned has the value from then on, and two
requests return the same place exactly if their values are the same (`LiteralPool.Kept`).  The three pools
are instances of one description (`LiteralPool`): they differ in what they hold and in which edits are
requests, and a request for one of them is nothing to the others.

A pool is searched from its first value on.  Keeping a table of the places beside the values (`Ledger`)
spares the search and gives the same answers, because the two stay in step (`Ledger.InStep.request`).
-/

namespace Colloquy

open Edit

namespace Assembly

variable {α : Type} {same : α → α → Bool}

/-! ## Lists of different values -/

/-- Asking a pool for any number of values keeps the places it has. -/
theorem prefix_internAll (same : α → α → Bool) (pool : Array α) (xs : List α) :
    pool.toList <+: (internAll same pool xs).toList := by
  induction xs generalizing pool with
  | nil => exact List.prefix_refl _
  | cons x xs ih => exact List.IsPrefix.trans ( intern_prefix same pool x) (ih _)

/-- A pool that was filled from the start has the first of each class of same values. -/
theorem toList_internAll (same : α → α → Bool) (xs : List α) :
    (internAll same #[] xs).toList = xs.eraseDupsBy same := by
  -- the values met so far are those of the pool, the last one first
  have hloop : ∀ (pool : Array α) (xs : List α),
      List.eraseDupsBy.loop same xs pool.toList.reverse = (internAll same pool xs).toList := by
    intro pool xs
    induction xs generalizing pool with
    | nil => exact List.reverse_reverse _
    | cons x xs ih =>
      show _ = (internAll same (intern same pool x).2 xs).toList
      rw [← ih, List.eraseDupsBy.loop, List.any_reverse, Array.any_toList, intern]
      cases hfind : pool.findIdx? (same x) with
      | some i =>
        have hany : pool.any (same x) = true := by
          rw [← Array.findIdx?_isSome, hfind]
          rfl
        rw [hany]
      | none =>
        have hany : pool.any (same x) = false := by
          rw [← Array.findIdx?_isSome, hfind]
          rfl
        rw [hany]
        show _ = List.eraseDupsBy.loop same xs (pool.push x).toList.reverse
        rw [Array.toList_push, List.reverse_append]
        rfl
  exact (hloop #[] xs).symm

/-- In a pool of distinct values a value stands in one place only. -/
theorem Distinct.index_unique (hsame : Classes same) {pool : Array α} (h : Distinct same pool) {i j : Nat}
    {a : α} (hi : pool[i]? = some a) (hj : pool[j]? = some a) : i = j := by
  have hne : ∀ {i j : Nat}, pool[i]? = some a → pool[j]? = some a → ¬i < j := by
    intro i j hi hj hlt
    rw [← Array.getElem?_toList] at hi hj
    obtain ⟨hi', hia⟩ := List.getElem?_eq_some_iff.mp hi
    obtain ⟨hj', hja⟩ := List.getElem?_eq_some_iff.mp hj
    have hdistinct := List.pairwise_iff_getElem.mp h i j hi' hj' hlt
    rw [hia, hja, hsame.refl] at hdistinct
    cases hdistinct
  have := hne hi hj
  have := hne hj hi
  omega

/-- Values of one class are the same as the same values. -/
theorem Classes.same_eq (hsame : Classes same) {a b : α} (h : same a b = true) : same a = same b := by
  funext c
  rw [Bool.eq_iff_iff]
  exact ⟨hsame.trans (hsame.symm h), hsame.trans h⟩

end Assembly

open Assembly

/-! ## Tables of places -/

/-- Values, and a table of the places that were returned for them. -/
structure Ledger (α : Type) where
  values : Array α
  table : List (α × UInt32)

namespace Ledger

variable {α : Type} {same : α → α → Bool} {k : Ledger α}

/-- The ledger without values. -/
def empty : Ledger α := ⟨#[], []⟩

/-- The place that the table has for a value. -/
def find? (same : α → α → Bool) (k : Ledger α) (a : α) : Option UInt32 :=
  (k.table.find? fun t => same a t.1).map Prod.snd

/-- The place of a value, from the table if it is there.  If it is not, the value is put behind the others,
and its place into the table. -/
def request (same : α → α → Bool) (k : Ledger α) (a : α) : UInt32 × Ledger α :=
  match k.find? same a with
  | some i => (i, k)
  | none =>
    let i := UInt32.ofNat k.values.size
    (i, ⟨k.values.push a, (a, i) :: k.table⟩)

/-- The ledger after some requests. -/
def requestAll (same : α → α → Bool) (as : List α) : Ledger α :=
  as.foldl (fun k a => (k.request same a).2) empty

/-- The table has the places where the values are found, and no others. -/
def InStep (same : α → α → Bool) (k : Ledger α) : Prop :=
  ∀ a, k.find? same a = (k.values.findIdx? (same a)).map UInt32.ofNat

theorem InStep.empty : (empty : Ledger α).InStep same := by
  intro a
  rw [Ledger.empty, Array.findIdx?_empty]
  rfl

/-- In step, a ledger answers as the search of its values does. -/
theorem InStep.request_eq (h : k.InStep same) (a : α) : (k.request same a).1 = (intern same k.values a).1 ∧
    (k.request same a).2.values = (intern same k.values a).2 := by
  rw [Ledger.request, intern, h a]
  cases k.values.findIdx? (same a) with
  | some i => exact ⟨rfl, rfl⟩
  | none => exact ⟨rfl, rfl⟩

/-- The table of places stays in step with the values when a value is asked for. -/
theorem InStep.request (hsame : Classes same) (h : k.InStep same) (a : α) :
    (k.request same a).2.InStep same := by
  rw [Ledger.request, h a]
  cases hfind : k.values.findIdx? (same a) with
  | some i => exact h
  | none =>
    intro b
    rw [Option.map_none, find?, List.find?_cons, Array.findIdx?_push]
    cases hba : same b a with
    | true =>
      -- no value of the class was there before
      rw [hsame.same_eq hba, hfind]
      rfl
    | false =>
      have hb := h b
      rw [find?] at hb
      rw [if_neg Bool.false_ne_true, Option.or_none]
      exact hb

/-- After any requests the table is in step, and the values are those of the pool without a table. -/
theorem requestAll_inStep (hsame : Classes same) (as : List α) : (requestAll same as).InStep same ∧
    (requestAll same as).values = internAll same #[] as := by
  induction as using List.reverseRecOn with
  | nil => exact ⟨.empty, rfl⟩
  | append_singleton as a ih =>
    obtain ⟨hstep, hvalues⟩ := ih
    rw [requestAll, List.foldl_append, internAll_append, ← hvalues]
    exact ⟨hstep.request hsame a, (hstep.request_eq a).2⟩

end Ledger

/-! ## Pools -/

/-- One of the pools of an assembly. -/
structure LiteralPool (α : Type) where
  /-- The values that share a place. -/
  same : α → α → Bool
  /-- The values in the pool. -/
  values : Assembly → Array α
  /-- The place that a request for a value returns. -/
  place : Assembly → α → UInt32
  /-- The value that an edit asks for a place for. -/
  request? : Edit → Option α
  classes : Classes same
  values_empty : values .empty = #[]
  values_perform : ∀ a e, values (a.perform e) =
    (request? e).elim (values a) fun x => (intern same (values a) x).2
  place_eq : ∀ a x, place a x = (intern same (values a) x).1

namespace LiteralPool

/-- The floats of an assembly. -/
def floats : LiteralPool Float where
  same := sameFloat
  values a := a.script.floats
  place a x := (a.float x).1
  request?
    | .float x => some x
    | _ => none
  classes := sameFloat_classes
  values_empty := rfl
  values_perform a e := by
    cases e with
    | redirect l target => exact congrArg Script.floats (script_redirect a l target)
    | _ => rfl
  place_eq _ _ := rfl

/-- The texts of an assembly. -/
def strings : LiteralPool String where
  same := (· == ·)
  values a := a.script.strings
  place a s := (a.string s).1
  request?
    | .string s => some s
    | _ => none
  classes := beq_classes
  values_empty := rfl
  values_perform a e := by
    cases e with
    | redirect l target => exact congrArg Script.strings (script_redirect a l target)
    | _ => rfl
  place_eq _ _ := rfl

/-- The speakers of an assembly. -/
def speakers : LiteralPool String where
  same := (· == ·)
  values a := a.script.speakers
  place a s := (a.speaker s).1
  request?
    | .speaker s => some s
    | _ => none
  classes := beq_classes
  values_empty := rfl
  values_perform a e := by
    cases e with
    | redirect l target => exact congrArg Script.speakers (script_redirect a l target)
    | _ => rfl
  place_eq _ _ := rfl

variable {α : Type} (p : LiteralPool α)

/-- The different values that edits ask for, in the order in which they ask for them first. -/
def asked (es : List Edit) : List α := (es.filterMap p.request?).eraseDupsBy p.same

/-- The ledger of the requests among edits. -/
def ledger (es : List Edit) : Ledger α := .requestAll p.same (es.filterMap p.request?)

/-- A pool keeps what it is asked for, whatever else is done to the assembly. -/
structure Kept (es : List Edit) : Prop where
  /-- The values are those that were asked for, each once, in the order of the first requests. -/
  listed : (p.values (after es)).toList = p.asked es
  distinct : (p.values (after es)).toList.Pairwise fun x y => p.same x y = false
  /-- A place has the value that it was returned for, however much is done afterwards. -/
  denoted : ∀ {before e rest later x}, es = before ++ e :: rest ++ later → p.request? e = some x →
    ∃ y, (p.values (after (before ++ e :: rest)))[(p.place (after before) x).toNat]? = some y ∧
      p.same x y = true
  /-- Two requests return the same place exactly if their values are the same. -/
  place_eq_iff : ∀ {before e rest x before' e' rest' x'},
    es = before ++ e :: rest → p.request? e = some x →
      es = before' ++ e' :: rest' → p.request? e' = some x' →
        (p.place (after before) x = p.place (after before') x' ↔ p.same x x' = true)
  /-- What asks for nothing in the pool leaves it as it is. -/
  undisturbed : ∀ {before e rest}, es = before ++ e :: rest → p.request? e = none →
    p.values (after (before ++ [e])) = p.values (after before)
  /-- A table of the places, kept beside the values, has the same answers. -/
  tabled : (p.ledger es).values = p.values (after es) ∧
    ∀ {before e rest x}, es = before ++ e :: rest → p.request? e = some x →
      ((p.ledger before).request p.same x).1 = p.place (after before) x

variable {p} {es : List Edit}

/-- Edits fill a pool with the values that they request, in their order. -/
theorem values_after (es : List Edit) :
    p.values (after es) = internAll p.same #[] (es.filterMap p.request?) := by
  induction es using List.reverseRecOn with
  | nil => exact p.values_empty
  | append_singleton es e ih =>
    rw [after_snoc, p.values_perform, ih, List.filterMap_append, internAll_append]
    cases h : p.request? e with
    | none => simp [h, internAll]
    | some x => simp [h, internAll]

theorem toList_values_after (es : List Edit) : (p.values (after es)).toList = p.asked es := by
  rw [values_after, toList_internAll]
  rfl

theorem distinct_after (p : LiteralPool α) (es : List Edit) :
    Distinct p.same (p.values (after es)) := by
  rw [values_after]
  exact Distinct.nil.internAll p.classes _

theorem prefix_values (xs ys : List Edit) :
    (p.values (after xs)).toList <+: (p.values (after (xs ++ ys))).toList := by
  rw [values_after, values_after, List.filterMap_append, internAll_append]
  exact prefix_internAll _ _ _

/-- A place that was returned has the value that is found for the request. -/
theorem exists_place {before rest : List Edit} {e : Edit} {x : α} (hes : es = before ++ e :: rest)
    (he : p.request? e = some x) (hsize : (p.asked es).length ≤ UInt32.size) :
    ∃ y, (p.values (after es))[(p.place (after before) x).toNat]? = some y ∧
      (p.values (after es)).find? (p.same x) = some y := by
  rw [p.place_eq]
  refine intern_place p.classes.refl ?_ ?_
  · have hnow : p.values (after (before ++ [e])) = (intern p.same (p.values (after before)) x).2 := by
      rw [after_snoc, p.values_perform, he]
      rfl
    have hlater := prefix_values (p := p) (before ++ [e]) rest
    rwa [hnow, List.append_assoc, List.singleton_append, ← hes] at hlater
  · rwa [← toList_values_after, Array.length_toList] at hsize

/-- Two requests return the same place exactly if their values are the same. -/
theorem place_eq_place_iff {before rest before' rest' : List Edit} {e e' : Edit} {x x' : α}
    (hsize : (p.asked es).length ≤ UInt32.size) (hes : es = before ++ e :: rest)
    (he : p.request? e = some x) (hes' : es = before' ++ e' :: rest')
    (he' : p.request? e' = some x') :
    p.place (after before) x = p.place (after before') x' ↔ p.same x x' = true := by
  obtain ⟨y, hy, hfind⟩ := exists_place hes he hsize
  obtain ⟨y', hy', hfind'⟩ := exists_place hes' he' hsize
  constructor
  · intro heq
    rw [heq, hy', Option.some.injEq] at hy
    subst hy
    exact p.classes.trans (Array.find?_some hfind) (p.classes.symm (Array.find?_some hfind'))
  · intro hsame
    rw [p.classes.same_eq hsame, hfind', Option.some.injEq] at hfind
    subst hfind
    exact UInt32.toNat_inj.mp ((distinct_after p es).index_unique p.classes hy hy')

/-- The pool is kept if the places of its values are words. -/
theorem kept (hsize : (p.asked es).length ≤ UInt32.size) : p.Kept es where
  listed := toList_values_after es
  distinct := distinct_after p es
  denoted := by
    intro before e rest later x hes he
    have hle : (p.asked (before ++ e :: rest)).length ≤ (p.asked es).length := by
      rw [← toList_values_after, ← toList_values_after, hes]
      exact (prefix_values _ later).length_le
    obtain ⟨y, hy, hfind⟩ := exists_place rfl he (hle.trans hsize)
    exact ⟨y, hy, Array.find?_some hfind⟩
  place_eq_iff := place_eq_place_iff hsize
  undisturbed := by
    intro before e rest _ he
    rw [after_snoc, p.values_perform, he]
    rfl
  tabled := by
    refine ⟨(Ledger.requestAll_inStep p.classes _).2.trans (values_after es).symm, ?_⟩
    intro before e rest x _ _
    obtain ⟨hstep, hvalues⟩ := Ledger.requestAll_inStep p.classes (before.filterMap p.request?)
    rw [p.place_eq, values_after, ← hvalues]
    exact (hstep.request_eq x).1

end LiteralPool

/-- The pools of an assembly are duplicate-free and stable, whatever is done to it, as long as the places
of their values are words; and no text or speaker of a compiled story is there twice. -/
theorem literals_kept :
    (∀ es, (LiteralPool.floats.asked es).length ≤ UInt32.size → LiteralPool.floats.Kept es) ∧
    (∀ es, (LiteralPool.strings.asked es).length ≤ UInt32.size → LiteralPool.strings.Kept es) ∧
    (∀ es, (LiteralPool.speakers.asked es).length ≤ UInt32.size → LiteralPool.speakers.Kept es) ∧
    ∀ r o story, (compile r o story).script.strings.toList.Nodup ∧
      (compile r o story).script.speakers.toList.Nodup := by
  refine ⟨fun _ => LiteralPool.kept, fun _ => LiteralPool.kept, fun _ => LiteralPool.kept, ?_⟩
  intro r o story
  obtain ⟨-, hstrings, hspeakers⟩ := compile_distinct r o story
  exact ⟨hstrings.imp ne_of_beq_false, hspeakers.imp ne_of_beq_false⟩

/-- Requests with repetitions, for values that are in another pool too, for both zeros and twice for no
number, between other edits. -/
def refrain : List Edit :=
  [.string "la", .speaker "la", .float 0.0, .freshLabel, .float (-0.0), .string "lo", .pushTarget ⟨0⟩,
    .float (0.0 / 0.0), .string "la", .bind ⟨0⟩, .float 1.5, .speaker "Ann", .float (0.0 / 0.0),
    .string "lo", .fill 0 7, .speaker "la"]

/-- The refrain asks for floats, strings and speakers more than once, and each has one place. -/
theorem refrain_kept :
    (LiteralPool.floats.Kept refrain ∧ LiteralPool.strings.Kept refrain ∧
      LiteralPool.speakers.Kept refrain) ∧
    (Assembly.after refrain).script.floats = #[0.0, 0.0 / 0.0, 1.5] ∧
    (Assembly.after refrain).script.strings = #["la", "lo"] ∧
    (Assembly.after refrain).script.speakers = #["la", "Ann"] := by
  obtain ⟨hfloats, hstrings, hspeakers, -⟩ := literals_kept
  exact ⟨⟨hfloats refrain (by decide +kernel), hstrings refrain (by decide +kernel),
    hspeakers refrain (by decide +kernel)⟩, by decide +kernel, by decide +kernel, by decide +kernel⟩

end Colloquy
