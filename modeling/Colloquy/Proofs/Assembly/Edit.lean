import Colloquy.Proofs.Layout.Label

/-!
# Assemblies by what is done to them

An assembly comes about by edits, one after another on an empty one (`Assembly.after`).  What it holds
can be told from the edits alone: the words are those that were added, as they were last filled in
(`getElem?_after`), a gap stands where a target was added (`mem_gaps_after`), and a label leads where the
last edit that settles it lets it lead (`Edit.leads_iff`).

Labels and words are numbered in the order in which they are made.  Edits are `Admissible` if each of
them uses only labels and words that were made before it.
-/

namespace Colloquy

/-- What can be done to an assembly. -/
inductive Edit where
  | push (w : UInt32)
  | reserve
  | fill (offset : Nat) (w : UInt32)
  | float (x : Float)
  | string (s : String)
  | speaker (s : String)
  | freshLabel
  | bind (l : Label)
  | redirect (l target : Label)
  | pushTarget (l : Label)
  | mention (l : Label) (x : Ident)

namespace Edit

/-! ## What edits come to -/

/-- The edit adds a word. -/
def addsWord : Edit → Bool
  | .push _ | .reserve | .pushTarget _ => true
  | _ => false

/-- The edit makes a label. -/
def addsLabel : Edit → Bool
  | .freshLabel => true
  | _ => false

/-- The number of words that edits add. -/
def wordCount (es : List Edit) : Nat := es.countP addsWord

/-- The number of labels that edits make. -/
def labelCount (es : List Edit) : Nat := es.countP addsLabel

/-- The word that an edit adds, if it is not one that waits for a label. -/
def word? : Edit → Option UInt32
  | .push w => some w
  | .reserve => some 0xFFFFFFFF
  | _ => none

/-- What becomes of the word at an offset. -/
def refill (offset : Nat) (w : UInt32) : Edit → UInt32
  | .fill n v => if n = offset then v else w
  | _ => w

/-- What becomes of the word at an offset through edits one after another. -/
def refillAll (offset : Nat) (w : UInt32) (es : List Edit) : UInt32 := es.foldl (refill offset) w

/-- The mention that an edit records. -/
def mention? : Edit → Option Mention
  | .mention l x => some ⟨l, x⟩
  | _ => none

/-- The edit says where a label leads.  A label that is to lead where it leads itself stays as it is. -/
def Settles (l : Label) : Edit → Prop
  | .bind m => m = l
  | .redirect m target => m = l ∧ m ≠ target
  | _ => False

/-- A label leads to an offset: the last edit that says where it leads binds it there, or lets it lead
where another label leads, and that one leads to the offset. -/
inductive Leads (es : List Edit) : Label → Nat → Prop where
  | bound {before rest : List Edit} {l : Label} :
      es = before ++ .bind l :: rest → (∀ e ∈ rest, ¬e.Settles l) → Leads es l (wordCount before)
  | redirected {before rest : List Edit} {l m : Label} {n : Nat} :
      es = before ++ .redirect l m :: rest → l ≠ m → (∀ e ∈ rest, ¬e.Settles l) →
        Leads es m n → Leads es l n

/-- A label leads nowhere. -/
def Stray (es : List Edit) (l : Label) : Prop := ∀ n, ¬Leads es l n

/-- After some edits, an edit uses only labels and words that they made. -/
def Licit (before : List Edit) : Edit → Prop
  | .fill n _ => n < wordCount before
  | .bind l | .pushTarget l | .mention l _ => l.index < labelCount before
  | .redirect l target => l.index < labelCount before ∧ target.index < labelCount before
  | _ => True

/-- After some edits, further ones use only labels and words that were made before them. -/
def Admissible (before : List Edit) : List Edit → Prop
  | [] => True
  | e :: es => e.Licit before ∧ Admissible (before ++ [e]) es

instance (before : List Edit) : (e : Edit) → Decidable (e.Licit before)
  | .fill n _ => inferInstanceAs (Decidable (n < wordCount before))
  | .bind l | .pushTarget l | .mention l _ => inferInstanceAs (Decidable (l.index < labelCount before))
  | .redirect l target => inferInstanceAs
      (Decidable (l.index < labelCount before ∧ target.index < labelCount before))
  | .push _ | .reserve | .float _ | .string _ | .speaker _ | .freshLabel => isTrue trivial

instance decidableAdmissible : (before es : List Edit) → Decidable (Admissible before es)
  | _, [] => isTrue trivial
  | before, e :: es =>
    have := decidableAdmissible (before ++ [e]) es
    inferInstanceAs (Decidable (e.Licit before ∧ Admissible (before ++ [e]) es))

/-! ## Counting -/

theorem wordCount_append (xs ys : List Edit) : wordCount (xs ++ ys) = wordCount xs + wordCount ys :=
  List.countP_append

theorem wordCount_snoc (es : List Edit) (e : Edit) :
    wordCount (es ++ [e]) = wordCount es + if e.addsWord then 1 else 0 := by
  rw [wordCount_append, wordCount, wordCount, List.countP_singleton]

theorem wordCount_lt {es before rest : List Edit} {e : Edit} (h : es = before ++ e :: rest)
    (he : e.addsWord = true) : wordCount before < wordCount es := by
  rw [h, wordCount_append, wordCount, wordCount, List.countP_cons_of_pos he]
  omega

theorem labelCount_le {es before rest : List Edit} (h : es = before ++ rest) :
    labelCount before ≤ labelCount es := by
  rw [h, labelCount, labelCount, List.countP_append]
  omega

theorem labelCount_snoc (es : List Edit) (e : Edit) :
    labelCount (es ++ [e]) = labelCount es + if e.addsLabel then 1 else 0 := by
  rw [labelCount, labelCount, List.countP_append, List.countP_singleton]

/-- An edit that brings a word adds one. -/
theorem addsWord_of_word? {e : Edit} {w : UInt32} (h : e.word? = some w) : e.addsWord = true := by
  cases e with
  | push _ => rfl
  | reserve => rfl
  | _ => cases h

/-- Only one edit adds the word at an offset. -/
theorem split_unique {before before' rest rest' : List Edit} {e e' : Edit}
    (h : before ++ e :: rest = before' ++ e' :: rest') (he : e.addsWord = true)
    (he' : e'.addsWord = true) (hcount : wordCount before = wordCount before') :
    before = before' ∧ e = e' ∧ rest = rest' := by
  -- what one side had in front of its edit and the other had not would add a word
  rcases List.append_eq_append_iff.mp h with ⟨more, hbefore, hrest⟩ | ⟨more, hbefore, hrest⟩
  · cases more with
    | nil =>
      rw [List.nil_append, List.cons.injEq] at hrest
      exact ⟨by rw [hbefore, List.append_nil], hrest.1, hrest.2⟩
    | cons x more =>
      rw [List.cons_append, List.cons.injEq] at hrest
      have := wordCount_lt hbefore (hrest.1 ▸ he)
      omega
  · cases more with
    | nil =>
      rw [List.nil_append, List.cons.injEq] at hrest
      exact ⟨by rw [hbefore, List.append_nil], hrest.1.symm, hrest.2.symm⟩
    | cons x more =>
      rw [List.cons_append, List.cons.injEq] at hrest
      have := wordCount_lt hbefore (hrest.1 ▸ he')
      omega

/-- Each of some admissible edits is licit after those before it. -/
theorem Admissible.licit {xs before rest : List Edit} {e : Edit}
    (h : Admissible xs (before ++ e :: rest)) : e.Licit (xs ++ before) := by
  induction before generalizing xs with
  | nil =>
    rw [List.append_nil]
    exact h.1
  | cons x before ih =>
    have hlicit := ih h.2
    rwa [List.append_assoc, List.singleton_append] at hlicit

end Edit

namespace Assembly

open Edit

/-- An assembly with an edit done to it. -/
def perform (a : Assembly) : Edit → Assembly
  | .push w => a.push w
  | .reserve => a.reserve.2
  | .fill n w => a.fill n w
  | .float x => (a.float x).2
  | .string s => (a.string s).2
  | .speaker s => (a.speaker s).2
  | .freshLabel => a.freshLabel.2
  | .bind l => a.bind l
  | .redirect l target => a.redirect l target
  | .pushTarget l => a.pushTarget l
  | .mention l x => a.mention l x

/-- The assembly after some edits. -/
def after (es : List Edit) : Assembly := es.foldl perform empty

theorem after_append (xs ys : List Edit) : after (xs ++ ys) = ys.foldl perform (after xs) :=
  List.foldl_append

theorem after_snoc (es : List Edit) (e : Edit) : after (es ++ [e]) = (after es).perform e :=
  after_append es [e]

theorem after_cons (before rest : List Edit) (e : Edit) :
    after (before ++ e :: rest) = rest.foldl perform ((after before).perform e) :=
  after_append before (e :: rest)

/-- Letting a label lead elsewhere changes nothing but the table of labels. -/
theorem redirect_frame (a : Assembly) (l target : Label) :
    ∃ labels, a.redirect l target = { a with labels := labels } ∧ labels.size = a.labels.size := by
  unfold redirect
  split
  · exact ⟨a.labels, rfl, rfl⟩
  · exact ⟨_, rfl, Array.size_setIfInBounds⟩

theorem script_redirect (a : Assembly) (l target : Label) : (a.redirect l target).script = a.script := by
  obtain ⟨labels, heq, -⟩ := redirect_frame a l target
  rw [heq]

/-! ## Words -/

/-- The offset moves on with each word that is added. -/
theorem offset_perform (a : Assembly) (e : Edit) :
    (a.perform e).offset = a.offset + if e.addsWord then 1 else 0 := by
  cases e with
  | push _ | reserve | pushTarget _ => exact Array.size_push _
  | fill _ _ => exact Array.size_setIfInBounds
  | redirect l target => exact congrArg (·.words.size) (script_redirect a l target)
  | _ => rfl

theorem offset_after (es : List Edit) : (after es).offset = wordCount es := by
  induction es using List.reverseRecOn with
  | nil => rfl
  | append_singleton es e ih => rw [after_snoc, offset_perform, ih, wordCount_snoc]

/-- A word is kept unless it is filled in. -/
theorem getElem?_perform {a : Assembly} {n : Nat} {w : UInt32} (h : a.script.words[n]? = some w)
    (e : Edit) : (a.perform e).script.words[n]? = some (e.refill n w) := by
  have hlt : n < a.script.words.size := (Array.getElem?_eq_some_iff.mp h).1
  have hpush : ∀ v, (a.script.words.push v)[n]? = some w := fun v => by
    rw [Array.getElem?_push_lt hlt, ← Array.getElem?_eq_getElem hlt, h]
  cases e with
  | push v => exact hpush v
  | reserve | pushTarget _ => exact hpush _
  | fill m v =>
    show (a.script.words.setIfInBounds m v)[n]? = some (if m = n then v else w)
    split
    · next heq => rw [heq, Array.getElem?_setIfInBounds_self_of_lt hlt]
    · next hne => rw [Array.getElem?_setIfInBounds_ne hne, h]
  | redirect l target => exact (congrArg (·.words[n]?) (script_redirect a l target)).trans h
  | _ => exact h

/-- A word that is there stays, as it is filled in by what follows. -/
theorem getElem?_foldl_perform {a : Assembly} {n : Nat} {w : UInt32} (h : a.script.words[n]? = some w)
    (es : List Edit) : (es.foldl perform a).script.words[n]? = some (refillAll n w es) := by
  induction es generalizing a w with
  | nil => exact h
  | cons e es ih => exact ih (getElem?_perform h e)

/-- A word that an edit brings is put at the offset. -/
theorem getElem?_perform_offset (a : Assembly) {e : Edit} {w : UInt32} (h : e.word? = some w) :
    (a.perform e).script.words[a.offset]? = some w := by
  cases e with
  | push _ | reserve =>
    obtain rfl := Option.some.inj h
    exact Array.getElem?_push_size
  | _ => cases h

/-- A word that was added is there as it was last filled in. -/
theorem getElem?_after {es before rest : List Edit} {e : Edit} {w : UInt32}
    (hes : es = before ++ e :: rest) (hw : e.word? = some w) :
    (after es).script.words[wordCount before]? = some (refillAll (wordCount before) w rest) := by
  rw [hes, after_cons]
  refine getElem?_foldl_perform ?_ rest
  rw [← offset_after]
  exact getElem?_perform_offset _ hw

/-! ## Gaps and mentions -/

/-- A gap is an earlier one or stands where a target was added. -/
theorem mem_gaps_perform {a : Assembly} {e : Edit} {g : Gap} :
    g ∈ (a.perform e).gaps ↔ g ∈ a.gaps ∨ e = .pushTarget g.label ∧ g.offset = a.offset := by
  cases e with
  | pushTarget l =>
    obtain ⟨n, m⟩ := g
    show _ ∈ a.gaps.push ⟨a.offset, l⟩ ↔ _
    rw [Array.mem_push, Gap.mk.injEq, Edit.pushTarget.injEq, and_comm, eq_comm]
  | redirect l target =>
    obtain ⟨labels, heq, -⟩ := redirect_frame a l target
    show g ∈ (a.redirect l target).gaps ↔ _
    rw [heq]
    exact ⟨.inl, fun h => h.resolve_right fun h => by cases h.1⟩
  | _ => exact ⟨.inl, fun h => h.resolve_right fun h => by cases h.1⟩

/-- A gap stands where a target was added. -/
theorem mem_gaps_after {es : List Edit} {g : Gap} : g ∈ (after es).gaps ↔
    ∃ before rest, es = before ++ .pushTarget g.label :: rest ∧ g.offset = wordCount before := by
  induction es using List.reverseRecOn with
  | nil => simp [after, empty]
  | append_singleton es e ih =>
    rw [after_snoc, mem_gaps_perform, ih, offset_after]
    constructor
    · rintro (⟨before, rest, rfl, hoffset⟩ | ⟨rfl, hoffset⟩)
      · exact ⟨before, rest ++ [e], by simp, hoffset⟩
      · exact ⟨es, [], rfl, hoffset⟩
    · rintro ⟨before, rest, hes, hoffset⟩
      rcases List.eq_nil_or_concat' rest with rfl | ⟨rest, last, rfl⟩
      · obtain ⟨rfl, he⟩ := List.append_inj' hes rfl
        exact .inr ⟨List.singleton_inj.mp he, hoffset⟩
      · rw [← List.cons_append, ← List.append_assoc] at hes
        exact .inl ⟨before, rest, (List.append_inj' hes rfl).1, hoffset⟩

/-- A gap stands at a word. -/
theorem gap_lt_after {es : List Edit} {g : Gap} (hg : g ∈ (after es).gaps) :
    g.offset < (after es).offset := by
  obtain ⟨before, rest, hes, hoffset⟩ := mem_gaps_after.mp hg
  rw [hoffset, offset_after]
  exact wordCount_lt hes rfl

/-- No two gaps share a word. -/
theorem gap_inj_after {es : List Edit} {g g' : Gap} (hg : g ∈ (after es).gaps)
    (hg' : g' ∈ (after es).gaps) (h : g.offset = g'.offset) : g = g' := by
  obtain ⟨before, rest, hes, hoffset⟩ := mem_gaps_after.mp hg
  obtain ⟨before', rest', hes', hoffset'⟩ := mem_gaps_after.mp hg'
  have hcount : wordCount before = wordCount before' := by rw [← hoffset, h, hoffset']
  obtain ⟨-, hlabel, -⟩ := split_unique (hes.symm.trans hes') rfl rfl hcount
  obtain ⟨n, l⟩ := g
  obtain ⟨n', l'⟩ := g'
  rw [Gap.mk.injEq]
  exact ⟨h, Edit.pushTarget.inj hlabel⟩

/-- The mentions are those that were made, in their order. -/
theorem mentions_after (es : List Edit) : (after es).mentions.toList = es.filterMap mention? := by
  induction es using List.reverseRecOn with
  | nil => rfl
  | append_singleton es e ih =>
    rw [after_snoc, List.filterMap_append, ← ih]
    cases e with
    | mention l x => exact Array.toList_push
    | redirect l target =>
      obtain ⟨labels, heq, -⟩ := redirect_frame (after es) l target
      exact (congrArg (·.mentions.toList) heq).trans (List.append_nil _).symm
    | _ => exact (List.append_nil _).symm

/-! ## Labels -/

/-- A label that is made is counted. -/
theorem size_labels_perform (a : Assembly) (e : Edit) :
    (a.perform e).labels.size = a.labels.size + if e.addsLabel then 1 else 0 := by
  cases e with
  | freshLabel => exact Array.size_push _
  | bind _ => exact Array.size_setIfInBounds
  | redirect l target =>
    obtain ⟨labels, heq, hsize⟩ := redirect_frame a l target
    exact (congrArg (·.labels.size) heq).trans hsize
  | _ => rfl

theorem size_labels_after (es : List Edit) : (after es).labels.size = labelCount es := by
  induction es using List.reverseRecOn with
  | nil => rfl
  | append_singleton es e ih => rw [after_snoc, size_labels_perform, ih, labelCount_snoc]

/-- A label whose place in the table is set leads there, and no other label leads elsewhere. -/
theorem destination_setIfInBounds (a : Assembly) (m : Label) (d : Destination) (l : Label) :
    destination { a with labels := a.labels.setIfInBounds m.index d } l =
      if m = l ∧ l.index < a.labels.size then d else a.destination l := by
  obtain ⟨i⟩ := l
  obtain ⟨j⟩ := m
  simp only [destination, Array.getD_eq_getD_getElem?, Array.getElem?_setIfInBounds, Label.mk.injEq]
  by_cases hij : j = i
  · subst hij
    by_cases hlt : j < a.labels.size
    · simp [hlt]
    · simp [hlt]
  · simp [hij]

/-- A label leads where it led, unless the edit says otherwise. -/
theorem destination_perform (a : Assembly) {e : Edit} {l : Label} (h : ¬e.Settles l) :
    (a.perform e).destination l = a.destination l := by
  cases e with
  | freshLabel =>
    show (a.labels.push .unbound).getD l.index .unbound = a.labels.getD l.index .unbound
    rw [Array.getD_eq_getD_getElem?, Array.getD_eq_getD_getElem?, Array.getElem?_push]
    split
    · next heq => rw [heq, Array.getElem?_eq_none (Nat.le_refl _)]; rfl
    · rfl
  | bind m =>
    refine (destination_setIfInBounds a m _ l).trans (if_neg ?_)
    exact fun hm => h hm.1
  | redirect m target =>
    show (a.redirect m target).destination l = _
    unfold redirect
    split
    · rfl
    · next hne =>
      refine (destination_setIfInBounds a m _ l).trans (if_neg ?_)
      exact fun hm => h ⟨hm.1, hne⟩
  | _ => rfl

/-- A label keeps its destination while nothing settles it. -/
theorem destination_foldl_perform (a : Assembly) {es : List Edit} {l : Label}
    (h : ∀ e ∈ es, ¬e.Settles l) : (es.foldl perform a).destination l = a.destination l := by
  induction es generalizing a with
  | nil => rfl
  | cons e es ih =>
    rw [List.forall_mem_cons] at h
    exact (ih (a.perform e) h.2).trans (destination_perform a h.1)

theorem destination_perform_bind (a : Assembly) (l : Label) : (a.perform (.bind l)).destination l =
    if l.index < a.labels.size then .offset a.offset else a.destination l := by
  refine (destination_setIfInBounds a l _ l).trans ?_
  simp only [true_and]

/-- A label that is there leads where it is redirected. -/
theorem destination_perform_redirect (a : Assembly) {l m : Label} (h : l ≠ m) :
    (a.perform (.redirect l m)).destination l =
      if l.index < a.labels.size then .redirected m else a.destination l := by
  have hredirect : a.perform (.redirect l m) =
      { a with labels := a.labels.setIfInBounds l.index (.redirected m) } := if_neg h
  rw [hredirect, destination_setIfInBounds]
  simp only [true_and]

/-- Where a label leads is said by some edit, and there is a last one. -/
theorem exists_settles {es : List Edit} {l : Label} (h : (after es).destination l ≠ .unbound) :
    ∃ before e rest, es = before ++ e :: rest ∧ e.Settles l ∧ ∀ x ∈ rest, ¬x.Settles l := by
  induction es using List.reverseRecOn with
  | nil => exact absurd rfl h
  | append_singleton es e ih =>
    by_cases he : e.Settles l
    · exact ⟨es, e, [], rfl, he, by simp⟩
    · rw [after_snoc, destination_perform _ he] at h
      obtain ⟨before, x, rest, rfl, hx, hrest⟩ := ih h
      refine ⟨before, x, rest ++ [e], by simp, hx, ?_⟩
      rw [List.forall_mem_append, List.forall_mem_singleton]
      exact ⟨hrest, he⟩

/-- A label that was bound last leads to where it was bound. -/
theorem destination_after_bind {es before rest : List Edit} {l : Label} (h : Admissible [] es)
    (hes : es = before ++ .bind l :: rest) (hrest : ∀ e ∈ rest, ¬e.Settles l) :
    (after es).destination l = .offset (wordCount before) := by
  have hl : l.index < labelCount before := (hes ▸ h).licit
  rw [hes, after_cons, destination_foldl_perform _ hrest, destination_perform_bind, size_labels_after,
    if_pos hl, offset_after]

/-- A label that was redirected last leads where it was redirected. -/
theorem destination_after_redirect {es before rest : List Edit} {l m : Label} (h : Admissible [] es)
    (hes : es = before ++ .redirect l m :: rest) (hne : l ≠ m) (hrest : ∀ e ∈ rest, ¬e.Settles l) :
    (after es).destination l = .redirected m := by
  have hl : l.index < labelCount before ∧ m.index < labelCount before := (hes ▸ h).licit
  rw [hes, after_cons, destination_foldl_perform _ hrest, destination_perform_redirect _ hne,
    size_labels_after, if_pos hl.1]

/-- A label that leads to an offset was bound there by the last edit that settles it. -/
theorem exists_bind {es : List Edit} {l : Label} {n : Nat} (hadmissible : Admissible [] es)
    (h : (after es).destination l = .offset n) : ∃ before rest, es = before ++ .bind l :: rest ∧
      (∀ e ∈ rest, ¬e.Settles l) ∧ wordCount before = n := by
  obtain ⟨before, e, rest, hes, he, hrest⟩ := exists_settles (by rw [h]; simp)
  cases e with
  | bind m =>
    obtain rfl : m = l := he
    have hnow := destination_after_bind hadmissible hes hrest
    rw [h, Destination.offset.injEq] at hnow
    exact ⟨before, rest, hes, hrest, hnow.symm⟩
  | redirect m target =>
    obtain ⟨rfl, hne⟩ := he
    rw [destination_after_redirect hadmissible hes hne hrest] at h
    cases h
  | _ => exact he.elim

/-- A label that is redirected was so by the last edit that settles it. -/
theorem exists_redirect {es : List Edit} {l m : Label} (hadmissible : Admissible [] es)
    (h : (after es).destination l = .redirected m) : ∃ before rest,
      es = before ++ .redirect l m :: rest ∧ l ≠ m ∧ ∀ e ∈ rest, ¬e.Settles l := by
  obtain ⟨before, e, rest, hes, he, hrest⟩ := exists_settles (by rw [h]; simp)
  cases e with
  | bind k =>
    obtain rfl : k = l := he
    rw [destination_after_bind hadmissible hes hrest] at h
    cases h
  | redirect k target =>
    obtain ⟨rfl, hne⟩ := he
    rw [destination_after_redirect hadmissible hes hne hrest, Destination.redirected.injEq] at h
    exact ⟨before, rest, h ▸ hes, h ▸ hne, hrest⟩
  | _ => exact he.elim

/-- A chain is no longer than there are labels. -/
theorem length_chainWithin_le (a : Assembly) (fuel : Nat) (l : Label) :
    (a.chainWithin fuel l).length ≤ fuel := by
  induction fuel generalizing l with
  | zero => exact Nat.le_refl _
  | succ fuel ih =>
    rw [chainWithin, List.length_cons]
    refine Nat.succ_le_succ ?_
    split
    · exact ih _
    · exact Nat.zero_le _

/-- A chain that starts at a label there is passes only labels there are. -/
theorem index_lt_of_mem_chain {es : List Edit} (h : Admissible [] es) {l m : Label}
    (hl : l.index < (after es).labels.size) (hm : m ∈ (after es).chain l) :
    m.index < (after es).labels.size := by
  obtain ⟨k, -, hk⟩ := mem_chainWithin.mp hm
  clear hm
  induction hk with
  | refl => exact hl
  | @step k l m p hlm _ ih =>
    refine ih ?_
    obtain ⟨before, rest, hes, -⟩ := exists_redirect h hlm
    have hlicit : l.index < labelCount before ∧ m.index < labelCount before := (hes ▸ h).licit
    rw [size_labels_after]
    exact Nat.lt_of_lt_of_le hlicit.2 (labelCount_le hes)

end Assembly

namespace Edit

open Assembly

variable {es : List Edit} {l : Label}

/-- A label leads where the assembly finds it to lead. -/
theorem leads_iff (h : Admissible [] es) {n : Nat} : Leads es l n ↔ (after es).resolve? l = some n := by
  constructor
  · intro hleads
    induction hleads with
    | bound hes hrest => exact resolve?_of_offset (destination_after_bind h hes hrest)
    | redirected hes hne hrest _ ih =>
      rw [resolve?_of_redirected (destination_after_redirect h hes hne hrest)]
      exact ih
  · intro hresolve
    obtain ⟨p, ⟨k, hk⟩, hp⟩ := resolve?_eq_some_iff.mp hresolve
    clear hresolve
    induction hk with
    | refl =>
      obtain ⟨before, rest, hes, hrest, rfl⟩ := exists_bind h hp
      exact .bound hes hrest
    | step hlm _ ih =>
      obtain ⟨before, rest, hes, hne, hrest⟩ := exists_redirect h hlm
      exact .redirected hes hne hrest (ih hp)

theorem stray_iff (h : Admissible [] es) : Stray es l ↔ (after es).isBound l = false := by
  rw [isBound, Option.isSome_eq_false_iff, Option.isNone_iff_eq_none, Option.eq_none_iff_forall_ne_some]
  exact forall_congr' fun n => not_congr (leads_iff h)

end Edit

end Colloquy
