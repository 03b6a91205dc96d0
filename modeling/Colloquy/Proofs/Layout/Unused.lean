import Colloquy.Proofs.Layout.Lowered

/-!
# Labels that nothing leads to

A draft is `Closed` away from some labels if no word waits for them and no label leads on to them.  The
lowering of a statement uses the label behind it only where control may go on there (`stmt_avoids`),
and that of a block its exit only where control may fall off it (`block_avoids`).  So a section whose
body is never left has no end.
-/

namespace Colloquy

open Code

variable {X : Label → Prop}

/-- A label is among the first `n` and not one of `X`. -/
structure Label.Spare (X : Label → Prop) (n : Nat) (l : Label) : Prop where
  lt : l.index < n
  not : ¬X l

theorem Label.Spare.mono {n k : Nat} {l : Label} (h : l.Spare X n) (hk : n ≤ k) : l.Spare X k :=
  ⟨Nat.lt_of_lt_of_le h.lt hk, h.not⟩

/-- The words, labels and sections of a draft lead to labels that there are, and to none of `X`. -/
structure Draft.Closed (X : Label → Prop) (d : Draft) : Prop where
  lt : ∀ l, X l → l.index < d.assembly.labels.size
  gap : ∀ g ∈ d.assembly.gaps, g.label.Spare X d.assembly.labels.size
  redirected : ∀ l m, d.assembly.destination l = .redirected m → m.Spare X d.assembly.labels.size
  named : ∀ name e, d.sections.find? name = some e → e.label.Spare X d.assembly.labels.size

/-- No walk leads to a label of `X` but from there: its last step would lead on to it. -/
theorem Draft.Closed.eq_of_reachesIn {d : Draft} {l m : Label} {k : Nat} (h : d.Closed X) (hm : X m)
    (hk : d.assembly.ReachesIn k l m) : l = m := by
  induction hk with
  | refl => rfl
  | step hl _ ih =>
    rw [ih hm] at hl
    exact absurd hm (h.redirected _ _ hl).not

/-- No word of a draft that is closed away from a label waits for it. -/
theorem Draft.Closed.not_awaits {d : Draft} {l : Label} (h : d.Closed X) (hl : X l) (lo : Nat) :
    ¬d.Awaits lo l := by
  rintro ⟨g, hg, _, k, hk⟩
  have hlabel := (h.gap g hg).not
  rw [h.eq_of_reachesIn hl hk] at hlabel
  exact hlabel hl

namespace Lower

variable {α β : Type} {n : Nat} {Q : Nat → α → Prop} {R : Nat → β → Prop}

/-- A step of a lowering, from drafts with at least `n` labels, keeps away from the labels of `X`, and
`Q` holds of the number of labels after it and of its result. -/
def Avoids (X : Label → Prop) (n : Nat) (Q : Nat → α → Prop) (m : Lower α) : Prop :=
  ∀ d, n ≤ d.assembly.labels.size → d.Closed X →
    (m d).2.Closed X ∧ n ≤ (m d).2.assembly.labels.size ∧ Q (m d).2.assembly.labels.size (m d).1

/-- A step of a lowering keeps away from the labels of `X`. -/
abbrev Spares (X : Label → Prop) (n : Nat) (m : Lower α) : Prop := Avoids X n (fun _ _ => True) m

namespace Avoids

variable {m : Lower α} {f : α → Lower β}

theorem pure {a : α} (ha : ∀ k, n ≤ k → Q k a) : Avoids X n Q (Pure.pure a : Lower α) :=
  fun _ hn hd => ⟨hd, hn, ha _ hn⟩

/-- A step and what is done with its result avoid the labels, if the result is one that the second may
use. -/
theorem bind (hm : Avoids X n Q m) (hf : ∀ k a, n ≤ k → Q k a → Avoids X k R (f a)) :
    Avoids X n R (m >>= f) := by
  intro d hn hd
  obtain ⟨hmid, hk, ha⟩ := hm d hn hd
  obtain ⟨hend, hle, hb⟩ := hf _ _ hk ha _ (Nat.le_refl _) hmid
  exact ⟨hend, hk.trans hle, hb⟩

/-- What is known of a result may be weakened. -/
theorem mono {Q' : Nat → α → Prop} (hm : Avoids X n Q m) (hQ : ∀ k a, Q k a → Q' k a) :
    Avoids X n Q' m := by
  intro d hn hd
  obtain ⟨hend, hle, ha⟩ := hm d hn hd
  exact ⟨hend, hle, hQ _ _ ha⟩

/-- The result of the first step does not matter to the second. -/
theorem seq (hm : Spares X n m) (hf : ∀ a, Avoids X n R (f a)) : Avoids X n R (m >>= f) := by
  intro d hn hd
  obtain ⟨hmid, hk, _⟩ := hm d hn hd
  exact hf _ _ hk hmid

/-- A step that makes no words wait and leaves labels and sections alone. -/
theorem of_frame (h : ∀ d, (m d).2.assembly.gaps = d.assembly.gaps ∧
    (m d).2.assembly.labels = d.assembly.labels ∧ (m d).2.sections = d.sections) : Spares X n m := by
  intro d hn hd
  obtain ⟨hgaps, hlabels, hsections⟩ := h d
  have hdest : ∀ l, (m d).2.assembly.destination l = d.assembly.destination l := by
    intro l
    rw [Assembly.destination, hlabels, Assembly.destination]
  refine ⟨⟨?_, ?_, ?_, ?_⟩, hlabels.symm ▸ hn, trivial⟩
  · rw [hlabels]
    exact hd.lt
  · rw [hgaps, hlabels]
    exact hd.gap
  · intro l k
    rw [hdest, hlabels]
    exact hd.redirected l k
  · rw [hsections, hlabels]
    exact hd.named

/-- A step for each entry of a list avoids the labels if the steps for the entries do. -/
theorem forM {as : List α} {f : α → Lower Unit} (h : ∀ a ∈ as, Spares X n (f a)) :
    Spares X n (as.forM f) := by
  induction as with
  | nil => exact pure fun _ _ => trivial
  | cons a as ih =>
    refine (h a (List.mem_cons_self ..)).seq fun _ => ih ?_
    intro b hb
    exact h b (List.mem_cons_of_mem _ hb)

end Avoids

theorem pure_avoids (a : α) : Spares X n (pure a : Lower α) := .pure fun _ _ => trivial

/-! ## Words, places and labels -/

theorem emit_avoids (w : UInt32) : Spares X n (emit w) := .of_frame fun _ => ⟨rfl, rfl, rfl⟩

theorem emitCount_avoids (k : Nat) : Spares X n (emitCount k) := emit_avoids _

theorem reserve_avoids : Spares X n (fetch Assembly.reserve) := .of_frame fun _ => ⟨rfl, rfl, rfl⟩

theorem fill_avoids (offset : Nat) (w : UInt32) : Spares X n (update (·.fill offset w)) :=
  .of_frame fun _ => ⟨rfl, rfl, rfl⟩

theorem float_avoids (x : Float) : Spares X n (fetch (·.float x)) :=
  .of_frame fun _ => ⟨rfl, rfl, rfl⟩

theorem string_avoids (x : String) : Spares X n (string x) := .of_frame fun _ => ⟨rfl, rfl, rfl⟩

theorem speaker_avoids (x : String) : Spares X n (speaker x) := .of_frame fun _ => ⟨rfl, rfl, rfl⟩

theorem report_avoids (errors : List CompileError) : Spares X n (report errors) :=
  .of_frame fun _ => ⟨rfl, rfl, rfl⟩

theorem mention_avoids (l : Label) (x : Ident) : Spares X n (update (·.mention l x)) :=
  .of_frame fun _ => ⟨rfl, rfl, rfl⟩

/-- A word may wait for a label that is not among those avoided. -/
theorem emitTarget_avoids {l : Label} (hl : l.Spare X n) : Spares X n (emitTarget l) := by
  intro d hn hd
  refine ⟨{ hd with gap := ?_ }, hn, trivial⟩
  intro g hg
  rcases Array.mem_push.mp hg with hg | rfl
  · exact hd.gap g hg
  · exact hl.mono hn

/-- A new label is none of `X`, since there are those already. -/
theorem freshLabel_avoids : Avoids X n (fun k l => l.Spare X k) freshLabel := by
  intro d hn hd
  have hsize : (freshLabel d).2.assembly.labels.size = d.assembly.labels.size + 1 :=
    Array.size_push _
  have hle : d.assembly.labels.size ≤ (freshLabel d).2.assembly.labels.size := by omega
  refine ⟨⟨?_, ?_, ?_, ?_⟩, hn.trans hle, ?_, ?_⟩
  · intro l hl
    exact Nat.lt_of_lt_of_le (hd.lt l hl) hle
  · intro g hg
    exact (hd.gap g hg).mono hle
  · intro l m hl
    exact (hd.redirected l m ((destination_freshLabel d.assembly l).symm.trans hl)).mono hle
  · intro name e he
    exact (hd.named name e he).mono hle
  · rw [hsize]
    exact Nat.lt_succ_self _
  · intro hX
    exact Nat.lt_irrefl _ (hd.lt _ hX)

/-- A label is sent to an offset, or on to another label. -/
theorem setLabel_closed {l : Label} {x : Destination} {d : Draft}
    (hx : ∀ m, x = .redirected m → m.Spare X d.assembly.labels.size) (hd : d.Closed X) :
    ({ d with assembly := { d.assembly with
      labels := d.assembly.labels.setIfInBounds l.index x } } : Draft).Closed X := by
  have hsize : (d.assembly.labels.setIfInBounds l.index x).size = d.assembly.labels.size :=
    Array.size_setIfInBounds
  have hdest : ∀ k m, Assembly.destination { d.assembly with
      labels := d.assembly.labels.setIfInBounds l.index x } k = .redirected m →
        m.Spare X d.assembly.labels.size := by
    intro k m
    by_cases hl : l.index < d.assembly.labels.size
    · rw [destination_set hl]
      split
      · exact hx m
      · exact hd.redirected k m
    · rw [Array.setIfInBounds_eq_of_size_le (by omega)]
      exact hd.redirected k m
  refine ⟨?_, ?_, ?_, ?_⟩ <;> dsimp only <;> rw [hsize]
  · exact hd.lt
  · exact hd.gap
  · exact hdest
  · exact hd.named

theorem bindLabel_avoids (l : Label) : Spares X n (bindLabel l) := by
  intro d hn hd
  exact ⟨setLabel_closed (by simp) hd, Array.size_setIfInBounds.symm ▸ hn, trivial⟩

/-- A label may be redirected to one that is not among those avoided. -/
theorem redirect_avoids (l : Label) {m : Label} (hm : m.Spare X n) :
    Spares X n (update (·.redirect l m)) := by
  intro d hn hd
  show ({ d with assembly := d.assembly.redirect l m } : Draft).Closed X ∧
    n ≤ (d.assembly.redirect l m).labels.size ∧ True
  rw [Assembly.redirect]
  split
  · exact ⟨hd, hn, trivial⟩
  · refine ⟨setLabel_closed ?_ hd, Array.size_setIfInBounds.symm ▸ hn, trivial⟩
    intro k hk
    exact Destination.redirected.inj hk ▸ hm.mono hn

/-- The label of a section is none of those avoided: it is kept under the section's name, or new. -/
theorem sectionLabel_avoids (x : Ident) : Avoids X n (fun k l => l.Spare X k) (sectionLabel x) := by
  intro d hn hd
  cases hx : d.sections.find? x.name with
  | some e =>
    have hrun : sectionLabel x d = (e.label, (update (·.mention e.label x) d).2) := by
      simp only [sectionLabel, bind_apply, get_apply, hx]
      rfl
    rw [hrun]
    exact ⟨(mention_avoids e.label x d hn hd).1, hn, hd.named _ e hx⟩
  | none =>
    let d₁ : Draft := ⟨(freshLabel d).2.assembly,
      d.sections.insert x.name ⟨(freshLabel d).1, none⟩, (freshLabel d).2.errors⟩
    have hrun : sectionLabel x d
        = ((freshLabel d).1, (update (·.mention (freshLabel d).1 x) d₁).2) := by
      simp only [sectionLabel, bind_apply, get_apply, hx]
      rfl
    obtain ⟨hmid, hk, hspare⟩ := freshLabel_avoids d hn hd
    have hd₁ : d₁.Closed X := by
      refine ⟨hmid.lt, hmid.gap, hmid.redirected, ?_⟩
      intro name e he
      rw [Catalog.find?_insert] at he
      split at he
      · exact Option.some.inj he ▸ hspare
      · exact hmid.named name e he
    rw [hrun]
    exact ⟨(mention_avoids _ x d₁ hk hd₁).1, hk, hspare⟩

/-! ## Expressions -/

/-- A literal uses no label. -/
theorem literal_avoids (v : Literal) : Spares X n (literal v) := by
  cases v with
  | float x => exact (float_avoids x).seq fun i => (emit_avoids _).seq fun _ => emit_avoids i
  | string x => exact (string_avoids x).seq fun i => (emit_avoids _).seq fun _ => emit_avoids i
  | bool b => exact (emit_avoids _).seq fun _ => emit_avoids _

/-- Defaults use no label. -/
theorem defaults_avoids (ps : List Parameter) : Spares X n (defaults ps) := by
  induction ps with
  | nil => exact pure_avoids _
  | cons p ps ih =>
    unfold defaults
    cases p.fallback.bind literalOf? with
    | none => exact pure_avoids _
    | some v => exact (literal_avoids v).seq fun _ => ih.seq fun _ => pure_avoids _

/-- What fills up a call uses no label. -/
theorem fallbacks_avoids (r : Registry) (name : String) (given : Nat) :
    Spares X n (fallbacks r name given) := by
  unfold fallbacks
  cases r.findFunction? name with
  | none => exact pure_avoids _
  | some f => exact defaults_avoids _

mutual

/-- An expression uses no label, by recursion into its operands. -/
theorem expr_avoids (r : Registry) : (e : Expr) → Spares X n (expr r e)
  | .literal v _ => by
    unfold expr
    exact literal_avoids v
  | .variable x => by
    unfold expr
    exact (string_avoids _).seq fun i => (emit_avoids _).seq fun _ => emit_avoids i
  | .group e => by
    unfold expr
    exact expr_avoids r e
  | .unary op e => by
    unfold expr
    exact (emit_avoids _).seq fun _ => expr_avoids r e
  | .binary op left right => by
    unfold expr
    exact (emit_avoids _).seq fun _ => (expr_avoids r left).seq fun _ => expr_avoids r right
  | .assign x op value => by
    unfold expr
    exact (string_avoids _).seq fun i => (emit_avoids _).seq fun _ => (emit_avoids i).seq fun _ =>
      expr_avoids r value
  | .call f args awaited _ => by
    unfold expr
    exact (string_avoids _).seq fun i => (emit_avoids _).seq fun _ => (emit_avoids i).seq fun _ =>
      (emit_avoids _).seq fun _ => reserve_avoids.seq fun count => (exprs_avoids r args).seq fun _ =>
        (fallbacks_avoids r _ _).seq fun _ => fill_avoids count _

/-- Expressions use no label. -/
theorem exprs_avoids (r : Registry) : (es : List Expr) → Spares X n (exprs r es)
  | [] => by
    unfold exprs
    exact pure_avoids _
  | e :: es => by
    unfold exprs
    exact (expr_avoids r e).seq fun _ => exprs_avoids r es

end

theorem checkKind_avoids (r : Registry) (e : Expr) (k : Kind) : Spares X n (checkKind r e k) :=
  report_avoids _

/-! ## Parts of statements -/

/-- A segment of a text uses no label. -/
theorem segment_avoids (r : Registry) (x : Segment) : Spares X n (segment r x) := by
  cases x with
  | text t => exact (string_avoids _).seq fun i => (emit_avoids _).seq fun _ => emit_avoids i
  | placeholder e =>
    exact (report_avoids _).seq fun _ => (emit_avoids _).seq fun _ => expr_avoids r e

theorem segments_avoids (r : Registry) (xs : List Segment) : Spares X n (segments r xs) :=
  (emitCount_avoids _).seq fun _ => .forM fun x _ => segment_avoids r x

theorem mentionInline_avoids (xs : List Segment) : Spares X n (mentionInline xs) :=
  .forM fun x _ => (sectionLabel_avoids x).bind fun _ _ _ _ => pure_avoids _

/-- A key with its values uses no label. -/
theorem entry_avoids (r : Registry) (e : HashEntry) : Spares X n (entry r e) := by
  refine (string_avoids _).seq fun key => ?_
  split
  · exact (emitCount_avoids _).seq fun _ => (emit_avoids _).seq fun _ => literal_avoids _
  · exact (emitCount_avoids _).seq fun _ => (emit_avoids _).seq fun _ =>
      .forM fun v _ => (report_avoids _).seq fun _ => expr_avoids r v

/-- Keys with their values use no label. -/
theorem entries_avoids (r : Registry) (before : List Ident) (es : List HashEntry) :
    Spares X n (entries r before es) := by
  induction es generalizing before with
  | nil => exact pure_avoids _
  | cons e es ih => exact (report_avoids _).seq fun _ => (entry_avoids r e).seq fun _ => ih _

theorem hash_avoids (r : Registry) (h : HashBlock) : Spares X n (hash r h) :=
  (emitCount_avoids _).seq fun _ => entries_avoids r [] h.entries

/-- A speaker uses no label. -/
theorem speakerRef_avoids (r : Registry) (x : SpeakerRef) : Spares X n (speakerRef r x) := by
  rcases x with x | x
  · exact (speaker_avoids _).seq fun i => (emit_avoids _).seq fun _ => emit_avoids i
  · exact (report_avoids _).seq fun _ => (string_avoids _).seq fun i =>
      (emit_avoids _).seq fun _ => emit_avoids i

/-- A directive uses the label of the section that it leads to, which is none of those avoided. -/
theorem directive_avoids (r : Registry) (x : Directive) : Spares X n (directive r x) := by
  cases x with
  | auto => exact emit_avoids _
  | speed e =>
    exact (checkKind_avoids r e _).seq fun _ => (emit_avoids _).seq fun _ => expr_avoids r e
  | pause e =>
    exact (checkKind_avoids r e _).seq fun _ => (emit_avoids _).seq fun _ => expr_avoids r e
  | goto x =>
    exact (sectionLabel_avoids x).bind fun _ _ _ hm => (emit_avoids _).seq fun _ => emitTarget_avoids hm

/-- A line uses the label behind it, and the labels of sections. -/
theorem line_avoids (r : Registry) (x : Line) {next : Label} (hnext : next.Spare X n) :
    Spares X n (line r x next) := by
  have hhash : Spares X n (lineHash r x.hash) := by
    cases x.hash with
    | none => exact pure_avoids _
    | some h =>
      exact freshLabel_avoids.bind fun _ here _ hhere => (emit_avoids _).seq fun _ =>
        (emitTarget_avoids hhere).seq fun _ => (hash_avoids r h).seq fun _ => bindLabel_avoids here
  refine hhash.seq fun _ => (emit_avoids _).seq fun _ => (emitTarget_avoids hnext).seq fun _ => ?_
  refine (emitCount_avoids _).seq fun _ => (Avoids.forM fun y _ => speakerRef_avoids r y).seq fun _ => ?_
  refine (segments_avoids r _).seq fun _ => (mentionInline_avoids _).seq fun _ => ?_
  exact (emitCount_avoids _).seq fun _ => .forM fun d _ => directive_avoids r d.val

/-! ## Choices -/

/-- The bodies in a list of items lead to labels that there are, and to none of `X`. -/
def ItemList.Spare (X : Label → Prop) (n : Nat) (xs : ItemList) : Prop :=
  ∀ b ∈ xs.bodies, b.exit.Spare X n

theorem ItemList.Spare.mono {k : Nat} {xs : ItemList} (h : ItemList.Spare X n xs) (hk : n ≤ k) :
    ItemList.Spare X k xs :=
  fun b hb => (h b hb).mono hk

/-- The bodies of two lists of items leave away from the labels if those of both do. -/
theorem ItemList.Spare.append {xs ys : ItemList} (hx : ItemList.Spare X n xs)
    (hy : ItemList.Spare X n ys) : ItemList.Spare X n (xs.append ys) := by
  intro b hb
  rcases List.mem_append.mp hb with hb | hb
  · exact hx b hb
  · exact hy b hb

theorem ItemList.Spare.nil (k : Nat) : ItemList.Spare X n ⟨k, []⟩ := by
  intro b hb
  cases hb

/-- An option leads to the label behind the choice or to that of a section. -/
theorem optionExit_avoids {next : Label} (hnext : next.Spare X n) (target : Option Ident) :
    Avoids X n (fun k l => l.Spare X k) (optionExit next target) := by
  cases target with
  | none => exact .pure fun _ hk => hnext.mono hk
  | some x => exact sectionLabel_avoids x

theorem guard_avoids (r : Registry) (g : Option Expr) : Spares X n (Lower.guard r g) := by
  cases g with
  | none => exact emit_avoids _
  | some e => exact (checkKind_avoids r e _).seq fun _ => (emit_avoids _).seq fun _ => expr_avoids r e

/-- The body of an option is left where the option leads. -/
theorem optionEntry_avoids {exit : Label} (hexit : exit.Spare X n) (body : Option (List Stmt)) :
    Avoids X n (fun k bs => ∀ b ∈ bs, b.exit.Spare X k) (optionEntry exit body) := by
  cases body with
  | none => exact (emitTarget_avoids hexit).seq fun _ => .pure (by simp)
  | some b =>
    refine freshLabel_avoids.bind fun k _ hk hentry => (emitTarget_avoids hentry).seq fun _ => .pure ?_
    intro k' hk' b hb
    exact List.mem_singleton.mp hb ▸ hexit.mono (hk.trans hk')

mutual

/-- An item of a choice uses the label behind the choice and those of sections, and so do the exits of its
bodies. -/
theorem item_avoids (r : Registry) {n : Nat} {next : Label} (hnext : next.Spare X n) :
    (i : ChoiceItem) → Avoids X n (ItemList.Spare X) (item r next i)
  | .option guard text target body _ => by
    unfold item
    refine (optionExit_avoids hnext target).bind fun _ _ _ hexit => (emit_avoids _).seq fun _ => ?_
    refine (optionEntry_avoids hexit body).bind fun _ _ _ hbodies => (guard_avoids r guard).seq fun _ => ?_
    refine (segments_avoids r text).seq fun _ => .pure ?_
    intro k hk b hb
    exact (hbodies b hb).mono hk
  | .filter branches otherwise _ => by
    unfold item
    refine (filterBranches_avoids r hnext _ branches).bind fun _ _ hk hinside => ?_
    refine (filterOtherwise_avoids r (hnext.mono hk) otherwise).bind fun _ _ hk' hlast => ?_
    refine (emit_avoids _).seq fun _ => .pure ?_
    intro k hle
    exact ((hinside.mono (hk'.trans hle)).append (hlast.mono hle)).append (.nil 1)

/-- Items use the same labels as each of them. -/
theorem items_avoids (r : Registry) {n : Nat} {next : Label} (hnext : next.Spare X n) :
    (is : List ChoiceItem) → Avoids X n (ItemList.Spare X) (items r next is)
  | [] => by
    unfold items
    exact .pure fun _ _ => .nil 0
  | i :: is => by
    unfold items
    refine (item_avoids r hnext i).bind fun _ _ hk hfirst => ?_
    refine (items_avoids r (hnext.mono hk) is).bind fun _ _ hk' hrest => .pure ?_
    intro k hle
    exact (hfirst.mono (hk'.trans hle)).append (hrest.mono hle)

/-- So do the branches of a filter. -/
theorem filterBranches_avoids (r : Registry) {n : Nat} {next : Label} (hnext : next.Spare X n)
    (marker : ChoiceMarker) : (bs : List (Expr × List ChoiceItem)) →
      Avoids X n (ItemList.Spare X) (filterBranches r next marker bs)
  | [] => by
    unfold filterBranches
    exact .pure fun _ _ => .nil 0
  | (e, is) :: rest => by
    have hcondition : Spares X n (condition r marker e) :=
      (emit_avoids _).seq fun _ => (checkKind_avoids r e _).seq fun _ => expr_avoids r e
    unfold filterBranches
    refine hcondition.seq fun _ => (items_avoids r hnext is).bind fun _ _ hk hfirst => ?_
    refine (filterBranches_avoids r (hnext.mono hk) _ rest).bind fun _ _ hk' hrest => .pure ?_
    intro k hle
    exact (ItemList.Spare.append (.nil 1) (hfirst.mono (hk'.trans hle))).append (hrest.mono hle)

/-- So do the items behind the branches of a filter. -/
theorem filterOtherwise_avoids (r : Registry) {n : Nat} {next : Label} (hnext : next.Spare X n) :
    (o : Option (List ChoiceItem)) → Avoids X n (ItemList.Spare X) (filterOtherwise r next o)
  | none => by
    unfold filterOtherwise
    exact .pure fun _ _ => .nil 0
  | some is => by
    unfold filterOtherwise
    refine (emit_avoids _).seq fun _ => (items_avoids r hnext is).bind fun _ _ _ his => .pure ?_
    intro k hle
    exact ItemList.Spare.append (.nil 1) (his.mono hle)

end

/-! ## Blocks -/

variable {r : Registry} {o : CompileOptions}

/-- The lowering of a statement uses the label behind it only where control may go on there. -/
def StmtAvoids (r : Registry) (o : CompileOptions) (X : Label → Prop) (x : Stmt) : Prop :=
  ∀ n (next : Label), next.index < n → (X next → ¬Falls x) → Spares X n (stmt r o next x)

/-- A statement that is cut off is reported without the use of a label. -/
theorem reportReach_avoids (x : Stmt) (reach : Reach) : Spares X n (reportReach o x reach) := by
  unfold reportReach
  cases reach with
  | cut terminatedAt =>
    dsimp only
    split
    · exact (report_avoids _).seq fun _ => pure_avoids _
    · exact pure_avoids _
  | _ => exact pure_avoids _

/-- Only the last statement of a block leads to its exit. -/
theorem successor_avoids {exit : Label} (x : Stmt) {xs : List Stmt} (hexit : exit.index < n)
    (hfalls : X exit → ¬FallsOff (x :: xs)) :
    Avoids X n (fun k next => next.index < k ∧ (X next → ¬Falls x)) (successor exit xs) := by
  cases xs with
  | nil =>
    rw [fallsOff_singleton] at hfalls
    exact .pure fun _ hk => ⟨Nat.lt_of_lt_of_le hexit hk, hfalls⟩
  | cons y ys => exact freshLabel_avoids.mono fun _ _ hnext => ⟨hnext.lt, fun h => absurd h hnext.not⟩

/-- Statements use the label of their exit only where control may fall off them. -/
theorem stmts_avoids {n : Nat} {exit : Label} {xs : List Stmt}
    (hx : ∀ x ∈ xs, StmtAvoids r o X x) (hexit : exit.index < n)
    (hfalls : X exit → xs ≠ [] → ¬FallsOff xs) (current : Label) (reach : Reach) :
    Spares X n (stmts r o exit xs current reach) := by
  induction xs generalizing n current reach with
  | nil =>
    unfold stmts
    exact pure_avoids _
  | cons x xs ih =>
    unfold stmts
    refine (reportReach_avoids x reach).seq fun _ => ?_
    refine (successor_avoids x hexit fun h => hfalls h (List.cons_ne_nil _ _)).bind ?_
    intro k next hk hnext
    refine (bindLabel_avoids current).seq fun _ => ?_
    refine (hx x (List.mem_cons_self ..) k next hnext.1 hnext.2).seq fun _ => ?_
    refine ih (fun y hy => hx y (List.mem_cons_of_mem _ hy)) (Nat.lt_of_lt_of_le hexit hk) ?_ _ _
    intro h hne
    obtain ⟨y, ys, rfl⟩ := List.exists_cons_of_ne_nil hne
    rw [← fallsOff_cons_cons (x := x)]
    exact hfalls h (List.cons_ne_nil _ _)

/-- The lowering of a block uses its exit only where control may fall off it. -/
theorem block_avoids {entry exit : Label} {b : List Stmt} (hb : ∀ x ∈ b, StmtAvoids r o X x)
    (hexit : exit.index < n) (hfalls : X exit → ¬FallsOff b) :
    Spares X n (block r o entry exit b) := by
  cases b with
  | nil =>
    unfold block
    exact redirect_avoids entry ⟨hexit, fun h => hfalls h .nil⟩
  | cons x xs =>
    unfold block
    refine (successor_avoids x hexit hfalls).bind fun k next hk hnext => ?_
    refine (bindLabel_avoids entry).seq fun _ => ?_
    refine (hb x (List.mem_cons_self ..) k next hnext.1 hnext.2).seq fun _ => ?_
    refine stmts_avoids (fun y hy => hb y (List.mem_cons_of_mem _ hy))
      (Nat.lt_of_lt_of_le hexit hk) ?_ _ _
    intro h hne
    obtain ⟨y, ys, rfl⟩ := List.exists_cons_of_ne_nil hne
    rw [← fallsOff_cons_cons (x := x)]
    exact hfalls h

/-- Blocks use the labels of their exits only where control may fall off them. -/
theorem blocks_avoids {bs : List (List Stmt)} {ls : List BodyLabels}
    (hb : ∀ b ∈ bs, ∀ x ∈ b, StmtAvoids r o X x) (hexit : ∀ l ∈ ls, l.exit.index < n)
    (hfalls : ∀ b ∈ bs, ∀ l ∈ ls, X l.exit → ¬FallsOff b) : Spares X n (blocks r o bs ls) := by
  induction bs generalizing ls with
  | nil => exact pure_avoids _
  | cons b bs ih =>
    cases ls with
    | nil => exact pure_avoids _
    | cons l ls =>
      refine (block_avoids (hb b (List.mem_cons_self ..)) (hexit l (List.mem_cons_self ..)) ?_).seq
        fun _ => ih ?_ ?_ ?_
      · exact hfalls b (List.mem_cons_self ..) l (List.mem_cons_self ..)
      · intro c hc
        exact hb c (List.mem_cons_of_mem _ hc)
      · intro m hm
        exact hexit m (List.mem_cons_of_mem _ hm)
      · intro c hc m hm
        exact hfalls c (List.mem_cons_of_mem _ hc) m (List.mem_cons_of_mem _ hm)

/-! ## Statements -/

/-- New labels are none of those avoided. -/
theorem freshLabels_avoids (k : Nat) :
    Avoids X n (fun k ls => ∀ l ∈ ls, l.Spare X k) (freshLabels k) := by
  induction k generalizing n with
  | zero => exact .pure (by simp)
  | succ k ih =>
    refine freshLabel_avoids.bind fun _ _ _ hl => ih.bind fun _ _ hle hls => .pure ?_
    intro k' hk'
    refine List.forall_mem_cons.mpr ⟨hl.mono (hle.trans hk'), ?_⟩
    intro m hm
    exact (hls m hm).mono hk'

/-- Conditions use the labels of their branches. -/
theorem conditions_avoids (bs : List (Expr × List Stmt)) {ls : List Label}
    (hls : ∀ l ∈ ls, l.Spare X n) : Spares X n (conditions r bs ls) := by
  induction bs generalizing ls with
  | nil => exact pure_avoids _
  | cons b bs ih =>
    cases ls with
    | nil => exact pure_avoids _
    | cons l ls =>
      refine (checkKind_avoids r b.1 _).seq fun _ => (expr_avoids r b.1).seq fun _ => ?_
      refine (emitTarget_avoids (hls l (List.mem_cons_self ..))).seq fun _ => ih ?_
      intro m hm
      exact hls m (List.mem_cons_of_mem _ hm)

/-- A conditional uses the label behind it only where control may go on there: off a block, or past all
branches. -/
theorem conditional_avoids {branches : List (Expr × List Stmt)} {otherwise : Option (List Stmt)}
    {span : Span} (hx : ∀ p ∈ (Stmt.conditional branches otherwise span).blocks, ∀ x ∈ p.2,
      StmtAvoids r o X x) : StmtAvoids r o X (.conditional branches otherwise span) := by
  intro n next hnext hfalls
  have hbranch : ∀ b ∈ branches.map Prod.snd,
      (none, b) ∈ (Stmt.conditional branches otherwise span).blocks := by
    intro b hb
    obtain ⟨c, hc, rfl⟩ := List.mem_map.mp hb
    exact List.mem_append_left _ (List.mem_map.mpr ⟨c, hc, rfl⟩)
  have hlast : (none, otherwise.getD []) ∈ (Stmt.conditional branches otherwise span).blocks :=
    List.mem_append_right _ (List.mem_singleton_self _)
  -- a block that control falls off lets the whole conditional be left
  have hblock : ∀ b, (none, b) ∈ (Stmt.conditional branches otherwise span).blocks →
      X next → ¬FallsOff b :=
    fun b hb h hoff => hfalls h (falls_conditional.mpr ⟨b, hb, hoff⟩)
  unfold stmt
  refine (freshLabels_avoids _).bind fun k entries hk hentries => ?_
  refine freshLabel_avoids.bind fun k' last hk' hlabel => (emit_avoids _).seq fun _ => ?_
  refine (emitTarget_avoids hlabel).seq fun _ => (emitCount_avoids _).seq fun _ => ?_
  refine (conditions_avoids branches fun l hl => (hentries l hl).mono hk').seq fun _ => ?_
  have hexit : next.index < k' := Nat.lt_of_lt_of_le hnext (hk.trans hk')
  rw [branchBodies_eq, otherwiseBody_eq]
  refine (blocks_avoids ?_ ?_ ?_).seq fun _ => block_avoids (hx _ hlast) hexit (hblock _ hlast)
  · intro b hb
    exact hx _ (hbranch b hb)
  · intro l hl
    obtain ⟨m, _, rfl⟩ := List.mem_map.mp hl
    exact hexit
  · intro b hb l hl
    obtain ⟨m, _, rfl⟩ := List.mem_map.mp hl
    exact hblock b (hbranch b hb)

/-- A choice uses the label behind it only where control may go on there. -/
theorem choice_avoids {is : List ChoiceItem} {span : Span}
    (hx : ∀ p ∈ (Stmt.choice is span).blocks, ∀ x ∈ p.2, StmtAvoids r o X x) :
    StmtAvoids r o X (.choice is span) := by
  intro n next hnext hfalls
  have hspare : next.Spare X n := ⟨hnext, fun h => hfalls h (.choice is span)⟩
  unfold stmt
  refine (report_avoids _).seq fun _ => (emit_avoids _).seq fun _ =>
    (emitTarget_avoids hspare).seq fun _ => reserve_avoids.seq fun count => ?_
  refine (items_avoids r hspare is).bind fun k list _ hlist => (fill_avoids count _).seq fun _ => ?_
  rw [optionBodies_eq, consume]
  refine Avoids.seq (Avoids.seq (blocks_avoids ?_ ?_ ?_) fun _ => pure_avoids _) fun _ => pure_avoids _
  · intro b hb
    obtain ⟨p, hp, rfl⟩ := List.mem_map.mp hb
    exact hx p hp
  · intro l hl
    exact (hlist l hl).lt
  · intro b _ l hl h
    exact absurd h (hlist l hl).not

/-- A statement uses the label behind it only where control may fall off, by recursion into its blocks. -/
theorem stmt_avoids (r : Registry) (o : CompileOptions) (X : Label → Prop) (x : Stmt) :
    StmtAvoids r o X x := by
  induction x using Stmt.induction with
  | step x ih =>
    cases x with
    | conditional branches otherwise span => exact conditional_avoids ih
    | choice items span => exact choice_avoids ih
    | line x =>
      intro n next hnext hfalls
      unfold stmt
      exact line_avoids r x ⟨hnext, fun h => hfalls h (.line x)⟩
    | instruction e =>
      intro n next hnext hfalls
      have hspare : next.Spare X n := ⟨hnext, fun h => hfalls h (.instruction e)⟩
      unfold stmt
      exact (report_avoids _).seq fun _ => (emit_avoids _).seq fun _ =>
        (emitTarget_avoids hspare).seq fun _ => expr_avoids r e
    | goto x =>
      intro n next _ _
      unfold stmt
      exact (sectionLabel_avoids x).bind fun _ _ _ hl => (emit_avoids _).seq fun _ =>
        (emitTarget_avoids hl).seq fun _ => (emit_avoids _).seq fun _ => emitTarget_avoids hl
    | finish span =>
      intro n next _ _
      unfold stmt
      exact emit_avoids _
    | hash h =>
      intro n next hnext hfalls
      have hspare : next.Spare X n := ⟨hnext, fun hX => hfalls hX (.hash h)⟩
      unfold stmt
      exact (emit_avoids _).seq fun _ => (emitTarget_avoids hspare).seq fun _ => hash_avoids r h
    | speaker x h span =>
      intro n next hnext hfalls
      have hspare : next.Spare X n := ⟨hnext, fun hX => hfalls hX (.speaker x h span)⟩
      unfold stmt
      exact (speaker_avoids _).seq fun i => (emit_avoids _).seq fun _ =>
        (emitTarget_avoids hspare).seq fun _ => (emit_avoids i).seq fun _ => hash_avoids r h

end Lower

end Colloquy
