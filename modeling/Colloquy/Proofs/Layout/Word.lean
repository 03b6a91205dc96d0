import Colloquy.Proofs.Layout.Draft

/-!
# What single steps lay down

Words, places in pools, labels and reports: one statement for each step that the lowering of a story is
made of.  Larger steps are put together from these and never look into a draft.
-/

namespace Colloquy

namespace Lower

variable {P : Float → Prop} {α : Type}

/-! ## Words -/

/-- A word is laid down where the draft ends, and the draft ends one further. -/
theorem emit_lays (w : UInt32) :
    Lays P (emit w) fun A s _ t => A.script.words[s]? = some w ∧ t = s + 1 := by
  intro d hd
  have hoffset : (emit w d).2.assembly.offset = d.assembly.offset + 1 := Array.size_push w
  refine ⟨{ Draft.Step.refl [] d with offset_le := by omega, word := ?_ },
    { hd with gap_lt := ?_, bound_le := ?_ }, ?_⟩
  · intro i hi
    exact Array.getElem?_push_lt hi ▸ (Array.getElem?_eq_getElem hi).symm
  · intro g hg
    have := hd.gap_lt g hg
    omega
  · intro l n hl
    have := hd.bound_le l n hl
    omega
  · intro A _ h
    refine ⟨?_, hoffset⟩
    rw [h.word _ (Nat.le_refl _) (by omega) fun g hg => Nat.ne_of_lt (hd.gap_lt g hg)]
    exact Array.getElem?_push_size

theorem emitCount_lays (n : Nat) :
    Lays P (emitCount n) fun A s _ t => A.Holds s n ∧ t = s + 1 := emit_lays _

/-- A word that waits for a label is filled with where the label leads. -/
theorem emitTarget_lays (l : Label) :
    Lays P (emitTarget l) fun A s _ t =>
      (A.Holds s (A.target l) ∧ A.Leads l (A.target l)) ∧ t = s + 1 := by
  intro d hd
  have hword := emit_lays (P := P) 0xFFFFFFFF d hd
  have hoffset : (emitTarget l d).2.assembly.offset = d.assembly.offset + 1 := Array.size_push _
  have hgaps : ∀ g, g ∈ (emitTarget l d).2.assembly.gaps ↔
      g ∈ d.assembly.gaps ∨ g = ⟨d.assembly.offset, l⟩ := fun g => Array.mem_push
  refine ⟨{ hword.step with gap_mem := ?_, gap_new := ?_ },
    { hword.valid with gap_lt := ?_, gap_inj := ?_ }, ?_⟩
  · intro g hg
    exact (hgaps g).mpr (.inl hg)
  · intro g hg
    rcases (hgaps g).mp hg with hg | rfl
    · exact .inl hg
    · exact .inr (Nat.le_refl _)
  · intro g hg
    rcases (hgaps g).mp hg with hg | rfl
    · have := hd.gap_lt g hg
      omega
    · exact hoffset ▸ Nat.lt_succ_self _
  · intro g hg g' hg' heq
    rcases (hgaps g).mp hg with hg | rfl <;> rcases (hgaps g').mp hg' with hg' | rfl
    · exact hd.gap_inj g hg g' hg' heq
    · exact absurd heq (Nat.ne_of_lt (hd.gap_lt g hg))
    · exact absurd heq.symm (Nat.ne_of_lt (hd.gap_lt g' hg'))
    · rfl
  · intro A _ h
    exact ⟨h.gap ⟨_, l⟩ ((hgaps _).mpr (.inr rfl)) (Nat.le_refl _), hoffset⟩

theorem emitTarget_awaits (l : Label) (d : Draft) :
    (emitTarget l d).2.Awaits d.assembly.offset l :=
  ⟨⟨d.assembly.offset, l⟩, Array.mem_push_self, Nat.le_refl _, 0, .refl l⟩

/-! ## Places -/

/-- Interning finds a place that holds a value which shares it, and keeps the places there are. -/
theorem intern_spec {same : α → α → Bool} (hsame : ∀ a, same a a = true) (pool : Array α) (a : α) :
    ∃ i b, Assembly.intern same pool a = (UInt32.ofNat i, (Assembly.intern same pool a).2) ∧
      (Assembly.intern same pool a).2[i]? = some b ∧ same a b = true ∧
      (∀ (j : Nat) x, pool[j]? = some x → (Assembly.intern same pool a).2[j]? = some x) ∧
      ∀ x ∈ (Assembly.intern same pool a).2, x ∈ pool ∨ x = a := by
  unfold Assembly.intern
  cases h : pool.findIdx? (same a) with
  | some i =>
    obtain ⟨hi, hsame, _⟩ := Array.findIdx?_eq_some_iff_getElem.mp h
    exact ⟨i, pool[i], rfl, Array.getElem?_eq_getElem hi, hsame, fun _ _ hx => hx,
      fun x hx => .inl hx⟩
  | none =>
    refine ⟨pool.size, a, rfl, Array.getElem?_push_size, hsame a, ?_, fun x hx => Array.mem_push.mp hx⟩
    intro j x hx
    obtain ⟨hj, rfl⟩ := Array.getElem?_eq_some_iff.mp hx
    exact Array.getElem?_push_lt hj

/-- A place below the size of an addressable pool keeps its value as a word. -/
theorem getElem?_toNat_ofNat {pool : Array α} {i : Nat} {a : α} (h : pool[i]? = some a)
    (hsize : pool.size < UInt32.size) : pool[(UInt32.ofNat i).toNat]? = some a := by
  obtain ⟨hi, _⟩ := Array.getElem?_eq_some_iff.mp h
  rwa [UInt32.toNat_ofNat_of_lt' (by omega)]

/-- The place of a string holds the string, and no word is laid down. -/
theorem string_lays (x : String) :
    Lays P (string x) fun A s i t => A.script.strings[i.toNat]? = some x ∧ t = s := by
  intro d hd
  have hself : ∀ y : String, (y == y) = true := fun y => beq_self_eq_true y
  obtain ⟨i, b, heq, hb, hsame, hold, _⟩ := intern_spec hself d.assembly.script.strings x
  obtain rfl : x = b := by simpa using hsame
  refine ⟨{ Draft.Step.refl [] d with string := hold }, { hd with }, ?_⟩
  intro A hA h
  have hi : (string x d).1 = UInt32.ofNat i := congrArg Prod.fst heq
  rw [hi]
  exact ⟨getElem?_toNat_ofNat (h.string i x hb) hA.addressable.strings, rfl⟩

/-- The place of a speaker holds the speaker, and no word is laid down. -/
theorem speaker_lays (x : String) :
    Lays P (speaker x) fun A s i t => A.script.speakers[i.toNat]? = some x ∧ t = s := by
  intro d hd
  have hself : ∀ y : String, (y == y) = true := fun y => beq_self_eq_true y
  obtain ⟨i, b, heq, hb, hsame, hold, _⟩ := intern_spec hself d.assembly.script.speakers x
  obtain rfl : x = b := by simpa using hsame
  refine ⟨{ Draft.Step.refl [] d with speaker := hold }, { hd with }, ?_⟩
  intro A hA h
  have hi : (speaker x d).1 = UInt32.ofNat i := congrArg Prod.fst heq
  rw [hi]
  exact ⟨getElem?_toNat_ofNat (h.speaker i x hb) hA.addressable.speakers, rfl⟩

/-- A float shares a place with itself: it compares as equal to itself, or it is no number. -/
theorem sameFloat_self (x : Float) : Assembly.sameFloat x x = true := by
  show (x.toModel.unpack.isNaN && x.toModel.unpack.isNaN ||
    x.toModel.unpack.compare x.toModel.unpack == some .eq) = true
  generalize x.toModel.unpack = u
  cases u with
  | notANumber => rfl
  | infinity s => cases s <;> rfl
  | zero s => cases s <;> rfl
  | finite s m e hm =>
    have hself : (compare e e).then (compare m m) = .eq := by
      rw [Ordering.then_eq_eq, Std.compare_eq_iff_eq, Std.compare_eq_iff_eq]
      exact ⟨rfl, rfl⟩
    cases s with
    | positive =>
      show (some ((compare e e).then (compare m m)) == some .eq) = true
      rw [hself]
      rfl
    | negative =>
      show (some ((compare e e).then (compare m m)).swap == some .eq) = true
      rw [hself]
      rfl

/-- The place of a float holds a float that shares it. -/
theorem float_lays {x : Float} (hx : P x) :
    Lays P (fetch (·.float x)) fun A s i t =>
      (∃ y, A.script.floats[i.toNat]? = some y ∧ Assembly.sameFloat x y = true ∧ P y) ∧ t = s := by
  intro d hd
  obtain ⟨i, y, heq, hy, hsame, hold, hmem⟩ :=
    intern_spec sameFloat_self d.assembly.script.floats x
  have hfloat : ∀ z ∈ (Assembly.intern Assembly.sameFloat d.assembly.script.floats x).2, P z := by
    intro z hz
    rcases hmem z hz with hz | rfl
    · exact hd.float z hz
    · exact hx
  refine ⟨{ Draft.Step.refl [] d with float := hold }, { hd with float := hfloat }, ?_⟩
  intro A hA h
  have hi : (fetch (·.float x) d).1 = UInt32.ofNat i := congrArg Prod.fst heq
  rw [hi]
  exact ⟨⟨y, getElem?_toNat_ofNat (h.float i y hy) hA.addressable.floats, hsame,
    hfloat y (Array.mem_of_getElem? hy)⟩, rfl⟩

/-! ## Reports -/

/-- What is reported is in the diagnostics, and no word is laid down. -/
theorem report_lays (errors : List CompileError) :
    Lays P (report errors) fun A s _ t => A.Reports errors ∧ t = s := by
  intro d hd
  refine ⟨{ Draft.Step.refl [] d with error := ?_ }, { hd with }, ?_⟩
  · intro e he
    exact List.mem_append_left _ he
  · intro A _ h
    exact ⟨fun e he => h.error e (List.mem_append_right _ he), rfl⟩

/-! ## Labels -/

/-- A fresh label changes nothing about where the others lead. -/
@[simp] theorem destination_freshLabel (a : Assembly) (l : Label) :
    (a.freshLabel).2.destination l = a.destination l := by
  simp only [Assembly.destination, Assembly.freshLabel, Array.getD_eq_getD_getElem?,
    Array.getElem?_push]
  split
  · next h => rw [h, Array.getElem?_eq_none (Nat.le_refl _)]; rfl
  · rfl

/-- A label that is set leads where it is set to, and the others lead where they did. -/
theorem destination_set {a : Assembly} {l : Label} {x : Destination}
    (hl : l.index < a.labels.size) (m : Label) :
    ({ a with labels := a.labels.setIfInBounds l.index x } : Assembly).destination m
      = if m = l then x else a.destination m := by
  simp only [Assembly.destination, Array.getD_eq_getD_getElem?, Array.getElem?_setIfInBounds]
  by_cases h : m = l
  · subst h
    rw [if_pos rfl, if_pos hl, if_pos rfl]
    rfl
  · have hindex : l.index ≠ m.index := by
      intro heq
      cases l; cases m
      exact h (congrArg Label.mk heq.symm)
    rw [if_neg hindex, if_neg h]

/-- Nothing is laid down for a fresh label. -/
theorem freshLabel_lays : Lays P freshLabel fun _ s _ t => t = s := by
  intro d hd
  have hsize : (freshLabel d).2.assembly.labels.size = d.assembly.labels.size + 1 :=
    Array.size_push _
  have hdest := destination_freshLabel d.assembly
  refine ⟨{ Draft.Step.refl [] d with labels_le := by omega, bound := ?_, spared := ?_ },
    { hd with bound_le := ?_, section_lt := ?_, undeclared := ?_ }, ?_⟩
  · intro l _
    exact hdest l
  · intro l _ _
    exact hdest l
  · intro l n hl
    exact hd.bound_le l n ((hdest l).symm.trans hl)
  · intro name e he
    have := hd.section_lt name e he
    omega
  · intro name e he hn
    exact (hdest _).trans (hd.undeclared name e he hn)
  · intro A _ _
    rfl

/-- A new label is left for later. -/
theorem freshLabel_made {d : Draft} (hd : d.Valid P) :
    Made d (freshLabel d).2 [(freshLabel d).1] where
  nodup := List.nodup_singleton _
  fresh l hl := by
    obtain rfl := List.mem_singleton.mp hl
    refine ⟨?_, ?_, ?_⟩
    · exact Nat.lt_of_lt_of_eq (Nat.lt_succ_self _) (Array.size_push _).symm
    · exact (destination_freshLabel d.assembly _).trans
        (Assembly.destination_of_size_le (Nat.le_refl _))
    · intro name e he _ heq
      have hlt := hd.section_lt name e he
      rw [heq] at hlt
      exact Nat.lt_irrefl _ hlt
  new l hl := by
    obtain rfl := List.mem_singleton.mp hl
    exact Nat.le_refl _

/-- A label that waits for it is sent somewhere. -/
theorem setLabel_emits {d d' : Draft} {l : Label} {x : Destination} (hd : d.Valid P) (hl : d.Fresh l)
    (hx : ∀ n, x = .offset n → n = d.assembly.offset)
    (hd' : d' = { d with assembly := { d.assembly with
      labels := d.assembly.labels.setIfInBounds l.index x } }) :
    Emits P [l] d d' fun A => ∀ n m, (x = .offset n → A.target l = n) ∧
      (x = .redirected m → A.target l = A.target m) := by
  subst hd'
  have hdest := destination_set (x := x) hl.lt
  have hother : ∀ m, m ≠ l → ({ d.assembly with
      labels := d.assembly.labels.setIfInBounds l.index x } : Assembly).destination m
        = d.assembly.destination m :=
    fun m hm => (hdest m).trans (if_neg hm)
  have hsize : (d.assembly.labels.setIfInBounds l.index x).size = d.assembly.labels.size :=
    Array.size_setIfInBounds
  refine ⟨{ Draft.Step.refl [l] d with labels_le := Nat.le_of_eq hsize.symm, bound := ?_, spared := ?_ },
    { hd with bound_le := ?_, section_lt := ?_, undeclared := ?_ }, ?_⟩
  · intro m hm
    apply hother
    rintro rfl
    exact hm hl.unbound
  · intro m _ hm
    exact hother m (by simpa using hm)
  · intro m n hm
    by_cases hml : m = l
    · subst hml
      exact Nat.le_of_eq (hx n (((hdest m).trans (if_pos rfl)).symm.trans hm))
    · exact hd.bound_le m n ((hother m hml).symm.trans hm)
  · intro name e he
    exact Nat.lt_of_lt_of_eq (hd.section_lt name e he) hsize.symm
  · intro name e he hn
    exact (hother e.label (hl.ne name e he hn)).trans (hd.undeclared name e he hn)
  · intro A _ h n m
    constructor
    · rintro rfl
      exact h.offset l n ((hdest l).trans (if_pos rfl))
    · rintro rfl
      exact (h.redirected l m ((hdest l).trans (if_pos rfl))).1

/-- Binding a label that waits for it sends it to the next word. -/
theorem bindLabel_emits {d : Draft} {l : Label} (hd : d.Valid P) (hl : d.Fresh l) :
    Emits P [l] d (bindLabel l d).2 fun A => A.target l = d.assembly.offset :=
  (setLabel_emits hd hl (fun _ h => (Destination.offset.inj h).symm) rfl).mono
    fun _ _ _ h => (h d.assembly.offset l).1 rfl

/-- A label that is redirected leads where the other one leads. -/
theorem redirect_emits {d : Draft} {l m : Label} (hd : d.Valid P) (hl : d.Fresh l) :
    Emits P [l] d (update (·.redirect l m) d).2 fun A => A.target l = A.target m := by
  by_cases hlm : l = m
  · subst hlm
    have : (update (·.redirect l l) d).2 = d := by
      simp [update, Assembly.redirect, modify, modifyGet, MonadStateOf.modifyGet, StateT.modifyGet,
        pure]
    rw [this]
    exact ⟨.refl _ _, hd, fun _ _ _ => rfl⟩
  · have : (update (·.redirect l m) d).2 = { d with assembly := { d.assembly with
        labels := d.assembly.labels.setIfInBounds l.index (.redirected m) } } := by
      simp [update, Assembly.redirect, hlm, modify, modifyGet, MonadStateOf.modifyGet,
        StateT.modifyGet, pure]
    exact (setLabel_emits hd hl (by simp) this).mono fun _ _ _ h => (h 0 m).2 rfl

/-- Sending a label on lays no word down. -/
theorem redirect_offset (d : Draft) (l m : Label) :
    (update (·.redirect l m) d).2.assembly.offset = d.assembly.offset := by
  show (d.assembly.redirect l m).offset = _
  rw [Assembly.redirect]
  split <;> rfl

/-- Words that wait for a redirected label wait for the other one. -/
theorem redirect_awaits {d : Draft} {l m : Label} {lo : Nat} (hd : d.Valid P) (hl : d.Fresh l)
    (h : d.Awaits lo l) : (update (·.redirect l m) d).2.Awaits lo m := by
  obtain ⟨g, hg, hlo, k, hk⟩ := h.step (redirect_emits (m := m) hd hl).step
  refine ⟨g, hg, hlo, ?_⟩
  by_cases hlm : l = m
  · subst hlm
    exact ⟨k, hk⟩
  · have hdest : (update (·.redirect l m) d).2.assembly.destination l = .redirected m := by
      show (d.assembly.redirect l m).destination l = _
      rw [Assembly.redirect, if_neg hlm, destination_set hl.lt, if_pos rfl]
    exact ⟨k + 1, hk.trans (.step hdest (.refl m))⟩

/-! ## Sections -/

/-- A mention of a label is kept. -/
theorem mention_lays (l : Label) (x : Ident) :
    Lays P (update (·.mention l x)) fun A s _ t =>
      (A.bound l ∨ .unknownSection x.name x.span ∈ A.errors) ∧ t = s := by
  intro d hd
  refine ⟨{ Draft.Step.refl [] d with mention := ?_ }, { hd with }, ?_⟩
  · intro m hm
    exact Array.mem_push_of_mem _ hm
  · intro A _ h
    exact ⟨h.mention ⟨l, x⟩ Array.mem_push_self, rfl⟩

/-- A name that was not met yet gets a new label. -/
theorem insertSection_emits {d : Draft} {name : String} (hd : d.Valid P)
    (hname : d.sections.find? name = none) :
    Emits P [] d { (freshLabel d).2 with
      sections := d.sections.insert name ⟨(freshLabel d).1, none⟩ } fun A =>
        A.sections.find? name = some ⟨(freshLabel d).1, none⟩ := by
  have hfresh := freshLabel_lays d hd
  have hmade := freshLabel_made hd
  have hfind : ∀ k e, (d.sections.insert name ⟨(freshLabel d).1, none⟩).find? k = some e →
      d.sections.find? k = some e ∨ e = ⟨(freshLabel d).1, none⟩ := by
    intro k e he
    rw [Catalog.find?_insert] at he
    split at he
    · exact .inr (Option.some.inj he).symm
    · exact .inl he
  refine ⟨{ hfresh.step with known := ?_, new := ?_ },
    { hfresh.valid with section_lt := ?_, undeclared := ?_ }, ?_⟩
  · intro k e he
    rw [Catalog.find?_insert_of_ne _ _ (by rintro rfl; rw [hname] at he; cases he)]
    exact he
  · intro k e he
    rcases hfind k e he with he | rfl
    · exact .inl he
    · exact .inr ⟨Nat.le_refl _, rfl⟩
  · intro k e he
    rcases hfind k e he with he | rfl
    · exact hfresh.valid.section_lt k e he
    · exact (hmade.fresh _ (List.mem_singleton_self _)).lt
  · intro k e he hn
    rcases hfind k e he with he | rfl
    · exact hfresh.valid.undeclared k e he hn
    · exact (hmade.fresh _ (List.mem_singleton_self _)).unbound
  · intro A _ h
    exact h.section_find name _ (Catalog.find?_insert_self _ _ _)

/-- The label of a section name stays its label, and the mention is kept. -/
theorem sectionLabel_lays (x : Ident) :
    Lays P (sectionLabel x) fun A s l t => A.Mentions x l ∧ t = s := by
  intro d hd
  cases hx : d.sections.find? x.name with
  | some e =>
    have hrun : sectionLabel x d = (e.label, (update (·.mention e.label x) d).2) := by
      simp only [sectionLabel, bind_apply, get_apply, hx]
      rfl
    have hmention := mention_lays e.label x d hd
    rw [hrun]
    refine ⟨hmention.step, hmention.valid, ?_⟩
    intro A hA h
    have hlabel : A.Labels x e.label := ⟨e, h.section_find x.name e hx, rfl⟩
    exact ⟨⟨hlabel, (hmention.layout A hA h).1⟩, rfl⟩
  | none =>
    have hrun : sectionLabel x d = ((freshLabel d).1, (update (·.mention (freshLabel d).1 x)
        { (freshLabel d).2 with
          sections := d.sections.insert x.name ⟨(freshLabel d).1, none⟩ }).2) := by
      simp only [sectionLabel, bind_apply, get_apply, hx]
      rfl
    have hinsert := insertSection_emits hd hx
    have hmention := mention_lays (freshLabel d).1 x _ hinsert.valid
    rw [hrun]
    refine (hinsert.seq hmention (by simp) (by simp)).mono ?_
    intro A _ _ hq
    have hlabel : A.Labels x (freshLabel d).1 := ⟨_, hq.1, rfl⟩
    exact ⟨⟨hlabel, hq.2.1⟩, rfl⟩

/-! ## Words filled in later -/

/-- A word is reserved, what follows is laid down, and the word is filled in. -/
theorem reserve_fill {d d' : Draft} {own : List Label} {Q : Artifact → Prop} (w : UInt32)
    (hd : d.Valid P) (h : Emits P own (fetch Assembly.reserve d).2 d' Q) :
    Emits P own d (update (·.fill d.assembly.offset w) d').2 fun A =>
      A.script.words[d.assembly.offset]? = some w ∧ Q A := by
  have hreserve := emit_lays 0xFFFFFFFF d hd
  have hstep : d.Step own d' := hreserve.step.trans h.step (by simp) fun l hl => .inl hl
  have hlt : d.assembly.offset < d'.assembly.offset :=
    Nat.lt_of_lt_of_le (Nat.lt_of_lt_of_eq (Nat.lt_succ_self _) (Array.size_push _).symm)
      h.step.offset_le
  have hoffset : (update (·.fill d.assembly.offset w) d').2.assembly.offset = d'.assembly.offset :=
    Array.size_setIfInBounds
  have hother : ∀ i, i ≠ d.assembly.offset →
      (update (·.fill d.assembly.offset w) d').2.assembly.script.words[i]?
        = d'.assembly.script.words[i]? := by
    intro i hi
    exact Array.getElem?_setIfInBounds_ne (Ne.symm hi)
  refine ⟨{ hstep with offset_le := ?_, word := ?_ }, { h.valid with gap_lt := ?_, bound_le := ?_ }, ?_⟩
  · exact hoffset ▸ hstep.offset_le
  · intro i hi
    rw [hother i (Nat.ne_of_lt hi), hstep.word i hi]
  · intro g hg
    exact hoffset ▸ h.valid.gap_lt g hg
  · intro l n hl
    exact hoffset ▸ h.valid.bound_le l n hl
  · intro A hA ha
    -- no gap stands at the reserved word: those before are below it, those after above it
    have hgap : ∀ g ∈ d'.assembly.gaps, g.offset ≠ d.assembly.offset := by
      intro g hg heq
      rcases h.step.gap_new g hg with hg | hle
      · exact absurd heq (Nat.ne_of_lt (hd.gap_lt g hg))
      · have : d.assembly.offset + 1 ≤ g.offset := (Array.size_push _).symm ▸ hle
        omega
    refine ⟨?_, h.layout A hA ?_⟩
    · rw [ha.word _ (Nat.le_refl _) (hoffset ▸ hlt) hgap]
      exact Array.getElem?_setIfInBounds_self_of_lt hlt
    · have hraised := ha.raise hreserve.step.offset_le
      refine { hraised with offset_le := ?_, word := ?_ }
      · exact hoffset ▸ hraised.offset_le
      · intro i hlo hi hg
        have hle : d.assembly.offset + 1 ≤ i := (Array.size_push _).symm ▸ hlo
        rw [hraised.word i hlo (hoffset ▸ hi) hg, hother i (by omega)]

/-- Filling in a word leaves labels and what waits for them as they are. -/
theorem fill_promised {d d' : Draft} {ls : List Label} (offset : Nat) (w : UInt32)
    (h : Promised d d' ls) : Promised d (update (·.fill offset w) d').2 ls where
  nodup := h.nodup
  fresh l hl := ⟨(h.fresh l hl).lt, (h.fresh l hl).unbound, (h.fresh l hl).ne⟩
  new := h.new
  awaited l hl := by
    obtain ⟨g, hg, hlo, k, hk⟩ := h.awaited l hl
    refine ⟨g, hg, hlo, k, ?_⟩
    generalize g.label = m at hk
    clear hl
    induction hk with
    | refl l => exact .refl l
    | step hl _ ih => exact .step hl ih

/-- The same for two steps, where the result of the second tells what the word is. -/
theorem reserve_lays {m : Lower Unit} {k : Lower α} {Q : Artifact → Nat → α → Nat → Prop}
    (w : α → UInt32) (hm : Lays P (m >>= fun _ => k) Q) :
    Lays P (do
      let offset ← fetch Assembly.reserve
      m
      let a ← k
      update (·.fill offset (w a))) fun A s _ t =>
        ∃ a, A.script.words[s]? = some (w a) ∧ Q A (s + 1) a t := by
  intro d hd
  have hreserve := emit_lays 0xFFFFFFFF d hd
  have hbody := hm _ hreserve.valid
  have hstart : (emit 0xFFFFFFFF d).2.assembly.offset = d.assembly.offset + 1 := Array.size_push _
  refine (reserve_fill (w ((m >>= fun _ => k) (emit 0xFFFFFFFF d).2).1) hd hbody).mono ?_
  intro A _ _ hq
  refine ⟨_, hq.1, ?_⟩
  have hstop : (update (·.fill d.assembly.offset (w ((m >>= fun _ => k) (emit 0xFFFFFFFF d).2).1))
      ((m >>= fun _ => k) (emit 0xFFFFFFFF d).2).2).2.assembly.offset
        = ((m >>= fun _ => k) (emit 0xFFFFFFFF d).2).2.assembly.offset :=
    Array.size_setIfInBounds
  rw [← hstart]
  exact hstop.symm ▸ hq.2

end Lower

end Colloquy
