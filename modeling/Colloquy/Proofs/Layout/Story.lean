import Colloquy.Compiler.Compile
import Colloquy.Proofs.Layout.Unused

/-!
# The script of a story

A story is laid down section by section.  When all words are there the gaps are filled with the offsets
that their labels lead to, and the draft and what was reported make an `Artifact` that agrees with the
last draft.  So what the parts of the lowering promised about every such artifact holds of the script
that is compiled (`exists_compiled`).
-/

namespace Colloquy

open Code

/-- The words of a section: its entry, its body, and an end if control falls off the body. -/
structure SectionAt (P : Float → Prop) (A : Artifact) (r : Registry) (x : Section) (s t : Nat) :
    Prop where
  intro ::
  body : ∃ n i e m, A.script.decodeStatement s = .ok (.entry n i, s + 3) ∧
    A.script.strings[i]? = some x.name.name ∧ BlockAt P A r x.body (s + 3) n e m ∧
    (¬FallsOff x.body ∧ t = m ∨
      FallsOff x.body ∧ e = m ∧ A.script.decodeStatement m = .ok (.finish, m + 1) ∧ t = m + 1)

/-- A section at the offset that its label leads to. -/
def SectionBetween (P : Float → Prop) (A : Artifact) (r : Registry) (x : Section) (l : Label)
    (s t : Nat) : Prop :=
  A.target l = s ∧ SectionAt P A r x s t

namespace Lower

variable {P : Float → Prop} {r : Registry} {o : CompileOptions} {d : Draft}

/-! ## Sections -/

/-- A section up to its body. -/
def sectionHead (s : Section) (l body : Label) : Lower Unit := do
  let name ← string s.name.name
  bindLabel l
  emit StatementCode.entry.word
  emitTarget body
  emit name

/-- The head of a section is its entry, at the label of the section, with its name and the place of its
body. -/
theorem sectionHead_emits (x : Section) {l : Label} (body : Label) (hd : d.Valid P)
    (hl : d.Fresh l) :
    Emits P [l] d (sectionHead x l body d).2 fun A => A.target l = d.assembly.offset ∧
      (sectionHead x l body d).2.assembly.offset = d.assembly.offset + 3 ∧
      ∃ i, A.script.strings[i]? = some x.name.name ∧
        A.script.decodeStatement d.assembly.offset
          = .ok (.entry (A.target body) i, d.assembly.offset + 3) := by
  have hname := string_lays x.name.name d hd
  have hbind := bindLabel_emits hname.valid (hl.step hname.step (by simp))
  have hhead := header_lays StatementCode.entry.word body (emit_lays (string x.name.name d).1) _
    hbind.valid
  have hbound : Emits P [l] _ _ _ := hbind.seq hhead (by simp) (by simp)
  have hall : Emits P [l] d _ _ := hname.seq hbound (by simp) (by simp)
  refine hall.mono ?_
  rintro A _ _ ⟨⟨hi, _⟩, htarget, hw, hn, _, hword, hstop⟩
  exact ⟨htarget, hstop, _, hi, decode_entry hw hn hword⟩

theorem sectionHead_binds (x : Section) {l : Label} (body : Label) (hl : l.index < d.assembly.labels.size) :
    (sectionHead x l body d).2.assembly.destination l = .offset d.assembly.offset :=
  (destination_set hl l).trans (if_pos rfl)

/-- The place of the body is filled in later, from the label of the body. -/
theorem sectionHead_awaits (x : Section) {l : Label} (body : Label) (hd : d.Valid P)
    (hl : d.Fresh l) : (sectionHead x l body d).2.Awaits d.assembly.offset body := by
  have hname := string_lays x.name.name d hd
  have hbind := bindLabel_emits hname.valid (hl.step hname.step (by simp))
  exact header_awaits StatementCode.entry.word body (emit_lays (string x.name.name d).1) hbind.valid

/-- An end is laid down where words wait for the exit of a section. -/
theorem sectionEnd_emits {exit : Label} (hd : d.Valid P) (hexit : d.Fresh exit) :
    Emits P [exit] d (sectionEnd exit d).2 fun A =>
      (¬d.Awaits 0 exit ∧ (sectionEnd exit d).2.assembly.offset = d.assembly.offset) ∨
      d.Awaits 0 exit ∧ A.target exit = d.assembly.offset ∧
        A.script.decodeStatement d.assembly.offset = .ok (.finish, d.assembly.offset + 1) ∧
        (sectionEnd exit d).2.assembly.offset = d.assembly.offset + 1 := by
  have hawaited := Assembly.isAwaited_iff (a := d.assembly) hexit.lt
  have hcases : sectionEnd exit d = (if d.assembly.isAwaited exit then do
      bindLabel exit
      emit StatementCode.finish.word
    else pure ()) d := rfl
  by_cases h : d.assembly.isAwaited exit = true
  · have hrun : (sectionEnd exit d).2 = (emit StatementCode.finish.word (bindLabel exit d).2).2 := by
      rw [hcases, if_pos h]
      rfl
    have hbind := bindLabel_emits hd hexit
    have hword := emit_lays StatementCode.finish.word _ hbind.valid
    rw [hrun]
    refine (hbind.seq hword (by simp) (by simp)).mono ?_
    rintro A _ _ ⟨htarget, hw, hstop⟩
    obtain ⟨g, hg, hreaches⟩ := hawaited.mp h
    exact .inr ⟨⟨g, hg, Nat.zero_le _, hreaches⟩, htarget, decode_finish hw, hstop⟩
  · have hrun : (sectionEnd exit d).2 = d := by
      rw [hcases, if_neg h]
      rfl
    rw [hrun]
    refine ⟨.refl _ d, hd, ?_⟩
    intro A _ _
    refine .inl ⟨?_, rfl⟩
    rintro ⟨g, hg, _, hreaches⟩
    exact h (hawaited.mpr ⟨g, hg, hreaches⟩)

/-- Nothing leads to a label that was made last. -/
theorem freshLabel_closed (hd : d.Closed fun _ => False) :
    (freshLabel d).2.Closed (· = (freshLabel d).1) := by
  obtain ⟨hmid, _, hspare⟩ := freshLabel_avoids d (Nat.le_refl _) hd
  have hother : ∀ m : Label, m.Spare (fun _ => False) d.assembly.labels.size →
      m.Spare (· = (freshLabel d).1) (freshLabel d).2.assembly.labels.size := by
    intro m hm
    have hsize : (freshLabel d).2.assembly.labels.size = d.assembly.labels.size + 1 :=
      Array.size_push _
    refine ⟨hsize ▸ Nat.lt_succ_of_lt hm.lt, ?_⟩
    rintro rfl
    exact Nat.lt_irrefl _ hm.lt
  refine ⟨?_, ?_, ?_, ?_⟩
  · rintro m rfl
    exact hspare.lt
  · intro g hg
    exact hother _ (hd.gap g hg)
  · intro m n hm
    exact hother _ (hd.redirected m n ((destination_freshLabel d.assembly m).symm.trans hm))
  · intro name e he
    exact hother _ (hd.named name e he)

theorem sectionHead_avoids {X : Label → Prop} {n : Nat} (x : Section) (l : Label) {body : Label}
    (hbody : body.Spare X n) : Spares X n (sectionHead x l body) :=
  (string_avoids _).seq fun i => (bindLabel_avoids l).seq fun _ => (emit_avoids _).seq fun _ =>
    (emitTarget_avoids hbody).seq fun _ => emit_avoids i

/-- The words, labels and sections of a draft still lead to labels that there are. -/
theorem sectionBody_closed (r : Registry) (o : CompileOptions) (x : Section) (l : Label) {n : Nat} :
    Spares (fun _ => False) n (sectionBody r o x l) := by
  have hend : ∀ n exit, Spares (fun _ => False) n (sectionEnd exit) := by
    intro n exit d hn hd
    have hcases : sectionEnd exit d = (if d.assembly.isAwaited exit then do
        bindLabel exit
        emit StatementCode.finish.word
      else pure ()) d := rfl
    rw [hcases]
    split
    · exact ((bindLabel_avoids exit).seq fun _ => emit_avoids _) d hn hd
    · exact ⟨hd, hn, trivial⟩
  have hbody : ∀ n body exit, body.index < n → exit.index < n → Spares (fun _ => False) n (do
      sectionHead x l body
      block r o body exit x.body
      sectionEnd exit) := by
    intro n body exit hbody hexit
    refine (sectionHead_avoids x l ⟨hbody, id⟩).seq fun _ => ?_
    exact (block_avoids (fun y _ => stmt_avoids r o _ y) hexit False.elim).seq fun _ => hend n exit
  refine freshLabel_avoids.bind fun _ body _ hlt => freshLabel_avoids.bind fun _ exit hk hlt' => ?_
  exact hbody _ body exit (Nat.lt_of_lt_of_le hlt.lt hk) hlt'.lt

/-- A section is laid down at its label, which is bound then. -/
theorem sectionBody_laid (hr : r.Floats P) {x : Section} (hx : Stmt.AllMeet (Expr.Floats P) F x.body)
    {l : Label} (hd : d.Valid P) (hclosed : d.Closed fun _ => False) (hl : d.Fresh l) :
    (Emits P [l] d (sectionBody r o x l d).2 fun A => A.target l = d.assembly.offset ∧
      SectionAt P A r x d.assembly.offset (sectionBody r o x l d).2.assembly.offset) ∧
    (sectionBody r o x l d).2.assembly.destination l = .offset d.assembly.offset := by
  have hbody := freshLabel_lays d hd
  have hexit := freshLabel_lays _ hbody.valid
  have hmade := (freshLabel_made hd).append (freshLabel_made hbody.valid) hbody hexit
  have hlabels : Emits P [] d _ _ := hbody.seq hexit (by simp) (by simp)
  have hstart : (freshLabel (freshLabel d).2).2.assembly.offset = d.assembly.offset := rfl
  have hrun : (sectionBody r o x l d).2 = (sectionEnd (freshLabel (freshLabel d).2).1
      (block r o (freshLabel d).1 (freshLabel (freshLabel d).2).1 x.body
        (sectionHead x l (freshLabel d).1 (freshLabel (freshLabel d).2).2).2).2).2 := rfl
  rw [hrun]
  have hl₂ : (freshLabel (freshLabel d).2).2.Fresh l := hl.step hlabels.step (by simp)
  have hclosed₂ := freshLabel_closed (freshLabel_avoids d (Nat.le_refl _) hclosed).1
  generalize (freshLabel d).1 = body at hmade ⊢
  generalize (freshLabel (freshLabel d).2).1 = exit at hmade hclosed₂ ⊢
  generalize (freshLabel (freshLabel d).2).2 = d₂ at *
  have hold : ∀ m ∈ [body] ++ [exit], m ∉ [l] := by
    intro m hm hml
    have hnew := hmade.new m hm
    rw [List.mem_singleton.mp hml] at hnew
    have := hl.lt
    omega
  have hne : exit ∉ [body] := by
    have hnodup := hmade.nodup
    simp only [List.singleton_append, List.nodup_cons, List.mem_singleton] at hnodup
    simpa using fun h => hnodup.1 h.symm
  have hhead := sectionHead_emits x body hexit.valid hl₂
  have hawaits := sectionHead_awaits x body hexit.valid hl₂
  have hbinds := sectionHead_binds x body hl₂.lt
  have hspare : body.Spare (· = exit) d₂.assembly.labels.size :=
    ⟨(hmade.fresh body (by simp)).lt, fun h => hne (List.mem_singleton.mpr h.symm)⟩
  obtain ⟨hclosed₃, hsize, _⟩ := sectionHead_avoids x l hspare d₂ (Nat.le_refl _) hclosed₂
  generalize (sectionHead x l body d₂).2 = d₃ at hhead hawaits hbinds hclosed₃ hsize ⊢
  have hbody₃ : d₃.Fresh body :=
    (hmade.fresh body (by simp)).step hhead.step (hold body (by simp))
  have hblock := block_laid (r := r) (o := o) exit (fun y hy next d hd =>
    stmt_laid hr y (Stmt.allMeet_iff.mp hx y hy) next d hd) hhead.valid hbody₃
  -- nothing waits for the exit of a body that is never left
  have hunused : ¬FallsOff x.body → ¬(block r o body exit x.body d₃).2.Awaits 0 exit := by
    intro hfalls
    have hlt := Nat.lt_of_lt_of_le (hmade.fresh exit (by simp)).lt hsize
    have havoids : Spares (· = exit) _ (block r o body exit x.body) :=
      block_avoids (fun y _ => stmt_avoids r o _ y) hlt fun _ => hfalls
    exact (havoids d₃ (Nat.le_refl _) hclosed₃).1.not_awaits rfl 0
  generalize (block r o body exit x.body d₃).2 = d₄ at hblock hunused ⊢
  have hexit₄ : d₄.Fresh exit := ((hmade.fresh exit (by simp)).step hhead.step
    (hold exit (by simp))).step hblock.emits.step hne
  have hend := sectionEnd_emits hblock.emits.valid hexit₄
  generalize (sectionEnd exit d₄).2 = d₅ at hend ⊢
  have hrest : Emits P [body, exit] _ _ _ := hblock.emits.seq hend (by simp) (by simp)
  have hfrom : Emits P [l, body, exit] _ _ _ := hhead.seq hrest (by simp) (by simp)
  refine ⟨(hlabels.seq hfrom (by simp) ?_).mono ?_, ?_⟩
  · intro m hm
    rcases List.mem_cons.mp hm with rfl | hm
    · exact .inl (List.mem_singleton_self _)
    · exact .inr (hmade.new m hm)
  · rintro A _ _ ⟨_, ⟨htarget, hstop, i, hi, hdecode⟩, hbody, hend⟩
    rw [hstart] at htarget hstop hdecode
    rw [hstop] at hbody
    refine ⟨htarget, ⟨_, i, _, _, hdecode, hi, hbody, ?_⟩⟩
    rcases hend with ⟨hnot, hend⟩ | ⟨hwaits, htarget, hfinish, hend⟩
    · refine .inl ⟨?_, hend⟩
      intro hfalls
      exact hnot ((hblock.awaits hfalls _ hhead.step.offset_le hawaits).lower (Nat.zero_le _))
    · exact .inr ⟨Classical.not_not.mp fun h => hunused h hwaits, htarget, hfinish, hend⟩
  · rw [hrest.step.bound l (by simp [hbinds]), hbinds]
    exact congrArg Destination.offset hstart

/-- Sections are laid down one after another at their labels, and all of these are bound then. -/
theorem sectionBodies_laid (hr : r.Floats P) {xs : List Section} {ls : List Label}
    (hlength : xs.length = ls.length) (hx : ∀ x ∈ xs, Stmt.AllMeet (Expr.Floats P) F x.body) (hd : d.Valid P)
    (hclosed : d.Closed fun _ => False) (hnodup : ls.Nodup) (hfresh : ∀ l ∈ ls, d.Fresh l) :
    (Emits P ls d (sectionBodies r o xs ls d).2 fun A =>
      Row (SectionBetween P A r) xs ls d.assembly.offset
        (sectionBodies r o xs ls d).2.assembly.offset) ∧
    ∀ l ∈ ls, ∃ n, (sectionBodies r o xs ls d).2.assembly.destination l = .offset n := by
  induction xs generalizing ls d with
  | nil =>
    obtain rfl := List.length_eq_zero_iff.mp hlength.symm
    exact ⟨⟨.refl _ d, hd, fun _ _ _ => .nil _⟩, by simp⟩
  | cons x xs ih =>
    cases ls with
    | nil => cases hlength
    | cons l ls =>
      rw [List.nodup_cons] at hnodup
      obtain ⟨hfirst, hbound⟩ := sectionBody_laid (o := o) hr (hx x (List.mem_cons_self ..)) hd hclosed
        (hfresh l (List.mem_cons_self ..))
      have hclosed₁ := (sectionBody_closed r o x l d (Nat.zero_le _) hclosed).1
      have hnot : ∀ m ∈ ls, m ∉ [l] := by
        intro m hm heq
        exact hnodup.1 (List.mem_singleton.mp heq ▸ hm)
      obtain ⟨hrest, hbounds⟩ := ih (by simpa using hlength) (fun y hy => hx y (List.mem_cons_of_mem _ hy))
        hfirst.valid hclosed₁ hnodup.2 fun m hm =>
          (hfresh m (List.mem_cons_of_mem _ hm)).step hfirst.step (hnot m hm)
      refine ⟨(hfirst.seq hrest ?_ ?_).mono ?_, ?_⟩
      · intro m hm
        exact List.mem_cons.mpr (.inl (List.mem_singleton.mp hm))
      · intro m hm
        exact .inl (List.mem_cons_of_mem _ hm)
      · rintro A _ _ ⟨hsection, hsections⟩
        exact .cons hsection hsections
      · rw [List.forall_mem_cons]
        exact ⟨⟨_, (hrest.step.bound l (by simp [hbound])).trans hbound⟩, hbounds⟩

/-- The sections are laid down one behind the other, each at its own label. -/
theorem sectionBodies_emits (hr : r.Floats P) {xs : List Section} {ls : List Label}
    (hlength : xs.length = ls.length) (hx : ∀ x ∈ xs, Stmt.AllMeet (Expr.Floats P) F x.body) (hd : d.Valid P)
    (hclosed : d.Closed fun _ => False) (hnodup : ls.Nodup) (hfresh : ∀ l ∈ ls, d.Fresh l) :
    Emits P ls d (sectionBodies r o xs ls d).2 fun A =>
      Row (SectionBetween P A r) xs ls d.assembly.offset
        (sectionBodies r o xs ls d).2.assembly.offset :=
  (sectionBodies_laid hr hlength hx hd hclosed hnodup hfresh).1

/-! ## Declarations -/

/-- What is known of a draft once sections are declared in it and none is lowered. -/
structure Declared (P : Float → Prop) (xs : List Section) (ls : List Label) (d : Draft) : Prop where
  valid : d.Valid P
  offset : d.assembly.offset = 0
  length : xs.length = ls.length
  nodup : ls.Nodup
  fresh : ∀ l ∈ ls, d.Fresh l
  named : ∀ x l, (x, l) ∈ xs.zip ls → d.sections.find? x.name.name = some ⟨l, some x.name.span⟩ ∨
    ∃ first, .duplicateSection x.name.name x.name.span first ∈ d.errors
  known : ∀ name e, d.sections.find? name = some e →
    e.declared ≠ none ∧ ∃ x, (x, e.label) ∈ xs.zip ls ∧ x.name.name = name
  found : ∀ x ∈ xs, ∃ e, d.sections.find? x.name.name = some e
  unbound : ∀ l, d.assembly.destination l = .unbound

/-- Nothing is declared in the empty draft. -/
theorem declared_empty : Declared P [] [] .empty where
  valid := {
    gap_lt := by simp [Draft.empty, Assembly.empty]
    gap_inj := by simp [Draft.empty, Assembly.empty]
    bound_le := by simp [Draft.empty, Assembly.empty, Assembly.destination]
    float := by simp [Draft.empty, Assembly.empty, Script.empty]
    section_lt := by simp [Draft.empty]
    undeclared := by simp [Draft.empty] }
  offset := rfl
  length := rfl
  nodup := List.nodup_nil
  fresh := by simp
  named := by simp
  known := by simp [Draft.empty]
  found := by simp
  unbound := by simp [Draft.empty, Assembly.empty, Assembly.destination]

/-- No word waits for a label yet, so every draft of declarations is closed. -/
theorem Declared.closed {xs : List Section} {ls : List Label} (h : Declared P xs ls d) :
    d.Closed fun _ => False where
  lt _ hl := hl.elim
  gap g hg := by
    have := h.valid.gap_lt g hg
    have := h.offset
    omega
  redirected l m hl := by
    rw [h.unbound] at hl
    cases hl
  named name e he := ⟨h.valid.section_lt name e he, id⟩

/-- Declaring a section makes a label for it; the name is entered unless it is there already. -/
theorem declare_apply {xs : List Section} {ls : List Label} (h : Declared P xs ls d) (x : Section) :
    ∃ sections errors, declare x d
        = ((freshLabel d).1, ⟨(freshLabel d).2.assembly, sections, errors⟩) ∧
      (∀ name e, d.sections.find? name = some e → sections.find? name = some e) ∧
      (∀ name e, sections.find? name = some e → d.sections.find? name = some e ∨
        name = x.name.name ∧ e = ⟨(freshLabel d).1, some x.name.span⟩) ∧
      (∀ e ∈ d.errors, e ∈ errors) ∧
      (sections.find? x.name.name = some ⟨(freshLabel d).1, some x.name.span⟩ ∨
        (∃ e, sections.find? x.name.name = some e) ∧
          ∃ first, .duplicateSection x.name.name x.name.span first ∈ errors) := by
  cases hx : d.sections.find? x.name.name with
  | some e =>
    obtain ⟨first, hfirst⟩ := Option.ne_none_iff_exists'.mp (h.known _ e hx).1
    have hrun : declare x d = ((freshLabel d).1, (report
        [.duplicateSection x.name.name x.name.span first] (freshLabel d).2).2) := by
      have hbind : ((freshLabel d).2.sections.find? x.name.name).bind SectionEntry.declared
          = some first := by
        show (d.sections.find? x.name.name).bind _ = _
        rw [hx]
        exact hfirst
      simp only [declare, bind_apply, get_apply, hbind]
      rfl
    refine ⟨d.sections, _, hrun, fun _ _ he => he, fun _ _ he => .inl he, ?_,
      .inr ⟨⟨e, hx⟩, first, ?_⟩⟩
    · intro e he
      exact List.mem_append_left _ he
    · exact List.mem_append_right _ (List.mem_singleton_self _)
  | none =>
    have hrun : declare x d = ((freshLabel d).1, { (freshLabel d).2 with
        sections := d.sections.insert x.name.name ⟨(freshLabel d).1, some x.name.span⟩ }) := by
      have hbind : ((freshLabel d).2.sections.find? x.name.name).bind SectionEntry.declared
          = none := by
        show (d.sections.find? x.name.name).bind _ = _
        rw [hx]
        rfl
      simp only [declare, bind_apply, get_apply, hbind]
      rfl
    refine ⟨_, d.errors, hrun, ?_, ?_, fun _ he => he, .inl (Catalog.find?_insert_self _ _ _)⟩
    · intro name e he
      rw [Catalog.find?_insert_of_ne _ _ (by rintro rfl; rw [hx] at he; cases he)]
      exact he
    · intro name e he
      rw [Catalog.find?_insert] at he
      split at he
      · next hname => exact .inr ⟨hname, (Option.some.inj he).symm⟩
      · exact .inl he

/-- One more section is declared. -/
theorem Declared.snoc {xs : List Section} {ls : List Label} (h : Declared P xs ls d) (x : Section) :
    Declared P (xs ++ [x]) (ls ++ [(declare x d).1]) (declare x d).2 := by
  obtain ⟨sections, errors, hrun, hold, hnew, herrors, hnamed⟩ := declare_apply h x
  have hlabel := freshLabel_lays d h.valid
  have hmade := freshLabel_made h.valid
  have hzip : (xs ++ [x]).zip (ls ++ [(freshLabel d).1]) = xs.zip ls ++ [(x, (freshLabel d).1)] :=
    List.zip_append h.length
  have hknown : ∀ name e, sections.find? name = some e → e.declared ≠ none ∧
      ∃ y, (y, e.label) ∈ (xs ++ [x]).zip (ls ++ [(freshLabel d).1]) ∧ y.name.name = name := by
    intro name e he
    rw [hzip]
    rcases hnew name e he with he | ⟨rfl, rfl⟩
    · obtain ⟨hdeclared, y, hy, hname⟩ := h.known name e he
      exact ⟨hdeclared, y, List.mem_append_left _ hy, hname⟩
    · exact ⟨by simp, x, List.mem_append_right _ (List.mem_singleton_self _), rfl⟩
  have hfresh : ∀ l ∈ ls ++ [(freshLabel d).1], (freshLabel d).2.Fresh l := by
    intro l hl
    rcases List.mem_append.mp hl with hl | hl
    · exact (h.fresh l hl).step hlabel.step (by simp)
    · exact hmade.fresh l hl
  rw [hrun]
  refine {
    valid := { hlabel.valid with section_lt := ?lt, undeclared := ?undeclared }
    offset := h.offset
    length := ?length
    nodup := ?nodup
    fresh := ?fresh
    named := ?named
    known := hknown
    found := ?found
    unbound := ?unbound }
  case lt =>
    intro name e he
    rcases hnew name e he with he | ⟨_, rfl⟩
    · exact hlabel.valid.section_lt name e he
    · exact (hmade.fresh _ (List.mem_singleton_self _)).lt
  case undeclared =>
    intro name e he hnone
    exact absurd hnone (hknown name e he).1
  case length =>
    rw [List.length_append, List.length_append, h.length]
    rfl
  case nodup =>
    rw [List.nodup_append]
    refine ⟨h.nodup, List.nodup_singleton _, ?_⟩
    rintro l hl m hm rfl
    have hlt := (h.fresh l hl).lt
    have hge := hmade.new l hm
    omega
  case fresh =>
    intro l hl
    refine ⟨(hfresh l hl).lt, (hfresh l hl).unbound, ?_⟩
    intro name e he hnone
    exact absurd hnone (hknown name e he).1
  case named =>
    intro y l hmem
    rw [hzip] at hmem
    rcases List.mem_append.mp hmem with hmem | hmem
    · rcases h.named y l hmem with hname | ⟨first, herror⟩
      · exact .inl (hold _ _ hname)
      · exact .inr ⟨first, herrors _ herror⟩
    · obtain ⟨rfl, rfl⟩ := Prod.mk.inj (List.mem_singleton.mp hmem)
      exact hnamed.imp_right And.right
  case found =>
    intro y hy
    rcases List.mem_append.mp hy with hy | hy
    · obtain ⟨e, he⟩ := h.found y hy
      exact ⟨e, hold _ _ he⟩
    · obtain rfl := List.mem_singleton.mp hy
      rcases hnamed with he | ⟨he, _⟩
      · exact ⟨_, he⟩
      · exact he
  case unbound =>
    intro l
    exact (destination_freshLabel d.assembly l).trans (h.unbound l)

/-- Declaring more sections gives each of them a fresh label and nothing else. -/
theorem declareAll_declared {xs : List Section} (ys : List Section) {ls : List Label}
    (h : Declared P xs ls d) :
    Declared P (xs ++ ys) (ls ++ (declareAll ys d).1) (declareAll ys d).2 := by
  induction ys generalizing xs ls d with
  | nil =>
    have hrun : declareAll [] d = ([], d) := rfl
    rwa [hrun, List.append_nil, List.append_nil]
  | cons y ys ih =>
    have hrun : declareAll (y :: ys) d = ((declare y d).1 :: (declareAll ys (declare y d).2).1,
        (declareAll ys (declare y d).2).2) := rfl
    have hrest := ih (h.snoc y)
    rwa [List.append_assoc, List.append_assoc, List.singleton_append, List.singleton_append]
      at hrest

end Lower

/-! ## Filling in the gaps -/

/-- Fill the gaps of a list with what their labels stand for. -/
def fillGaps (f : Label → UInt32) (gaps : List Gap) (words : Array UInt32) : Array UInt32 :=
  gaps.foldl (fun ws g => ws.setIfInBounds g.offset (f g.label)) words

section

variable (f : Label → UInt32) {gaps : List Gap}

/-- Filling gaps adds no words and takes none away. -/
theorem size_fillGaps (gaps : List Gap) (words : Array UInt32) : (fillGaps f gaps words).size = words.size := by
  induction gaps generalizing words with
  | nil => rfl
  | cons g gaps ih =>
    show (fillGaps f gaps (words.setIfInBounds g.offset (f g.label))).size = _
    rw [ih, Array.size_setIfInBounds]

/-- A word that is no gap is left as it is. -/
theorem getElem?_fillGaps_of_ne {i : Nat} (h : ∀ g ∈ gaps, g.offset ≠ i) (words : Array UInt32) :
    (fillGaps f gaps words)[i]? = words[i]? := by
  induction gaps generalizing words with
  | nil => rfl
  | cons g gaps ih =>
    show (fillGaps f gaps (words.setIfInBounds g.offset (f g.label)))[i]? = _
    rw [ih (fun g' hg' => h g' (List.mem_cons_of_mem _ hg')),
      Array.getElem?_setIfInBounds_ne (h g (List.mem_cons_self ..))]

/-- Each gap is filled for its own label, since no two gaps share a word. -/
theorem getElem?_fillGaps {g : Gap} (hg : g ∈ gaps)
    (hinj : ∀ g' ∈ gaps, g'.offset = g.offset → g' = g) {words : Array UInt32}
    (hlt : g.offset < words.size) : (fillGaps f gaps words)[g.offset]? = some (f g.label) := by
  induction gaps generalizing words with
  | nil => cases hg
  | cons g' gaps ih =>
    show (fillGaps f gaps (words.setIfInBounds g'.offset (f g'.label)))[g.offset]? = _
    by_cases hmem : g ∈ gaps
    · exact ih hmem (fun g'' hg'' => hinj g'' (List.mem_cons_of_mem _ hg''))
        (Array.size_setIfInBounds.symm ▸ hlt)
    · obtain rfl : g = g' := (List.mem_cons.mp hg).resolve_right hmem
      rw [getElem?_fillGaps_of_ne, Array.getElem?_setIfInBounds_self_of_lt hlt]
      intro g' hg' heq
      exact hmem (hinj g' (List.mem_cons_of_mem _ hg') heq ▸ hg')

end

/-- The artifact of a draft that is complete. -/
def Draft.artifact (d : Draft) : Artifact where
  script := d.assembly.finish.1
  target l := (d.assembly.resolve? l).getD d.assembly.offset
  bound l := d.assembly.isBound l = true
  trap := d.assembly.offset
  sections := d.sections
  errors := d.errors ++ d.assembly.finish.2.map fun m =>
    .unknownSection m.source.name m.source.span

namespace Draft

variable {P : Float → Prop} {d : Draft}

/-- The words of a complete draft: the gaps are filled, and an end follows if a gap leads nowhere. -/
theorem words_artifact (d : Draft) : d.artifact.script.words
    = (if d.assembly.gaps.any fun g => !d.assembly.isBound g.label then
        (fillGaps (fun l => UInt32.ofNat (d.artifact.target l)) d.assembly.gaps.toList
          d.assembly.script.words).push StatementCode.finish.word
      else fillGaps (fun l => UInt32.ofNat (d.artifact.target l)) d.assembly.gaps.toList
          d.assembly.script.words) := by
  rw [fillGaps, Array.foldl_toList]
  rfl

/-- Every word of the last draft is in the script, its gaps filled. -/
theorem getElem?_artifact {i : Nat} (hi : i < d.assembly.offset) :
    d.artifact.script.words[i]? = (fillGaps (fun l => UInt32.ofNat (d.artifact.target l))
      d.assembly.gaps.toList d.assembly.script.words)[i]? := by
  rw [words_artifact]
  split
  · rw [Array.getElem?_push_lt (by rwa [size_fillGaps]), Array.getElem?_eq_getElem]
  · rfl

/-- A gap that leads nowhere puts an end behind all words. -/
theorem trapped_artifact {g : Gap} (hg : g ∈ d.assembly.gaps)
    (hbound : ¬d.assembly.isBound g.label = true) : d.artifact.Trapped := by
  have hany : (d.assembly.gaps.any fun g => !d.assembly.isBound g.label) = true := by
    rw [Array.any_eq_true']
    exact ⟨g, hg, by simpa using hbound⟩
  have hsize := size_fillGaps (fun l => UInt32.ofNat (d.artifact.target l))
    d.assembly.gaps.toList d.assembly.script.words
  have hwords := d.words_artifact
  rw [if_pos hany] at hwords
  refine ⟨?_, ?_⟩
  · rw [hwords]
    show (Array.push _ _)[d.assembly.script.words.size]? = _
    rw [← hsize]
    exact Array.getElem?_push_size
  · rw [hwords, Array.size_push, hsize]
    rfl

/-- The script ends with the last word of the draft or with the end behind it. -/
theorem size_artifact (d : Draft) :
    d.artifact.script.words.size = d.artifact.trap ∨ d.artifact.Trapped := by
  by_cases h : (d.assembly.gaps.any fun g => !d.assembly.isBound g.label) = true
  · obtain ⟨g, hg, hbound⟩ := Array.any_eq_true'.mp h
    exact .inr (trapped_artifact hg (by simpa using hbound))
  · have hwords := d.words_artifact
    rw [if_neg h] at hwords
    rw [hwords, size_fillGaps]
    exact .inl rfl

/-- The script is at least as long as the last draft, since only a trap may come behind it. -/
theorem offset_le_artifact (d : Draft) : d.assembly.offset ≤ d.artifact.script.words.size := by
  rcases d.size_artifact with h | h
  · exact Nat.le_of_eq h.symm
  · have := h.size
    exact Nat.le_of_lt (Nat.lt_of_succ_le (Nat.le_of_eq this))

/-- The artifact of a draft agrees with it from the start on. -/
theorem Valid.agrees (hd : d.Valid P) : d.Agrees d.artifact 0 where
  offset_le := d.offset_le_artifact
  word i _ hi hgap := by
    rw [getElem?_artifact hi, getElem?_fillGaps_of_ne]
    intro g hg
    exact hgap g (Array.mem_toList_iff.mp hg)
  gap g hg _ := by
    have hlt := hd.gap_lt g hg
    refine ⟨?_, rfl, ?_⟩
    · rw [Artifact.Holds, getElem?_artifact hlt, getElem?_fillGaps _ (Array.mem_toList_iff.mpr hg) ?_ hlt]
      intro g' hg' heq
      exact hd.gap_inj g' (Array.mem_toList_iff.mp hg') g hg heq
    · by_cases hbound : d.assembly.isBound g.label = true
      · exact .inl hbound
      · refine .inr ⟨?_, trapped_artifact hg hbound⟩
        have hnone : d.assembly.resolve? g.label = none := by
          rwa [Assembly.isBound, Option.not_isSome_iff_eq_none] at hbound
        show (d.assembly.resolve? g.label).getD d.assembly.offset = d.assembly.offset
        rw [hnone]
        rfl
  string _ _ h := h
  float _ _ h := h
  speaker _ _ h := h
  offset l n h := by
    show (d.assembly.resolve? l).getD d.assembly.offset = n
    rw [Assembly.resolve?_of_offset h]
    rfl
  redirected l m h := by
    have heq := Assembly.resolve?_of_redirected h
    constructor
    · show (d.assembly.resolve? l).getD _ = (d.assembly.resolve? m).getD _
      rw [heq]
    · show d.assembly.isBound l = true ↔ d.assembly.isBound m = true
      rw [Assembly.isBound, Assembly.isBound, heq]
  section_find _ _ h := h
  error _ h := List.mem_append_left _ h
  mention m hm := by
    by_cases hbound : d.assembly.isBound m.label = true
    · exact .inl hbound
    · refine .inr (List.mem_append_right _ (List.mem_map.mpr ⟨m, ?_, rfl⟩))
      exact List.mem_filter.mpr ⟨Array.mem_toList_iff.mpr hm, by simpa using hbound⟩

/-- Words are wide enough for the targets of an addressable script. -/
theorem Valid.fits (hd : d.Valid P) (h : d.artifact.script.Addressable) : d.artifact.Fits where
  addressable := h
  target_lt l := by
    refine Nat.lt_of_le_of_lt (Nat.le_trans ?_ d.offset_le_artifact) h.words
    show (d.assembly.resolve? l).getD d.assembly.offset ≤ d.assembly.offset
    cases hl : d.assembly.resolve? l with
    | none => exact Nat.le_refl _
    | some n =>
      obtain ⟨p, _, hp⟩ := Assembly.resolve?_eq_some_iff.mp hl
      exact hd.bound_le p n hp

end Draft

/-! ## Compiling -/

/-- What is known of a compiled story: it is an artifact whose sections stand one after another at
their labels, followed by nothing or by an end for targets that lead nowhere. -/
structure Compiled (P : Float → Prop) (r : Registry) (story : Story) (c : Compilation)
    (A : Artifact) (labels : List Label) : Prop where
  script : A.script = c.script
  diagnostics : A.errors.map .compile = c.diagnostics
  fits : A.Fits
  sections : Row (SectionBetween P A r) story labels 0 A.trap
  size : A.script.words.size = A.trap ∨ A.Trapped
  /-- Each section goes by its name, unless the name was given before. -/
  named : ∀ x l, (x, l) ∈ story.zip labels → A.Labels x.name l ∨
    ∃ first, .duplicateSection x.name.name x.name.span first ∈ A.errors
  /-- A name whose label leads somewhere is the name of a section. -/
  declared : ∀ x l, A.Labels x l → A.bound l →
    ∃ y, (y, l) ∈ story.zip labels ∧ y.name.name = x.name
  /-- The label of a name that some section has is the one of a section of that name. -/
  found : ∀ x l, A.Labels x l → (∃ y ∈ story, y.name.name = x.name) →
    ∃ y, (y, l) ∈ story.zip labels ∧ y.name.name = x.name

/-- Every story is compiled to a script that its sections are laid down in. -/
theorem exists_compiled {P : Float → Prop} {r : Registry} (o : CompileOptions) {story : Story}
    (hr : r.Floats P) (hs : story.Meets (Expr.Floats P) F)
    (haddressable : (compile r o story).script.Addressable) :
    ∃ A labels, Compiled P r story (compile r o story) A labels := by
  have hdeclared := Lower.declareAll_declared story (Lower.declared_empty (P := P))
  rw [List.nil_append, List.nil_append] at hdeclared
  have hrun : compile r o story = ⟨(Lower.sectionBodies r o story (Lower.declareAll story .empty).1
      (Lower.declareAll story .empty).2).2.artifact.script, (Lower.sectionBodies r o story
      (Lower.declareAll story .empty).1 (Lower.declareAll story .empty).2).2.artifact.errors.map
        .compile, o⟩ := rfl
  rw [hrun] at haddressable ⊢
  generalize (Lower.declareAll story .empty).1 = labels at *
  generalize (Lower.declareAll story .empty).2 = d at *
  have hemits := Lower.sectionBodies_emits (o := o) hr hdeclared.length hs hdeclared.valid
    hdeclared.closed hdeclared.nodup hdeclared.fresh
  rw [hdeclared.offset] at hemits
  generalize (Lower.sectionBodies r o story labels d).2 = d' at *
  have hagrees := hemits.valid.agrees
  have hfits := hemits.valid.fits haddressable
  have hstart : d.assembly.offset = 0 := hdeclared.offset
  refine ⟨d'.artifact, labels, rfl, rfl, hfits, ?_, d'.size_artifact, ?_, ?_, ?_⟩
  · exact hemits.layout _ hfits (hstart ▸ hagrees)
  · intro x l hmem
    rcases hdeclared.named x l hmem with hname | ⟨first, herror⟩
    · exact .inl ⟨_, hemits.step.known _ _ hname, rfl⟩
    · exact .inr ⟨first, List.mem_append_left _ (hemits.step.error _ herror)⟩
  · rintro x l ⟨e, he, rfl⟩ hbound
    rcases hemits.step.new x.name e he with he | ⟨_, hnone⟩
    · obtain ⟨_, y, hy, hname⟩ := hdeclared.known x.name e he
      exact ⟨y, hy, hname⟩
    · have hunbound := Assembly.resolve?_of_unbound (hemits.valid.undeclared x.name e he hnone)
      have : (d'.assembly.resolve? e.label).isSome = true := hbound
      rw [hunbound] at this
      cases this
  · rintro x l ⟨e, he, rfl⟩ ⟨y, hy, hname⟩
    obtain ⟨e', he'⟩ := hdeclared.found y hy
    rw [hname] at he'
    have heq : d'.sections.find? x.name = some e := he
    rw [hemits.step.known _ _ he'] at heq
    obtain rfl := Option.some.inj heq
    obtain ⟨_, z, hz, hzname⟩ := hdeclared.known _ _ he'
    exact ⟨z, hz, hzname⟩

end Colloquy
