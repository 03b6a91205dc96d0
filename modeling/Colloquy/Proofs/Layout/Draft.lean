import Colloquy.Compiler.Lowering
import Colloquy.Proofs.Catalog
import Colloquy.Proofs.Layout.Label

/-!
# Drafts and what becomes of them

A lowering writes words whose targets are filled in at the end, so what it lays down can only be read
in the finished script.  An `Artifact` is such a script with all that the parts of a lowering may know
of it: where labels lead, which sections there are, what was reported.  A draft `Agrees` with an
artifact from an offset on if nothing written since then turns out differently, and a draft that grows
(`Step`) keeps what it has, so agreement of the last draft is agreement of all.

`Lays m Q` says that a step `m` of a lowering leaves a valid draft and that every artifact which agrees
with the draft satisfies `Q` between the offsets where `m` starts and stops.  These statements compose
along the steps (`Lays.bind`).

Labels are bound once: a step binds labels it is given (`own`) or has made itself, and those were
`Fresh` when it started.
-/

namespace Colloquy

/-- The words of a script are wide enough for its offsets, counts and places. -/
structure Script.Addressable (s : Script) : Prop where
  words : s.words.size < UInt32.size
  strings : s.strings.size < UInt32.size
  floats : s.floats.size < UInt32.size
  speakers : s.speakers.size < UInt32.size

instance (s : Script) : Decidable s.Addressable :=
  decidable_of_iff (s.words.size < UInt32.size ∧ s.strings.size < UInt32.size ∧
      s.floats.size < UInt32.size ∧ s.speakers.size < UInt32.size)
    ⟨fun ⟨hw, hs, hf, hp⟩ => ⟨hw, hs, hf, hp⟩, fun h => ⟨h.words, h.strings, h.floats, h.speakers⟩⟩

/-- A finished lowering as its parts see it. -/
structure Artifact where
  script : Script
  /-- The offset that the words of a label are filled with. -/
  target : Label → Nat
  /-- Whether a label leads somewhere. -/
  bound : Label → Prop
  /-- The offset after all sections. -/
  trap : Nat
  sections : Catalog SectionEntry
  errors : List CompileError

namespace Artifact

variable (A : Artifact)

/-- Offsets, counts and places fit into words. -/
structure Fits : Prop where
  addressable : A.script.Addressable
  target_lt : ∀ l, A.target l < UInt32.size

/-- The script ends with a statement for targets that lead nowhere. -/
structure Trapped : Prop where
  word : A.script.words[A.trap]? = some Code.StatementCode.finish.word
  size : A.trap + 1 = A.script.words.size

/-- A word holds an offset, a count or a place. -/
def Holds (offset n : Nat) : Prop := A.script.words[offset]? = some (UInt32.ofNat n)

/-- Something was reported. -/
def Reports (errors : List CompileError) : Prop := ∀ e ∈ errors, e ∈ A.errors

/-- The label of a section name. -/
def Labels (x : Ident) (l : Label) : Prop :=
  ∃ e, A.sections.find? x.name = some e ∧ e.label = l

/-- A section name was mentioned: if its label leads nowhere, that was reported. -/
structure Mentions (x : Ident) (l : Label) : Prop where
  labels : A.Labels x l
  reported : A.bound l ∨ .unknownSection x.name x.span ∈ A.errors

/-- A word of the label leads to an offset; a label that leads nowhere is sent to the end. -/
def Leads (l : Label) (n : Nat) : Prop :=
  A.target l = n ∧ (A.bound l ∨ n = A.trap ∧ A.Trapped)

/-- The offset that a mention of a section leads to. -/
def Enters (x : Ident) (n : Nat) : Prop := ∃ l, A.Mentions x l ∧ A.Leads l n

end Artifact

/-- What holds of every draft of a lowering whose floats satisfy `P`. -/
structure Draft.Valid (P : Float → Prop) (d : Draft) : Prop where
  gap_lt : ∀ g ∈ d.assembly.gaps, g.offset < d.assembly.offset
  gap_inj : ∀ g ∈ d.assembly.gaps, ∀ g' ∈ d.assembly.gaps, g.offset = g'.offset → g = g'
  bound_le : ∀ l n, d.assembly.destination l = .offset n → n ≤ d.assembly.offset
  float : ∀ x ∈ d.assembly.script.floats, P x
  section_lt : ∀ name e, d.sections.find? name = some e → e.label.index < d.assembly.labels.size
  undeclared : ∀ name e, d.sections.find? name = some e → e.declared = none →
    d.assembly.destination e.label = .unbound

/-- A label that waits to be bound, and is not the label of a section that is never declared. -/
structure Draft.Fresh (d : Draft) (l : Label) : Prop where
  lt : l.index < d.assembly.labels.size
  unbound : d.assembly.destination l = .unbound
  ne : ∀ name e, d.sections.find? name = some e → e.declared = none → e.label ≠ l

/-- A draft grows: what is written stays, and of the labels there only some that `own` lists are
bound. -/
structure Draft.Step (own : List Label) (d d' : Draft) : Prop where
  offset_le : d.assembly.offset ≤ d'.assembly.offset
  word : ∀ i < d.assembly.offset, d'.assembly.script.words[i]? = d.assembly.script.words[i]?
  gap_mem : ∀ g ∈ d.assembly.gaps, g ∈ d'.assembly.gaps
  gap_new : ∀ g ∈ d'.assembly.gaps, g ∈ d.assembly.gaps ∨ d.assembly.offset ≤ g.offset
  string : ∀ (i : Nat) x, d.assembly.script.strings[i]? = some x →
    d'.assembly.script.strings[i]? = some x
  float : ∀ (i : Nat) x, d.assembly.script.floats[i]? = some x →
    d'.assembly.script.floats[i]? = some x
  speaker : ∀ (i : Nat) x, d.assembly.script.speakers[i]? = some x →
    d'.assembly.script.speakers[i]? = some x
  labels_le : d.assembly.labels.size ≤ d'.assembly.labels.size
  bound : ∀ l, d.assembly.destination l ≠ .unbound →
    d'.assembly.destination l = d.assembly.destination l
  spared : ∀ l, l.index < d.assembly.labels.size → l ∉ own →
    d'.assembly.destination l = d.assembly.destination l
  known : ∀ name e, d.sections.find? name = some e → d'.sections.find? name = some e
  new : ∀ name e, d'.sections.find? name = some e →
    d.sections.find? name = some e ∨ d.assembly.labels.size ≤ e.label.index ∧ e.declared = none
  error : ∀ e ∈ d.errors, e ∈ d'.errors
  mention : ∀ m ∈ d.assembly.mentions, m ∈ d'.assembly.mentions

/-- Nothing of a draft from the offset `lo` on turns out differently in an artifact. -/
structure Draft.Agrees (d : Draft) (A : Artifact) (lo : Nat) : Prop where
  offset_le : d.assembly.offset ≤ A.script.words.size
  word : ∀ i, lo ≤ i → i < d.assembly.offset → (∀ g ∈ d.assembly.gaps, g.offset ≠ i) →
    A.script.words[i]? = d.assembly.script.words[i]?
  gap : ∀ g ∈ d.assembly.gaps, lo ≤ g.offset → A.Holds g.offset (A.target g.label) ∧
    A.Leads g.label (A.target g.label)
  string : ∀ (i : Nat) x, d.assembly.script.strings[i]? = some x → A.script.strings[i]? = some x
  float : ∀ (i : Nat) x, d.assembly.script.floats[i]? = some x → A.script.floats[i]? = some x
  speaker : ∀ (i : Nat) x, d.assembly.script.speakers[i]? = some x →
    A.script.speakers[i]? = some x
  offset : ∀ l n, d.assembly.destination l = .offset n → A.target l = n
  redirected : ∀ l m, d.assembly.destination l = .redirected m →
    A.target l = A.target m ∧ (A.bound l ↔ A.bound m)
  section_find : ∀ name e, d.sections.find? name = some e → A.sections.find? name = some e
  error : ∀ e ∈ d.errors, e ∈ A.errors
  mention : ∀ m ∈ d.assembly.mentions,
    A.bound m.label ∨ .unknownSection m.source.name m.source.span ∈ A.errors

/-- A word from an offset on waits for a label, itself or through redirections. -/
def Draft.Awaits (d : Draft) (lo : Nat) (l : Label) : Prop :=
  ∃ g ∈ d.assembly.gaps, lo ≤ g.offset ∧ d.assembly.Reaches g.label l

namespace Draft

variable {P : Float → Prop} {d d₁ d₂ : Draft} {A : Artifact} {own o₁ o₂ : List Label}

/-- A draft that stays as it is grows by nothing. -/
theorem Step.refl (own : List Label) (d : Draft) : d.Step own d where
  offset_le := Nat.le_refl _
  word _ _ := rfl
  gap_mem _ h := h
  gap_new _ h := .inl h
  string _ _ h := h
  float _ _ h := h
  speaker _ _ h := h
  labels_le := Nat.le_refl _
  bound _ _ := rfl
  spared _ _ _ := rfl
  known _ _ h := h
  new _ _ h := .inl h
  error _ h := h
  mention _ h := h

/-- Steps compose.  The second one may also bind labels that the first one made. -/
theorem Step.trans (h₁ : d.Step o₁ d₁) (h₂ : d₁.Step o₂ d₂) (ho₁ : ∀ l ∈ o₁, l ∈ own)
    (ho₂ : ∀ l ∈ o₂, l ∈ own ∨ d.assembly.labels.size ≤ l.index) : d.Step own d₂ where
  offset_le := h₁.offset_le.trans h₂.offset_le
  word i hi := by
    rw [h₂.word i (Nat.lt_of_lt_of_le hi h₁.offset_le), h₁.word i hi]
  gap_mem g hg := h₂.gap_mem g (h₁.gap_mem g hg)
  gap_new g hg := by
    rcases h₂.gap_new g hg with hg | hg
    · exact h₁.gap_new g hg
    · exact .inr (h₁.offset_le.trans hg)
  string i x hx := h₂.string i x (h₁.string i x hx)
  float i x hx := h₂.float i x (h₁.float i x hx)
  speaker i x hx := h₂.speaker i x (h₁.speaker i x hx)
  labels_le := h₁.labels_le.trans h₂.labels_le
  bound l hl := by
    have hl₁ := h₁.bound l hl
    rw [h₂.bound l (by rw [hl₁]; exact hl), hl₁]
  spared l hlt hl := by
    have hl₂ : l ∉ o₂ := by
      intro hmem
      rcases ho₂ l hmem with h | h
      · exact hl h
      · omega
    rw [h₂.spared l (Nat.lt_of_lt_of_le hlt h₁.labels_le) hl₂]
    exact h₁.spared l hlt fun hmem => hl (ho₁ l hmem)
  known name e he := h₂.known name e (h₁.known name e he)
  new name e he := by
    rcases h₂.new name e he with he | he
    · exact h₁.new name e he
    · exact .inr ⟨h₁.labels_le.trans he.1, he.2⟩
  error e he := h₂.error e (h₁.error e he)
  mention m hm := h₂.mention m (h₁.mention m hm)

/-- A label that a step does not own stays fresh. -/
theorem Fresh.step {l : Label} (h : d.Fresh l) (hs : d.Step own d₁) (hl : l ∉ own) :
    d₁.Fresh l where
  lt := Nat.lt_of_lt_of_le h.lt hs.labels_le
  unbound := by rw [hs.spared l h.lt hl, h.unbound]
  ne name e he hd heq := by
    rcases hs.new name e he with he | he
    · exact h.ne name e he hd heq
    · have := h.lt
      rw [heq] at he
      omega

/-- What agrees with a later draft agrees with an earlier one. -/
theorem Agrees.earlier {lo : Nat} (h : d₁.Agrees A lo) (hs : d.Step own d₁) :
    d.Agrees A lo where
  offset_le := hs.offset_le.trans h.offset_le
  word i hlo hi hg := by
    rw [h.word i hlo (Nat.lt_of_lt_of_le hi hs.offset_le), hs.word i hi]
    intro g hmem heq
    rcases hs.gap_new g hmem with hmem | hle
    · exact hg g hmem heq
    · omega
  gap g hg hlo := h.gap g (hs.gap_mem g hg) hlo
  string i x hx := h.string i x (hs.string i x hx)
  float i x hx := h.float i x (hs.float i x hx)
  speaker i x hx := h.speaker i x (hs.speaker i x hx)
  offset l n hl := h.offset l n (by rw [hs.bound l (by rw [hl]; simp), hl])
  redirected l m hl := h.redirected l m (by rw [hs.bound l (by rw [hl]; simp), hl])
  section_find name e he := h.section_find name e (hs.known name e he)
  error e he := h.error e (hs.error e he)
  mention m hm := h.mention m (hs.mention m hm)

/-- What agrees from an offset on agrees from every later one. -/
theorem Agrees.raise {lo lo' : Nat} (h : d.Agrees A lo) (hle : lo ≤ lo') : d.Agrees A lo' :=
  { h with
    word := fun i hi => h.word i (hle.trans hi)
    gap := fun g hg hi => h.gap g hg (hle.trans hi) }

/-- A walk along redirections stays one. -/
theorem Step.reaches (h : d.Step own d₁) {l m : Label} (hl : d.assembly.Reaches l m) :
    d₁.assembly.Reaches l m := by
  obtain ⟨k, hk⟩ := hl
  refine ⟨k, ?_⟩
  induction hk with
  | refl l => exact .refl l
  | step hl _ ih => exact .step (by rw [h.bound _ (by rw [hl]; simp), hl]) ih

/-- A word that waits goes on waiting. -/
theorem Awaits.step {lo : Nat} {l : Label} (h : d.Awaits lo l) (hs : d.Step own d₁) :
    d₁.Awaits lo l := by
  obtain ⟨g, hg, hlo, hl⟩ := h
  exact ⟨g, hs.gap_mem g hg, hlo, hs.reaches hl⟩

theorem Awaits.lower {lo lo' : Nat} {l : Label} (h : d.Awaits lo l) (hle : lo' ≤ lo) :
    d.Awaits lo' l := by
  obtain ⟨g, hg, hlo, hl⟩ := h
  exact ⟨g, hg, hle.trans hlo, hl⟩

/-- A label that some word waits for leads to a bound offset or to the end. -/
theorem Agrees.leads {lo : Nat} {l : Label} (h : d.Agrees A lo) (hl : d.Awaits lo l) :
    A.Leads l (A.target l) := by
  obtain ⟨g, hg, hlo, k, hk⟩ := hl
  have hleads := (h.gap g hg hlo).2
  generalize g.label = m at hk hleads
  induction hk with
  | refl l => exact hleads
  | step hl _ ih =>
    obtain ⟨htarget, hbound⟩ := h.redirected _ _ hl
    rw [Artifact.Leads, htarget, hbound] at hleads
    exact ih hleads

end Draft

/-! ## Steps that lay something down -/

/-- A step from one draft to another that binds labels of `own` only and lays down `Q`. -/
structure Emits (P : Float → Prop) (own : List Label) (d d' : Draft) (Q : Artifact → Prop) :
    Prop where
  step : d.Step own d'
  valid : d'.Valid P
  layout : ∀ A : Artifact, A.Fits → d'.Agrees A d.assembly.offset → Q A

/-- Labels that a step made and left for later. -/
structure Made (d d' : Draft) (labels : List Label) : Prop where
  nodup : labels.Nodup
  fresh : ∀ l ∈ labels, d'.Fresh l
  new : ∀ l ∈ labels, d.assembly.labels.size ≤ l.index

/-- Labels that a step made and has words wait for. -/
structure Promised (d d' : Draft) (labels : List Label) : Prop extends Made d d' labels where
  awaited : ∀ l ∈ labels, d'.Awaits d.assembly.offset l

namespace Emits

variable {P : Float → Prop} {d d₁ d₂ : Draft} {own o₁ o₂ : List Label} {Q Q₁ Q₂ : Artifact → Prop}

/-- Two steps one behind the other lay down what each of them does.  The second one may bind labels that
the first one has made. -/
theorem seq (h₁ : Emits P o₁ d d₁ Q₁) (h₂ : Emits P o₂ d₁ d₂ Q₂) (ho₁ : ∀ l ∈ o₁, l ∈ own)
    (ho₂ : ∀ l ∈ o₂, l ∈ own ∨ d.assembly.labels.size ≤ l.index) :
    Emits P own d d₂ fun A => Q₁ A ∧ Q₂ A where
  step := h₁.step.trans h₂.step ho₁ ho₂
  valid := h₂.valid
  layout A hA h := ⟨h₁.layout A hA (h.earlier h₂.step),
    h₂.layout A hA (h.raise h₁.step.offset_le)⟩

/-- The layout of a step follows from another one; it stands inside the finished script. -/
theorem mono (h : Emits P own d d₁ Q)
    (hQ : ∀ A : Artifact, A.Fits → d₁.assembly.offset ≤ A.script.words.size → Q A → Q₁ A) :
    Emits P own d d₁ Q₁ where
  step := h.step
  valid := h.valid
  layout A hA ha := hQ A hA ha.offset_le (h.layout A hA ha)

end Emits

section

variable {P : Float → Prop} {d d₁ d₂ : Draft} {ls ms : List Label} {Q Q₁ Q₂ : Artifact → Prop}

/-- Labels stay for later in steps that bind none of them. -/
theorem Made.after (h : Made d d₁ ls) (e : Emits P [] d₁ d₂ Q) : Made d d₂ ls where
  nodup := h.nodup
  fresh l hl := (h.fresh l hl).step e.step (by simp)
  new := h.new

theorem Made.before (e : Emits P [] d d₁ Q) (h : Made d₁ d₂ ls) : Made d d₂ ls where
  nodup := h.nodup
  fresh := h.fresh
  new l hl := e.step.labels_le.trans (h.new l hl)

/-- Labels that are made in two steps are as if they were made in one, since the later ones are new. -/
theorem Made.append (h₁ : Made d d₁ ls) (h₂ : Made d₁ d₂ ms) (e₁ : Emits P [] d d₁ Q₁)
    (e₂ : Emits P [] d₁ d₂ Q₂) : Made d d₂ (ls ++ ms) where
  nodup := by
    rw [List.nodup_append]
    refine ⟨h₁.nodup, h₂.nodup, ?_⟩
    rintro l hl m hm rfl
    have := (h₁.fresh l hl).lt
    have := h₂.new l hm
    omega
  fresh l hl := by
    rcases List.mem_append.mp hl with hl | hl
    · exact (h₁.fresh l hl).step e₂.step (by simp)
    · exact h₂.fresh l hl
  new l hl := by
    rcases List.mem_append.mp hl with hl | hl
    · exact h₁.new l hl
    · exact e₁.step.labels_le.trans (h₂.new l hl)

/-- No labels are promised if there are none. -/
theorem Promised.nil (d d' : Draft) : Promised d d' [] where
  nodup := List.nodup_nil
  fresh := by simp
  new := by simp
  awaited := by simp

theorem Promised.after (h : Promised d d₁ ls) (e : Emits P [] d₁ d₂ Q) : Promised d d₂ ls where
  toMade := h.toMade.after e
  awaited l hl := (h.awaited l hl).step e.step

theorem Promised.before (e : Emits P [] d d₁ Q) (h : Promised d₁ d₂ ls) : Promised d d₂ ls where
  toMade := .before e h.toMade
  awaited l hl := (h.awaited l hl).lower e.step.offset_le

/-- Labels that are promised in two steps are as if they were promised in one. -/
theorem Promised.append (h₁ : Promised d d₁ ls) (h₂ : Promised d₁ d₂ ms) (e₁ : Emits P [] d d₁ Q₁)
    (e₂ : Emits P [] d₁ d₂ Q₂) : Promised d d₂ (ls ++ ms) where
  toMade := h₁.toMade.append h₂.toMade e₁ e₂
  awaited l hl := by
    rcases List.mem_append.mp hl with hl | hl
    · exact (h₁.awaited l hl).step e₂.step
    · exact (h₂.awaited l hl).lower e₁.step.offset_le

end

namespace Lower

variable {P : Float → Prop} {α β : Type} {d : Draft}

theorem bind_apply (m : Lower α) (f : α → Lower β) (d : Draft) :
    (m >>= f) d = f (m d).1 (m d).2 := rfl

/-- A result that is returned leaves the draft as it is. -/
theorem pure_apply (a : α) (d : Draft) : (pure a : Lower α) d = (a, d) := rfl

/-- So does looking at the draft. -/
theorem get_apply (d : Draft) : (get : Lower Draft) d = (d, d) := rfl

/-- A step of a lowering that binds no label of others leaves a valid draft and lays down `Q` between
the offsets where it starts and stops. -/
def Lays (P : Float → Prop) (m : Lower α) (Q : Artifact → Nat → α → Nat → Prop) : Prop :=
  ∀ d : Draft, d.Valid P → Emits P [] d (m d).2 fun A =>
    Q A d.assembly.offset (m d).1 (m d).2.assembly.offset

namespace Lays

variable {m : Lower α} {Q R : Artifact → Nat → α → Nat → Prop}

/-- So does what a step of the lowering lays down. -/
theorem mono (h : Lays P m Q)
    (hQ : ∀ A s a t, A.Fits → s ≤ t → t ≤ A.script.words.size → Q A s a t → R A s a t) :
    Lays P m R := by
  intro d hd
  exact (h d hd).mono fun A hA hsize hq => hQ A _ _ _ hA (h d hd).step.offset_le hsize hq

/-- One step after another: the second starts where the first one stops. -/
theorem bind {f : α → Lower β} {R : α → Artifact → Nat → β → Nat → Prop} (hm : Lays P m Q)
    (hf : ∀ a, Lays P (f a) (R a)) :
    Lays P (m >>= f) fun A s b t => ∃ a u, Q A s a u ∧ R a A u b t := by
  intro d hd
  have h₁ := hm d hd
  have h₂ := hf (m d).1 (m d).2 h₁.valid
  rw [bind_apply]
  exact (h₁.seq h₂ (by simp) (by simp)).mono fun A _ _ hq => ⟨_, _, hq⟩

theorem pure (a : α) : Lays P (Pure.pure a : Lower α) fun _ s b t => b = a ∧ t = s :=
  fun d hd => ⟨.refl _ d, hd, fun _ _ _ => ⟨rfl, rfl⟩⟩

end Lays

end Lower

end Colloquy
