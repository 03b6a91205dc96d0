import Colloquy.Proofs.Telling.Code

/-!
# Lines are told as they are played

The parts of statements follow the story: stretches of text, speakers, directives and hash data.  What
the last `goto` of a line decides is an offset in the script and the name of a section in the story.
-/

namespace Colloquy

open Code

section

variable {σ : Type} {A : Artifact} {r : Registry} {h : Host σ} {sections : Catalog Nat}
  {story : Story} {s t : Nat}

/-- Things in a row that follow the story one by one follow it together. -/
theorem Follows.mapM {α β γ : Type} {R : α → β → Nat → Nat → Prop} {f : β → Eval σ γ}
    {g : α → Tell σ γ} {as : List α} {bs : List β} (hrow : Row R as bs s t)
    (hf : ∀ a b s t, R a b s t → Follows s t Eq (f b) (g a)) :
    Follows s t Eq (bs.mapM f) (as.mapM g) := by
  induction hrow with
  | nil s =>
    rw [List.mapM_nil, List.mapM_nil]
    exact .pure rfl (Nat.le_refl _)
  | cons ha _ ih =>
    rw [List.mapM_cons, List.mapM_cons]
    exact (hf _ _ _ _ ha).cons ih

/-- The values of checked expressions. -/
theorem Operand.follows (hS : A.script.words.size < UInt32.size) (hprompt : h.Prompt) {e : Expr}
    {o : Nat} (he : Operand (CheckedAt Number.Unsigned A r) e o s t) :
    Follows s t Eq (Eval.expr A.script h o) (Tell.expr r h e) := by
  obtain ⟨rfl, he⟩ := he
  exact he.expr.follows hS hprompt

theorem KindAt.number (hS : A.script.words.size < UInt32.size) (hprompt : h.Prompt) {e : Expr}
    {k : Kind} (he : KindAt Number.Unsigned A r k e s t) :
    Follows s t Eq (Eval.floatAt (Eval.expr A.script h) s) (Tell.number (Tell.expr r h e)) :=
  (he.expr.follows hS hprompt).floatAt

theorem KindAt.truth (hS : A.script.words.size < UInt32.size) (hprompt : h.Prompt) {e : Expr}
    {k : Kind} (he : KindAt Number.Unsigned A r k e s t) :
    Follows s t Eq (Eval.condition (Eval.expr A.script h) s) (Tell.truth (Tell.expr r h e)) :=
  (he.expr.follows hS hprompt).boolAt

/-! ## Text -/

/-- A fixed part of a text is shown as it is, and a placeholder as the value of its expression. -/
theorem SegmentAt.follows (hS : A.script.words.size < UInt32.size) (hprompt : h.Prompt)
    {x : Segment} {b : TextNode} (hx : SegmentAt Number.Unsigned A r x b s t) :
    Follows s t Eq (Eval.segment A.script (Eval.expr A.script h) b) (Tell.segment r h x) := by
  cases hx with
  | text hx =>
    rw [Eval.segment, Eval.read_string hx]
    exact .pure rfl (by omega)
  | placeholder he =>
    exact ((he.expr.follows hS hprompt).lower (by omega)).bind_eq fun _ =>
      .pure rfl (Nat.le_refl _)

/-- The text of a line is shown part by part. -/
theorem text_follows (hS : A.script.words.size < UInt32.size) (hprompt : h.Prompt)
    {xs : List Segment} {bs : List TextNode}
    (hrow : Row (SegmentAt Number.Unsigned A r) xs bs s t) :
    Follows s t Eq (Eval.text A.script (Eval.expr A.script h) bs) (Tell.text r h xs) :=
  (Follows.mapM hrow fun _ _ _ _ hx => hx.follows hS hprompt).bind_eq fun _ =>
    .pure rfl (Nat.le_refl _)

/-! ## Hash data -/

/-- The values of a key: the last of them counts, and a flag is true. -/
theorem PairAt.follows (hS : A.script.words.size < UInt32.size) (hprompt : h.Prompt) {e : HashEntry}
    {p : PairNode} (hp : PairAt Number.Unsigned A r e p s t) :
    A.script.strings[p.key]? = some e.key.name ∧
    Follows s t Eq (p.values.mapM (Eval.expr A.script h) >>= fun vs => pure (vs.getLastD .void))
      (Tell.hashValue r h e.values) := by
  cases hp with
  | flag hkey hlit =>
    refine ⟨hkey, ?_⟩
    have hvalue : Follows (s + 2) (s + 4) Eq (Eval.expr A.script h (s + 2)) (pure (.bool true)) :=
      hlit.follows _
    have hlast : ∀ v : Value, [v].getLastD .void = v := fun _ => rfl
    simp only [List.mapM_cons, List.mapM_nil, bind_assoc, pure_bind, hlast, bind_pure]
    exact hvalue.lower (by omega)
  | @values key values i s t os hne hkey hrow =>
    refine ⟨hkey, ?_⟩
    have hall : Follows (s + 2) t Eq (os.mapM (Eval.expr A.script h)) (values.mapM (Tell.expr r h)) :=
      Follows.mapM hrow fun _ _ _ _ he => he.follows hS hprompt
    have hvalue := (hall.lower (show s ≤ s + 2 by omega)).bind_eq fun vs =>
      Follows.pure (R := Eq) (b := vs.getLastD .void) rfl (Nat.le_refl t)
    cases values with
    | nil => exact absurd rfl hne
    | cons v vs => exact hvalue

/-- Entries of hash data are evaluated in order, and a later one takes the place of an earlier one of its
key. -/
theorem pairs_follows (hS : A.script.words.size < UInt32.size) (hprompt : h.Prompt)
    {es : List HashEntry} {ps : List PairNode} (hrow : Row (PairAt Number.Unsigned A r) es ps s t)
    (data : Catalog Value) :
    Follows s t Eq (Eval.pairs A.script (Eval.expr A.script h) data ps) (Tell.hash r h data es) := by
  induction hrow generalizing data with
  | nil s => exact .pure rfl (Nat.le_refl _)
  | @cons e p es ps s m t hp _ ih =>
    obtain ⟨hkey, hvalue⟩ := hp.follows hS hprompt (h := h)
    have hall := hvalue.bind_eq fun v => ih (data.insert e.key.name v)
    rw [bind_assoc] at hall
    simp only [pure_bind] at hall
    simp only [Eval.pairs, Eval.read_string hkey, pure_bind]
    exact hall

/-! ## Speakers -/

/-- A speaker is shown under the name that is written, or under the one that the host gives for a
variable. -/
theorem SpeakerAt.follows {x : SpeakerRef} {b : SpeakerNode} (hx : SpeakerAt A r x b s t)
    (lo : Nat) : Follows lo lo Eq (Eval.speaker A.script h b) (Tell.speaker h x) := by
  cases hx with
  | named hx =>
    rw [Eval.speaker, Script.speaker, hx]
    exact .pure rfl (Nat.le_refl _)
  | «variable» hx _ =>
    rw [Eval.speaker, Eval.read_string hx, pure_bind]
    exact (Follows.variableValue h _).bind_eq fun v => Follows.askFor "get_name" (h.nameOf v)

/-- Naming speakers keeps no results, so it may come after everything else. -/
theorem speakers_follows {xs : List SpeakerRef} {bs : List SpeakerNode}
    (hrow : Row (SpeakerAt A r) xs bs s t) (lo : Nat) :
    Follows lo lo Eq (bs.mapM (Eval.speaker A.script h)) (xs.mapM (Tell.speaker h)) := by
  induction hrow with
  | nil s =>
    rw [List.mapM_nil, List.mapM_nil]
    exact .pure rfl (Nat.le_refl _)
  | cons hx _ ih =>
    rw [List.mapM_cons, List.mapM_cons]
    exact (hx.follows lo).cons ih

/-! ## Where a line leads -/

/-- Directives deliver the same events, and lead on to where the story does. -/
theorem directives_follows (hS : A.script.words.size < UInt32.size) (hprompt : h.Prompt)
    (hdir : Directory A r sections story) {rest : Tell.Rest} {ds : List (Spanned Directive)}
    {os : List Nat} (hrow : Row (DirectiveAt Number.Unsigned A r) ds os s t) {n : Nat}
    {target : Option String} (hn : CodeAt A r sections n (rest.to target)) :
    Follows s t (fun a b => a.1.map Event.placeless = b.1 ∧ CodeAt A r sections a.2 (rest.to b.2))
      (Eval.directives A.script (Eval.expr A.script h) n os) (Tell.directives r h target ds) := by
  induction hrow generalizing n target with
  | nil s => exact .pure ⟨rfl, hn⟩ (Nat.le_refl _)
  | @cons d o ds os s m t hd _ ih =>
    cases hd with
    | auto hdecode =>
      rw [Eval.directives, hdecode, Tell.directives]
      refine ((ih hn).lower (Nat.le_succ _)).bind ?_
      rintro ⟨events, n⟩ ⟨_, target⟩ ⟨rfl, hnext⟩
      exact .pure ⟨rfl, hnext⟩ (Nat.le_refl _)
    | speed hdecode he =>
      rw [Eval.directives, hdecode, Tell.directives]
      refine ((he.number hS hprompt).lower (Nat.le_succ _)).bind_eq fun x => ?_
      refine (ih hn).bind ?_
      rintro ⟨events, n⟩ ⟨_, target⟩ ⟨rfl, hnext⟩
      exact .pure ⟨rfl, hnext⟩ (Nat.le_refl _)
    | pause hdecode he =>
      rw [Eval.directives, hdecode, Tell.directives]
      refine ((he.number hS hprompt).lower (Nat.le_succ _)).bind_eq fun x => ?_
      refine (ih hn).bind ?_
      rintro ⟨events, n⟩ ⟨_, target⟩ ⟨rfl, hnext⟩
      exact .pure ⟨rfl, hnext⟩ (Nat.le_refl _)
    | @goto y _ k span hdecode hy =>
      rw [Eval.directives, hdecode, Tell.directives]
      have htarget : CodeAt A r sections k (rest.to (some y.name)) := hdir.codeAt hy
      exact (ih htarget).lower (by omega)

/-- The tags of a line lead to the same section. -/
theorem steer_follows (hdir : Directory A r sections story) {rest : Tell.Rest} (lo : Nat)
    (tags : List Tag) {n : Nat} {target : Option String} {ending : Bool}
    (hn : CodeAt A r sections n (rest.to target)) :
    Follows (σ := σ) lo lo (fun a b => a.2 = b.2 ∧ CodeAt A r sections a.1 (rest.to b.1))
      (Eval.steer sections n ending tags) (Tell.steer story target ending tags) := by
  induction tags generalizing n target ending with
  | nil => exact .pure ⟨rfl, hn⟩ (Nat.le_refl _)
  | cons tag tags ih =>
    cases tag with
    | goto name =>
      rw [Eval.steer, Eval.sectionAt, Tell.steer]
      cases hfind : Tell.findSection? story name with
      | none =>
        rw [hdir.missing name hfind]
        exact Follows.fail rfl
      | some x =>
        obtain ⟨k, _, hk, _⟩ := hdir.found name x hfind
        rw [hk]
        have htarget : CodeAt A r sections k (rest.to (some name)) := .enter hk
        exact ih htarget
    | finish =>
      rw [Eval.steer, Tell.steer]
      exact ih hn
    | _ => exact ih hn

end

end Colloquy
