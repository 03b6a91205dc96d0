import Colloquy.Host.Table
import Colloquy.Proofs.Layout.Flat
import Colloquy.Proofs.Session.Faults
import Colloquy.Proofs.Session.Turn
import Colloquy.Proofs.Timeline.Place

/-!
# Tags of lines, compiled and played

When a line is compiled, only the fixed parts of its text are known, and each is searched for tags on its
own.  When it is played, the parts are put together with what the placeholders are shown as, and the whole is
searched.  Whatever is shown, the tags of the fixed parts are still found in the whole, and a jump that stands
in one fixed part was found in that part (`tagsAgree`).  So a line whose jumps were all resolved can only miss
a section by a tag that reaches over the end of a fixed part or stands in what a placeholder is shown as
(`compile_inline_agrees`).
-/

namespace Colloquy

open Code

/-! ## Parts and the whole -/

/-- What a stretch of text may be shown as: fixed text as it is, and a placeholder as anything. -/
inductive Segment.ShownAs : Segment → String → Prop where
  | text (t : Spanned String) : ShownAs (.text t) t.val
  | placeholder (e : Expr) (shown : String) : ShownAs (.placeholder e) shown

/-- The tags of a stretch of text that are known before it is shown. -/
def Segment.fixedTags : Segment → List Tag
  | .text t => (interpolate t.val).tags
  | .placeholder _ => []

/-- The number of characters in front of a part. -/
def partStart (parts : List String) (k : Nat) : Nat := (String.join (parts.take k)).length

/-- A group that is opened at a place stands in the `k`-th part, with both its brackets. -/
def StandsIn (parts : List String) (k place : Nat) (body : List Char) : Prop :=
  partStart parts k ≤ place ∧ place + (body.length + 2) ≤ partStart parts (k + 1)

/-- The parts of a line and the whole agree on tags. -/
structure TagsAgree (ss : List Segment) (parts : List String) : Prop where
  /-- The tags of the fixed parts are tags of the whole, in their order. -/
  kept : (ss.flatMap Segment.fixedTags).Sublist (interpolate (String.join parts)).tags
  /-- A jump in a single fixed part was found there. -/
  found : ∀ k t, ss[k]? = some (.text t) → ∀ place body name,
    (place, body) ∈ controls (String.join parts) → Tag.ofGroup? body = some (.goto name) →
    StandsIn parts k place body →
      (place - partStart parts k, body) ∈ controls t.val ∧ ⟨name, t.span⟩ ∈ Lower.inlineTargets (.text t)

section

variable {ss : List Segment} {parts : List String}

/-- The tags of the fixed parts are tags of the whole, in their order. -/
theorem fixedTags_sublist (h : List.Forall₂ Segment.ShownAs ss parts) :
    (ss.flatMap Segment.fixedTags).Sublist (interpolate (String.join parts)).tags := by
  induction h with
  | nil => exact List.nil_sublist _
  | @cons s shown ss parts hs _ ih =>
    have hfirst : s.fixedTags.Sublist (interpolate shown).tags := by
      cases hs with
      | text t => exact .refl _
      | placeholder e => exact List.nil_sublist _
    rw [List.flatMap_cons, String.join_cons]
    exact (hfirst.append ih).trans (tags_append_sublist ..)

/-- A control group that stands in a part of a text is one of the part. -/
theorem mem_controls_part {k place : Nat} {part : String} {body : List Char} (hpart : parts[k]? = some part)
    (hgroup : (place, body) ∈ controls (String.join parts)) (hstands : StandsIn parts k place body) :
    (place - partStart parts k, body) ∈ controls part := by
  obtain ⟨hfront, hback⟩ := hstands
  have hnext : parts.take (k + 1) = parts.take k ++ [part] := by
    rw [List.take_add_one, hpart]
    rfl
  have hjoin : String.join parts =
      String.join (parts.take k) ++ (part ++ String.join (parts.drop (k + 1))) := by
    rw [← String.join_cons, ← String.join_append, ← List.singleton_append, ← List.append_assoc, ← hnext,
      List.take_append_drop]
  rw [partStart, hnext, String.join_append, String.length_append, String.join_cons, String.length_append,
    String.join_nil, String.length_empty, Nat.add_zero, ← String.length_toList,
    ← String.length_toList] at hback
  rw [partStart, ← String.length_toList] at hfront ⊢
  rw [mem_controls] at hgroup ⊢
  rw [hjoin, String.toList_append, String.toList_append] at hgroup
  exact hgroup.imp_left fun h => mem_groupsFrom_infix h hfront hback

theorem Segment.ShownAs.eq_of_text {t : Spanned String} {shown : String} (h : ShownAs (.text t) shown) :
    shown = t.val := by
  cases h
  rfl

/-- Whatever the placeholders are shown as, the tags of the parts and those of the whole agree. -/
theorem tagsAgree (h : List.Forall₂ Segment.ShownAs ss parts) : TagsAgree ss parts where
  kept := fixedTags_sublist h
  found k t ht place body name hgroup htag hstands := by
    obtain ⟨hk, hget⟩ := List.getElem?_eq_some_iff.mp ht
    have hk' : k < parts.length := h.length_eq ▸ hk
    have hshown : Segment.ShownAs ss[k] parts[k] := h.get hk hk'
    rw [hget] at hshown
    have hpart : parts[k]? = some t.val := by
      rw [List.getElem?_eq_getElem hk', hshown.eq_of_text]
    have hown := mem_controls_part hpart hgroup hstands
    refine ⟨hown, List.mem_filterMap.mpr ⟨.goto name, ?_, rfl⟩⟩
    rw [tags_interpolate 0]
    exact List.mem_filterMap.mpr ⟨_, hown, htag⟩

end

/-! ## Lines that miss a section -/

section

variable {σ : Type} {P : Float → Prop} {A : Artifact} {r : Registry} {s t : Nat}

/-- A text is made of its parts, and fixed parts are shown as they were compiled. -/
theorem exists_parts {eval : Nat → Eval σ Value} {ss : List Segment} {nodes : List TextNode}
    (htext : Row (SegmentAt P A r) ss nodes s t) {x y : Stage σ} {raw : String}
    (hrun : Eval.text A.script eval nodes x = .ok raw y) :
    ∃ parts, raw = String.join parts ∧ List.Forall₂ Segment.ShownAs ss parts := by
  have hparts : ∀ {x y : Stage σ} {parts : List String},
      nodes.mapM (Eval.segment A.script eval) x = .ok parts y → List.Forall₂ Segment.ShownAs ss parts := by
    clear hrun
    induction htext with
    | nil =>
      intro x y parts hrun
      rw [List.mapM_nil] at hrun
      cases hrun
      exact .nil
    | cons hsegment _ ih =>
      intro x y parts hrun
      rw [List.mapM_cons] at hrun
      obtain ⟨part, z, hpart, hrun⟩ := Eval.bind_eq_ok.mp hrun
      obtain ⟨rest, w, hrest, hrun⟩ := Eval.bind_eq_ok.mp hrun
      cases hrun
      refine .cons ?_ (ih hrest)
      cases hsegment with
      | text hstring =>
        rw [Eval.segment, Eval.read_string hstring] at hpart
        cases hpart
        exact .text _
      | placeholder => exact .placeholder _ _
  obtain ⟨parts, z, hrun, heq⟩ := Eval.bind_eq_ok.mp hrun
  cases heq
  exact ⟨parts, rfl, hparts hrun⟩

/-- A line that is shown as some parts names a section that it misses, and no tag of that name stands in a
single fixed part of it. -/
structure Line.Misses (l : Line) (S : Script) (h : Host σ) (stage : Stage σ) (node : Statement)
    (name : String) (parts : List String) : Prop where
  shown : List.Forall₂ Segment.ShownAs l.text parts
  text : ∃ n stage', node = .line n ∧
    Eval.text S (Eval.expr S h) n.segments stage = .ok (String.join parts) stage'
  tag : ∃ place body, (place, body) ∈ controls (String.join parts) ∧ Tag.ofGroup? body = some (.goto name)
  outside : ∀ place body, (place, body) ∈ controls (String.join parts) →
    Tag.ofGroup? body = some (.goto name) → ∀ k t, l.text[k]? = some (.text t) →
      ¬StandsIn parts k place body

/-- A line all of whose known jumps lead to sections of a table. -/
theorem NodeAt.misses {B : Option Ident → List Stmt → Nat → Prop} {l : Line} {node : Statement} {next : Nat}
    (hnode : NodeAt P A r B next (.line l) node s t) {table : Catalog Nat}
    (htable : ∀ y ∈ l.text.flatMap Lower.inlineTargets, ∀ label, A.Mentions y label →
      (table.find? y.name).isSome = true) {h : Host σ} {x y : Stage σ} {name : String} {ending : Bool}
    (hrun : Eval.statement A.script h (Eval.expr A.script h) table node x =
      .error (.fault (.unknownSection name) ending) y) : ∃ parts, l.Misses A.script h x node name parts := by
  cases hnode with
  | line _ _ htext hinline =>
    obtain ⟨raw, z, hraw, hname, hmissing⟩ := Eval.line_unknownSection Eval.Ordinary.expr hrun
    obtain ⟨parts, rfl, hparts⟩ := exists_parts htext hraw
    refine ⟨parts, hparts, ⟨_, z, rfl, hraw⟩, ?_, ?_⟩
    · rw [tags_interpolate 0] at hname
      obtain ⟨⟨place, body⟩, hgroup, htag⟩ := List.mem_filterMap.mp hname
      exact ⟨place, body, hgroup, htag⟩
    · intro place body hgroup htag k part hpart hstands
      have hfound := ((tagsAgree hparts).found k part hpart place body name hgroup htag hstands).2
      have hmem := List.mem_flatMap.mpr ⟨_, List.mem_of_getElem? hpart, hfound⟩
      obtain ⟨label, hlabel⟩ := hinline _ hmem
      have hsome := htable _ hmem label hlabel
      rw [hmissing] at hsome
      cases hsome

end

/-- However the placeholders of a text are shown, its parts and the whole agree on tags.  The lines of a story
are statements of its script, and one from whose known jumps no section was missed when it was compiled misses
one when it is played only by a tag that stands in no single fixed part of it. -/
theorem compile_inline_agrees (r : Registry) (o : CompileOptions) (story : Story)
    (haddressable : (compile r o story).script.Addressable) :
    (∀ ss parts, List.Forall₂ Segment.ShownAs ss parts → TagsAgree ss parts) ∧
    ∃ table xs, (compile r o story).script.sectionTable = .ok table ∧
      (compile r o story).script.Walk 0 xs (compile r o story).script.words.size ∧
      List.Forall₂ (fun x p => ∀ l, x = Stmt.line l →
        (∀ y ∈ l.text.flatMap Lower.inlineTargets,
          .compile (.unknownSection y.name y.span) ∉ (compile r o story).diagnostics) →
        ∀ (σ : Type) (h : Host σ) (stage stage' : Stage σ) (name : String) (ending : Bool),
          Eval.statementAt (compile r o story).script h (Eval.expr (compile r o story).script h) table p.1
            stage = .error (.fault (.unknownSection name) ending) stage' →
          ∃ parts, l.Misses (compile r o story).script h stage p.2 name parts)
        story.flat (xs.filter fun p => !p.2.isFrame) := by
  refine ⟨fun _ _ => tagsAgree, ?_⟩
  obtain ⟨A, labels, hA⟩ := exists_compiled_of_any r o story haddressable
  obtain ⟨xs, hxs⟩ := hA.flat
  obtain ⟨ws, hlaid⟩ := hA.exists_laid
  obtain ⟨table, htable, -, hcomplete⟩ := hlaid.exists_table
  rw [← hA.script, ← hA.diagnostics]
  refine ⟨table, xs, htable, hxs.walk, hxs.nodes.imp ?_⟩
  rintro x ⟨n, node⟩ ⟨-, next, m, hdecode, hnode⟩ l rfl hresolved σ h stage stage' name ending hrun
  rw [Eval.statementAt_ok _ _ _ hdecode] at hrun
  refine hnode.misses (fun y hy label hlabel => ?_) hrun
  -- a name that was not reported is the name of a section
  have hbound := hlabel.reported.resolve_right fun herror => hresolved y hy (List.mem_map_of_mem herror)
  obtain ⟨z, hz, hname⟩ := hA.declared y label hlabel.labels hbound
  exact hcomplete _ _ ⟨z, label, hz, rfl, hname⟩

/-- The section that an evaluation misses. -/
def Eval.missed? {σ α : Type} (m : Eval σ α) (x : Stage σ) : Option String :=
  match m x with
  | .error (.fault (.unknownSection name) _) _ => some name
  | _ => none

/-- An evaluation that misses a section ends with the fault that names it. -/
theorem Eval.exists_of_missed? {σ α : Type} {m : Eval σ α} {x : Stage σ} {name : String}
    (h : m.missed? x = some name) :
    ∃ ending y, m x = .error (.fault (.unknownSection name) ending) y := by
  unfold missed? at h
  split at h
  · next heq =>
    cases h
    exact ⟨_, _, heq⟩
  · cases h

/-- A line with a jump that is written halfway. -/
def hearsay : Line :=
  { speakers := []
    text := [.text ⟨"Psst [goto=no", ⟨6, 13⟩⟩, .placeholder (.variable ⟨"rest", ⟨20, 4⟩⟩)]
    directives := []
    hash := none
    span := ⟨6, 19⟩ }

/-- A story of that line. -/
def hearsayStory : Story := [⟨⟨"a", ⟨4, 1⟩⟩, ⟨0, 5⟩, [.line hearsay]⟩]

/-- A host that knows how the jump goes on. -/
def whisperer : TableHost := TableHost.empty.withVariable "rest" (.string "where]")

/-- The script of the story. -/
def hearsayScript : Script := (compile whisperer.registry {} hearsayStory).script

/-- The jump reaches over the end of the fixed part, and nobody saw that its section is not there. -/
theorem misses_by_hearsay : ∃ stage node parts,
    hearsay.Misses hearsayScript TableHost.host stage node "nowhere" parts := by
  obtain ⟨-, table, xs, htable, hwalk, hlines⟩ :=
    compile_inline_agrees whisperer.registry {} hearsayStory (by decide +kernel)
  have hxs : xs = [(0, .entry 3 0), (3, .line ⟨13, [], [.text 1, .expr 10], []⟩), (13, .finish)] := by
    refine Script.Walk.unique (.cons (m := 3) ?_ (.cons (m := 13) ?_ (.cons ?_ (.nil _)))) hwalk
    all_goals decide +kernel
  have hflat : hearsayStory.flat = [.line hearsay] := by
    simp [hearsayStory, Story.flat, Stmt.flat_eq, Stmt.own, Stmt.blocks, hearsay]
  have hresolved : ∀ y ∈ hearsay.text.flatMap Lower.inlineTargets, .compile (.unknownSection y.name y.span) ∉
      (compile whisperer.registry {} hearsayStory).diagnostics := by
    decide +kernel
  have hmissed : hearsayScript.sectionTable.toOption.bind (fun table =>
      (Eval.statementAt hearsayScript TableHost.host (Eval.expr hearsayScript TableHost.host) table 3).missed?
        ⟨.empty, whisperer⟩) = some "nowhere" := by
    decide +kernel
  have htable' : hearsayScript.sectionTable.toOption = some table := by rw [hearsayScript, htable]; rfl
  rw [htable', Option.bind_some] at hmissed
  obtain ⟨ending, stage', hrun⟩ := Eval.exists_of_missed? hmissed
  rw [hxs, hflat] at hlines
  obtain _ | ⟨hline, -⟩ := hlines
  obtain ⟨parts, hmisses⟩ := hline hearsay rfl hresolved _ _ _ _ _ _ hrun
  exact ⟨_, _, parts, hmisses⟩

end Colloquy
