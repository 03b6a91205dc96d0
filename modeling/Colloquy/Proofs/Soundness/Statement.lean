import Colloquy.Proofs.Layout.Walk
import Colloquy.Proofs.Soundness.Expr
import Colloquy.Proofs.Timeline.Group

/-!
# Statements that were checked are safe

A statement of a script from whose compilation nothing worse than warnings came is evaluated safely
(`Stands.safe`): every expression in it was checked, and to be of the kind that its place asks for.

One fault is left.  Values that are shown in a line become part of its text, and so they can bring in a
jump, or complete one, that nobody saw when the script was compiled.  `Script.Stray` says what such a
jump is: no fixed part of the line holds it.
-/

namespace Colloquy

open Code

/-- A line that is shown at a stage jumps to a section by a tag whose brackets, with what is between
them, do not stand in any single fixed part of the line. -/
inductive Script.Stray {σ : Type} (S : Script) (h : Host σ) (x : Stage σ) (l : LineNode)
    (name : String) : Prop where
  | intro {y : Stage σ} {shown : String} {body : List Char} :
      Eval.text S (Eval.expr S h) l.segments x = .ok shown y →
      '[' :: (body ++ [']']) <:+: shown.toList → Bare body → Tag.ofGroup? body = some (.goto name) →
      (∀ i part, .text i ∈ l.segments → S.strings[i]? = some part →
        ¬ '[' :: (body ++ [']']) <:+: part.toList) →
      Stray S h x l name

/-- The fault of a line that jumps to a section which does not exist, by a tag that no fixed part of the
line holds. -/
inductive Code.Statement.Strays {σ : Type} (S : Script) (h : Host σ) (x : Stage σ) :
    Statement → SessionError → Prop where
  | line {l : LineNode} {name : String} :
      S.Stray h x l name → Strays S h x (.line l) (.unknownSection name)

section

variable {σ : Type} {P : Float → Prop} {A : Artifact} {r : Registry} {h : Host σ} {I : σ → Prop}
  {F : SessionError → Prop} {sections : Catalog Nat} {s t : Nat}

theorem Artifact.Reports.harmless {errors : List CompileError} (h : A.Reports errors)
    (hA : Harmless A.errors) : Harmless errors := fun e he => hA e (h e he)

/-- Nothing worse than a warning was reported where nothing worse was diagnosed. -/
theorem Compiled.harmless {story : Story} {c : Compilation} {labels : List Label}
    (hA : Compiled P r story c A labels) (hchecked : ∀ d ∈ c.diagnostics, d.severity ≠ .error) :
    Harmless A.errors := by
  intro e he
  refine hchecked (.compile e) ?_
  rw [← hA.diagnostics]
  exact List.mem_map_of_mem he

theorem CheckedAt.safe (hS : A.script.words.size < UInt32.size) (hserves : h.Serves r I)
    (hA : Harmless A.errors) {e : Expr} (he : CheckedAt P A r e s t) :
    Safe A.script r I F (fun _ => True) (Eval.expr A.script h s) :=
  (he.expr.safe hS hserves (he.checked.harmless hA)).mono fun _ _ => trivial

/-- An expression in a place that asks for a kind has a value of that kind. -/
theorem KindAt.safe (hS : A.script.words.size < UInt32.size) (hserves : h.Serves r I)
    (hA : Harmless A.errors) {e : Expr} {k : Kind} (he : KindAt P A r k e s t) :
    Safe A.script r I F (fun v => v.kind = k) (Eval.expr A.script h s) := by
  have herrors := he.checked.harmless hA
  rw [Typing.exprOf] at herrors
  obtain ⟨hinfer, hkind⟩ := harmless_append.mp herrors
  exact (he.expr.safe hS hserves hinfer).mono fun v hv => Typing.value_kind_of_harmless hkind hv

/-! ## Text -/

/-- A segment of a text that was checked is safe. -/
theorem SegmentAt.safe (hS : A.script.words.size < UInt32.size) (hserves : h.Serves r I)
    (hA : Harmless A.errors) {x : Segment} {b : TextNode} (hx : SegmentAt P A r x b s t) :
    Safe A.script r I F (fun _ => True) (Eval.segment A.script (Eval.expr A.script h) b) := by
  cases hx with
  | text hx =>
    rw [Eval.segment, Eval.read_string hx]
    exact .pure trivial
  | placeholder he => exact (he.safe hS hserves hA).map fun _ _ => trivial

/-- So is a text. -/
theorem text_safe (hS : A.script.words.size < UInt32.size) (hserves : h.Serves r I)
    (hA : Harmless A.errors) {xs : List Segment} {bs : List TextNode}
    (hrow : Row (SegmentAt P A r) xs bs s t) :
    Safe A.script r I F (fun _ => True) (Eval.text A.script (Eval.expr A.script h) bs) := by
  refine Safe.map (Safe.mapM fun b hb => ?_) fun _ _ => trivial
  obtain ⟨x, -, _, _, hx⟩ := hrow.exists_of_mem hb
  exact hx.safe hS hserves hA

/-! ## Hash data -/

/-- A key that was checked is there, and its values are safe. -/
theorem PairAt.safe (hS : A.script.words.size < UInt32.size) (hserves : h.Serves r I)
    (hA : Harmless A.errors) {e : HashEntry} {p : PairNode} (hp : PairAt P A r e p s t) :
    (∃ key, A.script.strings[p.key]? = some key) ∧
      Safe A.script r I F (fun _ => True) (p.values.mapM (Eval.expr A.script h)) := by
  cases hp with
  | flag hkey hlit =>
    refine ⟨⟨_, hkey⟩, Safe.mapM fun o ho => ?_⟩
    obtain rfl := List.mem_singleton.mp ho
    exact (hlit.safe _).mono fun _ _ => trivial
  | values _ hkey hrow =>
    refine ⟨⟨_, hkey⟩, Safe.mapM fun o ho => ?_⟩
    obtain ⟨e, -, _, _, rfl, he⟩ := hrow.exists_of_mem ho
    exact he.safe hS hserves hA

/-- Keys that were checked are safe. -/
theorem pairs_safe (hS : A.script.words.size < UInt32.size) (hserves : h.Serves r I)
    (hA : Harmless A.errors) {es : List HashEntry} {ps : List PairNode}
    (hrow : Row (PairAt P A r) es ps s t) (data : Catalog Value) :
    Safe A.script r I F (fun _ => True)
      (Eval.pairs A.script (Eval.expr A.script h) data ps) := by
  induction hrow generalizing data with
  | nil s => exact .pure trivial
  | cons hp _ ih =>
    obtain ⟨⟨key, hkey⟩, hvalues⟩ := hp.safe (F := F) hS hserves hA
    rw [Eval.pairs]
    refine hvalues.bind fun vs _ => ?_
    rw [Eval.read_string hkey, pure_bind]
    exact ih _

/-! ## Lines -/

/-- A speaker that was checked is safe: its variable is known, and the host names what it holds. -/
theorem SpeakerAt.safe (hserves : h.Serves r I) (hA : Harmless A.errors) {x : SpeakerRef}
    {b : SpeakerNode} (hx : SpeakerAt A r x b s t) :
    Safe A.script r I F (fun _ => True) (Eval.speaker A.script h b) := by
  cases hx with
  | named hx =>
    rw [Eval.speaker, Script.speaker, hx]
    exact .pure trivial
  | «variable» hx hreports =>
    have herrors := hreports.harmless hA
    rw [Typing.variableOf] at herrors
    obtain ⟨y, hy, -⟩ := Typing.exists_variable (harmless_append.mp herrors).1
    rw [Eval.speaker, Eval.read_string hx, pure_bind]
    refine (Safe.variableValue hserves hy).bind fun v _ => Safe.askFor fun memory hI => ?_
    obtain ⟨name, memory', hname, hI'⟩ := hserves.nameOf v hI
    exact ⟨name, memory', hname, trivial, hI'⟩

/-- Directives that were checked are safe. -/
theorem directives_safe (hS : A.script.words.size < UInt32.size) (hserves : h.Serves r I)
    (hA : Harmless A.errors) {ds : List (Spanned Directive)} {os : List Nat}
    (hrow : Row (DirectiveAt P A r) ds os s t) (next : Nat) :
    Safe A.script r I F (fun _ => True)
      (Eval.directives A.script (Eval.expr A.script h) next os) := by
  induction hrow generalizing next with
  | nil s => exact .pure trivial
  | cons hd _ ih =>
    cases hd with
    | auto hdecode =>
      rw [Eval.directives, hdecode]
      exact (ih next).map fun _ _ => trivial
    | speed hdecode he =>
      rw [Eval.directives, hdecode]
      exact (Safe.floatAt (he.safe hS hserves hA)).bind fun _ _ => (ih next).map fun _ _ => trivial
    | pause hdecode he =>
      rw [Eval.directives, hdecode]
      exact (Safe.floatAt (he.safe hS hserves hA)).bind fun _ _ => (ih next).map fun _ _ => trivial
    | goto hdecode hx =>
      rw [Eval.directives, hdecode]
      exact ih _

/-- Tags fail only where they name a section that there is not. -/
theorem steer_safe {S : Script} {tags : List Tag}
    (htags : ∀ name, .goto name ∈ tags → sections.find? name = none → F (.unknownSection name))
    (next : Nat) (ending : Bool) :
    Safe S r I F (fun _ => True) (Eval.steer sections next ending tags) := by
  induction tags generalizing next ending with
  | nil => exact .pure trivial
  | cons tag tags ih =>
    have hrest := ih fun name hname => htags name (List.mem_cons_of_mem _ hname)
    cases tag with
    | goto target =>
      rw [Eval.steer, Eval.sectionAt]
      cases hfind : sections.find? target with
      | some n =>
        refine Safe.bind (Q := fun _ => True) (.pure trivial) fun n _ => ?_
        exact hrest n ending
      -- a missing section stops the line, whatever tags follow
      | none =>
        have hfault := htags target (List.mem_cons_self ..) hfind
        exact Safe.bind (Q := fun _ => True) (.fail hfault) fun n _ => hrest n ending
    | finish => exact hrest next true
    | _ => exact hrest next ending

/-- A jump that a fixed part of a line holds was seen when the line was compiled. -/
theorem exists_mention {xs : List Segment} {nodes : List TextNode}
    (htext : Row (SegmentAt P A r) xs nodes s t)
    (hinline : ∀ x ∈ xs.flatMap Lower.inlineTargets, ∃ label, A.Mentions x label) {i : Nat}
    {part name : String} (hi : .text i ∈ nodes) (hpart : A.script.strings[i]? = some part)
    (htag : .goto name ∈ (interpolate part).tags) :
    ∃ (x : Ident) (label : Label), x.name = name ∧ A.Mentions x label := by
  obtain ⟨x, hx, _, _, hsegment⟩ := htext.exists_of_mem hi
  cases hsegment with
  | @text y _ _ hy =>
    rw [hpart] at hy
    cases hy
    have hmem : (⟨name, y.span⟩ : Ident) ∈ xs.flatMap Lower.inlineTargets :=
      List.mem_flatMap.mpr ⟨_, hx, List.mem_filterMap.mpr ⟨_, htag, rfl⟩⟩
    obtain ⟨label, hlabel⟩ := hinline _ hmem
    exact ⟨_, label, rfl, hlabel⟩

/-- A line that was checked is safe, but for a jump that its shown values bring in. -/
theorem line_safe (hS : A.script.words.size < UInt32.size) (hserves : h.Serves r I)
    (hA : Harmless A.errors)
    (hsections : ∀ x label, A.Mentions x label → (sections.find? x.name).isSome) {l : Line}
    {speakers : List SpeakerNode} {segments : List TextNode} {directives : List Nat}
    {s' t' s'' t'' next : Nat} (hspeakers : Row (SpeakerAt A r) l.speakers speakers s t)
    (htext : Row (SegmentAt P A r) l.text segments s' t')
    (hinline : ∀ x ∈ l.text.flatMap Lower.inlineTargets, ∃ label, A.Mentions x label)
    (hdirectives : Row (DirectiveAt P A r) l.directives directives s'' t'') {x : Stage σ}
    (hx : x.Sound A.script r I) :
    Safe.Ends A.script r I (Statement.Strays A.script h x (.line ⟨next, speakers, segments, directives⟩))
      (fun _ => True) (Eval.line A.script h (Eval.expr A.script h) sections
        ⟨next, speakers, segments, directives⟩ x) := by
  rw [Eval.line]
  refine Safe.bind_at hx (text_safe hS hserves hA htext) fun shown y hshown _ => ?_
  refine (directives_safe hS hserves hA hdirectives next).bind fun _ _ => ?_
  refine (Safe.mapM fun b hb => ?_).bind fun names _ => ?_
  · obtain ⟨_, -, _, _, hb⟩ := hspeakers.exists_of_mem hb
    exact hb.safe hserves hA
  refine Safe.map (steer_safe ?_ _ _) fun _ _ => trivial
  intro name hname hmissing
  -- the tag is a group of the shown text, and a fixed part that held the group would hold the tag
  obtain ⟨body, hgroup, hcontrol, htag⟩ := mem_tags_interpolate.mp hname
  obtain ⟨hshows, hbare⟩ := group_mem_pieces_iff.mp hgroup
  refine .line (.intro hshown hshows hbare htag fun i part hi hpart hwithin => ?_)
  have hfixed : .goto name ∈ (interpolate part).tags :=
    mem_tags_interpolate.mpr ⟨body, group_mem_pieces_iff.mpr ⟨hwithin, hbare⟩, hcontrol, htag⟩
  obtain ⟨z, label, rfl, hlabel⟩ := exists_mention htext hinline hi hpart hfixed
  have hsome := hsections z label hlabel
  rw [hmissing] at hsome
  cases hsome

/-! ## Choices and conditions -/

/-- The entries of a choice that were checked are safe, by induction on the entries: guards and conditions
are truth values. -/
theorem EntryAt.safe_options (hS : A.script.words.size < UInt32.size) (hserves : h.Serves r I)
    (hA : Harmless A.errors) {B : Option Ident → List Stmt → Nat → Prop} {next : Nat}
    {nodes : List ItemNode} (hnodes : ∀ node ∈ nodes, EntryAt P A r B next node)
    (filters : List Filter) :
    Safe A.script r I F (fun _ => True)
      (Eval.options A.script (Eval.expr A.script h) filters nodes) := by
  induction nodes generalizing filters with
  | nil =>
    rw [Eval.options]
    exact .pure trivial
  | cons node nodes ih =>
    rw [List.forall_mem_cons] at hnodes
    obtain ⟨hnode, hnodes⟩ := hnodes
    have hrest := ih hnodes
    have hif : ∀ {o : Nat} (relevant : Bool),
        Safe A.script r I F (fun v => v.kind = .bool) (Eval.expr A.script h o) →
        Safe A.script r I F (fun _ => True)
          (Eval.conditionIf (Eval.expr A.script h) relevant o) := by
      intro o relevant ho
      cases relevant with
      | true => exact ho.boolAt
      | false => exact .pure trivial
    cases hnode with
    | option _ hguard htext =>
      rw [Eval.options]
      by_cases hopen : Filter.isOpen filters = true
      · rw [if_pos hopen]
        -- with and without a guard the rest of the option is the same
        have hbody : ∀ (n : Nat) (enabled : Bool), Safe A.script r I F (fun _ => True) (do
            let raw ← Eval.text A.script (Eval.expr A.script h) _
            let rest ← Eval.options A.script (Eval.expr A.script h) filters nodes
            return (⟨n, (interpolate raw).text, enabled⟩ :: rest : List Choice)) :=
          fun n enabled => (text_safe hS hserves hA htext).bind fun _ _ =>
            (hrest filters).map fun _ _ => trivial
        cases hguard with
        | none => exact hbody _ true
        | some he =>
          exact (Safe.boolAt (he.safe hS hserves hA)).bind fun enabled _ => hbody _ enabled
      · rw [if_neg hopen]
        exact hrest filters
    | ifMarker he =>
      rw [Eval.options]
      exact (hif _ (he.safe hS hserves hA)).bind fun hit _ => hrest _
    | elseIf he =>
      cases filters with
      | nil => exact hrest []
      | cons f filters =>
        rw [Eval.options]
        exact (hif _ (he.safe hS hserves hA)).bind fun hit _ => hrest _
    | elseMarker =>
      cases filters with
      | nil => exact hrest []
      | cons f filters => exact hrest _
    | endIf =>
      cases filters with
      | nil => exact hrest []
      | cons f filters => exact hrest filters

/-- The conditions of a statement that were checked are safe. -/
theorem firstBranch_safe (hS : A.script.words.size < UInt32.size) (hserves : h.Serves r I)
    (hA : Harmless A.errors) {B : Option Ident → List Stmt → Nat → Prop}
    {branches : List (Expr × List Stmt)} {nodes : List (Nat × Nat)}
    (hrow : Row (BranchAt P A r B) branches nodes s t) (otherwise : Nat) :
    Safe A.script r I F (fun _ => True)
      (Eval.firstBranch (Eval.expr A.script h) otherwise nodes) := by
  induction hrow with
  | nil s => exact .pure trivial
  | cons hbranch _ ih =>
    obtain ⟨he, -⟩ := hbranch
    refine (Safe.boolAt (he.safe hS hserves hA)).bind fun hit _ => ?_
    cases hit with
    | true => exact .pure trivial
    | false => exact ih

/-! ## Statements -/

/-- A statement that was checked is safe, but for a stray jump of a line. -/
theorem NodeAt.safe (hS : A.script.words.size < UInt32.size) (hserves : h.Serves r I)
    (hA : Harmless A.errors)
    (hsections : ∀ x label, A.Mentions x label → (sections.find? x.name).isSome)
    {B : Option Ident → List Stmt → Nat → Prop} {next : Nat} {y : Stmt} {node : Statement}
    (hnode : NodeAt P A r B next y node s t) {x : Stage σ} (hx : x.Sound A.script r I) :
    Safe.Ends A.script r I (node.Strays A.script h x) (fun _ => True)
      (Eval.statement A.script h (Eval.expr A.script h) sections node x) := by
  cases hnode with
  | line _ hspeakers htext hinline hdirectives =>
    exact line_safe hS hserves hA hsections hspeakers htext hinline hdirectives hx
  | instruction he => exact (Safe.map (he.safe hS hserves hA) fun _ _ => trivial) x hx
  | goto _ hdecode =>
    have hvoid : Eval.expr A.script h (s + 2) = pure .void := by
      rw [Eval.expr, Eval.within_succ hdecode, Eval.node]
    rw [Eval.statement, hvoid, pure_bind]
    exact .ok trivial hx
  | finish => exact .ok trivial hx
  | conditional hbranches _ =>
    exact (Safe.map (firstBranch_safe hS hserves hA hbranches _) fun _ _ => trivial) x hx
  | choice _ hitems =>
    have hentries := hitems.entries _
    exact (Safe.map (EntryAt.safe_options hS hserves hA hentries []) fun _ _ => trivial) x hx
  | hash hpairs => exact (Safe.map (pairs_safe hS hserves hA hpairs ∅) fun _ _ => trivial) x hx
  | speaker hspeaker hpairs =>
    rw [Eval.statement]
    refine Safe.bind (pairs_safe hS hserves hA hpairs ∅) (fun data _ => ?_) x hx
    rw [Script.speaker, hspeaker]
    exact .pure trivial

/-- Whatever a statement of a checked script stands for, it is safe. -/
theorem Stands.safe (hS : A.script.words.size < UInt32.size) (hserves : h.Serves r I)
    (hA : Harmless A.errors)
    (hsections : ∀ x label, A.Mentions x label → (sections.find? x.name).isSome)
    {E : Nat → String → Prop} {K : Nat → Prop} {node : Statement} (hnode : Stands P A r E K s node)
    {x : Stage σ} (hx : x.Sound A.script r I) :
    Safe.Ends A.script r I (node.Strays A.script h x) (fun _ => True)
      (Eval.statement A.script h (Eval.expr A.script h) sections node x) := by
  cases hnode with
  | entry _ _ _ => exact .ok trivial hx
  | finish => exact .ok trivial hx
  | hash _ hpairs => exact (Safe.map (pairs_safe hS hserves hA hpairs ∅) fun _ _ => trivial) x hx
  | node hnode _ => exact hnode.safe hS hserves hA hsections hx

end

end Colloquy
