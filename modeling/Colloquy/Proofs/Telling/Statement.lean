import Colloquy.Proofs.Telling.Item

/-!
# Statements are told as they are played

The step of the simulation: where a script goes on with what is left to tell (`CodeAt`), the statement
there makes the requests that the story makes, and comes to the same (`CodeAt.follows`).
-/

namespace Colloquy

open Code

section

variable {σ : Type} {A : Artifact} {r : Registry} {h : Host σ} {sections : Catalog Nat}
  {story : Story} {rest : Tell.Rest} {next s t : Nat}

/-- The first branch whose condition holds is taken, and the conditions behind it are not evaluated. -/
theorem firstBranch_follows (hS : A.script.words.size < UInt32.size) (hprompt : h.Prompt)
    {B : Option Ident → List Stmt → Nat → Prop} {branches : List (Expr × List Stmt)}
    {nodes : List (Nat × Nat)} (hrow : Row (BranchAt Number.Unsigned A r B) branches nodes s t)
    {last : Nat} {b : List Stmt} (hlast : B none b last) :
    Follows s t (fun n b => B none b n)
      (Eval.firstBranch (Eval.expr A.script h) last nodes) (Tell.firstBranch r h b branches) := by
  induction hrow with
  | nil s => exact .pure hlast (Nat.le_refl _)
  | @cons _ _ branches nodes s m t hbranch hrow ih =>
    obtain ⟨he, hb⟩ := hbranch
    have hle := hrow.length_le fun _ _ _ _ h => h.lt
    refine (he.truth hS hprompt).bind_eq fun hit => ?_
    cases hit with
    | true => exact .pure hb (by omega)
    | false => exact ih.lower (Nat.le_succ _)

/-- A line is told with its speakers, its text and its directives, and leads where the last goto of it
says. -/
theorem line_follows (hS : A.script.words.size < UInt32.size) (hprompt : h.Prompt)
    (hdir : Directory A r sections story) (hnext : CodeAt A r sections next rest) {l : Line}
    {speakers : List SpeakerNode} {segments : List TextNode} {directives : List Nat} {m u : Nat}
    (hspeakers : Row (SpeakerAt A r) l.speakers speakers s m)
    (htext : Row (SegmentAt Number.Unsigned A r) l.text segments (m + 1) u)
    (hdirectives : Row (DirectiveAt Number.Unsigned A r) l.directives directives (u + 1) t) :
    Follows (m + 1) t (OutcomeAt A r sections)
      (Eval.line A.script h (Eval.expr A.script h) sections ⟨next, speakers, segments, directives⟩)
      (Tell.line r h story rest l) := by
  refine (text_follows hS hprompt htext).bind_eq fun raw => ?_
  have htarget : CodeAt A r sections next (rest.to none) := hnext
  refine ((directives_follows hS hprompt hdir hdirectives htarget).lower (Nat.le_succ u)).bind ?_
  rintro ⟨events, n⟩ ⟨_, target⟩ ⟨rfl, hn⟩
  refine (speakers_follows hspeakers t).bind_eq fun names => ?_
  refine (steer_follows hdir t (interpolate raw).tags hn).bind ?_
  rintro ⟨n, ending⟩ ⟨target, _⟩ ⟨rfl, hn⟩
  exact .pure (.present ending _ hn) (Nat.le_refl _)

/-- A statement without blocks in front of it. -/
theorem NodeAt.follows (hS : A.script.words.size < UInt32.size) (hprompt : h.Prompt)
    (hdir : Directory A r sections story) {x : Stmt} (hx : x.Regular)
    (hnext : Falls x → CodeAt A r sections next rest) {node : Statement}
    (hnode : NodeAt Number.Unsigned A r (Onward A r sections rest) next x node s t) :
    Follows s t (OutcomeAt A r sections)
      (Eval.statement A.script h (Eval.expr A.script h) sections node)
      (Tell.stmt r h story rest x) := by
  cases hnode with
  | @line l speakers segments directives _ m u _ hhash hspeakers htext _ hdirectives =>
    have hline := line_follows hS hprompt hdir (hnext (.line l)) hspeakers htext hdirectives
    have hle := hspeakers.length_le fun _ _ _ _ h => h.lt
    rw [Eval.statement, Tell.stmt, hhash]
    exact hline.lower (by omega)
  | instruction he =>
    refine ((he.expr.follows hS hprompt).lower (show s ≤ s + 2 by omega)).bind_eq fun _ => ?_
    exact .pure (.proceed [] (hnext (.instruction _))) (Nat.le_refl _)
  | @goto x _ n henters hdecode =>
    have hvoid : Eval.expr A.script h (s + 2) = pure .void := by
      rw [Eval.expr, Eval.within_succ hdecode, Eval.node]
    rw [Eval.statement, hvoid, pure_bind]
    exact .pure (.proceed [] (hdir.codeAt henters)) (by omega)
  | finish => exact .pure .finish (by omega)
  | conditional hbranches hlast =>
    have hfirst := firstBranch_follows hS hprompt hbranches hlast
    refine (hfirst.lower (show s ≤ s + 3 by omega)).bind fun n b hb => ?_
    exact .pure (.proceed [] hb) (Nat.le_refl _)
  | @choice items span nodes _ _ _ hitems =>
    rw [Stmt.Regular, Stmt.Meets] at hx
    have hnext := hnext (.choice items span)
    have hnil : Follows t t (List.Forall₂ (OfferAt A r sections))
        (Eval.options A.script (Eval.expr A.script h) [] []) (pure []) :=
      .pure .nil (Nat.le_refl _)
    have hall := ItemsAt.follows hS hprompt hdir hnext items hx hitems rfl hnil
    rw [List.append_nil, Tell.before] at hall
    simp only [pure_bind, List.append_nil, bind_pure] at hall
    refine (hall.lower (show s ≤ s + 3 by omega)).bind fun choices offers hoffers => ?_
    exact .pure (.offer hnext hoffers) (Nat.le_refl _)
  | @hash b pairs _ _ hpairs =>
    have hdata := pairs_follows (h := h) hS hprompt hpairs ∅
    refine (hdata.lower (show s ≤ s + 3 by omega)).bind_eq fun data => ?_
    exact .pure (.proceed _ (hnext (.hash b))) (Nat.le_refl _)
  | @speaker x b span i pairs _ _ hspeaker hpairs =>
    have hdata := pairs_follows (h := h) hS hprompt hpairs ∅
    refine (hdata.lower (show s ≤ s + 4 by omega)).bind_eq fun data => ?_
    rw [Script.speaker, hspeaker]
    exact .pure (.proceed _ (hnext (.speaker x b span))) (Nat.le_refl _)

/-- The statement at the offset of a statement of the story. -/
theorem StmtAt.follows (hS : A.script.words.size < UInt32.size) (hprompt : h.Prompt)
    (hdir : Directory A r sections story) {x : Stmt} (hx : x.Regular)
    (hnext : Falls x → CodeAt A r sections next rest)
    (hstmt : StmtAt Number.Unsigned A r x s next t) :
    ∃ m, Follows s m (OutcomeAt A r sections)
      (Eval.statementAt A.script h (Eval.expr A.script h) sections s)
      (Tell.stmt r h story rest x) := by
  obtain ⟨node, m, hdecode, hnode⟩ | ⟨l, b, pairs, m, rfl, hhash, hdecode, hpairs, hline⟩ :=
    hstmt.inversion
  · refine ⟨m, ?_⟩
    rw [Eval.statementAt_ok _ _ _ hdecode]
    refine NodeAt.follows hS hprompt hdir hx hnext (hnode.imp ?_)
    intro y b n hb
    exact hb.2.codeAt hdir hx hnext hb.1
  · refine ⟨m, ?_⟩
    rw [Eval.statementAt_ok _ _ _ hdecode, Eval.statement, Tell.stmt, hhash]
    have hdata := pairs_follows (h := h) hS hprompt hpairs ∅
    refine (hdata.lower (show s ≤ s + 3 by omega)).bind_eq fun data => ?_
    have hregular : ∀ y ∈ [Stmt.line { l with hash := none }], y.Regular := by
      intro y hy
      obtain rfl := List.mem_singleton.mp hy
      rw [Stmt.Regular, Stmt.Meets] at hx ⊢
      exact ⟨hx.text, hx.directives, by simp⟩
    have hcode : CodeAt A r sections m (rest.push [.line { l with hash := none }]) :=
      .block hregular (.cons hline (.nil _ _)) fun _ => hnext (.line l)
    exact .pure (.proceed _ hcode) (Nat.le_refl _)

/-- A section is entered at its entry, and ends where its body is left. -/
theorem SectionAt.follows (hmeets : story.Meets (Expr.Floats Number.Unsigned) (0 < ·)) {x : Section}
    (hx : x ∈ story) (hsection : SectionAt Number.Unsigned A r x s t) :
    Follows s s (OutcomeAt A r sections)
      (Eval.statementAt A.script h (Eval.expr A.script h) sections s)
      (pure (.proceed ⟨x.body, .finish⟩ [])) := by
  obtain ⟨n, i, e, m, hdecode, _, hbody, hend⟩ := hsection.body
  rw [Eval.statementAt_ok _ _ _ hdecode, Eval.statement]
  have hregular : ∀ y ∈ x.body, y.Regular := Stmt.allMeet_iff.mp (hmeets x hx)
  have hcode : CodeAt A r sections n ⟨x.body ++ [], .finish⟩ := by
    refine .block hregular hbody fun hfalls => ?_
    rcases hend with ⟨hnot, _⟩ | ⟨_, rfl, hfinish, _⟩
    · exact absurd hfalls hnot
    · exact .finish hfinish
  rw [List.append_nil] at hcode
  exact .pure (.proceed [] hcode) (Nat.le_refl _)

/-- Where a script goes on with what is left to tell, its next statement is the next of the story. -/
theorem CodeAt.follows (hS : A.script.words.size < UInt32.size) (hprompt : h.Prompt)
    (hdir : Directory A r sections story) (hmeets : story.Meets (Expr.Floats Number.Unsigned) (0 < ·))
    (hcode : CodeAt A r sections s rest) :
    ∃ m, Follows s m (OutcomeAt A r sections)
      (Eval.statementAt A.script h (Eval.expr A.script h) sections s) (Tell.next r h story rest) := by
  match rest with
  | ⟨x :: xs, exit⟩ =>
    obtain ⟨hx, next, t, hstmt, hnext⟩ := hcode.cons_inversion rfl
    exact hstmt.follows hS hprompt hdir hx hnext
  | ⟨[], .finish⟩ =>
    obtain ⟨t, hdecode⟩ := hcode.finish_inversion rfl
    refine ⟨s, ?_⟩
    rw [Eval.statementAt_ok _ _ _ hdecode]
    exact .pure .finish (Nat.le_refl _)
  | ⟨[], .enter name⟩ =>
    have hfind := hcode.enter_inversion rfl
    rw [Tell.next]
    cases hx : Tell.findSection? story name with
    | none =>
      rw [hdir.missing name hx] at hfind
      cases hfind
    | some x =>
      obtain ⟨n, t, hn, hsection⟩ := hdir.found name x hx
      obtain rfl : n = s := Option.some.inj (hn.symm.trans hfind)
      exact ⟨n, hsection.follows hmeets (List.mem_of_find?_eq_some hx)⟩

end

end Colloquy
