import Colloquy.Proofs.Diagnostic.Flow
import Colloquy.Proofs.Layout.WellFormed
import Colloquy.Proofs.Session.Onward

/-!
# What is reported of sections

A compilation reports of sections what can be read off its story: each section that has the name of an
earlier one, at the first of that name, and each use of a name that no section has.  A use that is reported
leads to the end behind all sections.

The table of names keeps the first declaration of a name (`Lower.declareAll_repeats`), and the label it has
for a name is bound in the end if and only if some section has the name (`Lower.story_lowered`).  So the
names that are noted but lead nowhere are those that no section has.
-/

namespace Colloquy

/-! ## Sections of a story -/

/-- Some section of the story has the name. -/
def Story.declares (story : Story) (name : String) : Bool := story.any fun x => x.name.name = name

/-- What is reported of a section behind others: it has the name of one of them. -/
def Section.repeats (before : List Section) (x : Section) : List CompileError :=
  match before.find? fun y => y.name.name = x.name.name with
  | some first => [.duplicateSection x.name.name x.name.span first.name.span]
  | none => []

/-- What is reported of sections behind others. -/
def Story.repeatsAfter (before : List Section) : List Section → List CompileError
  | [] => []
  | x :: xs => x.repeats before ++ Story.repeatsAfter (before ++ [x]) xs

/-- One error for each section that has the name of an earlier one, at the first section of that name. -/
def Story.repeats (story : Story) : List CompileError := Story.repeatsAfter [] story

/-- One error for each use of a name that no section has. -/
def Story.strays (story : Story) : List CompileError :=
  (story.references.filter fun x => !story.declares x.name).map fun x => .unknownSection x.name x.span

theorem Story.declares_iff {story : Story} {name : String} :
    story.declares name = true ↔ ∃ x ∈ story, x.name.name = name := by
  simp [Story.declares]

/-! ## Declarations -/

namespace Lower

variable {P : Float → Prop} {r : Registry} {o : CompileOptions} {d : Draft}

/-- The sections of a draft are those declared so far, each name at its first declaration. -/
def Introduces (before : List Section) (d : Draft) : Prop :=
  ∀ name, (d.sections.find? name).bind SectionEntry.declared
    = (before.find? fun x => x.name.name = name).map (·.name.span)

/-- A declaration reports a name that is there already, and the first section keeps it. -/
theorem declare_repeats {before : List Section} (h : Introduces before d) (x : Section) :
    Introduces (before ++ [x]) (declare x d).2 ∧
      (declare x d).2.errors = d.errors ++ x.repeats before ∧
      (declare x d).2.assembly.mentions = d.assembly.mentions := by
  have hx : ((freshLabel d).2.sections.find? x.name.name).bind SectionEntry.declared
      = (before.find? fun y => y.name.name = x.name.name).map (·.name.span) := h x.name.name
  cases hfind : before.find? fun y => y.name.name = x.name.name with
  | some first =>
    have hrun : (declare x d).2 = (report [.duplicateSection x.name.name x.name.span first.name.span]
        (freshLabel d).2).2 := by
      simp only [declare, bind_apply, get_apply, hx, hfind]
      rfl
    rw [hrun, Section.repeats, hfind]
    refine ⟨fun name => ?_, rfl, rfl⟩
    show (d.sections.find? name).bind _ = _
    rw [h name, List.find?_append]
    by_cases hname : x.name.name = name
    · rw [← hname, hfind]
      rfl
    · simp [hname]
  | none =>
    have hrun : (declare x d).2 = { (freshLabel d).2 with
        sections := d.sections.insert x.name.name ⟨(freshLabel d).1, some x.name.span⟩ } := by
      simp only [declare, bind_apply, get_apply, hx, hfind]
      rfl
    rw [hrun, Section.repeats, hfind]
    refine ⟨fun name => ?_, (List.append_nil _).symm, rfl⟩
    show ((d.sections.insert _ _).find? name).bind _ = _
    rw [List.find?_append, Catalog.find?_insert]
    by_cases hname : name = x.name.name
    · rw [if_pos hname, hname, hfind]
      simp
    · rw [if_neg hname, h name]
      simp [Ne.symm hname]

/-- Declarations report the names that are there already. -/
theorem declareAll_repeats {before : List Section} (h : Introduces before d) (xs : List Section) :
    (declareAll xs d).2.errors = d.errors ++ Story.repeatsAfter before xs ∧
      (declareAll xs d).2.assembly.mentions = d.assembly.mentions := by
  induction xs generalizing before d with
  | nil => exact ⟨(List.append_nil _).symm, rfl⟩
  | cons x xs ih =>
    obtain ⟨hmore, herrors, hmentions⟩ := declare_repeats h x
    obtain ⟨hrest, hmentions'⟩ := ih hmore
    have hrun : (declareAll (x :: xs) d).2 = (declareAll xs (declare x d).2).2 := rfl
    rw [hrun, hrest, herrors, hmentions', hmentions, Story.repeatsAfter, List.append_assoc]
    exact ⟨rfl, rfl⟩

end Lower

/-! ## Labels of names -/

/-- What is known of the last draft of a story. -/
structure Lowered (o : CompileOptions) (story : Story) (d : Draft) : Prop where
  names : d.assembly.mentions.toList.map Mention.source = story.references
  flow : d.errors.filter CompileError.isFlow = story.repeats ++ Stmt.warnings o story.chart
  named : d.Named
  bound : ∀ name e, d.sections.find? name = some e →
    d.assembly.isBound e.label = story.declares name

/-- What is reported of repeated sections is about sections. -/
theorem Story.repeatsAfter_isSectional {before xs : List Section} {e : CompileError}
    (h : e ∈ Story.repeatsAfter before xs) : e.isSectional = true := by
  induction xs generalizing before with
  | nil => cases h
  | cons x xs ih =>
    rcases List.mem_append.mp h with h | h
    · rw [Section.repeats] at h
      split at h
      · rw [List.mem_singleton.mp h]
        rfl
      · cases h
    · exact ih h

/-- A whole story notes the names in it, reports what is repeated and what is cut off, and binds the
labels of its own sections. -/
theorem Lower.story_lowered (r : Registry) (o : CompileOptions) (story : Story) :
    Lowered o story ((Lower.story r o story).run .empty).2 := by
  have hall : ∀ x : Float, (fun _ => True) x := fun _ => trivial
  have hcount : ∀ n : Nat, (fun _ => True) n := fun _ => trivial
  have hdeclared := declareAll_declared story (declared_empty (P := fun _ => True))
  have hempty : Introduces [] Draft.empty := fun _ => rfl
  obtain ⟨herrors, hmentions⟩ := declareAll_repeats hempty story
  rw [List.nil_append, List.nil_append] at hdeclared
  have hrun : ((Lower.story r o story).run .empty).2
      = (sectionBodies r o story (declareAll story .empty).1 (declareAll story .empty).2).2 := rfl
  rw [hrun]
  generalize (declareAll story .empty).1 = labels at *
  generalize (declareAll story .empty).2 = d at *
  have hnotes := sectionBodies_notes r o hdeclared.length d
  obtain ⟨hemits, hbound⟩ := sectionBodies_laid (o := o) (r.floats_all hall) hdeclared.length
    (story.meets_all (fun e => e.floats_all hall) hcount) hdeclared.valid hdeclared.closed
    hdeclared.nodup hdeclared.fresh
  generalize (sectionBodies r o story labels d).2 = d' at *
  refine ⟨?_, ?_, hnotes.named ?_, ?_⟩
  · rw [hnotes.names, hmentions]
    rfl
  · rw [hnotes.errors, herrors]
    refine congrArg (· ++ _) (List.filter_eq_self.mpr fun e he => ?_)
    rw [CompileError.isFlow, Story.repeatsAfter_isSectional he, Bool.true_or]
  · rw [Draft.Named, hmentions]
    simp [Draft.empty, Assembly.empty]
  · intro name e he
    rcases hemits.step.new name e he with hold | ⟨-, hnone⟩
    · obtain ⟨-, x, hx, hname⟩ := hdeclared.known name e hold
      obtain ⟨hx, hl⟩ := List.of_mem_zip hx
      obtain ⟨n, hn⟩ := hbound e.label hl
      rw [Assembly.isBound, Assembly.resolve?_of_offset hn]
      exact (Story.declares_iff.mpr ⟨x, hx, hname⟩).symm
    · -- the sections of the story were all there before, so this name is none of theirs
      rw [Assembly.isBound, Assembly.resolve?_of_unbound (hemits.valid.undeclared name e he hnone)]
      refine (Bool.eq_false_iff.mpr fun hdeclares => ?_).symm
      obtain ⟨x, hx, rfl⟩ := Story.declares_iff.mp hdeclares
      obtain ⟨e', he'⟩ := hdeclared.found x hx
      rw [hemits.step.known _ _ he'] at he
      obtain rfl := Option.some.inj he
      exact (hdeclared.known _ _ he').1 hnone

/-- The mentions that lead nowhere in the end are the uses of names that no section has. -/
theorem Lowered.unresolved {o : CompileOptions} {story : Story} {d : Draft} (h : Lowered o story d) :
    d.assembly.finish.2.map (fun m => CompileError.unknownSection m.source.name m.source.span)
      = story.strays := by
  have hbound : ∀ m ∈ d.assembly.mentions.toList,
      (!d.assembly.isBound m.label) = !story.declares m.source.name := by
    intro m hm
    obtain ⟨e, he, hlabel⟩ := h.named m (Array.mem_toList_iff.mp hm)
    rw [← hlabel, h.bound _ e he]
  have hfinish : d.assembly.finish.2 = d.assembly.mentions.toList.filter
      fun m => !d.assembly.isBound m.label := rfl
  rw [hfinish, List.filter_congr hbound, Story.strays, ← h.names, List.filter_map, List.map_map]
  rfl

/-! ## Compilations -/

theorem Story.strays_isSectional {story : Story} {e : CompileError} (h : e ∈ story.strays) :
    e.isSectional = true := by
  obtain ⟨x, -, rfl⟩ := List.mem_map.mp h
  rfl

theorem CompileError.not_isUnreachable {e : CompileError} (h : e.isSectional = true) :
    ¬e.isUnreachable = true := by
  cases e <;> simp_all [isSectional, isUnreachable]

/-- Errors of one sort about where control goes are found among all of these. -/
theorem filter_isFlow {p : CompileError → Bool} (hp : ∀ e, p e = true → e.isFlow = true)
    (errors : List CompileError) : (errors.filter CompileError.isFlow).filter p = errors.filter p := by
  rw [List.filter_filter]
  refine List.filter_congr fun e _ => ?_
  cases h : p e with
  | false => rfl
  | true => rw [hp e h, Bool.and_true]

/-- What is cut off is only warned of. -/
theorem Stmt.warnings_isUnreachable {o : CompileOptions} {ps : List (Lower.Reach × Stmt)} {e : CompileError}
    (h : e ∈ Stmt.warnings o ps) : e.isUnreachable = true := by
  rw [Stmt.warnings] at h
  split at h
  · obtain ⟨⟨reach, x⟩, -, hreach⟩ := List.mem_filterMap.mp h
    cases reach with
    | cut terminatedAt =>
      rw [← Option.some.inj hreach]
      rfl
    | _ => cases hreach
  · cases h

/-- What a compilation reports of where control goes: the sections that are declared again and the uses
of names that no section has, and apart from these the statements that are cut off. -/
theorem compile_flow (r : Registry) (o : CompileOptions) (story : Story) :
    ∃ errors : List CompileError, (compile r o story).diagnostics = errors.map .compile ∧
      errors.filter CompileError.isSectional = story.repeats ++ story.strays ∧
      errors.filter CompileError.isUnreachable = Stmt.warnings o story.chart := by
  have h := Lower.story_lowered r o story
  have hcompile : (compile r o story).diagnostics
      = (((Lower.story r o story).run .empty).2.errors ++ story.strays).map .compile := by
    rw [← h.unresolved]
    rfl
  have hrepeats : ∀ e ∈ story.repeats, e.isSectional = true := fun e he => Story.repeatsAfter_isSectional he
  have hstrays : ∀ e ∈ story.strays, e.isSectional = true := fun e he => Story.strays_isSectional he
  have hwarnings : ∀ e ∈ Stmt.warnings o story.chart, e.isUnreachable = true :=
    fun e he => Stmt.warnings_isUnreachable he
  refine ⟨_, hcompile, ?_, ?_⟩
  · rw [List.filter_append, ← filter_isFlow (fun e he => by simp [CompileError.isFlow, he]), h.flow,
      List.filter_append, List.filter_eq_self.mpr hrepeats, List.filter_eq_self.mpr hstrays,
      List.filter_eq_nil_iff.mpr fun e he hs => CompileError.not_isUnreachable hs (hwarnings e he),
      List.append_nil]
  · rw [List.filter_append, ← filter_isFlow (fun e he => by simp [CompileError.isFlow, he]), h.flow,
      List.filter_append, List.filter_eq_self.mpr hwarnings,
      List.filter_eq_nil_iff.mpr fun e he => CompileError.not_isUnreachable (hrepeats e he),
      List.filter_eq_nil_iff.mpr fun e he => CompileError.not_isUnreachable (hstrays e he),
      List.nil_append, List.append_nil]

/-- The last statement of a script, at an offset, is an end. -/
def Script.Stops (S : Script) (n : Nat) : Prop :=
  S.words[n]? = some Code.StatementCode.finish.word ∧ n + 1 = S.words.size

/-- A target for a name is the end behind all sections if no section has the name. -/
def Story.Traps (story : Story) (S : Script) (x : Ident) (n : Nat) : Prop :=
  story.declares x.name = false → S.Stops n

/-- A name that enters somewhere without a section of the name enters the end behind all sections. -/
theorem Compiled.traps {P : Float → Prop} {r : Registry} {story : Story} {c : Compilation} {A : Artifact}
    {labels : List Label} (h : Compiled P r story c A labels) {x : Ident} {n : Nat} (hx : A.Enters x n) :
    story.Traps A.script x n := by
  intro hnone
  rcases h.enters_cases hx with ⟨y, l, hy, hname, -⟩ | ⟨rfl, htrap⟩
  · have hdeclares := Story.declares_iff.mpr ⟨y, (List.of_mem_zip hy).1, hname⟩
    rw [hnone] at hdeclares
    cases hdeclares
  · exact ⟨htrap.word, htrap.size⟩

/-- What a compilation reports of sections is one error for each section that has the name of an earlier
one, and one for each use of a name that no section has, and no others.  Wherever a use of such a name is
compiled to a target, that is the end behind all sections: in the layout of the script, and as read back
from its statements. -/
theorem compile_sections_reported (r : Registry) (o : CompileOptions) (story : Story) :
    (compile r o story).diagnostics.filterMap (Diagnostic.compileError? CompileError.isSectional) =
      story.repeats ++ story.strays ∧
    ((compile r o story).script.Addressable →
      (∃ A labels, Compiled (fun _ => True) r story (compile r o story) A labels ∧
        ∀ x n, A.Enters x n → story.Traps (compile r o story).script x n) ∧
      ∃ xs, (compile r o story).script.Walk 0 xs (compile r o story).script.words.size ∧
        List.Forall₂ (fun x p => (compile r o story).script.Aimed
          (story.Traps (compile r o story).script) x p.2) story.flat (xs.filter fun p => !p.2.isFrame)) := by
  constructor
  · obtain ⟨errors, hcompile, hsectional, -⟩ := compile_flow r o story
    rw [hcompile, Diagnostic.filterMap_compileError?, hsectional]
  · intro haddressable
    obtain ⟨A, labels, hA⟩ := exists_compiled_of_any r o story haddressable
    obtain ⟨xs, hxs⟩ := hA.flat
    rw [← hA.script]
    refine ⟨⟨A, labels, hA, fun x n hx => hA.traps hx⟩, xs, hxs.walk, hxs.nodes.imp ?_⟩
    rintro x p ⟨hframe, next, m, -, hnode⟩
    exact hnode.aimed (fun _ _ => hA.traps) hframe

/-- A section that is declared twice, and names that no section has: in a tag and a directive of a line,
as the target of an option with a body, and as a goto. -/
def shore : Story :=
  [⟨⟨"pier", ⟨4, 4⟩⟩, ⟨0, 8⟩,
      [.line ⟨[], [.text ⟨"Look up [goto=moon]", ⟨9, 19⟩⟩], [⟨.goto ⟨"sun", ⟨36, 3⟩⟩, ⟨30, 10⟩⟩], none,
          ⟨9, 31⟩⟩,
        .choice [.option none [.text ⟨"Swim", ⟨52, 4⟩⟩] (some ⟨"sea", ⟨60, 3⟩⟩) (some []) ⟨50, 16⟩,
          .option none [.text ⟨"Stay", ⟨69, 4⟩⟩] (some ⟨"pier", ⟨77, 4⟩⟩) none ⟨67, 14⟩] ⟨41, 42⟩]⟩,
    ⟨⟨"pier", ⟨88, 4⟩⟩, ⟨84, 8⟩, [.goto ⟨"moon", ⟨98, 4⟩⟩]⟩]

/-- The shore has the pier twice and names four sections that it does not have. -/
theorem sections_reported_on_shore :
    (compile .empty {} shore).script.Addressable ∧
    shore.repeats ++ shore.strays = [.duplicateSection "pier" ⟨88, 4⟩ ⟨4, 4⟩,
      .unknownSection "moon" ⟨9, 19⟩, .unknownSection "sun" ⟨36, 3⟩, .unknownSection "sea" ⟨60, 3⟩,
      .unknownSection "moon" ⟨98, 4⟩] ∧
    ∃ xs, (compile .empty {} shore).script.Walk 0 xs (compile .empty {} shore).script.words.size ∧
      List.Forall₂ (fun x p => (compile .empty {} shore).script.Aimed
        (shore.Traps (compile .empty {} shore).script) x p.2) shore.flat
        (xs.filter fun p => !p.2.isFrame) := by
  obtain ⟨hreports, htargets⟩ := compile_sections_reported .empty {} shore
  have haddressable : (compile .empty {} shore).script.Addressable := by decide +kernel
  exact ⟨haddressable, hreports.symm.trans (by decide +kernel), (htargets haddressable).2⟩

end Colloquy
