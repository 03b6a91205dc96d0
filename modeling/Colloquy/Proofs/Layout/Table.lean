import Colloquy.Proofs.Catalog
import Colloquy.Proofs.Layout.Walk

/-!
# The table of sections

A session finds the sections of a script by reading all of its statements.  In a compiled script the
table holds the sections of the story and nothing else (`Compiled.exists_table`), as long as no name was
given twice.
-/

namespace Colloquy

open Code

/-! ## Tables of statements -/

/-- A decoder that fails fails whatever comes behind it. -/
theorem Code.Decoder.bind_error {α β : Type} {m : Decoder α} {f : α → Decoder β} {s : Nat}
    {e : CodeError} (h : m s = .error e) : (m >>= f) s = .error e := by
  show (m s >>= fun p => f p.1 p.2) = .error e
  rw [h]
  rfl

section

variable {S : Script} {s t : Nat} {xs : List (Nat × Statement)}

/-- What is decoded stands in the script. -/
theorem Script.lt_size_of_decodeStatement {node : Statement}
    (h : S.decodeStatement s = .ok (node, t)) : s < S.words.size := by
  by_contra hnot
  have hnone : S.words[s]? = none := Array.getElem?_eq_none (Nat.le_of_not_lt hnot)
  have hword : Decoder.word S s = .error (.unexpectedEnd s) := by
    rw [Decoder.word, Script.word, hnone]
    rfl
  have hget : (get : Decoder Nat) s = .ok (s, s) := rfl
  have hcode : Decoder.coded S StatementCode.ofWord? .invalidStatementCode s =
      .error (.unexpectedEnd s) := by
    rw [Decoder.coded, Decoder.bind_ok hget]
    exact Decoder.bind_error hword
  have hstatement : S.decodeStatement s = .error (.unexpectedEnd s) := Decoder.bind_error hcode
  rw [hstatement] at h
  cases h

/-- The entries among some statements are at the first one, if it is an entry, and among the others. -/
theorem Script.entry_cons {p : Nat × Statement} {n : Nat} {name : String} : S.Entry (p :: xs) n name ↔
    (∃ next i, p = (n, .entry next i) ∧ S.strings[i]? = some name) ∨ S.Entry xs n name := by
  constructor
  · rintro ⟨next, i, hmem, hname⟩
    rcases List.mem_cons.mp hmem with heq | hmem
    · exact .inl ⟨next, i, heq.symm, hname⟩
    · exact .inr ⟨next, i, hmem, hname⟩
  · rintro (⟨next, i, rfl, hname⟩ | ⟨next, i, hmem, hname⟩)
    · exact ⟨next, i, List.mem_cons_self .., hname⟩
    · exact ⟨next, i, List.mem_cons_of_mem _ hmem, hname⟩

/-- A table is extended by the sections whose entries are among some statements. -/
structure Script.Gathers (S : Script) (xs : List (Nat × Statement)) (table table' : Catalog Nat) : Prop where
  sound : ∀ name n, table'.find? name = some n → table.find? name = some n ∨ S.Entry xs n name
  complete : ∀ name, (table.find? name).isSome ∨ (∃ n, S.Entry xs n name) → (table'.find? name).isSome

namespace Script.Gathers

variable {table table' : Catalog Nat} {node : Statement}

/-- Without statements the table stays as it is. -/
theorem nil (table : Catalog Nat) : S.Gathers [] table table where
  sound _ _ h := .inl h
  complete := by
    rintro name (h | ⟨n, _, _, hmem, _⟩)
    · exact h
    · cases hmem

/-- An entry puts its section into the table, and the statements behind it put theirs. -/
theorem entry {next i : Nat} {name : String} (hname : S.strings[i]? = some name)
    (h : S.Gathers xs (table.insert name s) table') :
    S.Gathers ((s, .entry next i) :: xs) table table' := by
  constructor
  · intro name' n hfind
    rw [Script.entry_cons]
    rcases h.sound name' n hfind with hfind | hentry
    · rw [Catalog.find?_insert] at hfind
      split at hfind
      · next heq =>
        obtain rfl := Option.some.inj hfind
        exact .inr (.inl ⟨next, i, rfl, heq ▸ hname⟩)
      · exact .inl hfind
    · exact .inr (.inr hentry)
  · rintro name' (hfind | ⟨n, hentry⟩)
    · refine h.complete name' (.inl ?_)
      rw [Catalog.find?_insert]
      split
      · rfl
      · exact hfind
    · rcases Script.entry_cons.mp hentry with ⟨_, _, heq, hname'⟩ | hentry
      · cases heq
        obtain rfl : name = name' := Option.some.inj (hname.symm.trans hname')
        exact h.complete name (.inl (by rw [Catalog.find?_insert_self]; rfl))
      · exact h.complete name' (.inr ⟨n, hentry⟩)

/-- A statement that is no entry puts nothing into it. -/
theorem skip (hnode : ∀ next i, node ≠ .entry next i) (h : S.Gathers xs table table') :
    S.Gathers ((s, node) :: xs) table table' := by
  constructor
  · intro name n hfind
    exact (h.sound name n hfind).imp id fun hentry => Script.entry_cons.mpr (.inr hentry)
  · rintro name (hfind | ⟨n, hentry⟩)
    · exact h.complete name (.inl hfind)
    · rcases Script.entry_cons.mp hentry with ⟨next, i, heq, -⟩ | hentry
      · exact absurd (Prod.mk.inj heq).2 (hnode next i)
      · exact h.complete name (.inr ⟨n, hentry⟩)

end Script.Gathers

/-- Where entries have names, the table from an offset on holds the sections whose entries are read
from there, besides those it held before. -/
theorem Script.Walk.sectionsFrom (h : S.Walk s xs t) (ht : t = S.words.size)
    (hnames : ∀ n next i, (n, .entry next i) ∈ xs → ∃ name, S.strings[i]? = some name)
    {fuel : Nat} (hfuel : xs.length ≤ fuel) (table : Catalog Nat) :
    ∃ table', S.sectionsFrom fuel s table = .ok table' ∧ S.Gathers xs table table' := by
  induction h generalizing fuel table with
  | nil s =>
    refine ⟨table, ?_, .nil table⟩
    cases fuel with
    | zero => rfl
    | succ fuel => rw [Script.sectionsFrom, if_neg (by omega)]
  | @cons s m t node xs hdecode _ ih =>
    obtain ⟨fuel, rfl⟩ : ∃ k, fuel = k + 1 := ⟨fuel - 1, by simp at hfuel; omega⟩
    have hlen : xs.length ≤ fuel := Nat.le_of_succ_le_succ hfuel
    have ih := ih ht (fun n next i hmem => hnames n next i (List.mem_cons_of_mem _ hmem)) hlen
    rw [Script.sectionsFrom, if_pos (Script.lt_size_of_decodeStatement hdecode), hdecode]
    cases node with
    | entry next i =>
      obtain ⟨name, hname⟩ := hnames s next i (List.mem_cons_self ..)
      obtain ⟨table', htable, hgathers⟩ := ih (table.insert name s)
      refine ⟨table', ?_, .entry hname hgathers⟩
      show (S.string i >>= fun name => S.sectionsFrom fuel m (table.insert name s)) = _
      rw [Script.string, hname]
      exact htable
    | _ =>
      obtain ⟨table', htable, hgathers⟩ := ih table
      exact ⟨table', htable, .skip nofun hgathers⟩

end

/-! ## Tables of compiled scripts -/

section

variable {P : Float → Prop} {A : Artifact} {r : Registry} {E : Nat → String → Prop}
  {xs : List (Nat × Statement)}

/-- An entry of a laid script has the name of a section that stands there. -/
theorem Script.Laid.exists_name (h : Script.Laid P A r E xs) {n next i : Nat}
    (hmem : (n, .entry next i) ∈ xs) : ∃ name, A.script.strings[i]? = some name ∧ E n name := by
  have hentry := h.stands _ hmem
  cases hentry with
  | entry hE _ hname => exact ⟨_, hname, hE⟩
  | node hnode _ => cases hnode

/-- The sections of a laid script stand where their entries are. -/
theorem Script.Laid.entry_iff (h : Script.Laid P A r E xs) {n : Nat} {name : String} :
    A.script.Entry xs n name ↔ E n name := by
  constructor
  · rintro ⟨next, i, hmem, hname⟩
    obtain ⟨name', hname', hE⟩ := h.exists_name hmem
    obtain rfl : name = name' := Option.some.inj (hname.symm.trans hname')
    exact hE
  · exact h.entry n name

/-- The sections of a laid script are found where they stand. -/
theorem Script.Laid.exists_table (h : Script.Laid P A r E xs) :
    ∃ table, A.script.sectionTable = .ok table ∧
      (∀ name n, table.find? name = some n → E n name) ∧
      ∀ name n, E n name → (table.find? name).isSome := by
  have hnames : ∀ n next i, (n, .entry next i) ∈ xs → ∃ name, A.script.strings[i]? = some name := by
    intro n next i hmem
    obtain ⟨name, hname, _⟩ := h.exists_name hmem
    exact ⟨name, hname⟩
  obtain ⟨table, htable, hgathers⟩ := h.walk.sectionsFrom rfl hnames h.length_le ∅
  refine ⟨table, htable, ?_, ?_⟩
  · intro name n hfind
    rcases hgathers.sound name n hfind with hnone | hentry
    · cases hnone
    · exact h.entry_iff.mp hentry
  · intro name n hE
    exact hgathers.complete name (.inr ⟨n, h.entry n name hE⟩)

end

/-- If no name is given twice, the table of a compiled script holds the sections of the story. -/
theorem Compiled.exists_table {P : Float → Prop} {r : Registry} {story : Story} {c : Compilation}
    {A : Artifact} {labels : List Label} (h : Compiled P r story c A labels)
    (hunique : ∀ name span first, .compile (.duplicateSection name span first) ∉ c.diagnostics) :
    ∃ table, A.script.sectionTable = .ok table ∧
      ∀ name n, table.find? name = some n ↔ story.Stands A labels n name := by
  obtain ⟨xs, hxs⟩ := h.exists_laid
  obtain ⟨table, htable, hsound, hcomplete⟩ := hxs.exists_table
  refine ⟨table, htable, fun name n => ⟨hsound name n, fun hstands => ?_⟩⟩
  -- two sections of one name share their label, and so the offset they stand at
  have hlabels : ∀ x l, (x, l) ∈ story.zip labels → A.Labels x.name l := by
    intro x l hmem
    refine (h.named x l hmem).resolve_right ?_
    rintro ⟨first, herror⟩
    exact hunique _ _ first (h.diagnostics ▸ List.mem_map_of_mem herror)
  obtain ⟨m, hm⟩ := Option.isSome_iff_exists.mp (hcomplete name n hstands)
  obtain ⟨x, l, hx, rfl, rfl⟩ := hstands
  obtain ⟨y, k, hy, rfl, hname⟩ := hsound _ m hm
  obtain ⟨e, he, rfl⟩ := hlabels x l hx
  obtain ⟨e', he', rfl⟩ := hlabels y k hy
  rw [hname, he] at he'
  rw [hm, Option.some.inj he']

end Colloquy
