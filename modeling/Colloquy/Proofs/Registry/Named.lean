import Colloquy.Proofs.Catalog
import Mathlib.Data.List.Basic
import Mathlib.Data.String.Basic

/-!
# Catalogs of named definitions

A catalog of definitions is keyed if its keys increase and each of them is the name of its definition, so
it is nothing but its definitions in the order of their names.  A catalog that is made of a list of
definitions is keyed, whatever the list, and the definition found under a name is the last of that name
(`Catalog.ofNamed_keyed`, `Catalog.find?_ofNamed`).  The definitions of a keyed catalog make that catalog
again (`Catalog.Keyed.ofNamed_values`).
-/

namespace Colloquy.Catalog

variable {α : Type} {name : α → String} {c : Catalog α} {key : String} {value : α}
  {es : List (String × α)} {items : List α}

/-- The keys of a catalog increase, and each is the name of its definition. -/
structure Keyed (name : α → String) (c : Catalog α) : Prop where
  increasing : c.entries.Pairwise fun e e' => e.1 < e'.1
  named : ∀ e ∈ c.entries, e.1 = name e.2

/-! ## Insertions -/

/-- What is in a list after an insertion was inserted or was there before. -/
theorem mem_insertEntry {e : String × α} (h : e ∈ insertEntry key value es) :
    e = (key, value) ∨ e ∈ es := by
  induction es with
  | nil => exact .inl (List.mem_singleton.mp h)
  | cons e' es ih =>
    rw [insertEntry] at h
    split at h
    · exact List.mem_cons.mp h
    · split at h
      · exact (List.mem_cons.mp h).imp_right (List.mem_cons_of_mem _)
      · rcases List.mem_cons.mp h with rfl | h
        · exact .inr (List.mem_cons_self ..)
        · exact (ih h).imp_right (List.mem_cons_of_mem _)

/-- An insertion keeps keys increasing. -/
theorem insertEntry_increasing (h : es.Pairwise fun e e' => e.1 < e'.1) :
    (insertEntry key value es).Pairwise fun e e' => e.1 < e'.1 := by
  induction es with
  | nil => exact List.pairwise_singleton _ _
  | cons e es ih =>
    obtain ⟨hhead, htail⟩ := List.pairwise_cons.mp h
    rw [insertEntry]
    split
    · next hlt =>
      refine List.pairwise_cons.mpr ⟨?_, h⟩
      rw [List.forall_mem_cons]
      exact ⟨hlt, fun e' he' => hlt.trans (hhead e' he')⟩
    · split
      · next heq => exact List.pairwise_cons.mpr ⟨fun e' he' => heq ▸ hhead e' he', htail⟩
      · next hnot hne =>
        refine List.pairwise_cons.mpr ⟨fun e' he' => ?_, ih htail⟩
        rcases mem_insertEntry he' with rfl | he'
        · exact lt_of_le_of_ne (not_lt.mp hnot) (Ne.symm hne)
        · exact hhead e' he'

/-- A key behind all others is put at the end. -/
theorem insertEntry_last (h : ∀ e ∈ es, e.1 < key) : insertEntry key value es = es ++ [(key, value)] := by
  induction es with
  | nil => rfl
  | cons e es ih =>
    rw [List.forall_mem_cons] at h
    rw [insertEntry, if_neg h.1.asymm, if_neg h.1.ne', ih h.2]
    rfl

/-! ## Catalogs of lists -/

theorem keyed_empty : (∅ : Catalog α).Keyed name := ⟨.nil, fun _ h => absurd h List.not_mem_nil⟩

/-- A definition inserted under its own name leaves a catalog keyed. -/
theorem Keyed.insert (h : c.Keyed name) (a : α) : (c.insert (name a) a).Keyed name where
  increasing := insertEntry_increasing h.increasing
  named e he := by
    rcases mem_insertEntry he with rfl | he
    · rfl
    · exact h.named e he

/-- A catalog that is made of a list of definitions is keyed. -/
theorem ofNamed_keyed (name : α → String) (items : List α) : (ofNamed name items).Keyed name := by
  have hfold : ∀ c : Catalog α, c.Keyed name →
      (items.foldl (fun c a => c.insert (name a) a) c).Keyed name := by
    induction items with
    | nil => exact fun _ h => h
    | cons a items ih => exact fun c h => ih _ (h.insert a)
  exact hfold ∅ keyed_empty

/-- The last definition of a name is found under it. -/
theorem find?_ofNamed (name : α → String) (items : List α) (key : String) :
    (ofNamed name items).find? key = items.reverse.find? fun a => name a = key := by
  have hfold : ∀ c : Catalog α, (items.foldl (fun c a => c.insert (name a) a) c).find? key
      = (items.reverse.find? fun a => name a = key).or (c.find? key) := by
    induction items with
    | nil => exact fun _ => rfl
    | cons a items ih =>
      intro c
      rw [List.foldl_cons, ih, find?_insert, List.reverse_cons, List.find?_append, Option.or_assoc]
      congr 1
      by_cases hkey : key = name a
      · simp [hkey]
      · simp [hkey, Ne.symm hkey]
  rw [ofNamed, hfold, find?_empty, Option.or_none]

/-- Definitions in the order of their names stay in this order. -/
theorem ofNamed_of_increasing (h : items.Pairwise fun a b => name a < name b) :
    ofNamed name items = ⟨items.map fun a => (name a, a)⟩ := by
  have hfold : ∀ es : List (String × α), (∀ e ∈ es, ∀ a ∈ items, e.1 < name a) →
      items.foldl (fun (c : Catalog α) a => c.insert (name a) a) ⟨es⟩
        = ⟨es ++ items.map fun a => (name a, a)⟩ := by
    induction items with
    | nil => exact fun es _ => by rw [List.map_nil, List.append_nil]; rfl
    | cons a items ih =>
      intro es hes
      obtain ⟨hhead, htail⟩ := List.pairwise_cons.mp h
      have hlast : ∀ e ∈ es, e.1 < name a := fun e he => hes e he a (List.mem_cons_self ..)
      rw [List.foldl_cons, Catalog.insert, insertEntry_last hlast, ih htail, List.map_cons, List.append_assoc]
      · rfl
      · intro e he b hb
        rcases List.mem_append.mp he with he | he
        · exact hes e he b (List.mem_cons_of_mem _ hb)
        · rw [List.mem_singleton.mp he]
          exact hhead b hb
  exact hfold [] fun _ he => absurd he List.not_mem_nil

theorem values_ofNamed_of_increasing (h : items.Pairwise fun a b => name a < name b) :
    (ofNamed name items).values = items := by
  rw [ofNamed_of_increasing h, values, List.map_map]
  exact List.map_id' items

/-! ## Keyed catalogs -/

theorem Keyed.values_increasing (h : c.Keyed name) : c.values.Pairwise fun a b => name a < name b := by
  rw [values, List.pairwise_map]
  refine h.increasing.imp_of_mem fun he he' hlt => ?_
  rwa [← h.named _ he, ← h.named _ he']

/-- The definitions of a keyed catalog make it again. -/
theorem Keyed.ofNamed_values (h : c.Keyed name) : ofNamed name c.values = c := by
  have hentries : (c.values.map fun a => (name a, a)) = c.entries := by
    rw [values, List.map_map]
    refine (List.map_congr_left fun e he => ?_).trans (List.map_id _)
    exact Prod.ext (h.named e he).symm rfl
  rw [ofNamed_of_increasing h.values_increasing, hentries]

end Colloquy.Catalog
