import Colloquy.Catalog

/-!
# Looking up in catalogs

What an insertion does to every look-up.  The order of the entries plays no part in it.
-/

namespace Colloquy.Catalog

variable {α : Type}

@[simp] theorem find?_empty (key : String) : (∅ : Catalog α).find? key = none := rfl

/-- Looking up behind one entry goes by the key of the entry. -/
theorem lookup_cons_ite (key : String) (value : α) (es : List (String × α)) (k : String) :
    ((key, value) :: es).lookup k = if k = key then some value else es.lookup k := by
  rw [List.lookup_cons]
  by_cases hk : k = key
  · simp [hk]
  · rw [if_neg hk, beq_false_of_ne hk]

/-- An insertion is seen under its own key only. -/
theorem lookup_insertEntry (key : String) (value : α) (k : String) (es : List (String × α)) :
    (insertEntry key value es).lookup k = if k = key then some value else es.lookup k := by
  induction es with
  | nil => rw [insertEntry, lookup_cons_ite]
  | cons e es ih =>
    obtain ⟨k', v⟩ := e
    rw [insertEntry]
    split
    · rw [lookup_cons_ite]
    · split
      · next heq =>
        subst heq
        rw [lookup_cons_ite, lookup_cons_ite]
        by_cases hk : k = key <;> simp [hk]
      · next hne =>
        rw [lookup_cons_ite, lookup_cons_ite, ih]
        by_cases hk : k = key
        · rw [if_neg (by rw [hk]; exact hne), if_pos hk, if_pos hk]
        · rw [if_neg hk, if_neg hk]

/-- An insertion changes the look-up of its key and of no other. -/
theorem find?_insert (c : Catalog α) (key : String) (value : α) (k : String) :
    (c.insert key value).find? k = if k = key then some value else c.find? k :=
  lookup_insertEntry key value k c.entries

@[simp] theorem find?_insert_self (c : Catalog α) (key : String) (value : α) :
    (c.insert key value).find? key = some value := by
  rw [find?_insert, if_pos rfl]

theorem find?_insert_of_ne (c : Catalog α) (value : α) {key k : String} (h : k ≠ key) :
    (c.insert key value).find? k = c.find? k := by
  rw [find?_insert, if_neg h]

end Colloquy.Catalog
