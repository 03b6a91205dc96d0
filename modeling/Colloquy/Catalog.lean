/-!
# Catalogs

A catalog maps texts to entries and lists them in increasing order of their keys.  Texts are compared
character by character by code point, which is also the order of their bytes in UTF-8.
-/

namespace Colloquy

/-- A finite map from texts, as the list of its entries in increasing order of the keys. -/
structure Catalog (α : Type) where
  entries : List (String × α)
  deriving DecidableEq, Repr

namespace Catalog

variable {α β : Type}

/-- The catalog without entries. -/
def empty : Catalog α := ⟨[]⟩

instance : EmptyCollection (Catalog α) := ⟨empty⟩
instance : Inhabited (Catalog α) := ⟨empty⟩

/-- The entry under a key. -/
def find? (c : Catalog α) (key : String) : Option α := c.entries.lookup key

/-- Whether there is an entry under a key. -/
def contains (c : Catalog α) (key : String) : Bool := (c.find? key).isSome

/-- Put an entry into its place in an ordered list, replacing the one of the same key. -/
def insertEntry (key : String) (value : α) : List (String × α) → List (String × α)
  | [] => [(key, value)]
  | (k, v) :: rest =>
    if key < k then (key, value) :: (k, v) :: rest
    else if key = k then (key, value) :: rest
    else (k, v) :: insertEntry key value rest

/-- Set the entry under a key; an earlier one is replaced. -/
def insert (c : Catalog α) (key : String) (value : α) : Catalog α :=
  ⟨insertEntry key value c.entries⟩

/-- The catalog of a list of definitions under their names; the last of one name stays. -/
def ofNamed (name : α → String) (items : List α) : Catalog α :=
  items.foldl (fun c a => c.insert (name a) a) ∅

/-- The entries in increasing order of their keys. -/
def values (c : Catalog α) : List α := c.entries.map Prod.snd

end Catalog

end Colloquy
