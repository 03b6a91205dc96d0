/-!
# Pools of buffers

A session hands out lists of events and choices at every step.  A pool keeps the storage of lists that
were handed back, up to a limit, for the next ones.  What is taken from a pool is always empty, so a
pool never shows in the answers of its owner.
-/

namespace Colloquy

/-- A list under construction, and whether storage was ever reserved for it. -/
structure Buffer (α : Type) where
  items : List α
  allocated : Bool
  deriving DecidableEq, Repr

namespace Buffer

variable {α : Type}

/-- A fresh buffer reserves nothing. -/
def empty : Buffer α := ⟨[], false⟩

/-- Append items; storage is reserved with the first. -/
def append (b : Buffer α) (items : List α) : Buffer α :=
  ⟨b.items ++ items, b.allocated || !items.isEmpty⟩

/-- The buffer of a list that was built elsewhere. -/
def ofList (items : List α) : Buffer α := empty.append items

/-- Drop the items and keep the storage. -/
def clear (b : Buffer α) : Buffer α := { b with items := [] }

end Buffer

/-- Buffers waiting to be used again, the one handed back last first. -/
structure Pool (α : Type) where
  free : List (Buffer α)
  limit : Nat
  deriving DecidableEq, Repr

namespace Pool

variable {α : Type}

/-- A pool without buffers that keeps at most `limit`. -/
def empty (limit : Nat) : Pool α := ⟨[], limit⟩

/-- An empty buffer: the one handed back last, or a fresh one. -/
def take (p : Pool α) : Buffer α × Pool α :=
  match p.free with
  | [] => (.empty, p)
  | b :: rest => (b, { p with free := rest })

/-- Hand a buffer back.  It is kept if it has storage and the limit is not reached. -/
def give (p : Pool α) (b : Buffer α) : Pool α :=
  if p.free.length < p.limit ∧ b.allocated then { p with free := b.clear :: p.free } else p

/-- The number of buffers waiting. -/
def available (p : Pool α) : Nat := p.free.length

end Pool

end Colloquy
