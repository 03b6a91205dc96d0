import Colloquy.Code.Opcode
import Colloquy.Code.Script
import Colloquy.Story.Basic

/-!
# Scripts under construction

An assembly grows a script word by word.  Literals go into pools, each once.  Targets that are not
known yet are labels: a label is bound to an offset, or leads where another label leads, and when all
is laid down the words that wait for labels are filled in (`finish`).  Words that wait for a label that
leads nowhere point at an `End` added after all others.
-/

namespace Colloquy

/-- A target whose offset may not be known yet. -/
structure Label where
  index : Nat
  deriving DecidableEq, Repr

/-- Where a label leads. -/
inductive Destination where
  | unbound
  | offset (offset : Nat)
  /-- Wherever another label leads. -/
  | redirected (label : Label)
  deriving DecidableEq, Repr

/-- A word that waits for a label. -/
structure Gap where
  offset : Nat
  label : Label
  deriving DecidableEq, Repr

/-- A place of the source that names a label. -/
structure Mention where
  label : Label
  source : Ident
  deriving DecidableEq, Repr

/-- A script under construction. -/
structure Assembly where
  script : Script
  labels : Array Destination
  gaps : Array Gap
  mentions : Array Mention
  deriving Repr

namespace Assembly

/-- The assembly without words. -/
def empty : Assembly := ⟨.empty, #[], #[], #[]⟩

instance : Inhabited Assembly := ⟨empty⟩

/-- The offset of the next word. -/
def offset (a : Assembly) : Nat := a.script.words.size

/-! ## Words -/

/-- Add a word. -/
def push (a : Assembly) (w : UInt32) : Assembly :=
  { a with script := { a.script with words := a.script.words.push w } }

/-- Add a word to be filled in later, and return its offset. -/
def reserve (a : Assembly) : Nat × Assembly := (a.offset, a.push 0xFFFFFFFF)

/-- Fill in a word. -/
def fill (a : Assembly) (offset : Nat) (w : UInt32) : Assembly :=
  { a with script := { a.script with words := a.script.words.setIfInBounds offset w } }

/-! ## Literals -/

/-- Whether two floats share a place in the pool: equal numbers do, and all that are no numbers. -/
def sameFloat (x y : Float) : Bool := (x.isNaN && y.isNaN) || x == y

/-- The place of a value in a pool, and the pool with the value in it. -/
def intern {α : Type} (same : α → α → Bool) (pool : Array α) (a : α) : UInt32 × Array α :=
  match pool.findIdx? (same a) with
  | some i => (UInt32.ofNat i, pool)
  | none => (UInt32.ofNat pool.size, pool.push a)

/-- The place of a float. -/
def float (a : Assembly) (x : Float) : UInt32 × Assembly :=
  let (i, pool) := intern sameFloat a.script.floats x
  (i, { a with script := { a.script with floats := pool } })

/-- The place of a text. -/
def string (a : Assembly) (s : String) : UInt32 × Assembly :=
  let (i, pool) := intern (· == ·) a.script.strings s
  (i, { a with script := { a.script with strings := pool } })

/-- The place of a speaker. -/
def speaker (a : Assembly) (s : String) : UInt32 × Assembly :=
  let (i, pool) := intern (· == ·) a.script.speakers s
  (i, { a with script := { a.script with speakers := pool } })

/-! ## Labels -/

/-- A label that leads nowhere yet. -/
def freshLabel (a : Assembly) : Label × Assembly :=
  (⟨a.labels.size⟩, { a with labels := a.labels.push .unbound })

/-- Bind a label to the offset of the next word. -/
def bind (a : Assembly) (l : Label) : Assembly :=
  { a with labels := a.labels.setIfInBounds l.index (.offset a.offset) }

/-- Let a label lead where another one leads. -/
def redirect (a : Assembly) (l target : Label) : Assembly :=
  if l = target then a else { a with labels := a.labels.setIfInBounds l.index (.redirected target) }

/-- Where a label leads. -/
def destination (a : Assembly) (l : Label) : Destination := a.labels.getD l.index .unbound

/-- The labels reached from a label, itself included, in at most `fuel` steps. -/
def chainWithin (a : Assembly) : Nat → Label → List Label
  | 0, _ => []
  | fuel + 1, l =>
    l :: match a.destination l with
      | .redirected m => chainWithin a fuel m
      | _ => []

/-- The labels reached from a label; a cycle is left after as many steps as there are labels. -/
def chain (a : Assembly) (l : Label) : List Label := a.chainWithin a.labels.size l

/-- The offset a label leads to. -/
def resolve? (a : Assembly) (l : Label) : Option Nat :=
  (a.chain l).findSome? fun m => match a.destination m with
    | .offset n => some n
    | _ => none

/-- Whether a label leads somewhere. -/
def isBound (a : Assembly) (l : Label) : Bool := (a.resolve? l).isSome

/-- Whether a word waits for a label, itself or through other labels. -/
def isAwaited (a : Assembly) (l : Label) : Bool :=
  a.gaps.any fun g => (a.chain g.label).contains l

/-- Add a word that waits for a label. -/
def pushTarget (a : Assembly) (l : Label) : Assembly :=
  let (offset, a) := a.reserve
  { a with gaps := a.gaps.push ⟨offset, l⟩ }

/-- Record that the source names a label. -/
def mention (a : Assembly) (l : Label) (x : Ident) : Assembly :=
  { a with mentions := a.mentions.push ⟨l, x⟩ }

/-- Fill in all words that wait for labels, and return the script with the mentions of labels that
lead nowhere. -/
def finish (a : Assembly) : Script × List Mention :=
  let trap := a.offset
  let words := a.gaps.foldl
    (fun ws g => ws.setIfInBounds g.offset (UInt32.ofNat ((a.resolve? g.label).getD trap)))
    a.script.words
  let words :=
    if a.gaps.any fun g => !a.isBound g.label then words.push Code.StatementCode.finish.word
    else words
  ({ a.script with words }, a.mentions.toList.filter fun m => !a.isBound m.label)

end Assembly

end Colloquy
