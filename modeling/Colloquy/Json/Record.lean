import Colloquy.Json.Basic

/-!
# Records in documents

How definitions are read from documents.  A record is an object in which each known key occurs at most
once and unknown keys are ignored, or an array that lists the fields in order and may stop early.
-/

namespace Colloquy.Json

/-- The value of a key that occurs at most once: nothing if it is missing, refused if it is repeated. -/
def member? (members : List (String × Json)) (key : String) : Option (Option Json) :=
  match members.filter (·.1 = key) with
  | [] => some none
  | [(_, j)] => some (some j)
  | _ => none

/-- The values of the fields of a record, in the order of `keys`. -/
def record? (keys : List String) : Json → Option (List (Option Json))
  | .object members => keys.mapM (member? members)
  | .array items =>
    if items.length ≤ keys.length then
      some (items.map some ++ List.replicate (keys.length - items.length) none)
    else none
  | _ => none

/-- A text. -/
def asString? : Json → Option String
  | .string s => some s
  | _ => none

/-- A truth value. -/
def asBool? : Json → Option Bool
  | .bool b => some b
  | _ => none

/-- A float, from any number in range. -/
def asFloat? : Json → Option Float
  | .number n => n.toFloat?
  | _ => none

/-- A list of documents. -/
def asArray? : Json → Option (List Json)
  | .array js => some js
  | _ => none

/-- A list read item by item; all must be accepted. -/
def asListOf? {α : Type} (read : Json → Option α) (j : Json) : Option (List α) := do
  (← j.asArray?).mapM read

end Colloquy.Json
