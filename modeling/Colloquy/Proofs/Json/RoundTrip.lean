import Colloquy.Json.Record
import Colloquy.Proofs.Json.Number
import Mathlib.Data.List.Forall2

/-!
# Documents are read back

`Reads j cs` says that the text `cs` is read as the document `j` in front of whatever follows; `ReadsItems`
and `ReadsMembers` say so of what stands between brackets and braces.  Blanks in front change nothing, and
there is one rule for each kind of document and for each way to go on with items and members.  A document
that a text stands for (`Written`) is read by these rules from its pretty text (`reads_prettyText`) and from
its compact text (`reads_compactText`), so it is what parsing either of them gives (`parse?_pretty`,
`parse?_compact`).

A character takes two calls at most, so twice the length of a text bounds the calls that reading it needs.

A list of documents is taken apart item by item, so what is read from it is known from its items
(`asListOf?_map_eq_some`).
-/

namespace Colloquy.Json

open Text

/-! ## Strings -/

theorem hexValue?_digitChar : ∀ n < 16, hexValue? (Nat.digitChar n) = some n := by decide

/-- A backslash with the letter of an escape. -/
theorem stringBody_letter {x y : Char} (h : escape? x = some y) (acc : Partial) (cs : List Char) :
    stringBody acc ('\\' :: x :: cs) = stringBody (acc.map (y :: ·)) cs := by
  have hu : x ≠ 'u' := by
    rintro rfl
    cases h
  rw [stringBody.eq_def]
  split
  · next heq => cases heq
  · next heq => cases heq
  · next heq =>
    cases heq
    exact absurd rfl hu
  · next heq =>
    cases heq
    rw [h]
  · next hescape heq =>
    cases heq
    exact absurd rfl (hescape x cs rfl)

/-- A control character is written as the number of its code point. -/
theorem stringBody_control {c : Char} (hc : c.toNat < 32) (acc : Partial) (cs : List Char) :
    stringBody acc ('\\' :: 'u' :: '0' :: '0' :: Nat.digitChar (c.toNat / 16) ::
      Nat.digitChar (c.toNat % 16) :: cs) = stringBody (acc.map (c :: ·)) cs := by
  have hunit : hexUnit? '0' '0' (Nat.digitChar (c.toNat / 16)) (Nat.digitChar (c.toNat % 16))
      = some c.toNat := by
    rw [hexUnit?, hexValue?_digitChar (c.toNat / 16) (by omega), hexValue?_digitChar (c.toNat % 16) (by omega)]
    have hzero : hexValue? '0' = some 0 := rfl
    simp only [hzero, Option.bind_eq_bind, Option.bind_some, Option.pure_def, Option.some.injEq]
    omega
  rw [stringBody, hunit]
  simp only
  rw [if_neg (by omega), addPoint, if_pos (by omega), Char.ofNat_toNat]

/-- Any other character stands for itself. -/
theorem stringBody_plain {c : Char} (hquote : c ≠ '"') (hescape : c ≠ '\\') (hc : ¬c.toNat < 32)
    (acc : Partial) (cs : List Char) : stringBody acc (c :: cs) = stringBody (acc.map (c :: ·)) cs := by
  rw [stringBody.eq_def]
  split
  · next heq => cases heq
  · next heq =>
    cases heq
    exact absurd rfl hquote
  · next heq =>
    cases heq
    exact absurd rfl hescape
  · next heq =>
    cases heq
    exact absurd rfl hescape
  · next heq =>
    cases heq
    rw [if_neg (by simp [hc, hescape])]

/-- What stands for a character in a string is read as that character. -/
theorem stringBody_escapedChar (c : Char) (acc : Partial) (cs : List Char) :
    stringBody acc (escapedChar c ++ cs) = stringBody (acc.map (c :: ·)) cs := by
  have hcode : ∀ n, c.toNat = n → c = Char.ofNat n := fun n hn => by rw [← hn, Char.ofNat_toNat]
  unfold escapedChar
  split
  · next h => rcases h with rfl | rfl <;> exact stringBody_letter rfl acc cs
  · next hmarks =>
    rw [not_or] at hmarks
    split
    · next h => exact h ▸ stringBody_letter rfl acc cs
    · split
      · next h => exact h ▸ stringBody_letter rfl acc cs
      · split
        · next h => exact h ▸ stringBody_letter rfl acc cs
        · split
          · next h => exact hcode 8 h ▸ stringBody_letter rfl acc cs
          · split
            · next h => exact hcode 12 h ▸ stringBody_letter rfl acc cs
            · split
              · next h => exact stringBody_control h acc cs
              · next h => exact stringBody_plain hmarks.1 hmarks.2 h acc cs

/-- An escaped text is read back up to its closing quote. -/
theorem stringBody_text (s acc cs : List Char) :
    stringBody (some acc) (s.flatMap escapedChar ++ '"' :: cs) = some (some (s.reverse ++ acc), cs) := by
  induction s generalizing acc with
  | nil => rw [List.flatMap_nil, List.nil_append, stringBody, List.reverse_nil, List.nil_append]
  | cons c s ih =>
    rw [List.flatMap_cons, List.append_assoc, stringBody_escapedChar, Option.map_some, ih,
      List.reverse_cons, List.append_assoc, List.singleton_append]

/-- A string is read back. -/
theorem stringRest_text (s : String) (cs : List Char) :
    stringRest (s.toList.flatMap escapedChar ++ '"' :: cs) = some (some s.toList, cs) := by
  rw [stringRest, stringBody_text]
  simp

/-! ## Blanks -/

/-- Only blanks. -/
def IsGap (g : List Char) : Prop := ∀ c ∈ g, isSpace c = true

/-- A line break with its indent is a gap. -/
theorem isGap_newline (level : Nat) : IsGap (newline level) := by
  intro c hc
  rcases List.mem_cons.mp hc with rfl | hc
  · rfl
  · rw [List.eq_of_mem_replicate hc]
    rfl

theorem isGap_blank : IsGap [' '] := by simp [IsGap, isSpace]

variable {g cs t : List Char} {j : Json} {js : List Json} {ms : List (String × Json)} {k : String}

theorem skip_gap (hg : IsGap g) (cs : List Char) : skip (g ++ cs) = skip cs :=
  List.dropWhile_append_of_pos hg

theorem skip_cons {c : Char} (hc : isSpace c = false) (cs : List Char) : skip (c :: cs) = c :: cs :=
  List.dropWhile_cons_of_neg (by simp [hc])

theorem exists_skip (cs : List Char) : ∃ g, IsGap g ∧ g ++ skip cs = cs :=
  ⟨cs.takeWhile isSpace, List.all_eq_true.mp List.all_takeWhile, List.takeWhile_append_dropWhile⟩

theorem value_gap (hg : IsGap g) (fuel : Nat) (cs : List Char) : value fuel (g ++ cs) = value fuel cs := by
  cases fuel with
  | zero => rfl
  | succ fuel => rw [value, value, skip_gap hg]

theorem items_gap (hg : IsGap g) (fuel : Nat) (cs : List Char) : items fuel (g ++ cs) = items fuel cs := by
  cases fuel with
  | zero => rfl
  | succ fuel => rw [items, items, value_gap hg]

/-- Blanks in front of members change nothing. -/
theorem members_gap (hg : IsGap g) (fuel : Nat) (cs : List Char) :
    members fuel (g ++ cs) = members fuel cs := by
  cases fuel with
  | zero => rfl
  | succ fuel => rw [members, members, skip_gap hg]

/-- A number ends in front of a gap and what may follow one. -/
theorem ends_gap (hg : IsGap g) {c : Char} (hc : c.isDigit = false ∧ c ≠ '.' ∧ c ≠ 'e' ∧ c ≠ 'E')
    (cs : List Char) : Ends (g ++ c :: cs) := by
  cases g with
  | nil => exact .cons hc cs
  | cons d g =>
    have hd := hg d (List.mem_cons_self ..)
    rw [isSpace, decide_eq_true_eq] at hd
    refine .cons ?_ _
    rcases hd with rfl | rfl | rfl | rfl <;> decide

/-- A closing bracket is no item. -/
theorem items_close (fuel : Nat) (cs : List Char) : items fuel (']' :: cs) = none := by
  rcases fuel with _ | _ | fuel
  · rfl
  · rfl
  · rfl

theorem members_close (fuel : Nat) (cs : List Char) : members fuel ('\x7d' :: cs) = none := by
  cases fuel with
  | zero => rfl
  | succ fuel => rfl

/-! ## Reading in front of the rest -/

/-- A text is read as a document, in front of anything that a number ends before. -/
def Reads (j : Json) (cs : List Char) : Prop :=
  ∀ fuel rest, 2 * cs.length < fuel → Ends rest → value fuel (cs ++ rest) = some (j, rest)

/-- A text is read as items with the bracket that closes them. -/
def ReadsItems (js : List Json) (cs : List Char) : Prop :=
  ∀ fuel rest, 2 * cs.length + 1 < fuel → items fuel (cs ++ rest) = some (js, rest)

/-- A text is read as members with the brace that closes them. -/
def ReadsMembers (ms : List (String × Json)) (cs : List Char) : Prop :=
  ∀ fuel rest, 2 * cs.length + 1 < fuel → members fuel (cs ++ rest) = some (ms, rest)

namespace Reads

/-- Blanks in front of a document change nothing. -/
theorem gap (hg : IsGap g) (h : Reads j cs) : Reads j (g ++ cs) := by
  intro fuel rest hfuel hrest
  rw [List.length_append] at hfuel
  rw [List.append_assoc, value_gap hg]
  exact h fuel rest (by omega) hrest

theorem null : Reads .null "null".toList := by
  rintro (_ | fuel) rest hfuel _
  · omega
  · rfl

theorem bool (b : Bool) : Reads (.bool b) (scalarText (.bool b)) := by
  rintro (_ | fuel) rest hfuel _
  · omega
  · cases b <;> rfl

/-- A number that is written is read back. -/
theorem number {n : Json.Number} (hn : n.Written) : Reads (.number n) n.text := by
  rintro (_ | fuel) rest hfuel hrest
  · omega
  · have hpart := Number.numberPart_text hn hrest
    obtain ⟨c, more, htext, hc⟩ := Number.exists_text hn
    rw [htext] at hpart ⊢
    have hne : ∀ d : Char, d ≠ '-' → d.isDigit = false → c ≠ d := by
      rintro d hminus hdigit rfl
      rcases hc with hc | hc
      · exact hminus hc
      · rw [hdigit] at hc
        cases hc
    have hspace : isSpace c = false := by
      simp only [isSpace, decide_eq_false_iff_not, not_or]
      exact ⟨hne ' ' (by decide) rfl, hne '\n' (by decide) rfl, hne '\t' (by decide) rfl,
        hne '\r' (by decide) rfl⟩
    rw [value, List.cons_append, skip_cons hspace]
    -- no other document starts with a sign or a digit
    split
    · next heq => exact absurd (List.cons.inj heq).1 (hne 'n' (by decide) rfl)
    · next heq => exact absurd (List.cons.inj heq).1 (hne 't' (by decide) rfl)
    · next heq => exact absurd (List.cons.inj heq).1 (hne 'f' (by decide) rfl)
    · next heq => exact absurd (List.cons.inj heq).1 (hne '"' (by decide) rfl)
    · next heq => exact absurd (List.cons.inj heq).1 (hne '[' (by decide) rfl)
    · next heq => exact absurd (List.cons.inj heq).1 (hne '\x7b' (by decide) rfl)
    · rw [List.cons_append] at hpart
      rw [hpart]

/-- A string is read back between its quotes. -/
theorem string (s : String) : Reads (.string s) (stringText s) := by
  rintro (_ | fuel) rest hfuel _
  · omega
  · rw [value, stringText, List.cons_append, skip_cons rfl, List.append_assoc, List.singleton_append]
    simp only [stringRest_text, String.ofList_toList]

/-- Items are read back between brackets. -/
theorem array (h : ReadsItems js cs) : Reads (.array js) ('[' :: cs) := by
  rintro (_ | fuel) rest hfuel _
  · omega
  · rw [List.length_cons] at hfuel
    have hitems := h fuel rest (by omega)
    -- the reader drops the blanks in front before it looks for the bracket
    obtain ⟨g, hg, hcs⟩ := exists_skip (cs ++ rest)
    rw [← hcs, items_gap hg] at hitems
    rw [value, List.cons_append, skip_cons rfl]
    simp only
    split
    · next heq =>
      -- no item starts with the bracket
      rw [heq, items_close] at hitems
      cases hitems
    · rw [hitems]

/-- Members are read back between braces. -/
theorem object (h : ReadsMembers ms cs) : Reads (.object ms) ('\x7b' :: cs) := by
  rintro (_ | fuel) rest hfuel _
  · omega
  · rw [List.length_cons] at hfuel
    have hmembers := h fuel rest (by omega)
    obtain ⟨g, hg, hcs⟩ := exists_skip (cs ++ rest)
    rw [← hcs, members_gap hg] at hmembers
    rw [value, List.cons_append, skip_cons rfl]
    simp only
    split
    · next heq =>
      -- no member starts with the brace
      rw [heq, members_close] at hmembers
      cases hmembers
    · rw [hmembers]

end Reads

/-! ## Items and members -/

namespace ReadsItems

/-- The last item, in front of the bracket. -/
theorem one (h : Reads j t) (hg : IsGap g) : ReadsItems [j] (t ++ (g ++ [']'])) := by
  rintro (_ | fuel) rest hfuel
  · omega
  · rw [List.length_append] at hfuel
    have hrest : (t ++ (g ++ [']'])) ++ rest = t ++ (g ++ ']' :: rest) := by simp
    have hvalue := h fuel (g ++ ']' :: rest) (by omega) (ends_gap hg (by decide) rest)
    rw [hrest, items, hvalue]
    simp only
    rw [skip_gap hg, skip_cons rfl]
    rfl

/-- An item with a comma behind it. -/
theorem cons (h : Reads j t) (hs : ReadsItems js cs) : ReadsItems (j :: js) (t ++ ',' :: cs) := by
  rintro (_ | fuel) rest hfuel
  · omega
  · rw [List.length_append, List.length_cons] at hfuel
    have hvalue := h fuel (',' :: (cs ++ rest)) (by omega) (.cons (by decide) _)
    rw [List.append_assoc, List.cons_append, items, hvalue]
    simp only
    rw [skip_cons rfl]
    simp only [hs fuel rest (by omega)]

/-- Blanks in front of items change nothing. -/
theorem gap (hg : IsGap g) (h : ReadsItems js cs) : ReadsItems js (g ++ cs) := by
  intro fuel rest hfuel
  rw [List.length_append] at hfuel
  rw [List.append_assoc, items_gap hg]
  exact h fuel rest (by omega)

end ReadsItems

namespace ReadsMembers

/-- The last member, in front of the brace. -/
theorem one (k : String) (h : Reads j t) (hg : IsGap g) :
    ReadsMembers [(k, j)] (stringText k ++ ':' :: (t ++ (g ++ ['\x7d']))) := by
  rintro (_ | fuel) rest hfuel
  · omega
  · rw [List.length_append, List.length_cons, List.length_append] at hfuel
    have hrest : (stringText k ++ ':' :: (t ++ (g ++ ['\x7d']))) ++ rest
        = '"' :: (k.toList.flatMap escapedChar ++ '"' :: ':' :: (t ++ (g ++ '\x7d' :: rest))) := by
      simp [stringText]
    have hvalue := h fuel (g ++ '\x7d' :: rest) (by omega) (ends_gap hg (by decide) rest)
    rw [hrest, members, skip_cons rfl]
    simp only [stringRest_text]
    rw [skip_cons rfl]
    simp only [hvalue]
    rw [skip_gap hg, skip_cons rfl]
    simp only [String.ofList_toList]

/-- A member with a comma behind it. -/
theorem cons (k : String) (h : Reads j t) (hs : ReadsMembers ms cs) :
    ReadsMembers ((k, j) :: ms) (stringText k ++ ':' :: (t ++ ',' :: cs)) := by
  rintro (_ | fuel) rest hfuel
  · omega
  · rw [List.length_append, List.length_cons, List.length_append, List.length_cons] at hfuel
    have hrest : (stringText k ++ ':' :: (t ++ ',' :: cs)) ++ rest
        = '"' :: (k.toList.flatMap escapedChar ++ '"' :: ':' :: (t ++ ',' :: (cs ++ rest))) := by
      simp [stringText]
    have hvalue := h fuel (',' :: (cs ++ rest)) (by omega) (.cons (by decide) _)
    rw [hrest, members, skip_cons rfl]
    simp only [stringRest_text]
    rw [skip_cons rfl]
    simp only [hvalue]
    rw [skip_cons rfl]
    simp only [hs fuel rest (by omega), String.ofList_toList]

/-- Blanks in front of members change nothing. -/
theorem gap (hg : IsGap g) (h : ReadsMembers ms cs) : ReadsMembers ms (g ++ cs) := by
  intro fuel rest hfuel
  rw [List.length_append] at hfuel
  rw [List.append_assoc, members_gap hg]
  exact h fuel rest (by omega)

end ReadsMembers

/-! ## Documents -/

mutual

/-- A document that a text stands for: its numbers are numbers of the format, and its strings denote
texts. -/
def Written : Json → Prop
  | .null => True
  | .bool _ => True
  | .string _ => True
  | .unpaired => False
  | .number n => n.Written
  | .array js => ItemsWritten js
  | .object ms => MembersWritten ms

/-- Of items. -/
def ItemsWritten : List Json → Prop
  | [] => True
  | j :: js => j.Written ∧ ItemsWritten js

/-- Of members. -/
def MembersWritten : List (String × Json) → Prop
  | [] => True
  | (_, j) :: ms => j.Written ∧ MembersWritten ms

end

theorem itemsWritten_iff : ItemsWritten js ↔ ∀ j ∈ js, j.Written := by
  induction js with
  | nil => simp [ItemsWritten]
  | cons j js ih => rw [ItemsWritten, ih, List.forall_mem_cons]

/-- An array is written if each of its items is. -/
theorem written_map {α : Type} {f : α → Json} (hf : ∀ x, (f x).Written) (xs : List α) :
    (Json.array (xs.map f)).Written := by
  rw [Written, itemsWritten_iff]
  intro j hj
  obtain ⟨x, _, rfl⟩ := List.mem_map.mp hj
  exact hf x

theorem written_string (x : String) : (Json.string x).Written := by
  rw [Written]
  trivial

theorem written_bool (b : Bool) : (Json.bool b).Written := by
  rw [Written]
  trivial

/-- A float is written, as a number or as null. -/
theorem written_ofFloat (x : Float) : (Json.ofFloat x).Written := by
  unfold Json.ofFloat
  split
  · rw [Written]
    exact Json.Number.written_ofFloat x
  · rw [Written]
    trivial

theorem reads_emptyArray : Reads (.array []) ['[', ']'] := by
  rintro (_ | fuel) rest hfuel _
  · omega
  · rfl

theorem reads_emptyObject : Reads (.object []) ['\x7b', '\x7d'] := by
  rintro (_ | fuel) rest hfuel _
  · omega
  · rfl

mutual

/-- A document is read from its pretty text. -/
theorem reads_prettyText (level : Nat) : (j : Json) → j.Written → Reads j (prettyText level j)
  | .null, _ => .null
  | .bool b, _ => .bool b
  | .string s, _ => .string s
  | .number n, h => .number (by rwa [Written] at h)
  | .unpaired, h => by
    rw [Written] at h
    exact h.elim
  | .array [], _ => reads_emptyArray
  | .array (j :: js), h => by
    rw [Written, ItemsWritten] at h
    rw [prettyText]
    simp only [List.append_assoc]
    exact .array (readsItems_pretty (level + 1) (isGap_newline level) js h.2
      (reads_prettyText (level + 1) j h.1))
  | .object [], _ => reads_emptyObject
  | .object ((k, j) :: ms), h => by
    rw [Written, MembersWritten] at h
    rw [prettyText]
    simp only [List.append_assoc, List.cons_append]
    exact .object (readsMembers_pretty (level + 1) (isGap_newline level) ms h.2 k
      (reads_prettyText (level + 1) j h.1))

/-- Items are read after the first of them. -/
theorem readsItems_pretty (level : Nat) {g : List Char} (hg : IsGap g) : (js : List Json) →
    ItemsWritten js → {j : Json} → {t : List Char} → Reads j t →
    ReadsItems (j :: js) (newline level ++ (t ++ (prettyItems level js ++ (g ++ [']']))))
  | [], _, j, t, h => (ReadsItems.one h hg).gap (isGap_newline level)
  | j' :: js, hs, j, t, h => by
    rw [ItemsWritten] at hs
    rw [prettyItems]
    simp only [List.append_assoc, List.cons_append]
    have hmore := readsItems_pretty level hg js hs.2 (reads_prettyText level j' hs.1)
    exact (ReadsItems.cons h hmore).gap (isGap_newline level)

/-- Members are read after the first of them. -/
theorem readsMembers_pretty (level : Nat) {g : List Char} (hg : IsGap g) : (ms : List (String × Json)) →
    MembersWritten ms → (k : String) → {j : Json} → {t : List Char} → Reads j t →
    ReadsMembers ((k, j) :: ms) (newline level ++ (stringText k ++
      ':' :: ' ' :: (t ++ (prettyMembers level ms ++ (g ++ ['\x7d'])))))
  | [], _, k, j, t, h => (ReadsMembers.one k (h.gap isGap_blank) hg).gap (isGap_newline level)
  | (k', j') :: ms, hs, k, j, t, h => by
    rw [MembersWritten] at hs
    rw [prettyMembers]
    simp only [List.append_assoc, List.cons_append]
    have hmore := readsMembers_pretty level hg ms hs.2 k' (reads_prettyText level j' hs.1)
    exact (ReadsMembers.cons k (h.gap isGap_blank) hmore).gap (isGap_newline level)

end

/-! ## Compact texts -/

theorem isGap_nil : IsGap [] := fun _ h => absurd h List.not_mem_nil

mutual

/-- A document is read from its compact text. -/
theorem reads_compactText : (j : Json) → j.Written → Reads j (compactText j)
  | .null, _ => .null
  | .bool b, _ => .bool b
  | .string s, _ => .string s
  | .number n, h => .number (by rwa [Written] at h)
  | .unpaired, h => by
    rw [Written] at h
    exact h.elim
  | .array [], _ => reads_emptyArray
  | .array (j :: js), h => by
    rw [Written, ItemsWritten] at h
    rw [compactText, List.append_assoc]
    exact .array (readsItems_compact js h.2 (reads_compactText j h.1))
  | .object [], _ => reads_emptyObject
  | .object ((k, j) :: ms), h => by
    rw [Written, MembersWritten] at h
    rw [compactText]
    simp only [List.append_assoc, List.cons_append]
    exact .object (readsMembers_compact ms h.2 k (reads_compactText j h.1))

/-- Items are read after the first of them. -/
theorem readsItems_compact : (js : List Json) → ItemsWritten js → {j : Json} → {t : List Char} →
    Reads j t → ReadsItems (j :: js) (t ++ (compactItems js ++ [']']))
  | [], _, j, t, h => .one h isGap_nil
  | j' :: js, hs, j, t, h => by
    rw [ItemsWritten] at hs
    rw [compactItems, List.cons_append, List.append_assoc]
    exact .cons h (readsItems_compact js hs.2 (reads_compactText j' hs.1))

/-- Members are read after the first of them. -/
theorem readsMembers_compact : (ms : List (String × Json)) → MembersWritten ms → (k : String) →
    {j : Json} → {t : List Char} → Reads j t →
    ReadsMembers ((k, j) :: ms) (stringText k ++ ':' :: (t ++ (compactMembers ms ++ ['\x7d'])))
  | [], _, k, j, t, h => .one k h isGap_nil
  | (k', j') :: ms, hs, k, j, t, h => by
    rw [MembersWritten] at hs
    rw [compactMembers]
    simp only [List.append_assoc, List.cons_append]
    exact .cons k h (readsMembers_compact ms hs.2 k' (reads_compactText j' hs.1))

end

/-- A document is what a text is read as that reads as it in front of nothing. -/
theorem parse?_of_reads {j : Json} {cs : List Char} (h : Reads j cs) : parse? (String.ofList cs) = some j := by
  have hvalue := h (2 * cs.length + 2) [] (by omega) (by simp [Ends])
  rw [List.append_nil] at hvalue
  rw [parse?, String.toList_ofList]
  simp only [hvalue]
  rfl

/-- A document is read from its pretty text. -/
theorem parse?_pretty {j : Json} (h : j.Written) : parse? j.pretty = some j :=
  parse?_of_reads (reads_prettyText 0 j h)

/-- A document is read from its compact text. -/
theorem parse?_compact {j : Json} (h : j.Written) : parse? j.compact = some j :=
  parse?_of_reads (reads_compactText j h)

/-! ## Lists -/

section

variable {α β : Type} {f : α → Json} {xs : List α}

/-- Items that are read one by one. -/
theorem asListOf?_map_eq_some {read : Json → Option β} {R : α → β → Prop}
    (h : ∀ x ∈ xs, ∀ y, read (f x) = some y ↔ R x y) {ys : List β} :
    (Json.array (xs.map f)).asListOf? read = some ys ↔ List.Forall₂ R xs ys := by
  show (xs.map f).mapM read = some ys ↔ _
  induction xs generalizing ys with
  | nil => simp [eq_comm]
  | cons x xs ih =>
    rw [List.forall_mem_cons] at h
    rw [List.map_cons, List.mapM_cons, List.forall₂_cons_left_iff]
    constructor
    · intro hread
      obtain ⟨y, hy, hread⟩ := Option.bind_eq_some_iff.mp hread
      obtain ⟨zs, hzs, hread⟩ := Option.bind_eq_some_iff.mp hread
      exact ⟨y, zs, (h.1 y).mp hy, (ih h.2).mp hzs, (Option.some.inj hread).symm⟩
    · rintro ⟨y, zs, hy, hzs, rfl⟩
      rw [(h.1 y).mpr hy, (ih h.2).mpr hzs]
      rfl

/-- Items that are all read as what they stand for. -/
theorem asListOf?_map {read : Json → Option α} (h : ∀ x ∈ xs, read (f x) = some x) :
    (Json.array (xs.map f)).asListOf? read = some xs :=
  (asListOf?_map_eq_some fun _ _ _ => Iff.rfl).mpr (List.forall₂_same.mpr h)

/-- Items of which one is refused. -/
theorem asListOf?_map_none {read : Json → Option β} (h : ∃ x ∈ xs, read (f x) = none) :
    (Json.array (xs.map f)).asListOf? read = none := by
  obtain ⟨x, hx, hnone⟩ := h
  refine Option.eq_none_iff_forall_ne_some.mpr fun ys hys => ?_
  have hall : List.Forall₂ (fun x y => read (f x) ≠ none ∧ read (f x) = some y) xs ys :=
    (asListOf?_map_eq_some fun _ _ _ => ⟨fun hy => ⟨by simp [hy], hy⟩, And.right⟩).mp hys
  exact ((List.forall₂_and_left _ _).mp hall).1 x hx hnone

end

end Colloquy.Json
