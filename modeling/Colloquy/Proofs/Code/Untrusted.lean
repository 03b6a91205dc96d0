import Colloquy.Proofs.Code.Tiles
import Colloquy.Session.Basic

/-!
# Scripts of unknown origin

A script may come from anywhere and hold any words.  Reading it is safe nevertheless
(`decoding_safe`): what is decoded lies inside the script and ends beyond its start, the recursion over
nested expressions has an end, and so have the two loops that go through all statements, the one that
collects the sections for a session and the one that lists the script.

`Rounds` tells what a loop does without a bound on its rounds: it has a result only if it comes to an
end.
-/

namespace Colloquy

open Code

/-- A loop has a result after a number of rounds.  A round gives the next state, or the result. -/
inductive Rounds {α ρ : Type} (round : α → α ⊕ ρ) : Nat → α → ρ → Prop where
  | done {a : α} {r : ρ} : round a = .inr r → Rounds round 0 a r
  | next {n : Nat} {a b : α} {r : ρ} :
      round a = .inl b → Rounds round n b r → Rounds round (n + 1) a r

namespace Script

variable (S : Script)

/-- A round of the loop that collects the sections. -/
def sectionRound : Nat × Catalog Nat → Nat × Catalog Nat ⊕ Except CodeError (Catalog Nat)
  | (offset, table) =>
    if offset < S.words.size then
      match S.decodeStatement offset with
      | .error e => .inr (.error e)
      | .ok (.entry _ name, next) =>
        match S.string name with
        | .error e => .inr (.error e)
        | .ok name => .inl (next, table.insert name offset)
      | .ok (_, next) => .inl (next, table)
    else .inr (.ok table)

/-- A round of the loop that lists the statements. -/
def listingRound : Nat × List ListingRow → Nat × List ListingRow ⊕ List ListingRow
  | (offset, rows) =>
    if offset < S.words.size then
      match S.describe offset with
      | .error e => .inr (rows ++ [⟨offset, .error e⟩])
      | .ok (code, operands, next) => .inl (next, rows ++ [⟨offset, .ok (code, operands)⟩])
    else .inr rows

variable {S}

/-- The sections from an offset on are collected in as many rounds as there are words left at most. -/
theorem sectionsFrom_rounds {fuel offset : Nat} (hfuel : S.words.size ≤ offset + fuel)
    (table : Catalog Nat) :
    ∃ n ≤ fuel, Rounds S.sectionRound n (offset, table) (S.sectionsFrom fuel offset table) := by
  induction fuel generalizing offset table with
  | zero =>
    refine ⟨0, Nat.le_refl _, .done ?_⟩
    rw [sectionRound, if_neg (by omega), Script.sectionsFrom]
  | succ fuel ih =>
    rw [Script.sectionsFrom]
    by_cases hoffset : offset < S.words.size
    · rw [if_pos hoffset]
      cases hdecode : S.decodeStatement offset with
      | error e =>
        refine ⟨0, Nat.zero_le _, .done ?_⟩
        rw [sectionRound, if_pos hoffset, hdecode]
        rfl
      | ok p =>
        obtain ⟨node, next⟩ := p
        have hnext := (decodeStatement_occupies hdecode).lt
        have ih := @ih next (by omega)
        -- only an entry changes the table, and only its name can be missing
        cases node with
        | entry target name =>
          show ∃ n ≤ fuel + 1, Rounds S.sectionRound n (offset, table)
            (S.string name >>= fun x => S.sectionsFrom fuel next (table.insert x offset))
          cases hname : S.string name with
          | error e =>
            refine ⟨0, Nat.zero_le _, .done ?_⟩
            simp only [sectionRound, if_pos hoffset, hdecode, hname]
            rfl
          | ok x =>
            obtain ⟨n, hn, hrest⟩ := ih (table.insert x offset)
            refine ⟨n + 1, Nat.succ_le_succ hn, .next ?_ hrest⟩
            simp only [sectionRound, if_pos hoffset, hdecode, hname]
        | _ =>
          obtain ⟨n, hn, hrest⟩ := ih table
          refine ⟨n + 1, Nat.succ_le_succ hn, .next ?_ hrest⟩
          rw [sectionRound, if_pos hoffset, hdecode]
    · rw [if_neg hoffset]
      refine ⟨0, Nat.zero_le _, .done ?_⟩
      rw [sectionRound, if_neg hoffset]

/-- What is described is a statement, and the listing goes on behind it. -/
theorem lt_of_describe {offset next : Nat} {code : StatementCode} {operands : String}
    (h : S.describe offset = .ok (code, operands, next)) : offset < next := by
  rw [Script.describe] at h
  obtain ⟨⟨node, stop⟩, hdecode, h⟩ := Code.bind_eq_ok.mp h
  obtain ⟨text, -, h⟩ := Code.bind_eq_ok.mp h
  cases h
  exact (decodeStatement_occupies hdecode).lt

/-- The loop that lists a script comes to an end within as many rounds as there are words. -/
theorem listingFrom_rounds {fuel offset : Nat} (hfuel : S.words.size ≤ offset + fuel)
    (rows : List ListingRow) :
    ∃ n ≤ fuel, Rounds S.listingRound n (offset, rows) (rows ++ S.listingFrom fuel offset) := by
  induction fuel generalizing offset rows with
  | zero =>
    refine ⟨0, Nat.le_refl _, .done ?_⟩
    rw [listingRound, if_neg (by omega), Script.listingFrom, List.append_nil]
  | succ fuel ih =>
    rw [Script.listingFrom]
    by_cases hoffset : offset < S.words.size
    · rw [if_pos hoffset]
      cases hdescribe : S.describe offset with
      | error e =>
        refine ⟨0, Nat.zero_le _, .done ?_⟩
        rw [listingRound, if_pos hoffset, hdescribe]
      | ok p =>
        obtain ⟨code, operands, next⟩ := p
        have hnext := lt_of_describe hdescribe
        obtain ⟨n, hn, hrest⟩ :=
          @ih next (by omega) (rows ++ [⟨offset, .ok (code, operands)⟩])
        rw [List.append_assoc] at hrest
        refine ⟨n + 1, Nat.succ_le_succ hn, .next ?_ hrest⟩
        rw [listingRound, if_pos hoffset, hdescribe]
    · rw [if_neg hoffset]
      refine ⟨0, Nat.zero_le _, .done ?_⟩
      rw [listingRound, if_neg hoffset, List.append_nil]

end Script

/-- Reading a script is safe whatever words it holds.  A node or a statement that is decoded takes up words
of the script, and the expressions in it lie inside, one behind the other, and can be decoded.  Everything
comes to an end: the recursion for nested expressions goes no deeper than there are words left, so that
whatever a deeper call might answer has no effect, and no more rounds are needed than there are words,
neither to collect the sections, which is all that a new session does, nor to list the script. -/
theorem decoding_safe (S : Script) :
    (∀ offset node stop, S.decodeExpr offset = .ok (node, stop) →
      S.Occupies offset node.tiles node.operands stop) ∧
    (∀ offset node stop, S.decodeStatement offset = .ok (node, stop) →
      S.Occupies offset node.tiles node.exprs stop) ∧
    (∀ offset, S.decodeExpr offset = nodeAt S S.exprEnd offset ∧
      S.exprEnd offset = (S.decodeExpr offset).map Prod.snd ∧
      ∀ base depth, S.words.size - offset < depth →
        endCut S base depth offset = S.exprEnd offset) ∧
    (∃ n ≤ S.words.size, Rounds S.sectionRound n (0, ∅) S.sectionTable) ∧
    (Session.ofScript S).map Session.sections = S.sectionTable.mapError .code ∧
    (∃ n ≤ S.words.size, Rounds S.listingRound n (0, []) S.listing) ∧
    (∀ offset base depth, S.words.size - offset < depth →
      S.textCut base depth offset = S.exprText offset) := by
  refine ⟨fun _ _ _ => Script.decodeExpr_occupies, fun _ _ _ => Script.decodeStatement_occupies, ?_,
    Script.sectionsFrom_rounds (by omega) ∅, ?_, Script.listingFrom_rounds (by omega) [], ?_⟩
  · intro offset
    exact ⟨S.decodeExpr_eq offset, S.exprEnd_eq offset, fun base _ => Script.endCut_eq base⟩
  · rw [Session.ofScript]
    cases S.sectionTable <;> rfl
  · exact fun _ base _ => Script.textCut_eq base

/-- A call that claims to have more arguments than there are words runs into the end. -/
example : Script.decodeExpr ⟨#[], #[], #["f"], #[4, 0, 0, 4294967295]⟩ 0 =
    .error (.unexpectedEnd 4) := by decide +kernel

end Colloquy
