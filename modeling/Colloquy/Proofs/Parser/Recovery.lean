import Colloquy.Proofs.Parser.Abreast

/-!
# Broken lines

A line that cannot be parsed is reported once and skipped, and parsing goes on behind its line break, never
before and never a line later.  So the lines of a section that are statements of their own give the same
statements and the same errors together as each of them gives alone (`parse_line_by_line`).  The argument
compares the run over all the lines with the run over one of them: in it the two are abreast, and behind it
both have taken the line break.
-/

namespace Colloquy

namespace Parse

variable {α β : Type} {s : Sides} {b : Prop} {A : Cursor → Prop} {c c' : Cursor} {t newline : Token}
  {ts rest : List Token} {errors : List ParseError} {last : Token}

theorem bind_ok {p : Parse α} {f : α → Parse β} {a : α} (h : p c = .ok a c') : (p >>= f) c = f a c' := by
  show EStateM.bind p f c = f a c'
  rw [EStateM.bind, h]

theorem bind_error {p : Parse α} {f : α → Parse β} {e : Halt} (h : p c = .error e c') :
    (p >>= f) c = .error e c' := by
  show EStateM.bind p f c = .error e c'
  rw [EStateM.bind, h]

/-! ## The end of a line -/

/-- Two cursors right behind the line break. -/
structure Sides.Behind (s : Sides) (c c' : Cursor) : Prop where
  left : c = ⟨s.left, s.newline, s.errorsLeft⟩
  right : c' = ⟨s.right, s.newline, s.errorsRight⟩

/-- A line break ends a line. -/
theorem lineEnd_newline (h : t.is .newline = true) :
    lineEnd ⟨t :: rest, last, errors⟩ = .ok () ⟨rest, t, errors⟩ := by
  obtain ⟨lexeme, span⟩ := t
  obtain rfl : lexeme = .mark .newline := of_decide_eq_true h
  rfl

/-- Any other token does not, and is reported. -/
theorem lineEnd_other (hline : t.is .newline = false) (hend : t.is .endOfFile = false) :
    lineEnd ⟨t :: rest, last, errors⟩ =
      .error (.error (.expectedEndOfLine t.lexeme.kind t.span)) ⟨t :: rest, last, errors⟩ := by
  rw [lineEnd, bind_ok (show peek _ = .ok t _ from rfl), hline, hend]
  rfl

/-- The end of the line is its line break, or an error. -/
theorem lineEnd_alike (a : α) :
    Alike s A b s.Behind (lineEnd >>= fun _ => pure a) (lineEnd >>= fun _ => pure a) := by
  intro c c' hc _
  obtain ⟨ts, hts, hrest, hrest'⟩ := hc.ahead
  obtain ⟨left, last, errors⟩ := c
  obtain ⟨right, last', errors'⟩ := c'
  obtain rfl : errors = s.errorsLeft := hc.errorsLeft
  obtain rfl : errors' = s.errorsRight := hc.errorsRight
  obtain rfl : left = _ := hrest
  obtain rfl : right = _ := hrest'
  cases ts with
  | nil =>
    rw [List.nil_append, List.nil_append, bind_ok (lineEnd_newline s.ends), bind_ok (lineEnd_newline s.ends)]
    exact .ok ⟨rfl, rfl⟩
  | cons t ts =>
    obtain ⟨hline, hend, -⟩ := hts t (List.mem_cons_self ..)
    rw [List.cons_append, List.cons_append, bind_error (lineEnd_other hline hend),
      bind_error (lineEnd_other hline hend)]
    exact .error (hc.weaken False.elim)

/-- A statement that is no condition and no choice is the same whatever stands behind its line, and ends
with the line break. -/
theorem stmt_alike (fuel fuel' : Nat) (hif : t.is .ifWord = false) (hchoice : t.is .choiceWord = false) :
    Alike s (Cursor.Before t) False s.Behind (stmt (fuel + 1)) (stmt (fuel' + 1)) := by
  have hend {A : Cursor → Prop} {b : Prop} (x : Stmt) : Alike s A b s.Behind (do
      lineEnd
      return x) (do
      lineEnd
      return x) := lineEnd_alike x
  rw [stmt, stmt]
  refine .peek fun u => ?_
  dsimp only
  have hnot {p p' : Parse Stmt} (m : Mark) (hu : u.lexeme = .mark m) (ht : t.is m = false) :
      Alike s (fun c => c.Before t ∧ c.Before u) False s.Behind p p' := by
    intro c c' _ hbefore
    obtain rfl : t = u := Option.some.inj (hbefore.1.symm.trans hbefore.2)
    simp [Token.is, hu] at ht
  have hline (hu : Opens u) : Alike s (fun c => c.Before t ∧ c.Before u) False s.Behind
      (line (fuel + 1) >>= fun l => pure (Stmt.line l) >>= fun x => lineEnd >>= fun _ => pure x)
      (line (fuel' + 1) >>= fun l => pure (Stmt.line l) >>= fun x => lineEnd >>= fun _ => pure x) :=
    fun c c' hc hbefore =>
      ((line_agree fuel fuel' hu).bind fun x => (Alike.pure _).bind hend) c c' hc hbefore.2
  split
  -- an instruction
  · next heq =>
    refine .advance (by simp [Token.is, heq]) (fun _ h => h.2) ?_
    exact (instruction_agree fuel fuel').agree.bind fun e => (Alike.pure _).bind hend
  -- a goto, by its word or by an arrow
  · next heq =>
    refine .advance (by simp [Token.is, heq]) (fun _ h => h.2) ?_
    exact sectionName_agree.bind fun target => (Alike.pure _).bind hend
  · next heq =>
    refine .advance (by simp [Token.is, heq]) (fun _ h => h.2) ?_
    exact sectionName_agree.bind fun target => (Alike.pure _).bind hend
  -- an end
  · next heq =>
    refine .advance (by simp [Token.is, heq]) (fun _ h => h.2) ?_
    exact (Alike.pure _).bind hend
  -- a conditional
  · next heq => exact hnot .ifWord heq hif
  -- a choice
  · next heq => exact hnot .choiceWord heq hchoice
  -- hash data
  · next heq =>
    refine .advance (by simp [Token.is, heq]) (fun _ h => h.2) ?_
    exact (hashBody_agree _ _ _).bind fun h => (Alike.pure _).bind hend
  -- hash data of a speaker
  · next heq =>
    refine .advance (by simp [Token.is, heq]) (fun _ h => h.2) ?_
    refine ident_agree.bind fun name => (expect_agree (by decide) _).bind fun opener => ?_
    exact (hashBody_agree _ _ _).bind fun h => (Alike.pure _).bind hend
  -- an option outside of a choice
  · exact (Alike.fail _).bind (@hend _ False)
  -- a line
  · next heq => exact hline (.inr (.inl ⟨_, by rw [ident?, heq]⟩))
  · next heq => exact hline (.inr (.inr (.inr ⟨_, by rw [text?, heq]⟩)))
  · next heq => exact hline (.inl (by simp [Token.is, heq]))
  · next heq => exact hline (.inr (.inr (.inl (by simp [Token.is, heq]))))
  -- anything else starts no statement
  · exact (Alike.fail _).bind (@hend _ False)

/-! ## One line -/

/-- The rest of a line is skipped with its line break. -/
theorem skipLine_onLine (hts : OnLine ts) (hline : newline.is .newline = true) :
    Cursor.skipLine errors last (ts ++ newline :: rest) = ⟨rest, newline, errors⟩ := by
  induction ts generalizing last with
  | nil =>
    have hlexeme : newline.lexeme = .mark .newline := of_decide_eq_true hline
    simp [Cursor.skipLine, Token.is, hlexeme]
  | cons t ts ih =>
    obtain ⟨hbreak, hend, hmarker⟩ := hts t (List.mem_cons_self ..)
    rw [List.cons_append, Cursor.skipLine, hbreak, hend, hmarker]
    exact ih fun u hu => hts u (List.mem_cons_of_mem _ hu)

/-- Two parsers of a line that are recovered from come to the same result with the same errors, right behind
the line break: a result or one error. -/
theorem recover_alike {p p' : Parse α} (h : Same s s.Behind (p c) (p' c'))
    (hleft : ∀ d, p c ≠ .error .exhausted d) (hright : ∀ d, p' c' ≠ .error .exhausted d) :
    ∃ (o : Option α) (es : List ParseError),
      recover p c = .ok o ⟨s.left, s.newline, s.errorsLeft ++ es⟩ ∧
      recover p' c' = .ok o ⟨s.right, s.newline, s.errorsRight ++ es⟩ ∧
      (o.isSome = true ∧ es = [] ∨ o = none ∧ ∃ e, es = [e]) := by
  rw [recover, recover]
  generalize p c = x at h hleft ⊢
  generalize p' c' = x' at h hright ⊢
  cases h with
  | @ok a _ _ hbehind =>
    obtain ⟨rfl, rfl⟩ := hbehind
    refine ⟨some a, [], ?_, ?_, .inl ⟨rfl, rfl⟩⟩
    · rw [List.append_nil]
    · rw [List.append_nil]
  | @error e d d' habreast =>
    obtain ⟨ts, hts, hrest, hrest'⟩ := habreast.ahead
    refine ⟨none, [e], ?_, ?_, .inr ⟨rfl, e, rfl⟩⟩
    · show EStateM.Result.ok none (Cursor.skipLine (d.errors ++ [e]) d.last d.rest) = _
      rw [hrest, habreast.errorsLeft, skipLine_onLine hts s.ends]
    · show EStateM.Result.ok none (Cursor.skipLine (d'.errors ++ [e]) d'.last d'.rest) = _
      rw [hrest', habreast.errorsRight, skipLine_onLine hts s.ends]
  | left => exact absurd rfl (hleft _)
  | right => exact absurd rfl (hright _)

/-- Enough steps were given to a statement. -/
theorem stmt_ne_exhausted {fuel : Nat} (hc : c.Ready fuel) (d : Cursor) :
    stmt fuel c ≠ .error .exhausted d := by
  have hgoes := stmt_takes fuel c hc trivial
  rw [Goes] at hgoes
  intro heq
  rw [heq] at hgoes
  cases hgoes

/-- A line of tokens with the line break that ends it, which starts neither a condition nor a choice. -/
def IsLine (ts : List Token) : Prop :=
  ∃ front newline, ts = front ++ [newline] ∧ newline.is .newline = true ∧ OnLine front ∧
    ∀ t ∈ front.head?, t.is .ifWord = false ∧ t.is .choiceWord = false

/-- What a line is parsed as in front of anything: at most one statement, or else one error. -/
structure ReadsAs (ts : List Token) (xs : List Stmt) (es : List ParseError) : Prop where
  line : IsLine ts
  blank : ts.length ≤ 1 → xs = [] ∧ es = []
  one : 1 < ts.length → (∃ x, xs = [x]) ∧ es = [] ∨ xs = [] ∧ ∃ e, es = [e]
  many : ∀ {fuel bound : Nat} {rest : List Token} (last : Token) (errors : List ParseError), Ended rest →
    (ts ++ rest).length ≤ fuel → (ts ++ rest).length ≤ bound → ∃ bound' last', rest.length ≤ bound' ∧
    Parse.many endsSection (stmt fuel) bound ⟨ts ++ rest, last, errors⟩ =
      (do return xs ++ (← Parse.many endsSection (stmt fuel) bound')) ⟨rest, last', errors ++ es⟩

/-- In front of any other token no line break is skipped. -/
theorem skipBreaks_other (h : t.is .newline = false) :
    skipBreaks ⟨t :: ts, last, errors⟩ = .ok () ⟨t :: ts, last, errors⟩ := by
  show EStateM.Result.ok () (Cursor.skipBreaks errors last (t :: ts)) = _
  rw [Cursor.skipBreaks, h]
  rfl

/-- A line break between parts is passed over. -/
theorem many_newline {stop : Token → Bool} {p : Parse α} {bound : Nat} (h : t.is .newline = true) :
    many stop p (bound + 1) ⟨t :: rest, last, errors⟩ = many stop p (bound + 1) ⟨rest, t, errors⟩ := by
  have hskip : ∀ f : Unit → Parse (List α), (skipBreaks >>= f) ⟨t :: rest, last, errors⟩ =
      (skipBreaks >>= f) ⟨rest, t, errors⟩ := by
    intro f
    show f () (Cursor.skipBreaks errors last (t :: rest)) = f () (Cursor.skipBreaks errors t rest)
    rw [Cursor.skipBreaks, if_pos h]
  exact hskip _

/-- Statements go on with the next one behind one that was recovered from. -/
theorem many_other {stop : Token → Bool} {p : Parse α} {bound : Nat} {o : Option α}
    (hline : t.is .newline = false) (hstop : stop t = false)
    (h : recover p ⟨t :: ts, last, errors⟩ = .ok o c) :
    many stop p (bound + 1) ⟨t :: ts, last, errors⟩ = (do return o.toList ++ (← many stop p bound)) c := by
  rw [many, bind_ok (skipBreaks_other hline), bind_ok (show peek _ = .ok t _ from rfl), hstop]
  exact bind_ok h

/-- A line may stand before tokens that end. -/
theorem ended_onLine (hts : OnLine ts) (hline : newline.is .newline = true) (hrest : Ended rest) :
    Ended (ts ++ newline :: rest) := by
  have hend : newline.is .endOfFile = false := by
    have hlexeme : newline.lexeme = .mark .newline := of_decide_eq_true hline
    simp [Token.is, hlexeme]
  induction ts with
  | nil => exact .cons hend hrest
  | cons t ts ih =>
    exact .cons (hts t (List.mem_cons_self ..)).2.1 (ih fun u hu => hts u (List.mem_cons_of_mem _ hu))

/-- A statement that is recovered from comes to the same on a line in front of anything as on the line
alone. -/
theorem recover_onLine {front rest' : List Token} {fuel fuel' : Nat} (last last' : Token)
    (errors : List ParseError) (hfront : OnLine (t :: front))
    (hline : newline.is .newline = true) (hif : t.is .ifWord = false) (hchoice : t.is .choiceWord = false)
    (hrest : Ended rest) (hfuel : (t :: front ++ newline :: rest).length ≤ fuel)
    (hrest' : Ended rest') (hfuel' : (t :: front ++ newline :: rest').length ≤ fuel') :
    ∃ (o : Option Stmt) (es : List ParseError),
      recover (stmt fuel) ⟨t :: front ++ newline :: rest, last, errors⟩ =
        .ok o ⟨rest, newline, errors ++ es⟩ ∧
      recover (stmt fuel') ⟨t :: front ++ newline :: rest', last', []⟩ = .ok o ⟨rest', newline, es⟩ ∧
      (o.isSome = true ∧ es = [] ∨ o = none ∧ ∃ e, es = [e]) := by
  let sides : Sides := ⟨newline, hline, rest, rest', errors, []⟩
  have habreast : Abreast sides False ⟨t :: front ++ newline :: rest, last, errors⟩
      ⟨t :: front ++ newline :: rest', last', []⟩ := ⟨⟨t :: front, hfront, rfl, rfl⟩, rfl, rfl, False.elim⟩
  obtain ⟨k, rfl⟩ : ∃ k, fuel = k + 1 := ⟨fuel - 1, by simp at hfuel; omega⟩
  obtain ⟨k', rfl⟩ : ∃ k, fuel' = k + 1 := ⟨fuel' - 1, by simp at hfuel'; omega⟩
  have hsame := stmt_alike k k' hif hchoice _ _ habreast rfl
  exact recover_alike hsame (stmt_ne_exhausted ⟨ended_onLine hfront hline hrest, hfuel⟩)
    (stmt_ne_exhausted ⟨ended_onLine hfront hline hrest', hfuel'⟩)

/-- Every line is parsed as something of its own. -/
theorem exists_readsAs (hts : IsLine ts) : ∃ xs es, ReadsAs ts xs es := by
  have hwhole := hts
  obtain ⟨front, newline, rfl, hline, hfront, hhead⟩ := hts
  cases front with
  | nil =>
    refine ⟨[], [], hwhole, fun _ => ⟨rfl, rfl⟩, fun h => absurd h (by simp), ?_⟩
    intro fuel bound rest last errors _ _ hbound
    obtain ⟨bound, rfl⟩ : ∃ k, bound = k + 1 := ⟨bound - 1, by simp at hbound; omega⟩
    refine ⟨bound + 1, newline, by simp at hbound; omega, ?_⟩
    rw [List.nil_append, List.singleton_append, many_newline hline, List.append_nil]
    simp
  | cons t front =>
    obtain ⟨hif, hchoice⟩ := hhead t rfl
    -- what the line is parsed as in front of the end of the source
    have heof : Ended [⟨.mark .endOfFile, ⟨0, 0⟩⟩] := .last rfl
    obtain ⟨o, es, -, halone, hone⟩ := recover_onLine t t [] hfront hline hif hchoice heof (Nat.le_refl _)
      heof (Nat.le_refl _)
    have hone : (∃ x, o.toList = [x]) ∧ es = [] ∨ o.toList = [] ∧ ∃ e, es = [e] := by
      rcases hone with ⟨hsome, hes⟩ | ⟨rfl, hes⟩
      · obtain ⟨x, rfl⟩ := Option.isSome_iff_exists.mp hsome
        exact .inl ⟨⟨x, rfl⟩, hes⟩
      · exact .inr ⟨rfl, hes⟩
    refine ⟨o.toList, es, hwhole, fun h => absurd h (by simp), fun _ => hone, ?_⟩
    intro fuel bound rest last errors hrest hfuel hbound
    rw [List.append_assoc, List.singleton_append] at hfuel hbound ⊢
    obtain ⟨o', es', hrecover, halone', -⟩ := recover_onLine last t errors hfront hline hif hchoice
      hrest hfuel heof (Nat.le_refl _)
    obtain ⟨rfl, rfl⟩ : o' = o ∧ es' = es := by
      have heq := halone'.symm.trans halone
      cases heq
      exact ⟨rfl, rfl⟩
    obtain ⟨bound, rfl⟩ : ∃ k, bound = k + 1 := ⟨bound - 1, by simp at hbound; omega⟩
    refine ⟨bound, newline, by simp at hbound; omega, ?_⟩
    obtain ⟨htline, htend, htmarker⟩ := hfront t (List.mem_cons_self ..)
    exact many_other htline (by rw [endsSection, htend, htmarker]; rfl) hrecover

/-! ## Lines in a row -/

/-- Statements stop in front of a section or the end of the source. -/
theorem many_stops {p : Parse α} {bound : Nat} (hhead : ∀ t ∈ rest.head?, endsSection t = true)
    (hrest : Ended rest) (hbound : rest.length ≤ bound) :
    many endsSection p bound ⟨rest, last, errors⟩ = .ok [] ⟨rest, last, errors⟩ := by
  obtain ⟨t, ts, rfl⟩ := List.exists_cons_of_ne_nil hrest.ne_nil
  obtain ⟨bound, rfl⟩ : ∃ k, bound = k + 1 := ⟨bound - 1, by simp at hbound; omega⟩
  have hends : endsSection t = true := hhead t rfl
  have hbreak : t.is .newline = false := by
    rw [endsSection, Bool.or_eq_true, Token.is, Token.is, decide_eq_true_eq, decide_eq_true_eq] at hends
    rcases hends with hlexeme | hlexeme <;> simp [Token.is, hlexeme]
  rw [many, bind_ok (skipBreaks_other hbreak), bind_ok (show peek _ = .ok t _ from rfl), hends]
  rfl

/-- So may lines. -/
theorem ended_lines {lines : List (List Token)} (hlines : ∀ line ∈ lines, IsLine line) (hrest : Ended rest) :
    Ended (lines.flatten ++ rest) := by
  induction lines with
  | nil => exact hrest
  | cons line lines ih =>
    rw [List.forall_mem_cons] at hlines
    obtain ⟨front, newline, rfl, hline, hfront, -⟩ := hlines.1
    rw [List.flatten_cons, List.append_assoc, List.append_assoc]
    exact ended_onLine hfront hline (ih hlines.2)

/-- Lines in a row are parsed as each of them is. -/
theorem many_lines {lines : List (List Token)} {xs : List Token → List Stmt}
    {es : List Token → List ParseError} (hlines : ∀ line ∈ lines, ReadsAs line (xs line) (es line))
    (hrest : Ended rest) (hhead : ∀ t ∈ rest.head?, endsSection t = true) (last : Token)
    (errors : List ParseError) {fuel bound : Nat}
    (hfuel : (lines.flatten ++ rest).length ≤ fuel) (hbound : (lines.flatten ++ rest).length ≤ bound) :
    ∃ last', many endsSection (stmt fuel) bound ⟨lines.flatten ++ rest, last, errors⟩ =
      .ok (lines.flatMap xs) ⟨rest, last', errors ++ lines.flatMap es⟩ := by
  induction lines generalizing bound last errors with
  | nil =>
    refine ⟨last, ?_⟩
    rw [List.flatMap_nil, List.flatMap_nil, List.append_nil]
    exact many_stops hhead hrest hbound
  | cons line lines ih =>
    rw [List.forall_mem_cons] at hlines
    rw [List.flatten_cons, List.append_assoc] at hfuel hbound ⊢
    have hended : Ended (lines.flatten ++ rest) := ended_lines (fun l hl => (hlines.2 l hl).line) hrest
    obtain ⟨bound', last', hbound', hmany⟩ := hlines.1.many last errors hended hfuel hbound
    obtain ⟨last'', hrest⟩ := ih hlines.2 last' (errors ++ es line) (Nat.le_trans (by simp) hfuel) hbound'
    refine ⟨last'', ?_⟩
    rw [hmany, bind_ok hrest, List.flatMap_cons, List.flatMap_cons, List.append_assoc]
    rfl

/-! ## Sections -/

/-- What a token names a section. -/
def sectionName? (t : Token) : Option Ident :=
  match t.lexeme with
  | .mark m => (keywordText? m).map fun word => ⟨word, t.span⟩
  | .identifier name => some ⟨name, t.span⟩
  | _ => none

/-- A section header: the marker, a name, the marker again or not, and the line break. -/
inductive Header : List Token → Ident → Span → Prop where
  | plain {marker word newline : Token} {x : Ident} (hmarker : marker.is .sectionMarker = true)
      (hword : sectionName? word = some x) (hline : newline.is .newline = true) :
      Header [marker, word, newline] x (marker.span.cover newline.span)
  | closed {marker word close newline : Token} {x : Ident} (hmarker : marker.is .sectionMarker = true)
      (hword : sectionName? word = some x) (hclose : close.is .sectionMarker = true)
      (hline : newline.is .newline = true) :
      Header [marker, word, close, newline] x (marker.span.cover newline.span)

/-- The name of a section is read from its word. -/
theorem sectionName_ok {word : Token} {x : Ident} (hword : sectionName? word = some x) :
    sectionName ⟨word :: ts, last, errors⟩ = .ok x ⟨ts, word, errors⟩ := by
  obtain ⟨lexeme, span⟩ := word
  cases lexeme with
  | mark m =>
    obtain ⟨w, hw, rfl⟩ := Option.map_eq_some_iff.mp hword
    have haccept : ∀ f : Token → Option Ident, f ⟨.mark m, span⟩ = some ⟨w, span⟩ →
        accept? f ⟨⟨.mark m, span⟩ :: ts, last, errors⟩ =
          .ok (some ⟨w, span⟩) ⟨ts, ⟨.mark m, span⟩, errors⟩ := by
      intro f hf
      rw [accept?, List.head?_cons, Option.bind_some, hf]
      rfl
    exact bind_ok (haccept _ hword)
  | identifier name =>
    cases hword
    rfl
  | _ => cases hword

theorem not_sectionMarker (h : t.is .newline = true) : t.is .sectionMarker = false := by
  rw [Token.is, decide_eq_true_eq] at h
  simp [Token.is, h]

theorem accept_ok {m : Mark} (h : t.is m = true) :
    accept m ⟨t :: ts, last, errors⟩ = .ok (some t.span) ⟨ts, t, errors⟩ := by
  rw [accept, accept?, List.head?_cons, Option.bind_some, if_pos h]
  rfl

theorem accept_other {m : Mark} (h : t.is m = false) :
    accept m ⟨t :: ts, last, errors⟩ = .ok none ⟨t :: ts, last, errors⟩ := by
  rw [accept, accept?, List.head?_cons, Option.bind_some, h]
  rfl

/-- A header is taken whole. -/
theorem header_ok {hs : List Token} {x : Ident} {span : Span} (hheader : Header hs x span) (ts : List Token)
    (errors : List ParseError) :
    ∃ marker more newline, hs = marker :: more ∧ marker.is .sectionMarker = true ∧
      headerFrom marker.span ⟨more ++ ts, marker, errors⟩ = .ok (x, span) ⟨ts, newline, errors⟩ := by
  cases hheader with
  | @plain marker word newline _ hmarker hword hline =>
    refine ⟨marker, _, newline, rfl, hmarker, ?_⟩
    have hheader : header ⟨[word, newline] ++ ts, marker, errors⟩ = .ok x ⟨ts, newline, errors⟩ := by
      refine (bind_ok (sectionName_ok hword)).trans ?_
      refine (bind_ok (accept_other (not_sectionMarker hline))).trans ?_
      exact bind_ok (lineEnd_newline hline)
    exact bind_ok hheader
  | @closed marker word close newline _ hmarker hword hclose hline =>
    refine ⟨marker, _, newline, rfl, hmarker, ?_⟩
    have hheader : header ⟨[word, close, newline] ++ ts, marker, errors⟩ = .ok x ⟨ts, newline, errors⟩ := by
      refine (bind_ok (sectionName_ok hword)).trans ((bind_ok (accept_ok hclose)).trans ?_)
      exact bind_ok (lineEnd_newline hline)
    exact bind_ok hheader

/-- A section is its header and what its lines are parsed as, wherever it stands. -/
theorem sectionPart_lines {hs : List Token} {x : Ident} {span : Span} (hheader : Header hs x span)
    {lines : List (List Token)} {xs : List Token → List Stmt} {es : List Token → List ParseError}
    (hlines : ∀ line ∈ lines, ReadsAs line (xs line) (es line)) (hrest : Ended rest)
    (hhead : ∀ t ∈ rest.head?, endsSection t = true) {fuel : Nat}
    (hc : c.rest = hs ++ lines.flatten ++ rest) (hfuel : c.rest.length ≤ fuel) :
    ∃ last, sectionPart fuel c =
      .ok (some ⟨x, span, lines.flatMap xs⟩) ⟨rest, last, c.errors ++ lines.flatMap es⟩ := by
  obtain ⟨marker, more, newline, rfl, hmarker, hheader⟩ := header_ok hheader (lines.flatten ++ rest) c.errors
  have hle : (lines.flatten ++ rest).length ≤ fuel := by
    rw [hc] at hfuel
    simp at hfuel ⊢
    omega
  obtain ⟨last, hbody⟩ := many_lines hlines hrest hhead newline c.errors hle hle
  have hadvance : advance c = .ok () ⟨more ++ (lines.flatten ++ rest), marker, c.errors⟩ := by
    rw [advance, Cursor.advance, hc, List.append_assoc]
    rfl
  have hrecover : recover (headerFrom marker.span) ⟨more ++ (lines.flatten ++ rest), marker, c.errors⟩ =
      .ok (some (x, span)) ⟨lines.flatten ++ rest, newline, c.errors⟩ := by
    rw [recover, hheader]
  refine ⟨last, (bind_ok hadvance).trans ((bind_ok (show lastSpan _ = .ok marker.span _ from rfl)).trans ?_)⟩
  refine (bind_ok hrecover).trans ?_
  exact bind_ok hbody

/-- Sections go on with the section in front. -/
theorem sections_marker {implicit : Option String} {fuel bound : Nat} {acc : List Section}
    (h : t.is .sectionMarker = true) : sections implicit fuel (bound + 1) acc ⟨t :: ts, last, errors⟩ =
      (sectionPart fuel >>= fun s => sections implicit fuel bound (acc ++ s.toList))
        ⟨t :: ts, last, errors⟩ := by
  have hlexeme : t.lexeme = .mark .sectionMarker := of_decide_eq_true h
  have hline : t.is .newline = false := by simp [Token.is, hlexeme]
  have hend : t.is .endOfFile = false := by simp [Token.is, hlexeme]
  rw [sections, bind_ok (skipBreaks_other hline), bind_ok (show peek _ = .ok t _ from rfl), hend, h]
  rfl

/-- Sections end with the source. -/
theorem sections_end {implicit : Option String} {fuel bound : Nat} {acc : List Section}
    (h : t.is .endOfFile = true) :
    sections implicit fuel (bound + 1) acc ⟨[t], last, errors⟩ = .ok acc ⟨[t], last, errors⟩ := by
  have hlexeme : t.lexeme = .mark .endOfFile := of_decide_eq_true h
  have hline : t.is .newline = false := by simp [Token.is, hlexeme]
  rw [sections, bind_ok (skipBreaks_other hline), bind_ok (show peek _ = .ok t _ from rfl), h]
  rfl

/-- A source of one section. -/
theorem parseTokens_lines {hs : List Token} {x : Ident} {span : Span} (hheader : Header hs x span)
    {lines : List (List Token)} {xs : List Token → List Stmt} {es : List Token → List ParseError}
    (hlines : ∀ line ∈ lines, ReadsAs line (xs line) (es line)) {eof : Token}
    (heof : eof.is .endOfFile = true) (implicit : Option String) :
    parseTokens implicit (hs ++ lines.flatten ++ [eof]) =
      ([⟨x, span, lines.flatMap xs⟩], lines.flatMap es) := by
  have hhead : ∀ t ∈ [eof].head?, endsSection t = true := by
    rintro t ⟨⟩
    rw [endsSection, heof, Bool.true_or]
  obtain ⟨last, hsection⟩ := sectionPart_lines hheader hlines (.last heof) hhead
    (c := .start (hs ++ lines.flatten ++ [eof])) rfl (Nat.le_refl _)
  obtain ⟨marker, more, -, rfl, hmarker, -⟩ := header_ok hheader [] []
  have hsections : sections implicit (marker :: more ++ lines.flatten ++ [eof]).length
      (marker :: more ++ lines.flatten ++ [eof]).length []
        (.start (marker :: more ++ lines.flatten ++ [eof])) =
        .ok [⟨x, span, lines.flatMap xs⟩] ⟨[eof], last, lines.flatMap es⟩ := by
    obtain ⟨k, hk⟩ : ∃ k, (marker :: more ++ lines.flatten ++ [eof]).length = k + 1 + 1 :=
      ⟨(more ++ lines.flatten).length, by simp; omega⟩
    conv => lhs; arg 3; rw [hk]
    refine (sections_marker hmarker).trans ((bind_ok hsection).trans ?_)
    exact sections_end heof
  rw [parseTokens]
  simp only [hsections]

end Parse

/-- What a line gives alone, under a header and in front of the end of the source: its statements and
errors. -/
def aloneUnder (header : List Token) (eof : Token) (line : List Token) : Block × List ParseError :=
  let (story, errors) := parseTokens none (header ++ line ++ [eof])
  (story.flatMap Section.body, errors)

/-- The lines under a header are parsed one by one: each of them gives alone one statement, or one error, or
nothing if there is nothing on it, and all of them together give what they give alone, in their order, as a
whole source and as a section anywhere in one. -/
structure ReadLineByLine (header : List Token) (x : Ident) (span : Span) (lines : List (List Token))
    (eof : Token) : Prop where
  alone : ∀ line ∈ lines, (line.length ≤ 1 → aloneUnder header eof line = ([], [])) ∧
    (1 < line.length → (∃ s, aloneUnder header eof line = ([s], [])) ∨
      ∃ e, aloneUnder header eof line = ([], [e]))
  source : ∀ implicit, parseTokens implicit (header ++ lines.flatten ++ [eof]) =
    ([⟨x, span, lines.flatMap fun line => (aloneUnder header eof line).1⟩],
      lines.flatMap fun line => (aloneUnder header eof line).2)
  anywhere : ∀ (fuel : Nat) (c : Cursor) (rest : List Token), c.rest = header ++ lines.flatten ++ rest →
    Ended rest → (∀ t ∈ rest.head?, Parse.endsSection t = true) → c.rest.length ≤ fuel →
    ∃ last, Parse.sectionPart fuel c =
      .ok (some ⟨x, span, lines.flatMap fun line => (aloneUnder header eof line).1⟩)
        ⟨rest, last, c.errors ++ lines.flatMap fun line => (aloneUnder header eof line).2⟩

/-- Recovery stays on its line: under a header, lines that are no conditions and no choices are parsed one
by one, whatever is wrong with the others. -/
theorem parse_line_by_line {header : List Token} {x : Ident} {span : Span}
    (hheader : Parse.Header header x span)
    {lines : List (List Token)} (hlines : ∀ line ∈ lines, Parse.IsLine line) {eof : Token}
    (heof : eof.is .endOfFile = true) : ReadLineByLine header x span lines eof := by
  have hreads : ∀ line ∈ lines,
      Parse.ReadsAs line (aloneUnder header eof line).1 (aloneUnder header eof line).2 := by
    intro line hline
    obtain ⟨xs, es, hreads⟩ := Parse.exists_readsAs (hlines line hline)
    have hone : ∀ l ∈ [line], Parse.ReadsAs l xs es := fun l hl => List.mem_singleton.mp hl ▸ hreads
    have hstory := Parse.parseTokens_lines hheader hone heof none
    rw [List.flatten_singleton, List.flatMap_singleton, List.flatMap_singleton] at hstory
    have halone : aloneUnder header eof line = (xs, es) := by
      simp only [aloneUnder, hstory, List.flatMap_singleton]
    rwa [halone]
  refine ⟨fun line hline => ⟨fun hlength => ?_, fun hlength => ?_⟩,
    Parse.parseTokens_lines hheader hreads heof,
    fun fuel c rest hc hrest hhead hfuel => Parse.sectionPart_lines hheader hreads hrest hhead hc hfuel⟩
  · obtain ⟨hstatements, herrors⟩ := (hreads line hline).blank hlength
    exact Prod.ext hstatements herrors
  · rcases (hreads line hline).one hlength with ⟨⟨s, hs⟩, herrors⟩ | ⟨hstatements, e, he⟩
    · exact .inl ⟨s, Prod.ext hs herrors⟩
    · exact .inr ⟨e, Prod.ext hstatements he⟩

/-- A section header. -/
def tornHeader : List Token :=
  [⟨.mark .sectionMarker, ⟨0, 3⟩⟩, ⟨.identifier "torn", ⟨4, 4⟩⟩, ⟨.mark .newline, ⟨8, 1⟩⟩]

/-- A line with an expression that breaks off, a line with nothing on it and a line of text. -/
def tornLines : List (List Token) :=
  [[⟨.mark .tilde, ⟨9, 1⟩⟩, ⟨.mark .openParen, ⟨11, 1⟩⟩, ⟨.mark .newline, ⟨12, 1⟩⟩],
    [⟨.mark .newline, ⟨13, 1⟩⟩], [⟨.text "hi", ⟨14, 2⟩⟩, ⟨.mark .newline, ⟨16, 1⟩⟩]]

/-- Of the lines of the torn section the first is broken, the second is blank, and the third is read
all the same. -/
theorem torn_line_by_line : Parse.Header tornHeader ⟨"torn", ⟨4, 4⟩⟩ (Span.cover ⟨0, 3⟩ ⟨8, 1⟩) ∧
    (∀ line ∈ tornLines, Parse.IsLine line) ∧
    ReadLineByLine tornHeader ⟨"torn", ⟨4, 4⟩⟩ (Span.cover ⟨0, 3⟩ ⟨8, 1⟩) tornLines
      ⟨.mark .endOfFile, ⟨17, 0⟩⟩ := by
  have hheader : Parse.Header tornHeader ⟨"torn", ⟨4, 4⟩⟩ (Span.cover ⟨0, 3⟩ ⟨8, 1⟩) := .plain rfl rfl rfl
  have hlines : ∀ line ∈ tornLines, Parse.IsLine line := by
    intro line hline
    rcases List.mem_cons.mp hline with rfl | hline
    · exact ⟨[_, _], _, rfl, rfl, by unfold Parse.OnLine; decide, by decide⟩
    rcases List.mem_cons.mp hline with rfl | hline
    · exact ⟨[], _, rfl, rfl, nofun, nofun⟩
    · obtain rfl := List.mem_singleton.mp hline
      exact ⟨[_], _, rfl, rfl, by unfold Parse.OnLine; decide, by decide⟩
  exact ⟨hheader, hlines, parse_line_by_line hheader hlines rfl⟩

end Colloquy
