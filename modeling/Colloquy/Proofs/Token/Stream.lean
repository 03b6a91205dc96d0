import Colloquy.Proofs.Token.Ended

/-!
# Tokens one at a time

A parser asks for tokens one at a time.  A `ScanStream` answers it: what the last step of the scan found is
handed out first, and when nothing of it is left the scan goes on, step after step, until one finds
something or the source is at its end.

The answers are the items of the scan in order, and nothing after them (`ScanStream.answer_eq`).  Of the
items only the last one is the token that ends the source, and if there is a token before it, that is a
line break (`scan_ends_once`).
-/

namespace Colloquy

/-- A scan that is read item by item: what was found and not handed out yet, and where the scan goes on,
if it does. -/
structure ScanStream where
  found : List ScanItem
  rest : Option Scan

namespace Scan

/-! ## Line breaks

A scan comes to the start of a line only behind a line break, or where it was at one before and found
nothing. -/

/-- What a scan found from a mode on ends with a line break; it may have found nothing at the start of a
line. -/
def Broken (mode : Mode) (items : List ScanItem) : Prop :=
  (tokensOf items).getLast?.elim (mode = .lineStart) fun t => t.is .newline = true

/-- A step from a mode comes to the start of a line, or to the end of the source, behind a line break. -/
def Breaks (mode : Mode) (x : Step) : Prop :=
  match x with
  | (items, some next) => next.mode = .lineStart → Broken mode items
  | (items, none) => ∃ before t, items = before ++ [.ok t] ∧ Broken mode before

theorem broken_nil : Broken .lineStart [] := rfl

/-- A line break may end the items of any mode. -/
theorem broken_newline (mode : Mode) (items : List ScanItem) (start stop : Nat) :
    Broken mode (items ++ [markItem .newline start stop]) := by
  have htokens : tokensOf (items ++ [markItem .newline start stop]) =
      tokensOf items ++ [⟨.mark .newline, .range start stop⟩] := tokensOf_append _ _
  rw [Broken, htokens, List.getLast?_concat]
  exact decide_eq_true rfl

/-- If the second part holds no token, the first one has to end with a line break. -/
theorem Broken.append {mode mid : Mode} {xs ys : List ScanItem} (hy : Broken mid ys)
    (hx : mid = .lineStart → Broken mode xs) : Broken mode (xs ++ ys) := by
  rw [Broken] at hy ⊢
  rw [tokensOf_append, List.getLast?_append]
  cases hlast : (tokensOf ys).getLast? with
  | none =>
    rw [hlast] at hy
    exact hx hy
  | some t =>
    rw [hlast] at hy
    exact hy

/-- A step that comes to no start of a line breaks none. -/
theorem breaks_on {mode : Mode} {items : List ScanItem} {next : Scan} (h : next.mode ≠ .lineStart) :
    Breaks mode (items, some next) := fun hnext => absurd hnext h

/-- The end of a line is reached over a line break, or at the end of the source. -/
theorem endLine_breaks (mode : Mode) (items : List ScanItem) (offset : Nat) (cs : List Char) :
    Breaks mode (items ++ (endLine offset cs).1, (endLine offset cs).2) := by
  cases cs with
  | nil =>
    refine ⟨items ++ [markItem .newline offset offset], ⟨.mark .endOfFile, .range offset offset⟩, ?_,
      broken_newline mode items _ _⟩
    rw [List.append_assoc]
    rfl
  | cons c cs => exact fun _ => broken_newline mode items _ _

/-- Opening a line does not come to the start of the next one. -/
theorem openLine_breaks (offset : Nat) (cs : List Char) : Breaks .lineStart (openLine offset cs) := by
  unfold openLine
  simp only
  split
  · exact breaks_on (by simp)
  · split
    · split
      · exact breaks_on (by simp)
      · exact breaks_on (by simp)
    · exact breaks_on (by simp)
    · split
      · exact breaks_on (by simp)
      · exact breaks_on (by simp)

/-- From the start of a line, the next start is reached without a token. -/
theorem stepLineStart_breaks (offset : Nat) (rest : List Char) :
    Breaks .lineStart (stepLineStart offset rest) := by
  unfold stepLineStart
  simp only
  split
  · exact ⟨[], _, rfl, broken_nil⟩
  · split
    · split
      · exact fun _ => broken_nil
      · exact fun _ => broken_nil
    · exact openLine_breaks _ _

/-- Text comes to the start of a line over a line break only. -/
theorem stepText_breaks (start : Nat) (rest : List Char) : Breaks .text (stepText start rest) := by
  unfold stepText
  simp only
  split
  · refine breaks_on ?_
    -- an opening brace is followed by a block or by an expression
    dsimp only
    split <;> simp
  · exact breaks_on (by simp)
  · exact breaks_on (by simp)
  · exact breaks_on (by simp)
  · exact endLine_breaks .text _ _ _

/-- A mark of code does not lead to the start of a line. -/
theorem modeAfter_ne_lineStart (m : Mark) {mode : Mode} (h : mode ≠ .lineStart) :
    modeAfter m mode ≠ .lineStart := by
  unfold modeAfter
  repeat' split
  all_goals first | exact h | simp

/-- So does code. -/
theorem stepCode_breaks {mode : Mode} (h : mode ≠ .lineStart) (offset : Nat) (rest : List Char) :
    Breaks mode (stepCode mode offset rest) := by
  have hend : ∀ offset cs, Breaks mode (endLine offset cs) := endLine_breaks mode []
  unfold stepCode
  simp only
  split
  · exact hend _ _
  · split
    · exact hend _ _
    · split
      · exact hend _ _
      · unfold stepLexeme
        simp only
        split
        · exact breaks_on (modeAfter_ne_lineStart _ h)
        · repeat' split
          all_goals exact breaks_on h

/-- Every step comes to the start of a line over a line break only. -/
theorem step_breaks (s : Scan) : Breaks s.mode s.step := by
  unfold step
  split
  · next hs =>
    rw [hs]
    exact stepLineStart_breaks _ _
  · next hs =>
    rw [hs]
    exact stepText_breaks _ _
  · next hs _ => exact stepCode_breaks hs _ _

/-! ## Runs -/

variable {s : Scan}

/-- A scan that is given enough steps finds one end of the source and finds it last, behind a line
break. -/
theorem run_ends {fuel : Nat} (hfuel : s.size < fuel) : ∃ items last,
    run fuel s = items ++ [.ok last] ∧ last.is .endOfFile = true ∧ Quiet items ∧
      Broken s.mode items := by
  induction fuel generalizing s with
  | zero => omega
  | succ fuel ih =>
    have hstep := step_steps s
    have hbreaks := step_breaks s
    rw [run]
    generalize s.step = x at hstep hbreaks ⊢
    cases hstep with
    | @on found next hquiet hsize =>
      obtain ⟨items, last, hrun, hlast, hitems, hbroken⟩ := ih (s := next) (by omega)
      refine ⟨found ++ items, last, ?_, hlast, hquiet.append hitems, hbroken.append hbreaks⟩
      rw [List.append_assoc, ← hrun]
    | @last found t hquiet ht =>
      obtain ⟨before, u, heq, hbroken⟩ := hbreaks
      obtain ⟨rfl, -⟩ := List.append_inj' heq rfl
      exact ⟨found, t, rfl, ht, hquiet, hbroken⟩

/-- Steps beyond those that a scan needs find nothing more. -/
theorem run_congr {fuel fuel' : Nat} (hfuel : s.size < fuel) (hfuel' : s.size < fuel') :
    run fuel s = run fuel' s := by
  induction fuel generalizing s fuel' with
  | zero => omega
  | succ fuel ih =>
    obtain ⟨fuel', rfl⟩ : ∃ k, fuel' = k + 1 := ⟨fuel' - 1, by omega⟩
    have hstep := step_steps s
    rw [run, run]
    generalize s.step = x at hstep ⊢
    cases hstep with
    | @on items next _ hsize =>
      have hnext : run fuel next = run fuel' next := ih (by omega) (by omega)
      show items ++ run fuel next = items ++ run fuel' next
      rw [hnext]
    | last _ _ => rfl

end Scan

/-! ## Streams -/

namespace ScanStream

/-- The stream of a source. -/
def ofSource (source : String) : ScanStream := ⟨[], some ⟨.lineStart, 0, source.toList⟩⟩

/-- How much the scan behind a stream has before it; nothing once it has come to its end. -/
def size (s : ScanStream) : Nat := s.rest.elim 0 fun scan => scan.size + 1

/-- What is left to do gets less with each step of the scan. -/
theorem size_step_lt (scan : Scan) :
    size ⟨scan.step.1, scan.step.2⟩ < size ⟨[], some scan⟩ := by
  have hstep := Scan.step_steps scan
  generalize scan.step = x at hstep ⊢
  cases hstep with
  | on _ hsize => exact Nat.succ_lt_succ hsize
  | last _ _ => exact Nat.succ_pos _

/-- Ask for the next item.  Steps that find nothing are passed over; a scan at its end has no more
items. -/
def next : ScanStream → Option ScanItem × ScanStream
  | ⟨item :: found, rest⟩ => (some item, ⟨found, rest⟩)
  | ⟨[], some scan⟩ => next ⟨scan.step.1, scan.step.2⟩
  | ⟨[], none⟩ => (none, ⟨[], none⟩)
termination_by s => s.size
decreasing_by exact size_step_lt scan

/-- The answer of a stream after `k` others. -/
def answer : Nat → ScanStream → Option ScanItem
  | 0, s => s.next.1
  | k + 1, s => answer k s.next.2

/-- All items that a stream has before it. -/
def items (s : ScanStream) : List ScanItem :=
  s.found ++ s.rest.elim [] fun scan => scan.run (scan.size + 1)

/-- A step of the scan keeps the items of a stream. -/
theorem items_step (scan : Scan) :
    items ⟨scan.step.1, scan.step.2⟩ = items ⟨[], some scan⟩ := by
  have hstep := Scan.step_steps scan
  show _ = Scan.run (scan.size + 1) scan
  rw [Scan.run]
  generalize scan.step = x at hstep ⊢
  cases hstep with
  | @on items next _ hsize =>
    show items ++ next.run (next.size + 1) = items ++ next.run scan.size
    rw [Scan.run_congr (Nat.lt_succ_self _) hsize]
  | last _ _ => exact List.append_nil _

/-- A stream hands out the first of its items and keeps the others. -/
theorem next_items (s : ScanStream) : s.next.1 = s.items.head? ∧ s.next.2.items = s.items.tail := by
  fun_induction next s with
  | case1 item found rest => exact ⟨rfl, rfl⟩
  | case2 scan ih =>
    rw [items_step] at ih
    exact ih
  | case3 => exact ⟨rfl, rfl⟩

/-- The answers of a stream are its items in order, by induction on what is left to do. -/
theorem answer_items (k : Nat) (s : ScanStream) : s.answer k = s.items[k]? := by
  induction k generalizing s with
  | zero =>
    rw [answer, (next_items s).1, List.head?_eq_getElem?]
  | succ k ih =>
    rw [answer, ih, (next_items s).2, List.getElem?_tail]

/-- The answers of the stream of a source are what the scan of the source yields. -/
theorem answer_ofSource (source : String) (k : Nat) :
    (ofSource source).answer k = (scan source)[k]? := answer_items k (ofSource source)

end ScanStream

/-- Asked for one item after another, every source yields finitely many and then none, however often one
asks again.  The token that ends the source is the last item and no other, and if there are tokens before
it, the one right before it is a line break. -/
theorem scan_ends_once (source : String) : ∃ items last,
    (∀ k, (ScanStream.ofSource source).answer k = (items ++ [.ok last])[k]?) ∧
    scan source = items ++ [.ok last] ∧ last.is .endOfFile = true ∧
    (∀ t, .ok t ∈ items → t.is .endOfFile = false) ∧
    ∀ t, (tokensOf items).getLast? = some t → t.is .newline = true := by
  have hsize : (⟨.lineStart, 0, source.toList⟩ : Scan).size < 2 * source.toList.length + 2 := by
    simp [Scan.size]
  obtain ⟨items, last, hrun, hlast, hquiet, hbroken⟩ := Scan.run_ends hsize
  refine ⟨items, last, ?_, hrun, hlast, hquiet, ?_⟩
  · intro k
    rw [ScanStream.answer_ofSource, scan, hrun]
  · intro t ht
    rw [Scan.Broken, ht] at hbroken
    exact hbroken

end Colloquy
