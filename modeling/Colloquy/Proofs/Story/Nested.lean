import Colloquy.Story.Basic

/-!
# How spans lie in one another

Spans lie in a row between two offsets if they start and stop there and each stops before the next one starts
(`Lined`).  A part of a story is nested if the spans of its parts are a row in its own span, in the order they
are written in, and if these parts are nested themselves.  Rows are put together end to end (`Lined.append`).
The span of an expression is stretched from its first part to its last one, so a row of parts makes an expression
that lies where they do (`Lined.range`).
-/

namespace Colloquy

/-! ## Rows -/

/-- Spans lie between two offsets, one behind the other. -/
structure Lined (lo hi : Nat) (spans : List Span) : Prop where
  inside : ∀ s ∈ spans, lo ≤ s.start ∧ s.stop ≤ hi
  ordered : spans.Pairwise fun s t => s.stop ≤ t.start

/-- A span contains other ones, which are in order and do not overlap. -/
abbrev Span.Row (whole : Span) (parts : List Span) : Prop := Lined whole.start whole.stop parts

theorem Span.start_le_stop (s : Span) : s.start ≤ s.stop := Nat.le_add_right _ _

namespace Lined

variable {lo hi lo' hi' k k' : Nat} {s t : Span} {ss ts : List Span}

theorem nil : Lined lo hi [] := ⟨by simp, .nil⟩

theorem single (hlo : lo ≤ s.start) (hhi : s.stop ≤ hi) : Lined lo hi [s] :=
  ⟨by simpa using ⟨hlo, hhi⟩, List.pairwise_singleton _ _⟩

theorem mono (h : Lined lo hi ss) (hlo : lo' ≤ lo) (hhi : hi ≤ hi') : Lined lo' hi' ss :=
  ⟨fun s hs => ⟨Nat.le_trans hlo (h.inside s hs).1, Nat.le_trans (h.inside s hs).2 hhi⟩, h.ordered⟩

/-- What is left of a row is a row. -/
theorem sublist (h : Lined lo hi ss) (hts : ts.Sublist ss) : Lined lo hi ts :=
  ⟨fun s hs => h.inside s (hts.subset hs), h.ordered.sublist hts⟩

/-- A row goes on behind where another one stops. -/
theorem append (h : Lined lo k ss) (h' : Lined k' hi ts) (hk : k ≤ k') (hlo : lo ≤ k') (hhi : k ≤ hi) :
    Lined lo hi (ss ++ ts) := by
  constructor
  · intro s hs
    rcases List.mem_append.mp hs with hs | hs
    · exact ⟨(h.inside s hs).1, Nat.le_trans (h.inside s hs).2 hhi⟩
    · exact ⟨Nat.le_trans hlo (h'.inside s hs).1, (h'.inside s hs).2⟩
  · refine List.pairwise_append.mpr ⟨h.ordered, h'.ordered, fun s hs t ht => ?_⟩
    have hs := (h.inside s hs).2
    have ht := (h'.inside t ht).1
    omega

/-- A row goes on where another one has to stop. -/
theorem join (h : Lined lo k ss) (h' : Lined k hi ts) (hlo : lo ≤ k) (hhi : k ≤ hi) : Lined lo hi (ss ++ ts) :=
  h.append h' (Nat.le_refl k) hlo hhi

theorem le (h : Lined lo hi ss) (hs : s ∈ ss) : lo ≤ hi :=
  Nat.le_trans (h.inside s hs).1 (Nat.le_trans s.start_le_stop (h.inside s hs).2)

/-- The first span of a row starts before all others, and the last one stops behind them. -/
theorem range (ss : List Span) (h : Lined lo hi (s :: (ss ++ [t]))) :
    (Span.range s.start t.stop).Row (s :: (ss ++ [t])) ∧ Lined lo hi [.range s.start t.stop] := by
  have hpairs := List.pairwise_cons.mp h.ordered
  have hlast := List.pairwise_append.mp hpairs.2
  have hst : s.stop ≤ t.start := hpairs.1 t (by simp)
  have hs := s.start_le_stop
  have ht := t.start_le_stop
  have hstop : (Span.range s.start t.stop).stop = t.stop := Span.stop_range (by omega)
  refine ⟨⟨fun u hu => ?_, h.ordered⟩, single (h.inside s (by simp)).1 ?_⟩
  · show s.start ≤ u.start ∧ u.stop ≤ (Span.range s.start t.stop).stop
    rw [hstop]
    rcases List.mem_cons.mp hu with rfl | hu
    · omega
    · have hle := hpairs.1 u hu
      refine ⟨by omega, ?_⟩
      rcases List.mem_append.mp hu with hu | hu
      · have hlt := hlast.2.2 u hu t (by simp)
        omega
      · exact Nat.le_of_eq (congrArg Span.stop (List.mem_singleton.mp hu))
  · rw [hstop]
    exact (h.inside t (by simp)).2

end Lined

/-- The span that covers two is stretched from one to the other if they are in order. -/
theorem Span.cover_of_le {s t : Span} (hstart : s.start ≤ t.start) (hstop : s.stop ≤ t.stop) :
    (s.cover t).start = s.start ∧ (s.cover t).stop = t.stop := by
  rw [start_cover, stop_cover, Nat.min_eq_left hstart, Nat.max_eq_right hstop]
  exact ⟨rfl, rfl⟩

/-! ## Expressions -/

/-- The span of an expression, and of all expressions in it, contains its parts in order. -/
inductive Expr.Nested : Expr → Prop where
  | literal {v : Literal} {s : Span} : Nested (.literal v s)
  | «variable» {x : Ident} : Nested (.variable x)
  | unary {op : Spanned UnaryOp} {e : Expr} :
      (Expr.unary op e).span.Row [op.span, e.span] → Nested e → Nested (.unary op e)
  | binary {op : Spanned BinaryOp} {left right : Expr} :
      (Expr.binary op left right).span.Row [left.span, op.span, right.span] → Nested left → Nested right →
      Nested (.binary op left right)
  | assign {x : Ident} {op : Spanned AssignOp} {e : Expr} :
      (Expr.assign x op e).span.Row [x.span, op.span, e.span] → Nested e → Nested (.assign x op e)
  | group {e : Expr} : Nested e → Nested (.group e)
  | call {f : Ident} {args : List Expr} {awaited : Option Span} {close : Span} :
      (Expr.call f args awaited close).span.Row
        (awaited.toList ++ f.span :: (args.map Expr.span ++ [close])) →
      (∀ e ∈ args, Nested e) → Nested (.call f args awaited close)

/-- Parts of a story that are nested themselves lie in a row between two offsets. -/
structure Fits {α : Type} (span : α → Span) (N : α → Prop) (lo hi : Nat) (xs : List α) : Prop where
  lined : Lined lo hi (xs.map span)
  nested : ∀ x ∈ xs, N x

namespace Fits

variable {α : Type} {span : α → Span} {N : α → Prop} {lo hi lo' hi' k k' : Nat} {x : α} {xs ys : List α}

theorem nil : Fits span N lo hi [] := ⟨.nil, by simp⟩

theorem single (h : Lined lo hi [span x]) (hx : N x) : Fits span N lo hi [x] := ⟨h, by simpa using hx⟩

theorem head (h : Fits span N lo hi (x :: xs)) : N x := h.nested x (List.mem_cons_self ..)

theorem mono (h : Fits span N lo hi xs) (hlo : lo' ≤ lo) (hhi : hi ≤ hi') : Fits span N lo' hi' xs :=
  ⟨h.lined.mono hlo hhi, h.nested⟩

/-- So do parts that are nested. -/
theorem append (h : Fits span N lo k xs) (h' : Fits span N k' hi ys) (hk : k ≤ k') (hlo : lo ≤ k')
    (hhi : k ≤ hi) : Fits span N lo hi (xs ++ ys) := by
  refine ⟨?_, fun x hx => ?_⟩
  · rw [List.map_append]
    exact h.lined.append h'.lined hk hlo hhi
  · exact (List.mem_append.mp hx).elim (h.nested x) (h'.nested x)

end Fits

/-- Expressions lie in a row. -/
abbrev Exprs (lo hi : Nat) (es : List Expr) : Prop := Fits Expr.span Expr.Nested lo hi es

section

variable {lo hi : Nat}

/-- An expression lies where its operator and its operand do. -/
theorem Exprs.unary {op : Spanned UnaryOp} {e : Expr} (he : e.Nested) (h : Lined lo hi [op.span, e.span]) :
    Exprs lo hi [.unary op e] := by
  have hrange := Lined.range [] h
  exact .single hrange.2 (.unary hrange.1 he)

/-- An operator stands between its operands. -/
theorem Exprs.binary {op : Spanned BinaryOp} {left right : Expr} (hleft : left.Nested) (hright : right.Nested)
    (h : Lined lo hi [left.span, op.span, right.span]) : Exprs lo hi [.binary op left right] := by
  have hrange := Lined.range [op.span] h
  exact .single hrange.2 (.binary hrange.1 hleft hright)

/-- An assignment has its variable, its operator and its value in a row. -/
theorem Exprs.assign {x : Ident} {op : Spanned AssignOp} {e : Expr} (he : e.Nested)
    (h : Lined lo hi [x.span, op.span, e.span]) : Exprs lo hi [.assign x op e] := by
  have hrange := Lined.range [op.span] h
  exact .single hrange.2 (.assign hrange.1 he)

/-- A call has its name, its arguments and its closing parenthesis in a row. -/
theorem Exprs.call {f : Ident} {args : List Expr} {awaited : Option Span} {close : Span}
    (hargs : ∀ e ∈ args, e.Nested)
    (h : Lined lo hi (awaited.toList ++ f.span :: (args.map Expr.span ++ [close]))) :
    Exprs lo hi [.call f args awaited close] := by
  cases awaited with
  | none =>
    have hrange := Lined.range (args.map Expr.span) h
    exact .single hrange.2 (.call hrange.1 hargs)
  | some word =>
    have hrange := Lined.range (f.span :: args.map Expr.span) h
    exact .single hrange.2 (.call hrange.1 hargs)

end

/-! ## Parts of lines -/

/-- The span of a stretch of text. -/
def Segment.span : Segment → Span
  | .text t => t.span
  | .placeholder e => e.span

def Segment.Nested : Segment → Prop
  | .text _ => True
  | .placeholder e => e.Nested

/-- The span of a directive contains what it asks for. -/
def Directive.Nested (whole : Span) : Directive → Prop
  | .auto => True
  | .speed e => whole.Row [e.span] ∧ e.Nested
  | .pause e => whole.Row [e.span] ∧ e.Nested
  | .goto x => whole.Row [x.span]

/-- The spans of a key and its values. -/
def HashEntry.spans (e : HashEntry) : List Span := e.key.span :: e.values.map Expr.span

/-- The span of hash data contains its keys, each with its values behind it. -/
structure HashBlock.Nested (h : HashBlock) : Prop where
  row : h.span.Row (h.entries.flatMap HashEntry.spans)
  values : ∀ e ∈ h.entries, ∀ v ∈ e.values, v.Nested

/-- The spans of the speakers of a line and of its text. -/
def Line.front (l : Line) : List Span := l.speakers.map (·.ident.span) ++ l.text.map Segment.span

/-- The span of a line contains its speakers, its text behind them, and behind this its directives and its hash
data.  These may stand in any order, and what is joined from several places covers all that is between. -/
structure Line.Nested (l : Line) : Prop where
  directives : l.span.Row (l.front ++ l.directives.map (·.span))
  hash : ∀ h, l.hash = some h → l.span.Row (l.front ++ [h.span]) ∧ h.Nested
  text : ∀ s ∈ l.text, s.Nested
  each : ∀ d ∈ l.directives, d.val.Nested d.span

/-! ## Statements -/

/-- The span of an item. -/
def ChoiceItem.span : ChoiceItem → Span
  | .option _ _ _ _ s => s
  | .filter _ _ s => s

/-- The spans of branches, each condition with its body behind it, and of the last body. -/
def branchSpans {α : Type} (span : α → Span) (branches : List (Expr × List α)) (otherwise : Option (List α)) :
    List Span :=
  branches.flatMap (fun b => b.1.span :: b.2.map span) ++ (otherwise.getD []).map span

mutual

/-- The span of a statement, and of all statements in it, contains its parts in order. -/
inductive Stmt.Nested : Stmt → Prop where
  | line {l : Line} : l.Nested → Stmt.Nested (.line l)
  | instruction {e : Expr} : e.Nested → Stmt.Nested (.instruction e)
  | goto {x : Ident} : Stmt.Nested (.goto x)
  | finish {s : Span} : Stmt.Nested (.finish s)
  | conditional {branches : List (Expr × List Stmt)} {otherwise : Option (List Stmt)} {s : Span} :
      s.Row (branchSpans Stmt.span branches otherwise) → (∀ b ∈ branches, b.1.Nested) →
      (∀ b ∈ branches, ∀ x ∈ b.2, Stmt.Nested x) → (∀ b, otherwise = some b → ∀ x ∈ b, Stmt.Nested x) →
      Stmt.Nested (.conditional branches otherwise s)
  | choice {items : List ChoiceItem} {s : Span} :
      s.Row (items.map ChoiceItem.span) → (∀ i ∈ items, ChoiceItem.Nested i) → Stmt.Nested (.choice items s)
  | hash {h : HashBlock} : h.Nested → Stmt.Nested (.hash h)
  | speaker {x : Ident} {h : HashBlock} {s : Span} :
      s.Row [x.span, h.span] → h.Nested → Stmt.Nested (.speaker x h s)

/-- The span of an item, and of all items in it, contains its parts in order. -/
inductive ChoiceItem.Nested : ChoiceItem → Prop where
  | option {guard : Option Expr} {text : List Segment} {target : Option Ident} {body : Option (List Stmt)}
      {s : Span} :
      s.Row (guard.toList.map Expr.span ++ (text.map Segment.span ++
        (target.toList.map Ident.span ++ (body.getD []).map Stmt.span))) →
      (∀ e, guard = some e → e.Nested) → (∀ x ∈ text, x.Nested) →
      (∀ b, body = some b → ∀ x ∈ b, Stmt.Nested x) → ChoiceItem.Nested (.option guard text target body s)
  | filter {branches : List (Expr × List ChoiceItem)} {otherwise : Option (List ChoiceItem)} {s : Span} :
      s.Row (branchSpans ChoiceItem.span branches otherwise) → (∀ b ∈ branches, b.1.Nested) →
      (∀ b ∈ branches, ∀ i ∈ b.2, ChoiceItem.Nested i) →
      (∀ is, otherwise = some is → ∀ i ∈ is, ChoiceItem.Nested i) →
      ChoiceItem.Nested (.filter branches otherwise s)

end

/-- The statements of a story, in all of its sections, lie in a source one behind the other and are nested. -/
def Story.Nested (size : Nat) (s : Story) : Prop := Fits Stmt.span Stmt.Nested 0 size (s.flatMap Section.body)

end Colloquy
