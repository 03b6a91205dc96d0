import Colloquy.Proofs.Code.Depth

/-!
# Words and operands tile what is decoded

Whatever words a script holds, a node or a statement that is decoded fills the words from its offset to
its end: single words and operands, one after another, in the order that its kind prescribes
(`Node.tiles`, `Statement.tiles`).  An operand is a whole expression that can itself be decoded, and
the next tile begins where it ends.  So operands lie inside what they belong to and never overlap
(`Script.decodeExpr_occupies`, `Script.decodeStatement_occupies`).
-/

namespace Colloquy

namespace Code

/-! ## Tiles -/

/-- A tile of a node or a statement: a word, or the expression at an offset. -/
inductive Tile where
  | word
  | operand (offset : Nat)

/-- The expression in a tile. -/
def Tile.exprs : Tile → List Nat
  | .word => []
  | .operand offset => [offset]

/-- The tiles of a node.  A call has its number of arguments in front of them. -/
def Node.tiles : Node → List Tile
  | .float _ | .string _ | .bool _ | .variable _ | .goto _ => [.word, .word]
  | .auto => [.word]
  | .call _ _ args => .word :: .word :: .word :: .word :: args.map .operand
  | .unary _ e | .speed e | .pause e => [.word, .operand e]
  | .binary _ left right => [.word, .operand left, .operand right]
  | .assign _ _ e => [.word, .word, .operand e]

/-- The tiles of a stretch of text. -/
def TextNode.tiles : TextNode → List Tile
  | .text _ => [.word, .word]
  | .expr e => [.word, .operand e]

/-- The tiles of a speaker. -/
def SpeakerNode.tiles (_ : SpeakerNode) : List Tile := [.word, .word]

/-- The tiles of a key and its values. -/
def PairNode.tiles (p : PairNode) : List Tile := .word :: .word :: p.values.map .operand

/-- The tiles of a guard. -/
def guardTiles : Option Nat → List Tile
  | none => [.word]
  | some e => [.word, .operand e]

/-- The tiles of an entry of a choice. -/
def ItemNode.tiles : ItemNode → List Tile
  | .option _ guard segments =>
    .word :: .word :: (guardTiles guard ++ .word :: segments.flatMap TextNode.tiles)
  | .ifMarker e | .elseIf e => [.word, .operand e]
  | .elseMarker | .endIf => [.word]

/-- The tiles of a statement.  Every list in it has its length in front. -/
def Statement.tiles : Statement → List Tile
  | .entry _ _ => [.word, .word, .word]
  | .finish => [.word]
  | .line l => .word :: .word :: .word :: (l.speakers.flatMap SpeakerNode.tiles ++
      .word :: (l.segments.flatMap TextNode.tiles ++ .word :: l.directives.map .operand))
  | .instruction _ e => [.word, .word, .operand e]
  | .conditional _ branches =>
    .word :: .word :: .word :: branches.flatMap fun b => [.operand b.1, .word]
  | .choice _ items => .word :: .word :: .word :: items.flatMap ItemNode.tiles
  | .hash _ pairs => .word :: .word :: .word :: pairs.flatMap PairNode.tiles
  | .speaker _ _ pairs => .word :: .word :: .word :: .word :: pairs.flatMap PairNode.tiles

/-! ## Expressions among tiles -/

@[simp] theorem Tile.exprs_word : Tile.word.exprs = [] := rfl

@[simp] theorem Tile.exprs_operand (e : Nat) : (Tile.operand e).exprs = [e] := rfl

theorem exprs_cons_operand (e : Nat) (xs : List Tile) :
    (Tile.operand e :: xs).flatMap Tile.exprs = e :: xs.flatMap Tile.exprs := rfl

/-- The expressions among operands are the operands. -/
@[simp] theorem exprs_map_operand (es : List Nat) :
    (es.map Tile.operand).flatMap Tile.exprs = es := by
  induction es with
  | nil => rfl
  | cons e es ih => rw [List.map_cons, exprs_cons_operand, ih]

@[simp] theorem Node.exprs_tiles (x : Node) : x.tiles.flatMap Tile.exprs = x.operands := by
  cases x with
  | call name awaited args => exact exprs_map_operand args
  | _ => rfl

@[simp] theorem TextNode.exprs_tiles (x : TextNode) : x.tiles.flatMap Tile.exprs = x.exprs := by
  cases x <;> rfl

@[simp] theorem SpeakerNode.exprs_tiles (x : SpeakerNode) : x.tiles.flatMap Tile.exprs = [] := rfl

@[simp] theorem PairNode.exprs_tiles (p : PairNode) : p.tiles.flatMap Tile.exprs = p.values :=
  exprs_map_operand p.values

/-- The expressions among the tiles of an entry are those of the entry. -/
@[simp] theorem ItemNode.exprs_tiles (x : ItemNode) : x.tiles.flatMap Tile.exprs = x.exprs := by
  cases x with
  | option next guard segments =>
    cases guard <;> simp [ItemNode.tiles, ItemNode.exprs, guardTiles, List.flatMap_assoc]
  | _ => rfl

/-- The expressions among the tiles of a statement are those of the statement. -/
@[simp] theorem Statement.exprs_tiles (x : Statement) :
    x.tiles.flatMap Tile.exprs = x.exprs := by
  cases x with
  | line l | choice next items | hash next pairs | speaker next speaker pairs =>
    simp [Statement.tiles, Statement.exprs, List.flatMap_assoc]
  | conditional otherwise branches =>
    simp [Statement.tiles, Statement.exprs, List.flatMap_assoc, List.map_eq_flatMap]
  | _ => rfl

end Code

open Code

/-! ## Tiles -/

/-- Tiles stand one after another between two offsets of a script.  An operand is an expression that can
be decoded, up to its end. -/
inductive Script.Tiled (S : Script) : Nat → List Tile → Nat → Prop where
  | nil (s : Nat) : S.Tiled s [] s
  | word {s t : Nat} {xs : List Tile} :
      s < S.words.size → S.Tiled (s + 1) xs t → S.Tiled s (.word :: xs) t
  | operand {s m t : Nat} {node : Node} {xs : List Tile} :
      S.decodeExpr s = .ok (node, m) → S.Tiled m xs t → S.Tiled s (.operand s :: xs) t

namespace Script.Tiled

variable {S : Script} {s m t : Nat} {xs ys : List Tile}

/-- Tiles one behind the other are tiles. -/
theorem append (h : S.Tiled s xs m) (h' : S.Tiled m ys t) : S.Tiled s (xs ++ ys) t := by
  induction h with
  | nil s => exact h'
  | word hs _ ih => exact .word hs (ih h')
  | operand hdecode _ ih => exact .operand hdecode (ih h')

theorem single_word (hs : s < S.words.size) : S.Tiled s [.word] (s + 1) := .word hs (.nil _)

/-- An expression that ends is an operand. -/
theorem single_operand (h : S.exprEnd s = .ok t) : S.Tiled s [.operand s] t := by
  rw [exprEnd_eq] at h
  cases hdecode : S.decodeExpr s with
  | error e =>
    rw [hdecode] at h
    cases h
  | ok p =>
    rw [hdecode] at h
    cases h
    exact .operand hdecode (.nil _)

/-- Tiles do not end before they start. -/
theorem le (h : S.Tiled s xs t) : s ≤ t := by
  induction h with
  | nil s => exact Nat.le_refl s
  | word _ _ ih => omega
  | operand hdecode _ ih =>
    have := (lt_of_nodeAt (fun _ _ => lt_of_endWithin) hdecode).2
    omega

/-- Every tile takes up a word. -/
theorem length_le (h : S.Tiled s xs t) : xs.length ≤ t - s := by
  induction h with
  | nil s => simp
  | word _ hrest ih =>
    have := hrest.le
    rw [List.length_cons]
    omega
  | operand hdecode hrest ih =>
    have := (lt_of_nodeAt (fun _ _ => lt_of_endWithin) hdecode).2
    have := hrest.le
    rw [List.length_cons]
    omega

/-- The expressions among the tiles can be decoded, and they lie between the two offsets. -/
theorem decodes (h : S.Tiled s xs t) : ∀ e ∈ xs.flatMap Tile.exprs,
    s ≤ e ∧ ∃ node stop, S.decodeExpr e = .ok (node, stop) ∧ e < stop ∧ stop ≤ t := by
  induction h with
  | nil s => simp
  | word _ _ ih =>
    intro e he
    obtain ⟨hle, hdecode⟩ := ih e he
    exact ⟨by omega, hdecode⟩
  | @operand s m t node xs hdecode hrest ih =>
    have hlt := (lt_of_nodeAt (fun _ _ => lt_of_endWithin) hdecode).2
    rw [exprs_cons_operand, List.forall_mem_cons]
    refine ⟨⟨Nat.le_refl s, node, m, hdecode, hlt, hrest.le⟩, fun e he => ?_⟩
    obtain ⟨hle, hdecode⟩ := ih e he
    exact ⟨by omega, hdecode⟩

/-- An expression among the tiles ends before the next one begins. -/
theorem apart (h : S.Tiled s xs t) : (xs.flatMap Tile.exprs).Pairwise fun e e' =>
    ∃ node stop, S.decodeExpr e = .ok (node, stop) ∧ stop ≤ e' := by
  induction h with
  | nil s => exact .nil
  | word _ _ ih => exact ih
  | @operand s m t node xs hdecode hrest ih =>
    rw [exprs_cons_operand, List.pairwise_cons]
    exact ⟨fun e he => ⟨node, m, hdecode, (hrest.decodes e he).1⟩, ih⟩

/-- Tiles stay inside the script if expressions from their offset on do. -/
theorem le_size (h : S.Tiled s xs t) (hs : s ≤ S.words.size)
    (hexprs : ∀ e node stop, s ≤ e → S.decodeExpr e = .ok (node, stop) → stop ≤ S.words.size) :
    t ≤ S.words.size := by
  induction h with
  | nil s => exact hs
  | word hlt _ ih => exact ih hlt fun e node stop he => hexprs e node stop (by omega)
  | @operand s m t node xs hdecode _ ih =>
    have hlt := (lt_of_nodeAt (fun _ _ => lt_of_endWithin) hdecode).2
    exact ih (hexprs s node m (Nat.le_refl s) hdecode) fun e node stop he =>
      hexprs e node stop (by omega)

end Script.Tiled

/-! ## Nodes -/

section

variable {S : Script} {s t : Nat}

/-- A word that is read is in the script. -/
theorem Code.lt_of_word {w : UInt32} (h : S.word s = .ok w) : s < S.words.size := by
  rw [Script.word] at h
  split at h
  · next hget => exact (Array.getElem?_eq_some_iff.mp hget).1
  · cases h

theorem Code.lt_of_exprCode {c : ExprCode} (h : exprCode S s = .ok c) : s < S.words.size := by
  rw [exprCode] at h
  obtain ⟨w, hword, -⟩ := bind_eq_ok.mp h
  exact lt_of_word hword

/-- Expressions in a row are tiles. -/
theorem Script.tiled_of_operands {count : Nat} {os : List Nat}
    (h : operands S.exprEnd count s = .ok (os, t)) : S.Tiled s (os.map .operand) t := by
  induction count generalizing s os with
  | zero =>
    cases h
    exact .nil _
  | succ count ih =>
    rw [operands] at h
    obtain ⟨m, hend, h⟩ := bind_eq_ok.mp h
    obtain ⟨⟨rest, last⟩, hrest, h⟩ := bind_eq_ok.mp h
    cases h
    exact (Tiled.single_operand hend).append (ih hrest)

/-- A node is tiled by its words and operands. -/
theorem Script.decodeExpr_tiled {node : Node} (h : S.decodeExpr s = .ok (node, t)) :
    S.Tiled s node.tiles t := by
  rw [Script.decodeExpr_eq, nodeAt] at h
  obtain ⟨code, hcode, h⟩ := bind_eq_ok.mp h
  have hfirst : S.Tiled s [.word] (s + 1) := .single_word (lt_of_exprCode hcode)
  cases code with
  | float | string | bool | «variable» | goto =>
    obtain ⟨w, hword, h⟩ := bind_eq_ok.mp h
    cases h
    exact hfirst.append (.single_word (lt_of_word hword))
  | auto =>
    cases h
    exact hfirst
  | call =>
    obtain ⟨name, hname, h⟩ := bind_eq_ok.mp h
    obtain ⟨awaited, hawaited, h⟩ := bind_eq_ok.mp h
    obtain ⟨count, hcount, h⟩ := bind_eq_ok.mp h
    obtain ⟨⟨args, stop⟩, hargs, h⟩ := bind_eq_ok.mp h
    cases h
    have hargs := Script.tiled_of_operands hargs
    exact hfirst.append (.word (lt_of_word hname) (.word (lt_of_word hawaited)
      (.word (lt_of_word hcount) hargs)))
  | unary op | speed | pause =>
    obtain ⟨stop, hend, h⟩ := bind_eq_ok.mp h
    cases h
    exact hfirst.append (.single_operand hend)
  | binary op =>
    obtain ⟨right, hleft, h⟩ := bind_eq_ok.mp h
    obtain ⟨stop, hright, h⟩ := bind_eq_ok.mp h
    cases h
    exact hfirst.append ((Tiled.single_operand hleft).append (.single_operand hright))
  | assign op =>
    obtain ⟨name, hname, h⟩ := bind_eq_ok.mp h
    obtain ⟨stop, hend, h⟩ := bind_eq_ok.mp h
    cases h
    exact hfirst.append (.word (lt_of_word hname) (.single_operand hend))

end

/-! ## Statements -/

namespace Code.Decoder

variable {S : Script} {α β : Type} {s t : Nat}

/-- Decoders one after the other succeed where both do, the second one where the first one stopped. -/
theorem bind_eq_ok {d : Decoder α} {f : α → Decoder β} {b : β} :
    (d >>= f) s = .ok (b, t) ↔ ∃ a m, d s = .ok (a, m) ∧ f a m = .ok (b, t) := by
  show (d s >>= fun p => f p.1 p.2) = .ok (b, t) ↔ _
  rw [Code.bind_eq_ok]
  exact Prod.exists

theorem pure_eq_ok {a b : α} : (pure a : Decoder α) s = .ok (b, t) ↔ a = b ∧ s = t := by
  show Except.ok (a, s) = .ok (b, t) ↔ _
  simp

/-- What a decoder reads is tiled. -/
def Reads (S : Script) (d : Decoder α) (tiles : α → List Tile) : Prop :=
  ∀ s a t, d s = .ok (a, t) → S.Tiled s (tiles a) t

/-- A word is a tile. -/
theorem word_reads : Reads S (word S) fun _ => [.word] := by
  intro s w t h
  rw [word] at h
  obtain ⟨w', hword, h⟩ := Code.bind_eq_ok.mp h
  cases h
  exact .single_word (lt_of_word hword)

/-- An index is a word. -/
theorem index_reads : Reads S (index S) fun _ => [.word] := by
  intro s i t h
  obtain ⟨w, m, hword, h⟩ := bind_eq_ok.mp h
  obtain ⟨-, rfl⟩ := pure_eq_ok.mp h
  exact word_reads s w m hword

/-- A word that has to be a code is a word. -/
theorem coded_reads {ofWord? : UInt32 → Option α} {error : Nat → UInt32 → CodeError} :
    Reads S (coded S ofWord? error) fun _ => [.word] := by
  intro s a t h
  obtain ⟨offset, m, hget, h⟩ := bind_eq_ok.mp h
  cases hget
  obtain ⟨w, m, hword, h⟩ := bind_eq_ok.mp h
  cases hcode : ofWord? w with
  | none =>
    rw [hcode] at h
    cases h
  | some b =>
    rw [hcode] at h
    obtain ⟨-, rfl⟩ := pure_eq_ok.mp h
    exact word_reads _ w m hword

/-- An expression is an operand. -/
theorem expr_reads : Reads S (expr S) fun e => [.operand e] := by
  intro s e t h
  obtain ⟨stop, hend, h⟩ := Code.bind_eq_ok.mp h
  cases h
  exact .single_operand hend

/-- What is read a number of times is tiled by the tiles of each time. -/
theorem many_reads {d : Decoder α} {tiles : α → List Tile} (hd : Reads S d tiles) (count : Nat) :
    Reads S (many d count) fun as => as.flatMap tiles := by
  induction count with
  | zero =>
    intro s as t h
    obtain ⟨rfl, rfl⟩ := pure_eq_ok.mp h
    exact .nil _
  | succ count ih =>
    intro s as t h
    obtain ⟨a, m, hfirst, h⟩ := bind_eq_ok.mp h
    obtain ⟨rest, n, hrest, h⟩ := bind_eq_ok.mp h
    obtain ⟨rfl, rfl⟩ := pure_eq_ok.mp h
    show S.Tiled s (tiles a ++ rest.flatMap tiles) n
    exact (hd s a m hfirst).append (ih m rest n hrest)

/-- A list is tiled by its length and the tiles of its members. -/
theorem counted_reads {d : Decoder α} {tiles : α → List Tile} (hd : Reads S d tiles) :
    Reads S (counted S d) fun as => .word :: as.flatMap tiles := by
  intro s as t h
  obtain ⟨count, m, hcount, h⟩ := bind_eq_ok.mp h
  exact (index_reads s count m hcount).append (many_reads hd count m as t h)

/-- Expressions that are read a number of times are operands. -/
theorem many_expr_reads (count : Nat) :
    Reads S (many (expr S) count) fun es => es.map .operand := by
  intro s es t h
  have hmany : S.Tiled s (es.flatMap fun e => [.operand e]) t :=
    many_reads expr_reads count s es t h
  rwa [← List.map_eq_flatMap] at hmany

/-- A segment is tiled by its code with an index or with an expression. -/
theorem segment_reads : Reads S (segment S) TextNode.tiles := by
  intro s x t h
  obtain ⟨kind, m, hkind, h⟩ := bind_eq_ok.mp h
  have hfirst := coded_reads s kind m hkind
  cases kind with
  | text =>
    obtain ⟨i, n, hindex, h⟩ := bind_eq_ok.mp h
    obtain ⟨rfl, rfl⟩ := pure_eq_ok.mp h
    exact hfirst.append (index_reads m i n hindex)
  | expr =>
    obtain ⟨e, n, hexpr, h⟩ := bind_eq_ok.mp h
    obtain ⟨rfl, rfl⟩ := pure_eq_ok.mp h
    exact hfirst.append (expr_reads m e n hexpr)

/-- A speaker is tiled by its code and an index. -/
theorem speaker_reads : Reads S (speaker S) SpeakerNode.tiles := by
  intro s x t h
  obtain ⟨kind, m, hkind, h⟩ := bind_eq_ok.mp h
  have hfirst := coded_reads s kind m hkind
  cases kind with
  | id | «variable» =>
    obtain ⟨i, n, hindex, h⟩ := bind_eq_ok.mp h
    obtain ⟨rfl, rfl⟩ := pure_eq_ok.mp h
    exact hfirst.append (index_reads m i n hindex)

/-- A key is tiled by the number of its values, its own word and the values. -/
theorem pair_reads : Reads S (pair S) PairNode.tiles := by
  intro s p t h
  obtain ⟨count, m, hcount, h⟩ := bind_eq_ok.mp h
  obtain ⟨key, n, hkey, h⟩ := bind_eq_ok.mp h
  obtain ⟨values, k, hvalues, h⟩ := bind_eq_ok.mp h
  obtain ⟨rfl, rfl⟩ := pure_eq_ok.mp h
  have hrest := many_expr_reads count n values k hvalues
  exact (index_reads s count m hcount).append ((index_reads m key n hkey).append hrest)

/-- A branch is tiled by its condition and its target. -/
theorem branch_reads : Reads S (branch S) fun b => [.operand b.1, .word] := by
  intro s b t h
  obtain ⟨e, m, hexpr, h⟩ := bind_eq_ok.mp h
  obtain ⟨i, n, hindex, h⟩ := bind_eq_ok.mp h
  obtain ⟨rfl, rfl⟩ := pure_eq_ok.mp h
  exact (expr_reads s e m hexpr).append (index_reads m i n hindex)

/-- A guard is tiled by one word, with its condition behind it if there is one. -/
theorem guard_reads : Reads S (guard S) guardTiles := by
  intro s g t h
  obtain ⟨w, m, hword, h⟩ := bind_eq_ok.mp h
  have hfirst := word_reads s w m hword
  split at h
  · obtain ⟨rfl, rfl⟩ := pure_eq_ok.mp h
    exact hfirst
  · obtain ⟨e, n, hexpr, h⟩ := bind_eq_ok.mp h
    obtain ⟨rfl, rfl⟩ := pure_eq_ok.mp h
    exact hfirst.append (expr_reads m e n hexpr)

/-- An entry of a choice is tiled by its code and what its kind prescribes. -/
theorem item_reads : Reads S (item S) ItemNode.tiles := by
  intro s x t h
  obtain ⟨marker, m, hmarker, h⟩ := bind_eq_ok.mp h
  have hfirst := coded_reads s marker m hmarker
  cases marker with
  | option =>
    obtain ⟨next, n, hnext, h⟩ := bind_eq_ok.mp h
    obtain ⟨g, k, hguard, h⟩ := bind_eq_ok.mp h
    obtain ⟨segments, u, hsegments, h⟩ := bind_eq_ok.mp h
    obtain ⟨rfl, rfl⟩ := pure_eq_ok.mp h
    have hrest := (guard_reads n g k hguard).append (counted_reads segment_reads k segments u hsegments)
    exact hfirst.append ((index_reads m next n hnext).append hrest)
  | ifMarker | elseIf =>
    obtain ⟨e, n, hexpr, h⟩ := bind_eq_ok.mp h
    obtain ⟨rfl, rfl⟩ := pure_eq_ok.mp h
    exact hfirst.append (expr_reads m e n hexpr)
  | elseMarker | endIf =>
    obtain ⟨rfl, rfl⟩ := pure_eq_ok.mp h
    exact hfirst

/-- A statement is tiled by its words and operands. -/
theorem statement_reads : Reads S (statement S) Statement.tiles := by
  intro s x t h
  obtain ⟨code, m, hcode, h⟩ := bind_eq_ok.mp h
  have hfirst := coded_reads s code m hcode
  cases code with
  | entry =>
    obtain ⟨next, n, hnext, h⟩ := bind_eq_ok.mp h
    obtain ⟨name, k, hname, h⟩ := bind_eq_ok.mp h
    obtain ⟨rfl, rfl⟩ := pure_eq_ok.mp h
    exact hfirst.append ((index_reads m next n hnext).append (index_reads n name k hname))
  | finish =>
    obtain ⟨rfl, rfl⟩ := pure_eq_ok.mp h
    exact hfirst
  | line =>
    obtain ⟨next, n, hnext, h⟩ := bind_eq_ok.mp h
    obtain ⟨speakers, k, hspeakers, h⟩ := bind_eq_ok.mp h
    obtain ⟨segments, u, hsegments, h⟩ := bind_eq_ok.mp h
    obtain ⟨directives, v, hdirectives, h⟩ := bind_eq_ok.mp h
    obtain ⟨rfl, rfl⟩ := pure_eq_ok.mp h
    obtain ⟨count, w, hcount, hdirectives⟩ := bind_eq_ok.mp hdirectives
    have hlast := (index_reads u count w hcount).append
      (many_expr_reads count w directives v hdirectives)
    have htext := (counted_reads segment_reads k segments u hsegments).append hlast
    have hwho := (counted_reads speaker_reads n speakers k hspeakers).append htext
    exact hfirst.append ((index_reads m next n hnext).append hwho)
  | instruction =>
    obtain ⟨next, n, hnext, h⟩ := bind_eq_ok.mp h
    obtain ⟨e, k, hexpr, h⟩ := bind_eq_ok.mp h
    obtain ⟨rfl, rfl⟩ := pure_eq_ok.mp h
    exact hfirst.append ((index_reads m next n hnext).append (expr_reads n e k hexpr))
  | conditional =>
    obtain ⟨next, n, hnext, h⟩ := bind_eq_ok.mp h
    obtain ⟨branches, k, hbranches, h⟩ := bind_eq_ok.mp h
    obtain ⟨rfl, rfl⟩ := pure_eq_ok.mp h
    have hrest := counted_reads branch_reads n branches k hbranches
    exact hfirst.append ((index_reads m next n hnext).append hrest)
  | choice =>
    obtain ⟨next, n, hnext, h⟩ := bind_eq_ok.mp h
    obtain ⟨items, k, hitems, h⟩ := bind_eq_ok.mp h
    obtain ⟨rfl, rfl⟩ := pure_eq_ok.mp h
    exact hfirst.append ((index_reads m next n hnext).append (counted_reads item_reads n items k hitems))
  | hash =>
    obtain ⟨next, n, hnext, h⟩ := bind_eq_ok.mp h
    obtain ⟨pairs, k, hpairs, h⟩ := bind_eq_ok.mp h
    obtain ⟨rfl, rfl⟩ := pure_eq_ok.mp h
    exact hfirst.append ((index_reads m next n hnext).append (counted_reads pair_reads n pairs k hpairs))
  | speaker =>
    obtain ⟨next, n, hnext, h⟩ := bind_eq_ok.mp h
    obtain ⟨i, k, hindex, h⟩ := bind_eq_ok.mp h
    obtain ⟨pairs, u, hpairs, h⟩ := bind_eq_ok.mp h
    obtain ⟨rfl, rfl⟩ := pure_eq_ok.mp h
    have hrest := (index_reads n i k hindex).append (counted_reads pair_reads k pairs u hpairs)
    exact hfirst.append ((index_reads m next n hnext).append hrest)

end Code.Decoder

/-! ## What is occupied -/

/-- Something that was decoded takes up the words from an offset to its end. -/
structure Script.Occupies (S : Script) (offset : Nat) (tiles : List Tile) (exprs : List Nat)
    (stop : Nat) : Prop where
  lt : offset < stop
  le : stop ≤ S.words.size
  tiled : S.Tiled offset tiles stop
  /-- Every tile takes up a word, whatever counts the script holds. -/
  length : tiles.length ≤ stop - offset
  /-- The expressions in it are the operands among the tiles. -/
  operands : tiles.flatMap Tile.exprs = exprs
  /-- They can be decoded, and they lie inside. -/
  inside : ∀ e ∈ exprs, offset < e ∧ e < stop ∧
    ∃ node last, S.decodeExpr e = .ok (node, last) ∧ last ≤ stop
  /-- Each of them ends before the next one begins. -/
  apart : exprs.Pairwise fun e e' => ∃ node last, S.decodeExpr e = .ok (node, last) ∧ last ≤ e'

section

variable {S : Script} {offset stop : Nat}

/-- Tiles behind a word, with expressions that stay inside the script. -/
theorem Script.Tiled.occupies {tiles : List Tile} (h : S.Tiled offset (.word :: tiles) stop)
    (hexprs : ∀ e node last, offset < e → S.decodeExpr e = .ok (node, last) →
      last ≤ S.words.size) :
    S.Occupies offset (.word :: tiles) (tiles.flatMap Tile.exprs) stop := by
  have hcopy := h
  cases h with
  | word hlt hrest =>
    refine ⟨hrest.le, hrest.le_size hlt hexprs, hcopy, hcopy.length_le, rfl, fun e he => ?_, hrest.apart⟩
    obtain ⟨hle, node, last, hdecode, hstart, hstop⟩ := hrest.decodes e he
    exact ⟨hle, by omega, node, last, hdecode, hstop⟩

theorem Code.Node.exists_tiles (x : Node) : ∃ xs, x.tiles = .word :: xs := by
  cases x <;> exact ⟨_, rfl⟩

theorem Code.Statement.exists_tiles (x : Statement) : ∃ xs, x.tiles = .word :: xs := by
  cases x <;> exact ⟨_, rfl⟩

/-- An expression that is decoded ends inside the script. -/
theorem Script.le_size_of_decodeExpr {node : Node} (h : S.decodeExpr offset = .ok (node, stop)) :
    stop ≤ S.words.size := by
  -- the induction is on the number of words left, since operands lie beyond their node
  induction hleft : S.words.size - offset using Nat.strong_induction_on
    generalizing offset stop node with
  | _ left ih =>
    have hsize := Script.lt_size_of_decodeExpr h
    have htiled := Script.decodeExpr_tiled h
    obtain ⟨xs, hxs⟩ := node.exists_tiles
    rw [hxs] at htiled
    refine (htiled.occupies fun e node' last he hdecode => ?_).le
    exact ih (S.words.size - e) (by omega) hdecode rfl

/-- What is decoded as an expression occupies the words from its offset to its end. -/
theorem Script.decodeExpr_occupies {node : Node} (h : S.decodeExpr offset = .ok (node, stop)) :
    S.Occupies offset node.tiles node.operands stop := by
  have htiled := Script.decodeExpr_tiled h
  obtain ⟨xs, hxs⟩ := node.exists_tiles
  rw [← node.exprs_tiles]
  rw [hxs] at htiled ⊢
  exact htiled.occupies fun _ _ _ _ => Script.le_size_of_decodeExpr

/-- What is decoded as a statement occupies the words from its offset to its end. -/
theorem Script.decodeStatement_occupies {node : Statement}
    (h : S.decodeStatement offset = .ok (node, stop)) :
    S.Occupies offset node.tiles node.exprs stop := by
  have htiled := Decoder.statement_reads offset node stop h
  obtain ⟨xs, hxs⟩ := node.exists_tiles
  rw [← node.exprs_tiles]
  rw [hxs] at htiled ⊢
  exact htiled.occupies fun _ _ _ _ => Script.le_size_of_decodeExpr

end

end Colloquy
