import Colloquy.Proofs.Layout.Node

/-!
# Parts of statements in a script

Stretches of text, speakers, directives and hash data: what their words are decoded as, and which part
of the story they stand for.  A list of parts is laid down behind its length, and the decoder finds as
many parts again (`counted_lays`).
-/

namespace Colloquy

open Code

/-! ## Decoders -/

namespace Code.Decoder

variable {S : Script} {α β : Type} {s t u : Nat} {w : UInt32}

/-- Where a decoder succeeds, what is done with its result goes on. -/
theorem bind_ok {m : Decoder α} {f : α → Decoder β} {a : α} (h : m s = .ok (a, u)) :
    (m >>= f) s = f a u := by
  show (m s >>= fun p => f p.1 p.2) = f a u
  rw [h]
  rfl

theorem word_ok (h : S.words[s]? = some w) : word S s = .ok (w, s + 1) := by
  rw [word, Code.word_ok h]
  rfl

theorem index_ok (h : S.words[s]? = some w) : index S s = .ok (w.toNat, s + 1) := by
  rw [index, bind_ok (word_ok h)]
  rfl

theorem index_ofNat {n : Nat} (h : S.words[s]? = some (UInt32.ofNat n)) (hn : n < UInt32.size) :
    index S s = .ok (n, s + 1) := by
  rw [index_ok h, UInt32.toNat_ofNat_of_lt' hn]

/-- A word that is a code is decoded to it. -/
theorem coded_ok {ofWord? : UInt32 → Option α} {error : Nat → UInt32 → CodeError} {a : α}
    (h : S.words[s]? = some w) (ha : ofWord? w = some a) : coded S ofWord? error s = .ok (a, s + 1) := by
  have hget : (get : Decoder Nat) s = .ok (s, s) := rfl
  rw [coded, bind_ok hget, bind_ok (word_ok h), ha]
  rfl

theorem expr_ok (h : S.exprEnd s = .ok t) : expr S s = .ok (s, t) := by
  rw [expr, h]
  rfl

/-- As many things are read as stand in a row. -/
theorem many_ok {R : α → β → Nat → Nat → Prop} {r : Decoder β} {as : List α} {bs : List β}
    (h : Row R as bs s t) (hr : ∀ a b s t, R a b s t → r s = .ok (b, t)) :
    many r as.length s = .ok (bs, t) := by
  induction h with
  | nil s => rfl
  | cons ha _ ih =>
    rw [List.length_cons, many, bind_ok (hr _ _ _ _ ha), bind_ok ih]
    rfl

end Code.Decoder

namespace Lower

variable {P : Float → Prop} {α β : Type}

/-- Things that are laid down one after another stand in a row. -/
theorem forM_lays {f : α → Lower Unit} {R : Artifact → α → β → Nat → Nat → Prop} {as : List α}
    (h : ∀ a ∈ as, Lays P (f a) fun A s _ t => ∃ b, R A a b s t) :
    Lays P (as.forM f) fun A s _ t => ∃ bs, Row (R A) as bs s t := by
  induction as with
  | nil =>
    refine (Lays.pure ()).mono ?_
    rintro A s _ t _ _ _ ⟨_, rfl⟩
    exact ⟨[], .nil _⟩
  | cons a as ih =>
    refine ((h a (List.mem_cons_self ..)).bind fun _ =>
      ih fun b hb => h b (List.mem_cons_of_mem _ hb)).mono ?_
    rintro A s _ t _ _ _ ⟨_, m, ⟨b, hb⟩, bs, hbs⟩
    exact ⟨b :: bs, .cons hb hbs⟩

end Lower

/-- A thing takes up words, and a decoder reads it from them. -/
structure Reads {α β : Type} (r : Decoder β) (R : α → β → Nat → Nat → Prop) (a : α) (b : β)
    (s t : Nat) : Prop where
  lt : s < t
  read : r s = .ok (b, t)
  meaning : R a b s t

namespace Lower

variable {P : Float → Prop} {α β : Type} {A : Artifact} {R : α → β → Nat → Nat → Prop}
  {r : Decoder β} {as : List α} {bs : List β} {s t : Nat}

/-- The length of a list of things that take up words fits into a word. -/
theorem length_lt (hA : A.Fits) (ht : t ≤ A.script.words.size) (h : Row (Reads r R) as bs s t) :
    as.length < UInt32.size := by
  have := h.length_le fun _ _ _ _ h => h.lt
  have := hA.addressable.words
  omega

/-- A list of things behind its length is decoded as a list. -/
theorem counted_ok (hA : A.Fits) (ht : t ≤ A.script.words.size) (hs : A.Holds s as.length)
    (h : Row (Reads r R) as bs (s + 1) t) : Decoder.counted A.script r s = .ok (bs, t) := by
  rw [Decoder.counted, Decoder.bind_ok (Decoder.index_ofNat hs (length_lt hA ht h))]
  exact Decoder.many_ok h fun _ _ _ _ h => h.read

/-- A list of things is laid down behind its length. -/
theorem counted_lays {f : α → Lower Unit} {R : Artifact → α → β → Nat → Nat → Prop}
    {r : Artifact → Decoder β} {as : List α}
    (h : ∀ a ∈ as, Lays P (f a) fun A s _ t => ∃ b, Reads (r A) (R A) a b s t) :
    Lays P (do
      emitCount as.length
      as.forM f) fun A s _ t =>
        ∃ bs, Decoder.counted A.script (r A) s = .ok (bs, t) ∧ Row (R A) as bs (s + 1) t := by
  refine ((emitCount_lays _).bind fun _ => forM_lays h).mono ?_
  rintro A s _ t hA _ ht ⟨_, _, ⟨hs, rfl⟩, bs, hbs⟩
  exact ⟨bs, counted_ok hA ht hs hbs, hbs.imp fun _ _ _ _ _ h => h.meaning⟩

end Lower

/-! ## Text -/

section

variable (P : Float → Prop) (A : Artifact) (r : Registry)

/-- An expression that was checked. -/
structure CheckedAt (e : Expr) (s t : Nat) : Prop where
  expr : ExprAt P A.script r e s t
  checked : A.Reports (Typing.infer r e).errors

/-- An expression that was checked to be of a kind. -/
structure KindAt (k : Kind) (e : Expr) (s t : Nat) : Prop where
  expr : ExprAt P A.script r e s t
  checked : A.Reports (Typing.exprOf r e k)

/-- A stretch of text. -/
inductive SegmentAt : Segment → TextNode → Nat → Nat → Prop where
  | text {x : Spanned String} {i s : Nat} :
      A.script.strings[i]? = some x.val → SegmentAt (.text x) (.text i) s (s + 2)
  | placeholder {e : Expr} {s t : Nat} :
      CheckedAt P A r e (s + 1) t → SegmentAt (.placeholder e) (.expr (s + 1)) s t

/-- A speaker of a line. -/
inductive SpeakerAt : SpeakerRef → SpeakerNode → Nat → Nat → Prop where
  | named {x : Ident} {i s : Nat} :
      A.script.speakers[i]? = some x.name → SpeakerAt (.named x) (.id i) s (s + 2)
  | variable {x : Ident} {i s : Nat} :
      A.script.strings[i]? = some x.name → A.Reports (Typing.variableOf r x .string) →
      SpeakerAt (.variable x) (.variable i) s (s + 2)

/-- A directive, decoded as the offset of its node. -/
inductive DirectiveAt : Spanned Directive → Nat → Nat → Nat → Prop where
  | auto {s : Nat} {x : Span} :
      A.script.decodeExpr s = .ok (.auto, s + 1) → DirectiveAt ⟨.auto, x⟩ s s (s + 1)
  | speed {e : Expr} {s t : Nat} {x : Span} :
      A.script.decodeExpr s = .ok (.speed (s + 1), t) → KindAt P A r .float e (s + 1) t →
      DirectiveAt ⟨.speed e, x⟩ s s t
  | pause {e : Expr} {s t : Nat} {x : Span} :
      A.script.decodeExpr s = .ok (.pause (s + 1), t) → KindAt P A r .float e (s + 1) t →
      DirectiveAt ⟨.pause e, x⟩ s s t
  | goto {y : Ident} {s n : Nat} {x : Span} :
      A.script.decodeExpr s = .ok (.goto n, s + 2) → A.Enters y n →
      DirectiveAt ⟨.goto y, x⟩ s s (s + 2)

/-- A key and its values; a key without values is a flag. -/
inductive PairAt : HashEntry → PairNode → Nat → Nat → Prop where
  | flag {key : Ident} {i s : Nat} :
      A.script.strings[i]? = some key.name → LiteralAt P A.script (.bool true) (s + 2) (s + 4) →
      PairAt ⟨key, []⟩ ⟨i, [s + 2]⟩ s (s + 4)
  | values {key : Ident} {values : List Expr} {i s t : Nat} {os : List Nat} :
      values ≠ [] → A.script.strings[i]? = some key.name →
      Row (Operand (CheckedAt P A r)) values os (s + 2) t →
      PairAt ⟨key, values⟩ ⟨i, os⟩ s t

end

section

variable {P : Float → Prop} {A : Artifact} {r : Registry} {s t : Nat}

/-- A segment takes a word at least. -/
theorem SegmentAt.lt {x : Segment} {b : TextNode} (h : SegmentAt P A r x b s t) : s < t := by
  cases h with
  | text _ => omega
  | placeholder he =>
    have := he.expr.bounds.1
    omega

theorem SpeakerAt.lt {x : SpeakerRef} {b : SpeakerNode} (h : SpeakerAt A r x b s t) : s < t := by
  cases h <;> omega

/-- So does a directive. -/
theorem DirectiveAt.lt {x : Spanned Directive} {o : Nat} (h : DirectiveAt P A r x o s t) : s < t := by
  cases h with
  | auto _ => omega
  | speed _ he =>
    have := he.expr.bounds.1
    omega
  | pause _ he =>
    have := he.expr.bounds.1
    omega
  | goto _ _ => omega

/-- So does a key. -/
theorem PairAt.lt {e : HashEntry} {p : PairNode} (h : PairAt P A r e p s t) : s < t := by
  cases h with
  | flag _ _ => omega
  | values _ _ hvalues =>
    have := hvalues.length_le fun _ _ _ _ h => h.2.expr.bounds.1
    omega

end

namespace Lower

variable {P : Float → Prop} {r : Registry}

/-- A segment is laid down as one that is decoded: a text by its place in the pool, an expression behind
its code. -/
theorem segment_lays (hr : r.Floats P) {x : Segment} (hx : x.Meets (Expr.Floats P)) :
    Lays P (segment r x) fun A s _ t =>
      ∃ b, Reads (Decoder.segment A.script) (SegmentAt P A r) x b s t := by
  cases x with
  | text x =>
    refine ((string_lays x.val).bind fun i => (emit_lays _).bind fun _ => emit_lays i).mono ?_
    rintro A s _ t _ _ _ ⟨i, _, ⟨hx, rfl⟩, _, _, ⟨hkind, rfl⟩, hplace, rfl⟩
    refine ⟨.text i.toNat, by omega, ?_, .text hx⟩
    rw [Decoder.segment, Decoder.bind_ok (Decoder.coded_ok hkind (SegmentKind.ofWord?_word _))]
    exact Decoder.bind_ok (Decoder.index_ok hplace)
  | placeholder e =>
    refine ((report_lays _).bind fun _ => (emit_lays _).bind fun _ => expr_lays hr e hx).mono ?_
    rintro A s _ t hA _ _ ⟨_, _, ⟨hcheck, rfl⟩, _, _, ⟨hkind, rfl⟩, he⟩
    have hlt := he.bounds.1
    refine ⟨.expr (_ + 1), by omega, ?_, .placeholder ⟨he, hcheck⟩⟩
    rw [Decoder.segment, Decoder.bind_ok (Decoder.coded_ok hkind (SegmentKind.ofWord?_word _))]
    exact Decoder.bind_ok (Decoder.expr_ok (he.exprEnd hA.addressable.words))

/-- The segments of a text are laid down behind their number. -/
theorem segments_lays (hr : r.Floats P) {xs : List Segment} (hx : ∀ x ∈ xs, x.Meets (Expr.Floats P)) :
    Lays P (segments r xs) fun A s _ t => ∃ bs,
      Decoder.counted A.script (Decoder.segment A.script) s = .ok (bs, t) ∧
      Row (SegmentAt P A r) xs bs (s + 1) t :=
  counted_lays fun x h => segment_lays hr (hx x h)

/-- A speaker is laid down as one that is decoded: a name by its place among the speakers, a variable by
that of its name. -/
theorem speakerRef_lays (x : SpeakerRef) :
    Lays P (speakerRef r x) fun A s _ t =>
      ∃ b, Reads (Decoder.speaker A.script) (SpeakerAt A r) x b s t := by
  rcases x with x | x
  · refine ((speaker_lays x.name).bind fun i => (emit_lays _).bind fun _ => emit_lays i).mono ?_
    rintro A s _ t _ _ _ ⟨i, _, ⟨hx, rfl⟩, _, _, ⟨hkind, rfl⟩, hplace, rfl⟩
    refine ⟨.id i.toNat, by omega, ?_, .named hx⟩
    rw [Decoder.speaker, Decoder.bind_ok (Decoder.coded_ok hkind (SpeakerKind.ofWord?_word _))]
    exact Decoder.bind_ok (Decoder.index_ok hplace)
  · refine ((report_lays _).bind fun _ => (string_lays x.name).bind fun i =>
      (emit_lays _).bind fun _ => emit_lays i).mono ?_
    rintro A s _ t _ _ _ ⟨_, _, ⟨hcheck, rfl⟩, i, _, ⟨hx, rfl⟩, _, _, ⟨hkind, rfl⟩, hplace, rfl⟩
    refine ⟨.variable i.toNat, by omega, ?_, .variable hx hcheck⟩
    rw [Decoder.speaker, Decoder.bind_ok (Decoder.coded_ok hkind (SpeakerKind.ofWord?_word _))]
    exact Decoder.bind_ok (Decoder.index_ok hplace)

/-- An expression that is checked for its kind is laid down behind what was laid down before it. -/
theorem kind_lays (hr : r.Floats P) (k : Kind) {e : Expr} (he : e.Floats P) (m : Lower Unit)
    {Q : Artifact → Nat → Nat → Prop} (hm : Lays P m fun A s _ t => Q A s t) :
    Lays P (do
      checkKind r e k
      m
      expr r e) fun A s _ t => ∃ u, Q A s u ∧ KindAt P A r k e u t := by
  refine ((report_lays _).bind fun _ => hm.bind fun _ => expr_lays hr e he).mono ?_
  rintro A s _ t _ _ _ ⟨_, _, ⟨hcheck, rfl⟩, _, u, hq, he⟩
  exact ⟨u, hq, he, hcheck⟩

/-- A directive is laid down as an expression that is decoded. -/
theorem directive_lays (hr : r.Floats P) {x : Spanned Directive} (hx : x.val.Meets (Expr.Floats P)) :
    Lays P (directive r x.val) fun A s _ t =>
      ∃ b, Reads (Decoder.expr A.script) (DirectiveAt P A r) x b s t := by
  obtain ⟨x, span⟩ := x
  cases x with
  | auto =>
    refine (emit_lays _).mono ?_
    rintro A s _ t _ _ _ ⟨hcode, rfl⟩
    have hnode := nodeAt_auto (endWithin A.script A.script.words.size) hcode
    refine ⟨s, by omega, Decoder.expr_ok ?_, .auto hnode⟩
    exact endWithin_of_nodeAt hnode
  | speed e =>
    refine (kind_lays hr .float hx _ (emit_lays _)).mono ?_
    rintro A s _ t hA _ _ ⟨_, ⟨hcode, rfl⟩, he⟩
    have hlt := he.expr.bounds.1
    have hnode := nodeAt_speed hcode (he.expr.operandEnd hA.addressable.words)
    refine ⟨s, by omega, Decoder.expr_ok ?_, .speed hnode he⟩
    exact endWithin_of_nodeAt hnode
  | pause e =>
    refine (kind_lays hr .float hx _ (emit_lays _)).mono ?_
    rintro A s _ t hA _ _ ⟨_, ⟨hcode, rfl⟩, he⟩
    have hlt := he.expr.bounds.1
    have hnode := nodeAt_pause hcode (he.expr.operandEnd hA.addressable.words)
    refine ⟨s, by omega, Decoder.expr_ok ?_, .pause hnode he⟩
    exact endWithin_of_nodeAt hnode
  | goto x =>
    refine ((sectionLabel_lays x).bind fun l => (emit_lays _).bind fun _ =>
      emitTarget_lays l).mono ?_
    rintro A s _ t hA _ _ ⟨l, _, ⟨hx, rfl⟩, _, _, ⟨hcode, rfl⟩, ⟨hplace, hleads⟩, rfl⟩
    have hnode := nodeAt_goto (endWithin A.script A.script.words.size) hcode hplace
    rw [UInt32.toNat_ofNat_of_lt' (hA.target_lt l)] at hnode
    refine ⟨_, by omega, Decoder.expr_ok ?_, .goto hnode ⟨l, hx, hleads⟩⟩
    exact endWithin_of_nodeAt hnode

/-! ## Hash data -/

/-- An expression that is checked is laid down as an operand. -/
theorem checkedExpr_lays (hr : r.Floats P) {e : Expr} (he : e.Floats P) :
    Lays P (checkedExpr r e) fun A s _ t =>
      ∃ b, Reads (Decoder.expr A.script) (Operand (CheckedAt P A r)) e b s t := by
  refine ((report_lays _).bind fun _ => expr_lays hr e he).mono ?_
  rintro A s _ t hA _ _ ⟨_, _, ⟨hcheck, rfl⟩, he⟩
  exact ⟨_, he.bounds.1, Decoder.expr_ok (he.exprEnd hA.addressable.words), rfl, he, hcheck⟩

/-- A key is decoded from the number of its values, its word and the values. -/
theorem pair_ok {A : Artifact} {n s t : Nat} {i : UInt32} {os : List Nat} (hn : A.Holds s n)
    (hlt : n < UInt32.size) (hi : A.script.words[s + 1]? = some i)
    (hos : Decoder.many (Decoder.expr A.script) n (s + 2) = .ok (os, t)) :
    Decoder.pair A.script s = .ok (⟨i.toNat, os⟩, t) := by
  rw [Decoder.pair, Decoder.bind_ok (Decoder.index_ofNat hn hlt),
    Decoder.bind_ok (Decoder.index_ok hi), Decoder.bind_ok hos]
  rfl

/-- A key with its values is laid down as one that is decoded. -/
theorem entry_lays (hr : r.Floats P) {e : HashEntry} (he : ∀ v ∈ e.values, v.Floats P) :
    Lays P (entry r e) fun A s _ t =>
      ∃ b, Reads (Decoder.pair A.script) (PairAt P A r) e b s t := by
  obtain ⟨key, values⟩ := e
  cases values with
  | nil =>
    have hflag : (Literal.bool true).Floats P := trivial
    refine ((string_lays key.name).bind fun i => (emitCount_lays 1).bind fun _ =>
      (emit_lays i).bind fun _ => literal_lays hflag).mono ?_
    rintro A s _ t hA _ _ ⟨i, _, ⟨hkey, rfl⟩, _, _, ⟨hcount, rfl⟩, _, _, ⟨hplace, rfl⟩, hlit⟩
    obtain ⟨rfl, _⟩ := hlit.bounds
    obtain ⟨node, hnode, _⟩ := hlit.nodeAt (endWithin A.script A.script.words.size)
    refine ⟨⟨i.toNat, [_ + 2]⟩, by omega, pair_ok hcount (by decide) hplace ?_, .flag hkey hlit⟩
    rw [Decoder.many, Decoder.bind_ok (Decoder.expr_ok (endWithin_of_nodeAt hnode))]
    rfl
  | cons v vs =>
    refine ((string_lays key.name).bind fun i => (emitCount_lays _).bind fun _ =>
      (emit_lays i).bind fun _ => forM_lays fun v hv => checkedExpr_lays hr (he v hv)).mono ?_
    rintro A s _ t hA _ ht ⟨i, _, ⟨hkey, rfl⟩, _, _, ⟨hcount, rfl⟩, _, _, ⟨hplace, rfl⟩, os, hos⟩
    have hlen := hos.length_le fun _ _ _ _ h => h.lt
    refine ⟨⟨i.toNat, os⟩, by omega, pair_ok hcount (length_lt hA ht hos) hplace ?_, ?_⟩
    · exact Decoder.many_ok hos fun _ _ _ _ h => h.read
    · exact .values (List.cons_ne_nil _ _) hkey (hos.imp fun _ _ _ _ _ h => h.meaning)

/-- Keys are laid down one behind the other. -/
theorem entries_lays (hr : r.Floats P) {before : List Ident} {es : List HashEntry}
    (he : ∀ e ∈ es, ∀ v ∈ e.values, v.Floats P) :
    Lays P (entries r before es) fun A s _ t =>
      ∃ bs, Row (Reads (Decoder.pair A.script) (PairAt P A r)) es bs s t := by
  induction es generalizing before with
  | nil =>
    refine (Lays.pure ()).mono ?_
    rintro A s _ t _ _ _ ⟨_, rfl⟩
    exact ⟨[], .nil _⟩
  | cons e es ih =>
    refine ((report_lays _).bind fun _ => (entry_lays hr (he e (List.mem_cons_self ..))).bind fun _ =>
      ih fun e' he' => he e' (List.mem_cons_of_mem _ he')).mono ?_
    rintro A s _ t _ _ _ ⟨_, _, ⟨_, rfl⟩, _, m, ⟨b, hb⟩, bs, hbs⟩
    exact ⟨b :: bs, .cons hb hbs⟩

/-- Hash data are laid down behind the number of their keys. -/
theorem hash_lays (hr : r.Floats P) {h : HashBlock} (hh : h.Meets (Expr.Floats P)) :
    Lays P (hash r h) fun A s _ t => ∃ bs,
      Decoder.counted A.script (Decoder.pair A.script) s = .ok (bs, t) ∧
      Row (PairAt P A r) h.entries bs (s + 1) t := by
  refine ((emitCount_lays _).bind fun _ => entries_lays hr hh).mono ?_
  rintro A s _ t hA _ ht ⟨_, _, ⟨hs, rfl⟩, bs, hbs⟩
  exact ⟨bs, counted_ok hA ht hs hbs, hbs.imp fun _ _ _ _ _ h => h.meaning⟩

/-! ## Tags in text -/

/-- The sections in the tags of a text are mentioned, and no word is laid down. -/
theorem mentionInline_lays (ss : List Segment) :
    Lays P (mentionInline ss) fun A s _ t =>
      (∀ x ∈ ss.flatMap inlineTargets, ∃ l, A.Mentions x l) ∧ t = s := by
  unfold mentionInline
  induction ss.flatMap inlineTargets with
  | nil =>
    refine (Lays.pure ()).mono ?_
    rintro A s _ t _ _ _ ⟨_, rfl⟩
    exact ⟨by simp, rfl⟩
  | cons x xs ih =>
    refine (((sectionLabel_lays x).bind fun _ => Lays.pure ()).bind fun _ => ih).mono ?_
    rintro A s _ t _ _ _ ⟨_, _, ⟨l, _, ⟨hx, rfl⟩, _, rfl⟩, hxs, rfl⟩
    refine ⟨?_, rfl⟩
    intro y hy
    rcases List.mem_cons.mp hy with rfl | hy
    · exact ⟨l, hx⟩
    · exact hxs y hy

end Lower

end Colloquy
