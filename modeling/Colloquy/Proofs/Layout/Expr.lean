import Colloquy.Proofs.Layout.Word
import Colloquy.Proofs.Story.Meets

/-!
# Expressions in a script

`ExprAt e s t` says that the words from `s` up to `t` are those of the expression `e`.  The lowering of
an expression lays it down (`expr_lays`).
-/

namespace Colloquy

namespace Script

variable (S : Script)

/-- The words at an offset open an expression. -/
def Opens (c : Code.ExprCode) (s : Nat) : Prop := S.words[s]? = some c.word

/-- The word at an offset is the place of a text. -/
def Names (x : String) (s : Nat) : Prop := ∃ w, S.words[s]? = some w ∧ S.strings[w.toNat]? = some x

end Script

/-! ## Literals -/

section Literals

variable (P : Float → Prop) (S : Script)

/-- A literal.  The float in the pool may be another one that shares its place. -/
def LiteralAt : Literal → Nat → Nat → Prop
  | .float x, s, t => S.Opens .float s ∧ (∃ w y, S.words[s + 1]? = some w ∧
      S.floats[w.toNat]? = some y ∧ Assembly.sameFloat x y = true ∧ P x ∧ P y) ∧ t = s + 2
  | .string x, s, t => S.Opens .string s ∧ S.Names x (s + 1) ∧ t = s + 2
  | .bool b, s, t => S.Opens .bool s ∧ S.words[s + 1]? = some (if b then 1 else 0) ∧ t = s + 2

/-- Literals one after another. -/
def LiteralsAt : List Literal → Nat → Nat → Prop
  | [], s, t => t = s
  | v :: vs, s, t => ∃ m, LiteralAt P S v s m ∧ LiteralsAt vs m t

end Literals

/-- The defaults of parameters as literals, up to the first that has none. -/
def Parameter.fallbacks : List Parameter → List Literal
  | [] => []
  | p :: ps =>
    match p.fallback.bind Lower.literalOf? with
    | none => []
    | some v => v :: fallbacks ps

/-- The literals that a call of a function with a number of arguments is filled up with. -/
def Registry.fallbacks (r : Registry) (name : String) (given : Nat) : List Literal :=
  match r.findFunction? name with
  | some f => Parameter.fallbacks (f.params.drop given)
  | none => []

/-! ## Expressions -/

section Exprs

variable (P : Float → Prop) (S : Script) (r : Registry)

mutual

/-- An expression. -/
def ExprAt : Expr → Nat → Nat → Prop
  | .literal v _, s, t => LiteralAt P S v s t
  | .variable x, s, t => S.Opens .variable s ∧ S.Names x.name (s + 1) ∧ t = s + 2
  | .group e, s, t => ExprAt e s t
  | .unary op e, s, t => S.Opens (.unary op.val) s ∧ ExprAt e (s + 1) t
  | .binary op left right, s, t =>
    S.Opens (.binary op.val) s ∧ ∃ m, ExprAt left (s + 1) m ∧ ExprAt right m t
  | .assign x op value, s, t =>
    S.Opens (.assign op.val) s ∧ S.Names x.name (s + 1) ∧ ExprAt value (s + 2) t
  | .call f args awaited _, s, t =>
    S.Opens .call s ∧ S.Names f.name (s + 1) ∧
      S.words[s + 2]? = some (if awaited.isSome then 1 else 0) ∧
      S.words[s + 3]? =
        some (UInt32.ofNat (args.length + (r.fallbacks f.name args.length).length)) ∧
      ∃ m, ExprsAt args (s + 4) m ∧ LiteralsAt P S (r.fallbacks f.name args.length) m t

/-- Expressions one after another. -/
def ExprsAt : List Expr → Nat → Nat → Prop
  | [], s, t => t = s
  | e :: es, s, t => ∃ m, ExprAt e s m ∧ ExprsAt es m t

end

end Exprs

namespace Lower

variable {P : Float → Prop} {r : Registry}

/-- A literal is laid down as one node. -/
theorem literal_lays {v : Literal} (hv : v.Floats P) :
    Lays P (literal v) fun A s _ t => LiteralAt P A.script v s t := by
  cases v with
  | float x =>
    refine ((float_lays hv).bind fun i => (emit_lays _).bind fun _ => emit_lays i).mono ?_
    rintro A s _ t _ _ _ ⟨i, _, ⟨⟨y, hy, hsame, hPy⟩, rfl⟩, _, _, ⟨hcode, rfl⟩, hplace, rfl⟩
    exact ⟨hcode, ⟨i, y, hplace, hy, hsame, hv, hPy⟩, rfl⟩
  | string x =>
    refine ((string_lays x).bind fun i => (emit_lays _).bind fun _ => emit_lays i).mono ?_
    rintro A s _ t _ _ _ ⟨i, _, ⟨hx, rfl⟩, _, _, ⟨hcode, rfl⟩, hplace, rfl⟩
    exact ⟨hcode, ⟨i, hplace, hx⟩, rfl⟩
  | bool b =>
    refine ((emit_lays _).bind fun _ => emit_lays _).mono ?_
    rintro A s _ t _ _ _ ⟨_, _, ⟨hcode, rfl⟩, hplace, rfl⟩
    exact ⟨hcode, hplace, rfl⟩

/-- Defaults are laid down as literals, up to the first parameter that has none. -/
theorem defaults_lays {ps : List Parameter} (h : ∀ p ∈ ps, p.Floats P) :
    Lays P (defaults ps) fun A s n t =>
      n = (Parameter.fallbacks ps).length ∧ LiteralsAt P A.script (Parameter.fallbacks ps) s t := by
  induction ps with
  | nil => exact (Lays.pure 0).mono fun _ _ _ _ _ _ _ h => h
  | cons p ps ih =>
    have hp := h p (List.mem_cons_self ..)
    unfold defaults Parameter.fallbacks
    cases hv : p.fallback.bind literalOf? with
    | none => exact (Lays.pure 0).mono fun _ _ _ _ _ _ _ h => h
    | some v =>
      refine ((literal_lays (hp v hv)).bind fun _ =>
        (ih fun q hq => h q (List.mem_cons_of_mem _ hq)).bind fun n => Lays.pure (n + 1)).mono ?_
      rintro A s _ t _ _ _ ⟨_, m, hlit, n, _, ⟨rfl, hrest⟩, rfl, rfl⟩
      exact ⟨rfl, m, hlit, hrest⟩

/-- A call is filled up with the defaults of the parameters it leaves out. -/
theorem fallbacks_lays (hr : r.Floats P) (name : String) (given : Nat) :
    Lays P (fallbacks r name given) fun A s n t =>
      n = (r.fallbacks name given).length ∧ LiteralsAt P A.script (r.fallbacks name given) s t := by
  unfold fallbacks Registry.fallbacks
  cases hf : r.findFunction? name with
  | none => exact (Lays.pure 0).mono fun _ _ _ _ _ _ _ h => h
  | some f => exact defaults_lays fun p hp => hr name f hf p (List.mem_of_mem_drop hp)

mutual

/-- The lowering of an expression lays it down. -/
theorem expr_lays (hr : r.Floats P) :
    (e : Expr) → e.Floats P → Lays P (expr r e) fun A s _ t => ExprAt P A.script r e s t
  | .literal v _, h => by
    unfold expr ExprAt
    exact literal_lays h
  | .variable x, _ => by
    unfold expr
    refine ((string_lays x.name).bind fun i => (emit_lays _).bind fun _ => emit_lays i).mono ?_
    rintro A s _ t _ _ _ ⟨i, _, ⟨hx, rfl⟩, _, _, ⟨hcode, rfl⟩, hplace, rfl⟩
    unfold ExprAt
    exact ⟨hcode, ⟨i, hplace, hx⟩, rfl⟩
  | .group e, h => by
    unfold expr ExprAt
    exact expr_lays hr e h
  | .unary op e, h => by
    unfold expr
    refine ((emit_lays _).bind fun _ => expr_lays hr e h).mono ?_
    rintro A s _ t _ _ _ ⟨_, _, ⟨hcode, rfl⟩, he⟩
    unfold ExprAt
    exact ⟨hcode, he⟩
  | .binary op left right, h => by
    unfold expr
    refine ((emit_lays _).bind fun _ =>
      (expr_lays hr left h.1).bind fun _ => expr_lays hr right h.2).mono ?_
    rintro A s _ t _ _ _ ⟨_, _, ⟨hcode, rfl⟩, _, m, hleft, hright⟩
    unfold ExprAt
    exact ⟨hcode, m, hleft, hright⟩
  | .assign x op value, h => by
    unfold expr
    refine ((string_lays x.name).bind fun i => (emit_lays _).bind fun _ =>
      (emit_lays i).bind fun _ => expr_lays hr value h).mono ?_
    rintro A s _ t _ _ _ ⟨i, _, ⟨hx, rfl⟩, _, _, ⟨hcode, rfl⟩, _, _, ⟨hplace, rfl⟩, hvalue⟩
    unfold ExprAt
    exact ⟨hcode, ⟨i, hplace, hx⟩, hvalue⟩
  | .call f args awaited _, h => by
    rw [Expr.Floats] at h
    unfold expr
    have hargs := (exprs_lays hr args h).bind fun _ => fallbacks_lays hr f.name args.length
    have htail := reserve_lays (fun added => UInt32.ofNat (args.length + added)) hargs
    refine ((string_lays f.name).bind fun i => (emit_lays _).bind fun _ =>
      (emit_lays i).bind fun _ => (emit_lays _).bind fun _ => htail).mono ?_
    rintro A s _ t _ _ _ ⟨i, _, ⟨hx, rfl⟩, _, _, ⟨hcode, rfl⟩, _, _, ⟨hplace, rfl⟩, _, _,
      ⟨hawait, rfl⟩, _, hcount, _, m, hargs, rfl, hfill⟩
    unfold ExprAt
    exact ⟨hcode, ⟨i, hplace, hx⟩, hawait, hcount, m, hargs, hfill⟩

/-- Expressions in a row are laid down one behind the other. -/
theorem exprs_lays (hr : r.Floats P) :
    (es : List Expr) → Expr.AllFloats P es →
      Lays P (exprs r es) fun A s _ t => ExprsAt P A.script r es s t
  | [], _ => by
    unfold exprs ExprsAt
    exact (Lays.pure ()).mono fun _ _ _ _ _ _ _ h => h.2
  | e :: es, h => by
    rw [Expr.AllFloats] at h
    unfold exprs
    refine ((expr_lays hr e h.1).bind fun _ => exprs_lays hr es h.2).mono ?_
    rintro A s _ t _ _ _ ⟨_, m, he, hes⟩
    unfold ExprsAt
    exact ⟨m, he, hes⟩

end

end Lower

end Colloquy
