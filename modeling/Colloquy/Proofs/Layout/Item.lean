import Colloquy.Proofs.Layout.Part
import Mathlib.Data.List.Forall2

/-!
# Choices in a script

The items of a choice are flattened into one list of entries, with marks around the options of a
filter.  `ItemsAt` relates the items to their entries.  Bodies of options stand behind the choice, so
what is known of them is left to a parameter `B`: `B target body n` says that a body which leads on to
`target` is entered at `n`.
-/

namespace Colloquy

open Code
open Lower (BodyLabels ItemList)

/-! ## Bodies -/

mutual

/-- The bodies of the options in an item, each with the section it leads on to if there is one. -/
def ChoiceItem.bodies : ChoiceItem → List (Option Ident × List Stmt)
  | .option _ _ target body _ => body.toList.map fun b => (target, b)
  | .filter branches otherwise _ =>
    ChoiceItem.branchBodies branches ++ ChoiceItem.otherwiseBodies otherwise

/-- The bodies of the options in items. -/
def ChoiceItem.allBodies : List ChoiceItem → List (Option Ident × List Stmt)
  | [] => []
  | i :: is => i.bodies ++ ChoiceItem.allBodies is

/-- The bodies of the options in the branches of a filter. -/
def ChoiceItem.branchBodies : List (Expr × List ChoiceItem) → List (Option Ident × List Stmt)
  | [] => []
  | (_, is) :: rest => ChoiceItem.allBodies is ++ ChoiceItem.branchBodies rest

/-- The bodies of the options in the last branch of a filter. -/
def ChoiceItem.otherwiseBodies : Option (List ChoiceItem) → List (Option Ident × List Stmt)
  | none => []
  | some is => ChoiceItem.allBodies is

end

/-! ## Items and their entries -/

section

variable (P : Float → Prop) (A : Artifact) (r : Registry)

/-- The guard of an option. -/
inductive GuardAt : Option Expr → Option Nat → Nat → Nat → Prop where
  | none {s : Nat} : GuardAt none none s (s + 1)
  | some {e : Expr} {s t : Nat} : KindAt P A r .bool e (s + 1) t → GuardAt (some e) (some (s + 1)) s t

/-- Where an option without a body leads: to its section, or on to `next`. -/
def OptionLeads (next : Nat) : Option Ident → Nat → Prop
  | none, n => n = next
  | some x, n => A.Enters x n

variable (B : Option Ident → List Stmt → Nat → Prop) (next : Nat)

mutual

/-- An item and its entries. -/
def ItemAt : ChoiceItem → List ItemNode → Nat → Nat → Prop
  | .option guard text target body _, nodes, s, t => ∃ n g xs m, nodes = [.option n g xs] ∧
      (∀ b, body = some b → B target b n) ∧ (body = none → OptionLeads A next target n) ∧
      GuardAt P A r guard g (s + 2) m ∧ Row (SegmentAt P A r) text xs (m + 1) t
  | .filter branches otherwise _, nodes, s, t => ∃ xs ys m u, nodes = xs ++ ys ++ [.endIf] ∧
      BranchesAt .ifMarker branches xs s m ∧ OtherwiseAt otherwise ys m u ∧ t = u + 1

/-- Items and their entries. -/
def ItemsAt : List ChoiceItem → List ItemNode → Nat → Nat → Prop
  | [], nodes, s, t => nodes = [] ∧ t = s
  | i :: is, nodes, s, t => ∃ xs ys m, nodes = xs ++ ys ∧ ItemAt i xs s m ∧ ItemsAt is ys m t

/-- The branches of a filter, each behind a mark with its condition. -/
def BranchesAt (mark : Nat → ItemNode) :
    List (Expr × List ChoiceItem) → List ItemNode → Nat → Nat → Prop
  | [], nodes, s, t => nodes = [] ∧ t = s
  | (e, is) :: rest, nodes, s, t => ∃ xs ys m u, nodes = mark (s + 1) :: (xs ++ ys) ∧
      KindAt P A r .bool e (s + 1) m ∧ ItemsAt is xs m u ∧ BranchesAt .elseIf rest ys u t

/-- The last branch of a filter behind its mark. -/
def OtherwiseAt : Option (List ChoiceItem) → List ItemNode → Nat → Nat → Prop
  | none, nodes, s, t => nodes = [] ∧ t = s
  | some is, nodes, s, t => ∃ xs, nodes = .elseMarker :: xs ∧ ItemsAt is xs (s + 1) t

end

end

section

variable {P : Float → Prop} {A : Artifact} {r : Registry}
  {B B' : Option Ident → List Stmt → Nat → Prop} {next : Nat}

mutual

/-- What is known of bodies may be replaced by something that follows from it. -/
theorem ItemAt.imp (hB : ∀ x b n, B x b n → B' x b n) :
    (i : ChoiceItem) → {nodes : List ItemNode} → {s t : Nat} →
      ItemAt P A r B next i nodes s t → ItemAt P A r B' next i nodes s t
  | .option .., nodes, s, t, h => by
    rw [ItemAt] at h ⊢
    obtain ⟨n, g, xs, m, hnodes, hbody, hrest⟩ := h
    exact ⟨n, g, xs, m, hnodes, fun b hb => hB _ b n (hbody b hb), hrest⟩
  | .filter branches otherwise _, nodes, s, t, h => by
    rw [ItemAt] at h ⊢
    obtain ⟨xs, ys, m, u, hnodes, hbranches, hotherwise, ht⟩ := h
    exact ⟨xs, ys, m, u, hnodes, BranchesAt.imp hB branches hbranches,
      OtherwiseAt.imp hB otherwise hotherwise, ht⟩

/-- Nor do items depend on more of their bodies. -/
theorem ItemsAt.imp (hB : ∀ x b n, B x b n → B' x b n) :
    (is : List ChoiceItem) → {nodes : List ItemNode} → {s t : Nat} →
      ItemsAt P A r B next is nodes s t → ItemsAt P A r B' next is nodes s t
  | [], nodes, s, t, h => by
    rw [ItemsAt] at h ⊢
    exact h
  | i :: is, nodes, s, t, h => by
    rw [ItemsAt] at h ⊢
    obtain ⟨xs, ys, m, hnodes, hi, his⟩ := h
    exact ⟨xs, ys, m, hnodes, ItemAt.imp hB i hi, ItemsAt.imp hB is his⟩

/-- Nor do the branches of a filter. -/
theorem BranchesAt.imp (hB : ∀ x b n, B x b n → B' x b n) {mark : Nat → ItemNode} :
    (bs : List (Expr × List ChoiceItem)) → {nodes : List ItemNode} → {s t : Nat} →
      BranchesAt P A r B next mark bs nodes s t → BranchesAt P A r B' next mark bs nodes s t
  | [], nodes, s, t, h => by
    rw [BranchesAt] at h ⊢
    exact h
  | (e, is) :: rest, nodes, s, t, h => by
    rw [BranchesAt] at h ⊢
    obtain ⟨xs, ys, m, u, hnodes, he, his, hrest⟩ := h
    exact ⟨xs, ys, m, u, hnodes, he, ItemsAt.imp hB is his, BranchesAt.imp hB rest hrest⟩

/-- Nor do the items behind the branches of a filter. -/
theorem OtherwiseAt.imp (hB : ∀ x b n, B x b n → B' x b n) :
    (o : Option (List ChoiceItem)) → {nodes : List ItemNode} → {s t : Nat} →
      OtherwiseAt P A r B next o nodes s t → OtherwiseAt P A r B' next o nodes s t
  | none, nodes, s, t, h => by
    rw [OtherwiseAt] at h ⊢
    exact h
  | some is, nodes, s, t, h => by
    rw [OtherwiseAt] at h ⊢
    obtain ⟨xs, hnodes, his⟩ := h
    exact ⟨xs, hnodes, ItemsAt.imp hB is his⟩

end

end

/-! ## Single entries -/

section

variable (P : Float → Prop) (A : Artifact) (r : Registry)
  (B : Option Ident → List Stmt → Nat → Prop) (next : Nat)

/-- What an entry of a choice stands for, wherever it is. -/
inductive EntryAt : ItemNode → Prop where
  | option {target : Option Ident} {b : List Stmt} {n : Nat} {guard : Option Expr} {g : Option Nat}
      {text : List Segment} {xs : List TextNode} {s m u t : Nat} :
      B target b n ∨ OptionLeads A next target n → GuardAt P A r guard g s m →
      Row (SegmentAt P A r) text xs u t → EntryAt (.option n g xs)
  | ifMarker {e : Expr} {s t : Nat} : KindAt P A r .bool e s t → EntryAt (.ifMarker s)
  | elseIf {e : Expr} {s t : Nat} : KindAt P A r .bool e s t → EntryAt (.elseIf s)
  | elseMarker : EntryAt .elseMarker
  | endIf : EntryAt .endIf

end

section

variable {P : Float → Prop} {A : Artifact} {r : Registry}
  {B : Option Ident → List Stmt → Nat → Prop} {next : Nat}

mutual

/-- The entries of an item are an option, or the marks and entries of a filter. -/
theorem ItemAt.entries : (i : ChoiceItem) → {nodes : List ItemNode} → {s t : Nat} →
    ItemAt P A r B next i nodes s t → ∀ node ∈ nodes, EntryAt P A r B next node
  | .option guard text target body _, nodes, s, t, h => by
    rw [ItemAt] at h
    obtain ⟨n, g, xs, m, rfl, hsome, hnone, hguard, htext⟩ := h
    intro node hnode
    obtain rfl := List.mem_singleton.mp hnode
    cases body with
    | none => exact .option (b := []) (.inr (hnone rfl)) hguard htext
    | some b => exact .option (.inl (hsome b rfl)) hguard htext
  | .filter branches otherwise _, nodes, s, t, h => by
    rw [ItemAt] at h
    obtain ⟨xs, ys, m, u, rfl, hbranches, hotherwise, _⟩ := h
    intro node hnode
    rcases List.mem_append.mp hnode with hnode | hnode
    · rcases List.mem_append.mp hnode with hnode | hnode
      · exact BranchesAt.entries (fun _ _ _ => .ifMarker) branches hbranches node hnode
      · exact OtherwiseAt.entries otherwise hotherwise node hnode
    · exact List.mem_singleton.mp hnode ▸ .endIf

/-- The entries of a choice stand for options and for marks with conditions. -/
theorem ItemsAt.entries : (is : List ChoiceItem) → {nodes : List ItemNode} → {s t : Nat} →
    ItemsAt P A r B next is nodes s t → ∀ node ∈ nodes, EntryAt P A r B next node
  | [], nodes, s, t, h => by
    rw [ItemsAt] at h
    obtain ⟨rfl, _⟩ := h
    simp
  | i :: is, nodes, s, t, h => by
    rw [ItemsAt] at h
    obtain ⟨xs, ys, m, rfl, hi, his⟩ := h
    intro node hnode
    rcases List.mem_append.mp hnode with hnode | hnode
    · exact ItemAt.entries i hi node hnode
    · exact ItemsAt.entries is his node hnode

/-- The entries of the branches of a filter, if the mark of the first branch is one. -/
theorem BranchesAt.entries {mark : Nat → ItemNode}
    (hmark : ∀ e s t, KindAt P A r .bool e s t → EntryAt P A r B next (mark s)) :
    (bs : List (Expr × List ChoiceItem)) → {nodes : List ItemNode} → {s t : Nat} →
      BranchesAt P A r B next mark bs nodes s t → ∀ node ∈ nodes, EntryAt P A r B next node
  | [], nodes, s, t, h => by
    rw [BranchesAt] at h
    obtain ⟨rfl, _⟩ := h
    simp
  | (e, is) :: rest, nodes, s, t, h => by
    rw [BranchesAt] at h
    obtain ⟨xs, ys, m, u, rfl, he, his, hrest⟩ := h
    intro node hnode
    rcases List.mem_cons.mp hnode with rfl | hnode
    · exact hmark e _ _ he
    · rcases List.mem_append.mp hnode with hnode | hnode
      · exact ItemsAt.entries is his node hnode
      · exact BranchesAt.entries (fun _ _ _ => .elseIf) rest hrest node hnode

/-- The entries behind the branches of a filter. -/
theorem OtherwiseAt.entries : (o : Option (List ChoiceItem)) → {nodes : List ItemNode} →
    {s t : Nat} → OtherwiseAt P A r B next o nodes s t → ∀ node ∈ nodes, EntryAt P A r B next node
  | none, nodes, s, t, h => by
    rw [OtherwiseAt] at h
    obtain ⟨rfl, _⟩ := h
    simp
  | some is, nodes, s, t, h => by
    rw [OtherwiseAt] at h
    obtain ⟨xs, rfl, his⟩ := h
    intro node hnode
    rcases List.mem_cons.mp hnode with rfl | hnode
    · exact .elseMarker
    · exact ItemsAt.entries is his node hnode

end

end

/-! ## Bounds -/

section

variable {P : Float → Prop} {A : Artifact} {r : Registry}
  {B : Option Ident → List Stmt → Nat → Prop} {next : Nat}

/-- A guard takes a word at least. -/
theorem GuardAt.lt {guard : Option Expr} {g : Option Nat} {s t : Nat}
    (h : GuardAt P A r guard g s t) : s < t := by
  cases h with
  | none => omega
  | some he =>
    have := he.expr.bounds.1
    omega

mutual

/-- The words of an item do not end before they start. -/
theorem ItemAt.le (i : ChoiceItem) {nodes : List ItemNode} {s t : Nat}
    (h : ItemAt P A r B next i nodes s t) : s ≤ t := by
  match i with
  | .option guard text target body _ =>
    rw [ItemAt] at h
    obtain ⟨n, g, xs, m, _, _, _, hguard, htext⟩ := h
    have := hguard.lt
    have := htext.length_le fun _ _ _ _ h => h.lt
    omega
  | .filter branches otherwise _ =>
    rw [ItemAt] at h
    obtain ⟨xs, ys, m, u, _, hbranches, hotherwise, _⟩ := h
    have := BranchesAt.le branches hbranches
    have := OtherwiseAt.le otherwise hotherwise
    omega

/-- Nor do those of items. -/
theorem ItemsAt.le (is : List ChoiceItem) {nodes : List ItemNode} {s t : Nat}
    (h : ItemsAt P A r B next is nodes s t) : s ≤ t := by
  match is with
  | [] =>
    rw [ItemsAt] at h
    omega
  | i :: is =>
    rw [ItemsAt] at h
    obtain ⟨xs, ys, m, _, hi, his⟩ := h
    exact Nat.le_trans (ItemAt.le i hi) (ItemsAt.le is his)

/-- Nor do those of branches. -/
theorem BranchesAt.le (bs : List (Expr × List ChoiceItem)) {mark : Nat → ItemNode}
    {nodes : List ItemNode} {s t : Nat}
    (h : BranchesAt P A r B next mark bs nodes s t) : s ≤ t := by
  match bs with
  | [] =>
    rw [BranchesAt] at h
    omega
  | (e, is) :: rest =>
    rw [BranchesAt] at h
    obtain ⟨xs, ys, m, u, _, he, his, hrest⟩ := h
    have := he.expr.bounds.1
    have := ItemsAt.le is his
    have := BranchesAt.le rest hrest
    omega

/-- Nor do those of the items behind the branches. -/
theorem OtherwiseAt.le (o : Option (List ChoiceItem)) {nodes : List ItemNode} {s t : Nat}
    (h : OtherwiseAt P A r B next o nodes s t) : s ≤ t := by
  match o with
  | none =>
    rw [OtherwiseAt] at h
    omega
  | some is =>
    rw [OtherwiseAt] at h
    obtain ⟨xs, _, his⟩ := h
    have := ItemsAt.le is his
    omega

end

end

/-! ## Lists of items as they are emitted -/

/-- The label that a body leads to is the one of its section, or the one behind the choice. -/
def BodyExit (A : Artifact) (next : Label) (body : Option Ident × List Stmt) (l : BodyLabels) :
    Prop :=
  (body.1 = none → l.exit = next) ∧ ∀ x, body.1 = some x → A.Mentions x l.exit

/-- A body is entered where the label leads that was handed out for it. -/
def Placed (A : Artifact) (bodies : List (Option Ident × List Stmt)) (labels : List BodyLabels)
    (x : Option Ident) (b : List Stmt) (n : Nat) : Prop :=
  ∃ l, ((x, b), l) ∈ bodies.zip labels ∧ n = A.target l.entry

/-- Entries between two offsets, with their number and the labels of the bodies to come. -/
structure Emitted (A : Artifact) (next : Label) (bodies : List (Option Ident × List Stmt))
    (list : ItemList) (nodes : List ItemNode) (s t : Nat) : Prop where
  count : list.count = nodes.length
  listed : Row (Reads (Decoder.item A.script) fun a b _ _ => a = b) nodes nodes s t
  exits : List.Forall₂ (BodyExit A next) bodies list.bodies

/-- Rows that stand one behind the other are a row. -/
theorem Row.append {α β : Type} {R : α → β → Nat → Nat → Prop} {as as' : List α} {bs bs' : List β}
    {s m t : Nat} (h : Row R as bs s m) (h' : Row R as' bs' m t) :
    Row R (as ++ as') (bs ++ bs') s t := by
  induction h with
  | nil => exact h'
  | cons ha _ ih => exact .cons ha (ih h')

namespace Emitted

variable {A : Artifact} {next : Label} {bodies bodies' : List (Option Ident × List Stmt)}
  {list list' : ItemList} {nodes nodes' : List ItemNode} {s m t : Nat}

/-- Lists of items that are emitted one behind the other are emitted as one. -/
theorem append (h : Emitted A next bodies list nodes s m)
    (h' : Emitted A next bodies' list' nodes' m t) :
    Emitted A next (bodies ++ bodies') (list.append list') (nodes ++ nodes') s t where
  count := by
    rw [List.length_append, ← h.count, ← h'.count]
    rfl
  listed := h.listed.append h'.listed
  exits := List.rel_append h.exits h'.exits

theorem nil (A : Artifact) (next : Label) (s : Nat) : Emitted A next [] ⟨0, []⟩ [] s s :=
  ⟨rfl, .nil s, .nil⟩

/-- An entry without a body. -/
theorem mark {node : ItemNode} (hlt : s < t) (h : Decoder.item A.script s = .ok (node, t)) :
    Emitted A next [] ⟨1, []⟩ [node] s t :=
  ⟨rfl, .cons ⟨hlt, h, rfl⟩ (.nil t), .nil⟩

/-- A body of the first list is placed in the joined one. -/
theorem placed_left (h : Emitted A next bodies list nodes s m) {x : Option Ident} {b : List Stmt}
    {n : Nat} (hp : Placed A bodies list.bodies x b n) :
    Placed A (bodies ++ bodies') (list.append list').bodies x b n := by
  obtain ⟨l, hmem, hn⟩ := hp
  refine ⟨l, ?_, hn⟩
  rw [ItemList.append, List.zip_append h.exits.length_eq]
  exact List.mem_append_left _ hmem

/-- So is a body of the second list. -/
theorem placed_right (h : Emitted A next bodies list nodes s m) {x : Option Ident} {b : List Stmt}
    {n : Nat} (hp : Placed A bodies' list'.bodies x b n) :
    Placed A (bodies ++ bodies') (list.append list').bodies x b n := by
  obtain ⟨l, hmem, hn⟩ := hp
  refine ⟨l, ?_, hn⟩
  rw [ItemList.append, List.zip_append h.exits.length_eq]
  exact List.mem_append_right _ hmem

/-- A mark behind entries leaves their bodies as they are. -/
theorem append_mark {node : ItemNode} (h : Emitted A next bodies list nodes s m) (hlt : m < t)
    (hnode : Decoder.item A.script m = .ok (node, t)) :
    Emitted A next bodies (list.append ⟨1, []⟩) (nodes ++ [node]) s t := by
  have happend := h.append (mark hlt hnode)
  rwa [List.append_nil] at happend

theorem mark_append {node : ItemNode} (h : Emitted A next bodies list nodes m t) (hlt : s < m)
    (hnode : Decoder.item A.script s = .ok (node, m)) :
    Emitted A next bodies ((⟨1, []⟩ : ItemList).append list) (node :: nodes) s t :=
  (mark hlt hnode).append h

theorem placed_append_mark {x : Option Ident} {b : List Stmt} {n : Nat}
    (hp : Placed A bodies list.bodies x b n) :
    Placed A bodies (list.append ⟨1, []⟩).bodies x b n := by
  rwa [ItemList.append, List.append_nil]

end Emitted

/-! ## Entries by their marks -/

section

variable {S : Script} {s t m u : Nat}

/-- A mark with a condition. -/
def Opened (marker : ChoiceMarker) (mark : Nat → ItemNode) : Prop :=
  ∀ (S : Script) (s t : Nat), S.words[s]? = some marker.word → S.exprEnd (s + 1) = .ok t →
    Decoder.item S s = .ok (mark (s + 1), t)

theorem opened_if : Opened .ifMarker .ifMarker := by
  intro S s t hw he
  rw [Decoder.item, Decoder.bind_ok (Decoder.coded_ok hw (ChoiceMarker.ofWord?_word _))]
  exact Decoder.bind_ok (Decoder.expr_ok he)

theorem opened_elseIf : Opened .elseIf .elseIf := by
  intro S s t hw he
  rw [Decoder.item, Decoder.bind_ok (Decoder.coded_ok hw (ChoiceMarker.ofWord?_word _))]
  exact Decoder.bind_ok (Decoder.expr_ok he)

theorem item_else (hw : S.words[s]? = some ChoiceMarker.elseMarker.word) :
    Decoder.item S s = .ok (.elseMarker, s + 1) := by
  rw [Decoder.item, Decoder.bind_ok (Decoder.coded_ok hw (ChoiceMarker.ofWord?_word _))]
  rfl

theorem item_endIf (hw : S.words[s]? = some ChoiceMarker.endIf.word) :
    Decoder.item S s = .ok (.endIf, s + 1) := by
  rw [Decoder.item, Decoder.bind_ok (Decoder.coded_ok hw (ChoiceMarker.ofWord?_word _))]
  rfl

/-- An option is decoded from its words. -/
theorem item_option {n : Nat} {g : Option Nat} {xs : List TextNode}
    (hw : S.words[s]? = some ChoiceMarker.option.word)
    (hn : Decoder.index S (s + 1) = .ok (n, s + 2)) (hg : Decoder.guard S (s + 2) = .ok (g, m))
    (hx : Decoder.counted S (Decoder.segment S) m = .ok (xs, t)) :
    Decoder.item S s = .ok (.option n g xs, t) := by
  rw [Decoder.item, Decoder.bind_ok (Decoder.coded_ok hw (ChoiceMarker.ofWord?_word _))]
  dsimp only
  rw [Decoder.bind_ok hn, Decoder.bind_ok hg, Decoder.bind_ok hx]
  rfl

end

namespace Lower

variable {P : Float → Prop} {r : Registry}

/-- A guard is laid down as one that is decoded. -/
theorem guard_lays (hr : r.Floats P) {g : Option Expr} (hg : ∀ e, g = some e → e.Floats P) :
    Lays P (guard r g) fun A s _ t =>
      ∃ b, Reads (Decoder.guard A.script) (GuardAt P A r) g b s t := by
  cases g with
  | none =>
    refine (emit_lays _).mono ?_
    rintro A s _ t _ _ _ ⟨hw, rfl⟩
    refine ⟨none, by omega, ?_, .none⟩
    rw [Decoder.guard, Decoder.bind_ok (Decoder.word_ok hw)]
    rfl
  | some e =>
    refine (kind_lays hr .bool (hg e rfl) _ (emit_lays _)).mono ?_
    rintro A s _ t hA _ _ ⟨_, ⟨hw, rfl⟩, he⟩
    have hlt := he.expr.bounds.1
    refine ⟨some (s + 1), by omega, ?_, .some he⟩
    rw [Decoder.guard, Decoder.bind_ok (Decoder.word_ok hw), if_neg (by decide)]
    exact Decoder.bind_ok (Decoder.expr_ok (he.expr.exprEnd hA.addressable.words))

/-- A condition is laid down behind its mark. -/
theorem condition_lays (hr : r.Floats P) (marker : ChoiceMarker) {e : Expr} (he : e.Floats P) :
    Lays P (condition r marker e) fun A s _ t =>
      A.script.words[s]? = some marker.word ∧ KindAt P A r .bool e (s + 1) t := by
  refine ((emit_lays _).bind fun _ => (report_lays _).bind fun _ => expr_lays hr e he).mono ?_
  rintro A s _ t _ _ _ ⟨_, _, ⟨hw, rfl⟩, _, _, ⟨hcheck, rfl⟩, he⟩
  exact ⟨hw, he, hcheck⟩

/-- The label that an option leads to is the one behind the choice, or that of the section it names. -/
theorem optionExit_lays (next : Label) (target : Option Ident) :
    Lays P (optionExit next target) fun A s l t =>
      ((target = none → l = next) ∧ ∀ x, target = some x → A.Mentions x l) ∧ t = s := by
  cases target with
  | none =>
    refine (Lays.pure next).mono ?_
    rintro A s l t _ _ _ ⟨rfl, rfl⟩
    exact ⟨⟨fun _ => rfl, by simp⟩, rfl⟩
  | some x =>
    refine (sectionLabel_lays x).mono ?_
    rintro A s l t _ _ _ ⟨hx, rfl⟩
    refine ⟨⟨by simp, ?_⟩, rfl⟩
    intro y hy
    obtain rfl := Option.some.inj hy
    exact hx

/-- The target word of an option leads to its body or, without one, to its exit. -/
theorem optionEntry_lays (exit : Label) (body : Option (List Stmt)) :
    Lays P (optionEntry exit body) fun A s labels t => t = s + 1 ∧
      ∃ l, A.Holds s (A.target l) ∧ (body ≠ none → labels = [⟨l, exit⟩]) ∧
        (body = none → labels = [] ∧ l = exit ∧ A.Leads exit (A.target exit)) := by
  cases body with
  | none =>
    refine ((emitTarget_lays exit).bind fun _ => Lays.pure []).mono ?_
    rintro A s _ t _ _ _ ⟨_, _, ⟨⟨hw, hleads⟩, rfl⟩, rfl, rfl⟩
    exact ⟨rfl, exit, hw, by simp, fun _ => ⟨rfl, rfl, hleads⟩⟩
  | some b =>
    refine (freshLabel_lays.bind fun l => (emitTarget_lays l).bind fun _ =>
      Lays.pure [(⟨l, exit⟩ : BodyLabels)]).mono ?_
    rintro A s _ t _ _ _ ⟨l, _, rfl, _, _, ⟨⟨hw, _⟩, rfl⟩, rfl, rfl⟩
    exact ⟨rfl, l, hw, fun _ => rfl, by simp⟩

/-- The entry of an option's body is a promised label. -/
theorem optionEntry_promised (exit : Label) (body : Option (List Stmt)) {d : Draft}
    (hd : d.Valid P) :
    Promised d (optionEntry exit body d).2 ((optionEntry exit body d).1.map BodyLabels.entry) := by
  cases body with
  | none => exact .nil _ _
  | some b =>
    have hfresh := freshLabel_lays d hd
    have htarget := emitTarget_lays (freshLabel d).1 _ hfresh.valid
    refine ⟨(freshLabel_made hd).after htarget, ?_⟩
    intro l hl
    obtain rfl := List.mem_singleton.mp hl
    exact emitTarget_awaits _ _

/-- What the lowering of items leaves: the entries, and what they say of the items. -/
def Offers (P : Float → Prop) (r : Registry) (next : Label) (is : List ChoiceItem) (A : Artifact)
    (s : Nat) (list : ItemList) (t : Nat) : Prop :=
  ∃ nodes, Emitted A next (ChoiceItem.allBodies is) list nodes s t ∧
    ItemsAt P A r (Placed A (ChoiceItem.allBodies is) list.bodies) (A.target next) is nodes s t

mutual

/-- An item is laid down as its entries, and the labels of its bodies are told with them. -/
theorem item_lays (hr : r.Floats P) (next : Label) : (i : ChoiceItem) → i.Meets (Expr.Floats P) F →
    Lays P (item r next i) fun A s list t => ∃ nodes, Emitted A next i.bodies list nodes s t ∧
      ItemAt P A r (Placed A i.bodies list.bodies) (A.target next) i nodes s t
  | .option g text target body _, h => by
    rw [ChoiceItem.Meets] at h
    unfold item
    refine ((optionExit_lays next target).bind fun exit => (emit_lays _).bind fun _ =>
      (optionEntry_lays exit body).bind fun labels => (guard_lays hr h.1).bind fun _ =>
      (segments_lays hr h.2.1).bind fun _ => Lays.pure (⟨1, labels⟩ : ItemList)).mono ?_
    rintro A s list t hA _ _ ⟨exit, _, ⟨hexit, rfl⟩, _, _, ⟨hw, rfl⟩, labels, _, ⟨rfl, l, hl, hsome, hnone⟩,
      _, m, ⟨g', hg⟩, _, _, ⟨xs, hxs, htext⟩, rfl, rfl⟩
    have hn := Decoder.index_ofNat hl (hA.target_lt l)
    have hitem := item_option hw hn hg.read hxs
    have hlt := hg.lt
    have hlen := htext.length_le fun _ _ _ _ h => h.lt
    rw [ChoiceItem.bodies]
    refine ⟨[.option (A.target l) g' xs], ⟨rfl, .cons ⟨by omega, hitem, rfl⟩ (.nil _), ?_⟩, ?_⟩
    · cases body with
      | none =>
        rw [(hnone rfl).1]
        exact .nil
      | some b =>
        rw [hsome (by simp)]
        exact .cons hexit .nil
    · rw [ItemAt]
      refine ⟨_, g', xs, m, rfl, ?_, ?_, hg.meaning, htext⟩
      · rintro b rfl
        rw [hsome (by simp)]
        exact ⟨_, List.mem_singleton_self _, rfl⟩
      · intro hbody
        obtain ⟨_, rfl, hleads⟩ := hnone hbody
        cases target with
        | none => exact congrArg A.target (hexit.1 rfl)
        | some x => exact ⟨l, hexit.2 x rfl, hleads⟩
  | .filter branches otherwise _, h => by
    rw [ChoiceItem.Meets] at h
    unfold item
    refine ((filterBranches_lays hr next opened_if branches h.2.1).bind fun inside =>
      (filterOtherwise_lays hr next otherwise h.2.2).bind fun last => (emit_lays _).bind fun _ =>
      Lays.pure ((inside.append last).append ⟨1, []⟩)).mono ?_
    rintro A s list t hA _ _ ⟨inside, m, ⟨xs, hxs, hbranches⟩, last, u, ⟨ys, hys, hotherwise⟩, _, _,
      ⟨hw, rfl⟩, rfl, rfl⟩
    rw [ChoiceItem.bodies]
    refine ⟨xs ++ ys ++ [.endIf], (hxs.append hys).append_mark (by omega) (item_endIf hw), ?_⟩
    rw [ItemAt]
    refine ⟨xs, ys, m, u, rfl, BranchesAt.imp ?_ branches hbranches,
      OtherwiseAt.imp ?_ otherwise hotherwise, rfl⟩
    · intro x b n hp
      exact Emitted.placed_append_mark (hxs.placed_left hp)
    · intro x b n hp
      exact Emitted.placed_append_mark (hxs.placed_right hp)

/-- Items are laid down as their entries, one behind another. -/
theorem items_lays (hr : r.Floats P) (next : Label) : (is : List ChoiceItem) →
    ChoiceItem.AllMeet (Expr.Floats P) F is → Lays P (items r next is) (Offers P r next is)
  | [], _ => by
    unfold items
    refine (Lays.pure _).mono ?_
    rintro A s list t _ _ _ ⟨rfl, rfl⟩
    refine ⟨[], .nil A next _, ?_⟩
    rw [ItemsAt]
    exact ⟨rfl, rfl⟩
  | i :: is, h => by
    rw [ChoiceItem.AllMeet] at h
    unfold items
    refine ((item_lays hr next i h.1).bind fun first => (items_lays hr next is h.2).bind fun rest =>
      Lays.pure (first.append rest)).mono ?_
    rintro A s list t _ _ _ ⟨first, m, ⟨xs, hxs, hi⟩, rest, _, ⟨ys, hys, his⟩, rfl, rfl⟩
    refine ⟨xs ++ ys, hxs.append hys, ?_⟩
    rw [ItemsAt]
    exact ⟨xs, ys, m, rfl, hi.imp fun _ _ _ => hxs.placed_left,
      his.imp fun _ _ _ => hxs.placed_right⟩

/-- The branches of a filter are laid down as their marks with the entries behind them. -/
theorem filterBranches_lays (hr : r.Floats P) (next : Label) {marker : ChoiceMarker}
    {mark : Nat → ItemNode} (hmark : Opened marker mark) :
    (bs : List (Expr × List ChoiceItem)) → ChoiceItem.BranchesMeet (Expr.Floats P) F bs →
      Lays P (filterBranches r next marker bs) fun A s list t => ∃ nodes,
        Emitted A next (ChoiceItem.branchBodies bs) list nodes s t ∧
        BranchesAt P A r (Placed A (ChoiceItem.branchBodies bs) list.bodies) (A.target next) mark bs
          nodes s t
  | [], _ => by
    unfold filterBranches
    refine (Lays.pure _).mono ?_
    rintro A s list t _ _ _ ⟨rfl, rfl⟩
    refine ⟨[], .nil A next _, ?_⟩
    rw [BranchesAt]
    exact ⟨rfl, rfl⟩
  | (e, is) :: rest, h => by
    rw [ChoiceItem.BranchesMeet] at h
    unfold filterBranches
    refine ((condition_lays hr marker h.1.1).bind fun _ => (items_lays hr next is h.1.2).bind
      fun first => (filterBranches_lays hr next opened_elseIf rest h.2).bind fun others =>
      Lays.pure (((⟨1, []⟩ : ItemList).append first).append others)).mono ?_
    rintro A s list t hA _ _ ⟨_, m, ⟨hw, he⟩, first, u, ⟨xs, hxs, his⟩, others, _, ⟨ys, hys, hrest⟩,
      rfl, rfl⟩
    have hlt := he.expr.bounds.1
    have hnode := hmark A.script s m hw (he.expr.exprEnd hA.addressable.words)
    have hfirst := hxs.mark_append (by omega) hnode
    rw [ChoiceItem.branchBodies]
    refine ⟨mark (s + 1) :: (xs ++ ys), hfirst.append hys, ?_⟩
    rw [BranchesAt]
    refine ⟨xs, ys, m, u, rfl, he, ItemsAt.imp ?_ is his, BranchesAt.imp ?_ rest hrest⟩
    · intro x b n hp
      exact hfirst.placed_left hp
    · intro x b n hp
      exact hfirst.placed_right hp

/-- The items behind the branches of a filter are laid down behind their mark. -/
theorem filterOtherwise_lays (hr : r.Floats P) (next : Label) : (o : Option (List ChoiceItem)) →
    ChoiceItem.OtherwiseMeets (Expr.Floats P) F o →
      Lays P (filterOtherwise r next o) fun A s list t => ∃ nodes,
        Emitted A next (ChoiceItem.otherwiseBodies o) list nodes s t ∧
        OtherwiseAt P A r (Placed A (ChoiceItem.otherwiseBodies o) list.bodies) (A.target next) o
          nodes s t
  | none, _ => by
    unfold filterOtherwise
    refine (Lays.pure _).mono ?_
    rintro A s list t _ _ _ ⟨rfl, rfl⟩
    refine ⟨[], .nil A next _, ?_⟩
    rw [OtherwiseAt]
    exact ⟨rfl, rfl⟩
  | some is, h => by
    rw [ChoiceItem.OtherwiseMeets] at h
    unfold filterOtherwise
    refine ((emit_lays _).bind fun _ => (items_lays hr next is h).bind fun list =>
      Lays.pure ((⟨1, []⟩ : ItemList).append list)).mono ?_
    rintro A s list t _ _ _ ⟨_, _, ⟨hw, rfl⟩, inside, _, ⟨xs, hxs, his⟩, rfl, rfl⟩
    rw [ChoiceItem.otherwiseBodies]
    refine ⟨.elseMarker :: xs, hxs.mark_append (by omega) (item_else hw), ?_⟩
    rw [OtherwiseAt]
    exact ⟨xs, rfl, his⟩

end

/-! ## Labels of bodies -/

/-- The labels that bodies are entered at. -/
def ItemList.entries (list : ItemList) : List Label := list.bodies.map BodyLabels.entry

@[simp] theorem ItemList.entries_append (a b : ItemList) :
    (a.append b).entries = a.entries ++ b.entries :=
  List.map_append

mutual

/-- The lowering of an item hands out new labels for the bodies of its options. -/
theorem item_promised (hr : r.Floats P) (next : Label) : (i : ChoiceItem) →
    i.Meets (Expr.Floats P) F → {d : Draft} → d.Valid P →
      Promised d (item r next i d).2 (item r next i d).1.entries
  | .option g text target body _, h, d, hd => by
    rw [ChoiceItem.Meets] at h
    unfold item
    have hexit := optionExit_lays next target d hd
    have hmark := emit_lays ChoiceMarker.option.word _ hexit.valid
    have hentry := optionEntry_lays (optionExit next target d).1 body _ hmark.valid
    have hguard := guard_lays hr h.1 _ hentry.valid
    have htext := segments_lays hr h.2.1 _ hguard.valid
    have hmade := optionEntry_promised (optionExit next target d).1 body hmark.valid
    exact .before hexit (.before hmark ((hmade.after hguard).after htext))
  | .filter branches otherwise _, h, d, hd => by
    rw [ChoiceItem.Meets] at h
    unfold item
    have hbranches := filterBranches_lays hr next opened_if branches h.2.1 d hd
    have hotherwise := filterOtherwise_lays hr next otherwise h.2.2 _ hbranches.valid
    have hmark := emit_lays ChoiceMarker.endIf.word _ hotherwise.valid
    have hmade := (filterBranches_promised hr next branches h.2.1 hd).append
      (filterOtherwise_promised hr next otherwise h.2.2 hbranches.valid) hbranches hotherwise
    simp only [bind_apply, pure_apply, ItemList.entries_append]
    exact (List.append_nil _).symm ▸ hmade.after hmark

/-- The entries of the bodies in items are promised labels. -/
theorem items_promised (hr : r.Floats P) (next : Label) : (is : List ChoiceItem) →
    ChoiceItem.AllMeet (Expr.Floats P) F is → {d : Draft} → d.Valid P →
      Promised d (items r next is d).2 (items r next is d).1.entries
  | [], _, d, _ => by
    unfold items
    exact .nil _ _
  | i :: is, h, d, hd => by
    rw [ChoiceItem.AllMeet] at h
    unfold items
    have hi := item_lays hr next i h.1 d hd
    simp only [bind_apply, pure_apply, ItemList.entries_append]
    exact (item_promised hr next i h.1 hd).append (items_promised hr next is h.2 hi.valid) hi
      (items_lays hr next is h.2 _ hi.valid)

/-- So are those of the bodies in the branches of a filter. -/
theorem filterBranches_promised (hr : r.Floats P) (next : Label) {marker : ChoiceMarker} :
    (bs : List (Expr × List ChoiceItem)) → ChoiceItem.BranchesMeet (Expr.Floats P) F bs →
      {d : Draft} → d.Valid P → Promised d (filterBranches r next marker bs d).2
        (filterBranches r next marker bs d).1.entries
  | [], _, d, _ => by
    unfold filterBranches
    exact .nil _ _
  | (e, is) :: rest, h, d, hd => by
    rw [ChoiceItem.BranchesMeet] at h
    unfold filterBranches
    have hcondition := condition_lays hr marker h.1.1 d hd
    have his := items_lays hr next is h.1.2 _ hcondition.valid
    have hrest := filterBranches_lays hr next opened_elseIf rest h.2 _ his.valid
    have hmade := (items_promised hr next is h.1.2 hcondition.valid).append
      (filterBranches_promised hr next rest h.2 his.valid) his hrest
    simp only [bind_apply, pure_apply, ItemList.entries_append]
    exact .before hcondition hmade

/-- So are those of the bodies behind the branches. -/
theorem filterOtherwise_promised (hr : r.Floats P) (next : Label) : (o : Option (List ChoiceItem)) →
    ChoiceItem.OtherwiseMeets (Expr.Floats P) F o → {d : Draft} → d.Valid P →
      Promised d (filterOtherwise r next o d).2 (filterOtherwise r next o d).1.entries
  | none, _, d, _ => by
    unfold filterOtherwise
    exact .nil _ _
  | some is, h, d, hd => by
    rw [ChoiceItem.OtherwiseMeets] at h
    unfold filterOtherwise
    have hmark := emit_lays ChoiceMarker.elseMarker.word d hd
    simp only [bind_apply, pure_apply, ItemList.entries_append]
    exact .before hmark (items_promised hr next is h hmark.valid)

end

mutual

/-- There is a label for each body. -/
theorem length_item (r : Registry) (next : Label) : (i : ChoiceItem) → (d : Draft) →
    (item r next i d).1.bodies.length = i.bodies.length
  | .option _ _ target body _, d => by
    rw [ChoiceItem.bodies, item]
    cases body <;> rfl
  | .filter branches otherwise _, d => by
    rw [ChoiceItem.bodies, item, List.length_append, ← length_filterBranches r next .ifMarker branches d,
      ← length_filterOtherwise r next otherwise (filterBranches r next .ifMarker branches d).2]
    simp only [bind_apply, pure_apply, ItemList.append, List.append_nil, List.length_append]

/-- Items come with the labels of as many bodies as they have. -/
theorem length_items (r : Registry) (next : Label) : (is : List ChoiceItem) → (d : Draft) →
    (items r next is d).1.bodies.length = (ChoiceItem.allBodies is).length
  | [], d => by
    rw [ChoiceItem.allBodies, items]
    rfl
  | i :: is, d => by
    rw [ChoiceItem.allBodies, items, List.length_append, ← length_item r next i d,
      ← length_items r next is (item r next i d).2]
    simp only [bind_apply, pure_apply, ItemList.append, List.length_append]

/-- So do the branches of a filter. -/
theorem length_filterBranches (r : Registry) (next : Label) (marker : ChoiceMarker) :
    (bs : List (Expr × List ChoiceItem)) → (d : Draft) →
      (filterBranches r next marker bs d).1.bodies.length = (ChoiceItem.branchBodies bs).length
  | [], d => by
    rw [ChoiceItem.branchBodies, filterBranches]
    rfl
  | (e, is) :: rest, d => by
    rw [ChoiceItem.branchBodies, filterBranches, List.length_append,
      ← length_items r next is (condition r marker e d).2, ← length_filterBranches r next .elseIf rest
        (items r next is (condition r marker e d).2).2]
    simp only [bind_apply, pure_apply, ItemList.append, List.nil_append, List.length_append]

/-- So do the items behind the branches. -/
theorem length_filterOtherwise (r : Registry) (next : Label) : (o : Option (List ChoiceItem)) →
    (d : Draft) →
      (filterOtherwise r next o d).1.bodies.length = (ChoiceItem.otherwiseBodies o).length
  | none, d => by
    rw [ChoiceItem.otherwiseBodies, filterOtherwise]
    rfl
  | some is, d => by
    rw [ChoiceItem.otherwiseBodies, filterOtherwise,
      ← length_items r next is (emit ChoiceMarker.elseMarker.word d).2]
    simp only [bind_apply, pure_apply, ItemList.append, List.nil_append]

end

end Lower

end Colloquy
