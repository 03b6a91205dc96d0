import Colloquy.Host.Table
import Colloquy.Proofs.Catalog

/-!
# Hosts that keep to a registry

A script is checked against a registry and played against a host.  `Host.Serves` says what the script
may rely on when it is played: the variables of the registry are there and hold values of their kinds,
and its functions answer calls that fit their parameters with values of the kinds they declare.

A table host that was put together by its builders (`TableHost.Built`) serves its own registry for good, if
its functions keep to their declarations: it is stocked at first (`TableHost.Built.stocked`), and a stocked
host answers as the registry says and stays stocked (`TableHost.serves`).
-/

namespace Colloquy

theorem Value.kind_ne_undefined (v : Value) : v.kind ≠ .undefined := by
  cases v <;> simp [Value.kind]

/-- Arguments are of the kinds of the first parameters, as many as there are arguments. -/
def FunctionDecl.Takes (f : FunctionDecl) (args : List Value) : Prop :=
  args.map Value.kind <+: f.params.map Parameter.kind

/-- What a host remembers satisfies `I` from the start on, and then the host answers as the registry
says. -/
structure Host.Serves {σ : Type} (h : Host σ) (r : Registry) (I : σ → Prop) : Prop where
  get {memory : σ} {name : String} {x : VariableDecl} : I memory → r.findVariable? name = some x →
    ∃ v memory', h.get name memory = (some v, memory') ∧ v.kind = x.kind ∧ I memory'
  set {memory : σ} {name : String} {x : VariableDecl} {v : Value} : I memory →
    r.findVariable? name = some x → v.kind = x.kind →
    ∃ memory', h.set name v memory = (.ok (), memory') ∧ I memory'
  call {memory : σ} {name : String} {f : FunctionDecl} {args : List Value} : I memory →
    r.findFunction? name = some f → f.awaitable = false → f.Takes args →
    ∃ v memory', h.call name args memory = (.ok v, memory') ∧ v.kind = f.returns ∧ I memory'
  await {memory : σ} {name : String} {f : FunctionDecl} {args : List Value} : I memory →
    r.findFunction? name = some f → f.awaitable = true → f.Takes args →
    ∃ a memory', h.await name args memory = (.ok a, memory') ∧
      (∀ v, a = .ready v → v.kind = f.returns) ∧ I memory'
  nameOf {memory : σ} (v : Value) : I memory →
    ∃ name memory', h.nameOf v memory = (.ok name, memory') ∧ I memory'

/-- The variables of the registry are of kinds that values have. -/
theorem Host.Serves.kind_ne_undefined {σ : Type} {h : Host σ} {r : Registry} {I : σ → Prop}
    (hserves : h.Serves r I) {memory : σ} (hI : I memory) {name : String} {x : VariableDecl}
    (hx : r.findVariable? name = some x) : x.kind ≠ .undefined := by
  obtain ⟨v, _, -, hkind, -⟩ := hserves.get hI hx
  rw [← hkind]
  exact v.kind_ne_undefined

/-! ## Table hosts -/

/-- Whether a function is awaited. -/
def Behaviour.isAwaited : Behaviour → Bool
  | .plain _ => false
  | .awaited _ => true

/-- A function never fails on arguments that its declaration takes, and what it returns is of the kind
that it declares.  What is returned later is left to whoever delivers it. -/
def Behaviour.KeepsTo (f : FunctionDecl) : Behaviour → Prop
  | .plain run => ∀ calls args, f.Takes args → ∃ v, run calls args = .ok v ∧ v.kind = f.returns
  | .awaited run => ∀ calls args, f.Takes args →
      ∃ a, run calls args = .ok a ∧ ∀ v, a = .ready v → v.kind = f.returns

namespace TableHost

/-- A host that was put together by its builders. -/
inductive Built : TableHost → Prop where
  | empty : Built .empty
  | withVariable {m : TableHost} (name : String) (value : Value) :
      Built m → Built (m.withVariable name value)
  | withFunction {m : TableHost} (f : FunctionDecl)
      (run : List (List Value) → List Value → Except HostError Value) :
      Built m → Built (m.withFunction f run)
  | withAwaitable {m : TableHost} (f : FunctionDecl)
      (run : List (List Value) → List Value → Except HostError Answer) :
      Built m → Built (m.withAwaitable f run)
  | withSpeakerName {m : TableHost} (speaker name : String) :
      Built m → Built (m.withSpeakerName speaker name)

/-- The functions of a host keep to what its registry declares. -/
def Reliable (m : TableHost) : Prop :=
  ∀ name f g, m.registry.findFunction? name = some f → m.functions.find? name = some g →
    g.behaviour.KeepsTo f

/-- What stays true of a host that was built: its tables hold what a registry declares. -/
structure Stocked (r : Registry) (m : TableHost) : Prop where
  registry : m.registry = r
  values : ∀ name x, r.findVariable? name = some x →
    ∃ v, m.values.find? name = some v ∧ v.kind = x.kind
  functions : ∀ name f, r.findFunction? name = some f →
    ∃ g, m.functions.find? name = some g ∧ g.behaviour.isAwaited = f.awaitable ∧
      g.behaviour.KeepsTo f

variable {r : Registry} {m : TableHost}

/-- Every variable of the registry has a value of its kind. -/
theorem Built.values (hm : m.Built) {name : String} {x : VariableDecl}
    (hx : m.registry.findVariable? name = some x) :
    ∃ v, m.values.find? name = some v ∧ v.kind = x.kind := by
  induction hm with
  | empty => cases hx
  | @withVariable m name' value _ ih =>
    show ∃ v, (m.values.insert name' value).find? name = some v ∧ _
    have hfind : (m.registry.variableDecls.insert name' ⟨name', value.kind⟩).find? name = some x := hx
    rw [Catalog.find?_insert] at hfind ⊢
    by_cases hname : name = name'
    · rw [if_pos hname] at hfind ⊢
      cases hfind
      exact ⟨value, rfl, rfl⟩
    · rw [if_neg hname] at hfind ⊢
      exact ih hfind
  | withFunction f run _ ih => exact ih hx
  | withAwaitable f run _ ih => exact ih hx
  | withSpeakerName speaker name _ ih => exact ih hx

/-- A function under its declaration. -/
theorem find?_withBehaviour (f : FunctionDecl) (b : Behaviour) {name : String} {f' : FunctionDecl}
    (hf : (m.withBehaviour f b).registry.findFunction? name = some f') :
    (f' = f ∧ (m.withBehaviour f b).functions.find? name = some ⟨b, []⟩) ∨
      (m.registry.findFunction? name = some f' ∧
        (m.withBehaviour f b).functions.find? name = m.functions.find? name) := by
  have hfind : (m.registry.functions.insert f.name f).find? name = some f' := hf
  show _ ∧ (m.functions.insert f.name ⟨b, []⟩).find? name = _ ∨
    _ ∧ (m.functions.insert f.name ⟨b, []⟩).find? name = _
  rw [Catalog.find?_insert] at hfind ⊢
  by_cases hname : name = f.name
  · rw [if_pos hname] at hfind ⊢
    exact .inl ⟨(Option.some.inj hfind).symm, rfl⟩
  · rw [if_neg hname] at hfind ⊢
    exact .inr ⟨hfind, rfl⟩

theorem Reliable.empty : Reliable .empty := by
  rintro name f g ⟨⟩

theorem Reliable.withVariable (hm : m.Reliable) (name : String) (value : Value) :
    (m.withVariable name value).Reliable :=
  fun name f g hf hg => hm name f g hf hg

/-- A host stays reliable if a function is added that keeps to its declaration. -/
theorem Reliable.withBehaviour (hm : m.Reliable) {f : FunctionDecl} {b : Behaviour}
    (hkeeps : b.KeepsTo f) : (m.withBehaviour f b).Reliable := by
  intro name f' g hf hg
  obtain ⟨rfl, hfind⟩ | ⟨hf, hfind⟩ := find?_withBehaviour f b hf
  · rw [hfind] at hg
    cases hg
    exact hkeeps
  · rw [hfind] at hg
    exact hm name f' g hf hg

/-- Every function of the registry is there, and is awaited if its declaration says so. -/
theorem Built.functions (hm : m.Built) {name : String} {f : FunctionDecl}
    (hf : m.registry.findFunction? name = some f) :
    ∃ g, m.functions.find? name = some g ∧ g.behaviour.isAwaited = f.awaitable := by
  induction hm with
  | empty => cases hf
  | withVariable name value _ ih => exact ih hf
  | withFunction f' run _ ih =>
    obtain ⟨rfl, hfind⟩ | ⟨hf, hfind⟩ := find?_withBehaviour { f' with awaitable := false } _ hf
    · exact ⟨_, hfind, rfl⟩
    · rw [TableHost.withFunction, hfind]
      exact ih hf
  | withAwaitable f' run _ ih =>
    obtain ⟨rfl, hfind⟩ | ⟨hf, hfind⟩ := find?_withBehaviour { f' with awaitable := true } _ hf
    · exact ⟨_, hfind, rfl⟩
    · rw [TableHost.withAwaitable, hfind]
      exact ih hf
  | withSpeakerName speaker name _ ih => exact ih hf

/-- A table host that was built from its registry holds what the registry declares. -/
theorem Built.stocked (hm : m.Built) (hreliable : m.Reliable) : m.Stocked m.registry where
  registry := rfl
  values _ _ hx := hm.values hx
  functions name f hf := by
    obtain ⟨g, hg, hawaited⟩ := hm.functions hf
    exact ⟨g, hg, hawaited, hreliable name f g hf hg⟩

/-- Noting a call changes no behaviour. -/
theorem Stocked.noteCall (hm : m.Stocked r) {name : String} {g : HostFunction}
    (hg : m.functions.find? name = some g) (args : List Value) :
    (m.noteCall name g args).Stocked r where
  registry := hm.registry
  values := hm.values
  functions name' f hf := by
    obtain ⟨g', hg', hawaited, hkeeps⟩ := hm.functions name' f hf
    show ∃ g', (m.functions.insert name { g with calls := g.calls ++ [args] }).find? name' = _ ∧ _
    rw [Catalog.find?_insert]
    by_cases hname : name' = name
    · rw [hname, hg] at hg'
      cases hg'
      rw [if_pos hname]
      exact ⟨_, rfl, hawaited, hkeeps⟩
    · rw [if_neg hname]
      exact ⟨g', hg', hawaited, hkeeps⟩

/-- A stocked host stays stocked when a variable gets a value of its kind. -/
theorem Stocked.store (hm : m.Stocked r) {name : String} {x : VariableDecl}
    (hx : r.findVariable? name = some x) {v : Value} (hv : v.kind = x.kind) :
    { m with values := m.values.insert name v }.Stocked r where
  registry := hm.registry
  values name' y hy := by
    show ∃ w, (m.values.insert name v).find? name' = some w ∧ _
    rw [Catalog.find?_insert]
    by_cases hname : name' = name
    · rw [if_pos hname]
      rw [hname, hx] at hy
      cases hy
      exact ⟨v, rfl, hv⟩
    · rw [if_neg hname]
      exact hm.values name' y hy
  functions := hm.functions

/-- A stocked host answers as its registry says, and stays stocked. -/
theorem serves (r : Registry) : TableHost.host.Serves r (Stocked r) where
  get {m name x} hm hx := by
    obtain ⟨v, hv, hkind⟩ := hm.values name x hx
    exact ⟨v, m, by simp [host, hv], hkind, hm⟩
  set {m name x v} hm hx hv := by
    have hkind : m.variableKind name = x.kind := by rw [variableKind, hm.registry, hx]
    have hdefined : x.kind.isDefined = true := by
      rw [← hv]
      cases v <;> rfl
    refine ⟨_, ?_, hm.store hx hv⟩
    simp [host, set, hkind, hdefined, hv]
  call {m name f args} hm hf hplain hargs := by
    obtain ⟨⟨b, calls⟩, hg, hawaited, hkeeps⟩ := hm.functions name f hf
    cases b with
    | plain run =>
      obtain ⟨v, hrun, hkind⟩ := hkeeps calls args hargs
      refine ⟨v, _, ?_, hkind, hm.noteCall hg args⟩
      simp [host, call, hg, hrun]
    | awaited run =>
      rw [hplain] at hawaited
      cases hawaited
  await {m name f args} hm hf hawaitable hargs := by
    obtain ⟨⟨b, calls⟩, hg, hawaited, hkeeps⟩ := hm.functions name f hf
    cases b with
    | awaited run =>
      obtain ⟨a, hrun, hkind⟩ := hkeeps calls args hargs
      refine ⟨a, _, ?_, hkind, hm.noteCall hg args⟩
      simp [host, await, hg, hrun]
    | plain run =>
      rw [hawaitable] at hawaited
      cases hawaited
  nameOf {m} v hm := ⟨m.nameOf v, m, rfl, hm⟩

end TableHost

end Colloquy
