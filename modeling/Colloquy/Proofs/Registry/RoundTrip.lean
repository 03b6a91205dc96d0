import Colloquy.Proofs.Code.Stored
import Colloquy.Proofs.Registry.Named

/-!
# Registry files are read back

The file of a registry lists its definitions one by one, and each of them is read from its document as it
was, but for the floats among its defaults: a float is read as what the shortest number that stands for it is
read as.  So a registry is read back just if all of these floats survive, and otherwise only they differ
(`Registry.parse?_render_eq_some`).

Whatever a file lists, in memory each definition stands under its own name, and of several of one name the
last one is found (`Registry.parse?_listed`).
-/

namespace Colloquy

/-! ## Defaults -/

/-- What a value is read back as: a float as what its number is read as, anything else as it is. -/
def Value.Reread : Value → Value → Prop
  | .float x, w => ∃ y, (Json.Number.ofFloat x).toFloat? = some y ∧ w = .float y
  | v, w => w = v

/-- A value that a document can hold as a default: it is not void, and if it is a float, then a finite one. -/
def Value.Storable : Value → Prop
  | .float x => Number.Finite x
  | .void => False
  | _ => True

/-- A value that is read back as itself. -/
def Value.Survives : Value → Prop
  | .float x => Number.Survives x
  | _ => True

instance : DecidablePred Value.Storable
  | .float x => inferInstanceAs (Decidable (Number.Finite x))
  | .void => inferInstanceAs (Decidable False)
  | .bool _ | .string _ => inferInstanceAs (Decidable True)

instance : DecidablePred Value.Survives
  | .float x => inferInstanceAs (Decidable (Number.Survives x))
  | .void | .bool _ | .string _ => inferInstanceAs (Decidable True)

theorem Value.reread_self {v : Value} : v.Reread v ↔ v.Survives := by
  cases v with
  | float x => simp [Value.Reread, Value.Survives, Number.Survives]
  | bool b | string s | void => exact iff_of_true rfl trivial

theorem Value.toJson_float {x : Float} (h : (Value.float x).Storable) :
    (Value.float x).toJson = .number (.ofFloat x) := if_pos h

/-- The document of a default that can be stored is not null, so it is told from one that is not there. -/
theorem Value.toJson_ne_null {v : Value} (h : v.Storable) : v.toJson ≠ .null := by
  cases v with
  | float x =>
    rw [Value.toJson_float h]
    exact Json.noConfusion
  | void => exact h.elim
  | bool b | string s => exact Json.noConfusion

/-- A default is read back as itself, or as the float that its number is read as. -/
theorem Value.ofJson?_toJson {v w : Value} (h : v.Storable) :
    Value.ofJson? v.toJson = some w ↔ v.Reread w := by
  cases v with
  | float x =>
    rw [Value.toJson_float h, Value.ofJson?, Option.map_eq_some_iff, Value.Reread]
    simp only [eq_comm]
  | void => exact h.elim
  | bool b | string s => exact Option.some_inj.trans eq_comm

/-- The document of a default is written. -/
theorem Value.written_toJson (v : Value) : v.toJson.Written := by
  cases v with
  | float x => exact Json.written_ofFloat x
  | bool b => exact Json.written_bool b
  | string s => exact Json.written_string s
  | void =>
    rw [Value.toJson, Json.Written]
    trivial

/-! ## Definitions -/

theorem Kind.ofJson?_name (k : Kind) : Kind.ofJson? (.string k.name) = some k := by
  cases k <;> decide

/-- What a parameter is read back as. -/
structure Parameter.Reread (p q : Parameter) : Prop where
  kind : q.kind = p.kind
  fallback : Option.Rel Value.Reread p.fallback q.fallback

/-- A parameter is read back as itself just if its default survives. -/
theorem Parameter.reread_self {p : Parameter} : p.Reread p ↔ ∀ v ∈ p.fallback, v.Survives := by
  obtain ⟨kind, _ | v⟩ := p
  · exact iff_of_true ⟨rfl, .none⟩ fun _ h => absurd h (Option.not_mem_none _)
  · constructor
    · rintro ⟨-, hv⟩ w hw
      obtain rfl := Option.mem_some_iff.mp hw
      cases hv with
      | some hv => exact Value.reread_self.mp hv
    · exact fun h => ⟨rfl, .some (Value.reread_self.mpr (h v rfl))⟩

/-- A default that is there is read as a value. -/
theorem Parameter.fallbackOfJson?_some {j : Json} (h : j ≠ .null) :
    Parameter.fallbackOfJson? (some j) = (Value.ofJson? j).map some := by
  cases j with
  | null => exact absurd rfl h
  | _ => rfl

/-- A parameter without a default is read back as it was. -/
theorem Parameter.ofJson?_bare (kind : Kind) :
    Parameter.ofJson? (Parameter.toJson ⟨kind, none⟩) = some ⟨kind, none⟩ := by
  have hrecord : (Parameter.toJson ⟨kind, none⟩).record? ["type", "default"]
      = some [some (.string kind.name), none] := by
    simp [Parameter.toJson, Json.record?, Json.member?]
  rw [Parameter.ofJson?, hrecord]
  simp only [Option.bind_eq_bind, Option.bind_some, Kind.ofJson?_name, Parameter.fallbackOfJson?]
  rfl

/-- A parameter with a default is read back if its default is. -/
theorem Parameter.ofJson?_default (kind : Kind) {v : Value} (hv : v.Storable) :
    Parameter.ofJson? (Parameter.toJson ⟨kind, some v⟩)
      = (Value.ofJson? v.toJson).map fun w => ⟨kind, some w⟩ := by
  have hrecord : (Parameter.toJson ⟨kind, some v⟩).record? ["type", "default"]
      = some [some (.string kind.name), some v.toJson] := by
    simp [Parameter.toJson, Json.record?, Json.member?]
  rw [Parameter.ofJson?, hrecord]
  simp only [Option.bind_eq_bind, Option.bind_some, Kind.ofJson?_name,
    Parameter.fallbackOfJson?_some (Value.toJson_ne_null hv)]
  cases Value.ofJson? v.toJson <;> rfl

/-- A parameter is read back with its kind, and with its default as that is read. -/
theorem Parameter.ofJson?_toJson {p q : Parameter} (h : ∀ v ∈ p.fallback, v.Storable) :
    Parameter.ofJson? p.toJson = some q ↔ p.Reread q := by
  obtain ⟨kind', fallback'⟩ := q
  obtain ⟨kind, _ | v⟩ := p
  · rw [Parameter.ofJson?_bare, Option.some_inj]
    constructor
    · rintro ⟨⟩
      exact ⟨rfl, .none⟩
    · rintro ⟨rfl, hfallback⟩
      cases hfallback with
      | none => rfl
  · have hv : v.Storable := h v rfl
    rw [Parameter.ofJson?_default kind hv, Option.map_eq_some_iff]
    constructor
    · rintro ⟨w, hw, ⟨⟩⟩
      exact ⟨rfl, .some ((Value.ofJson?_toJson hv).mp hw)⟩
    · rintro ⟨rfl, hfallback⟩
      cases hfallback with
      | some hw => exact ⟨_, (Value.ofJson?_toJson hv).mpr hw, rfl⟩

/-- The document of a parameter is written. -/
theorem Parameter.written_toJson (p : Parameter) : p.toJson.Written := by
  rw [Parameter.toJson, Json.Written, Json.MembersWritten]
  refine ⟨Json.written_string _, ?_⟩
  cases p.fallback with
  | none => simp only [Json.MembersWritten]
  | some v =>
    rw [Json.MembersWritten, Json.MembersWritten]
    exact ⟨v.written_toJson, trivial⟩

theorem VariableDecl.written_toJson (v : VariableDecl) : v.toJson.Written := by
  rw [VariableDecl.toJson, Json.Written]
  simp only [Json.MembersWritten]
  exact ⟨Json.written_string _, Json.written_string _, trivial⟩

/-- A variable is read back as itself. -/
theorem VariableDecl.ofJson?_toJson (v : VariableDecl) : VariableDecl.ofJson? v.toJson = some v := by
  have hrecord : v.toJson.record? ["name", "type"] = some [some (.string v.name), some (.string v.kind.name)] := by
    simp [VariableDecl.toJson, Json.record?, Json.member?]
  rw [VariableDecl.ofJson?, hrecord]
  simp only [Option.bind_eq_bind, Option.bind_some, Kind.ofJson?_name]
  rfl

/-- What a function is read back as. -/
structure FunctionDecl.Reread (f g : FunctionDecl) : Prop where
  name : g.name = f.name
  returns : g.returns = f.returns
  params : List.Forall₂ Parameter.Reread f.params g.params
  awaitable : g.awaitable = f.awaitable

/-- A function is read back as itself just if the defaults of its parameters survive. -/
theorem FunctionDecl.reread_self {f : FunctionDecl} :
    f.Reread f ↔ ∀ p ∈ f.params, ∀ v ∈ p.fallback, v.Survives := by
  constructor
  · intro h p hp
    exact Parameter.reread_self.mp (List.forall₂_same.mp h.params p hp)
  · intro h
    exact ⟨rfl, rfl, List.forall₂_same.mpr fun p hp => Parameter.reread_self.mpr (h p hp), rfl⟩

/-- Functions that are read back have their names. -/
theorem FunctionDecl.names_eq {fs gs : List FunctionDecl} (h : List.Forall₂ FunctionDecl.Reread fs gs) :
    gs.map FunctionDecl.name = fs.map FunctionDecl.name := by
  induction h with
  | nil => rfl
  | cons hf _ ih => rw [List.map_cons, List.map_cons, hf.name, ih]

/-- A function is read back with its parameters as they are read. -/
theorem FunctionDecl.ofJson?_toJson {f g : FunctionDecl} (h : ∀ p ∈ f.params, ∀ v ∈ p.fallback, v.Storable) :
    FunctionDecl.ofJson? f.toJson = some g ↔ f.Reread g := by
  have hrecord : f.toJson.record? ["name", "returns", "params", "awaitable"]
      = some [some (.string f.name), some (.string f.returns.name),
        some (.array (f.params.map Parameter.toJson)), some (.bool f.awaitable)] := by
    simp [FunctionDecl.toJson, Json.record?, Json.member?]
  have hread : FunctionDecl.ofJson? f.toJson
      = ((Json.array (f.params.map Parameter.toJson)).asListOf? Parameter.ofJson?).map
        fun params => { f with params } := by
    rw [FunctionDecl.ofJson?, hrecord]
    simp only [Option.bind_eq_bind, Option.bind_some, Kind.ofJson?_name, Json.asString?, optionalField,
      Json.asBool?]
    cases (Json.array (f.params.map Parameter.toJson)).asListOf? Parameter.ofJson? <;> rfl
  have hparams : ∀ p ∈ f.params, ∀ q, Parameter.ofJson? p.toJson = some q ↔ p.Reread q :=
    fun p hp _ => Parameter.ofJson?_toJson (h p hp)
  rw [hread, Option.map_eq_some_iff]
  constructor
  · rintro ⟨params, hlist, rfl⟩
    exact ⟨rfl, rfl, (Json.asListOf?_map_eq_some hparams).mp hlist, rfl⟩
  · obtain ⟨name, returns, params, awaitable⟩ := g
    rintro ⟨rfl, rfl, hlist, rfl⟩
    exact ⟨params, (Json.asListOf?_map_eq_some hparams).mpr hlist, rfl⟩

/-- The document of a function is written. -/
theorem FunctionDecl.written_toJson (f : FunctionDecl) : f.toJson.Written := by
  rw [FunctionDecl.toJson, Json.Written]
  simp only [Json.MembersWritten]
  exact ⟨Json.written_string _, Json.written_string _, Json.written_map Parameter.written_toJson _,
    Json.written_bool _, trivial⟩

/-! ## Registries -/

namespace Registry

/-- All defaults of the functions of a registry. -/
def allDefaults (r : Registry) : List Value :=
  r.functions.values.flatMap fun f => f.params.filterMap Parameter.fallback

/-- Each definition of a registry stands under its name. -/
structure Keyed (r : Registry) : Prop where
  variableDecls : r.variableDecls.Keyed (·.name)
  functions : r.functions.Keyed (·.name)

theorem keyed_empty : Registry.empty.Keyed := ⟨Catalog.keyed_empty, Catalog.keyed_empty⟩

theorem Keyed.addVariable {r : Registry} (h : r.Keyed) (v : VariableDecl) : (r.addVariable v).Keyed :=
  ⟨h.variableDecls.insert v, h.functions⟩

theorem Keyed.addFunction {r : Registry} (h : r.Keyed) (f : FunctionDecl) : (r.addFunction f).Keyed :=
  ⟨h.variableDecls, h.functions.insert f⟩

/-- The defaults of a registry are those of the parameters of its functions. -/
theorem forall_allDefaults {r : Registry} {P : Value → Prop} :
    (∀ v ∈ r.allDefaults, P v) ↔ ∀ f ∈ r.functions.values, ∀ p ∈ f.params, ∀ v ∈ p.fallback, P v := by
  simp only [allDefaults, List.mem_flatMap, List.mem_filterMap, Option.mem_def]
  constructor
  · exact fun h f hf p hp v hv => h v ⟨f, hf, p, hp, hv⟩
  · rintro h v ⟨f, hf, p, hp, hv⟩
    exact h f hf p hp v hv

/-- The document of a registry is one that a text stands for. -/
theorem written_toJson (r : Registry) : r.toJson.Written := by
  rw [toJson, Json.Written]
  simp only [Json.MembersWritten]
  exact ⟨Json.written_map VariableDecl.written_toJson _, Json.written_map FunctionDecl.written_toJson _,
    trivial⟩

/-- Loading the file of a registry reads its document. -/
theorem parse?_render_eq (r : Registry) : parse? r.render = ofJson? r.toJson := by
  rw [parse?, render, Json.parse?_compact r.written_toJson]
  rfl

/-- What the file of a registry is read back as: it has the same variables, and its functions differ in
floats among their defaults only. -/
theorem parse?_render_eq_some {r t : Registry} (hr : r.Keyed) (h : ∀ v ∈ r.allDefaults, v.Storable) :
    parse? r.render = some t ↔ t.Keyed ∧ t.variableDecls = r.variableDecls ∧
      List.Forall₂ FunctionDecl.Reread r.functions.values t.functions.values := by
  have hrecord : r.toJson.record? ["variables", "functions"]
      = some [some (.array (r.variableDecls.values.map VariableDecl.toJson)),
        some (.array (r.functions.values.map FunctionDecl.toJson))] := by
    simp [toJson, Json.record?, Json.member?]
  have hvariables : (Json.array (r.variableDecls.values.map VariableDecl.toJson)).asListOf?
      VariableDecl.ofJson? = some r.variableDecls.values :=
    Json.asListOf?_map fun v _ => v.ofJson?_toJson
  have hread : ofJson? r.toJson
      = ((Json.array (r.functions.values.map FunctionDecl.toJson)).asListOf? FunctionDecl.ofJson?).map
        fun fs => ⟨r.variableDecls, .ofNamed (·.name) fs⟩ := by
    rw [ofJson?, hrecord]
    simp only [Option.bind_eq_bind, Option.bind_some, optionalField, hvariables,
      hr.variableDecls.ofNamed_values]
    cases (Json.array (r.functions.values.map FunctionDecl.toJson)).asListOf? FunctionDecl.ofJson? <;> rfl
  have hfunctions : ∀ f ∈ r.functions.values, ∀ g, FunctionDecl.ofJson? f.toJson = some g ↔ f.Reread g :=
    fun f hf _ => FunctionDecl.ofJson?_toJson (forall_allDefaults.mp h f hf)
  rw [parse?_render_eq, hread, Option.map_eq_some_iff]
  constructor
  · rintro ⟨fs, hlist, rfl⟩
    have hfs := (Json.asListOf?_map_eq_some hfunctions).mp hlist
    have hnames : fs.Pairwise fun f g => f.name < g.name := by
      rw [← List.pairwise_map, FunctionDecl.names_eq hfs, List.pairwise_map]
      exact hr.functions.values_increasing
    refine ⟨⟨hr.variableDecls, Catalog.ofNamed_keyed _ _⟩, rfl, ?_⟩
    rwa [Catalog.values_ofNamed_of_increasing hnames]
  · obtain ⟨variableDecls, functions⟩ := t
    rintro ⟨ht, rfl, hfs⟩
    exact ⟨functions.values, (Json.asListOf?_map_eq_some hfunctions).mpr hfs,
      by rw [ht.functions.ofNamed_values]⟩

/-- A registry is read back as itself just if each float among its defaults survives. -/
theorem parse?_render_iff {r : Registry} (hr : r.Keyed) (h : ∀ v ∈ r.allDefaults, v.Storable) :
    parse? r.render = some r ↔ ∀ v ∈ r.allDefaults, v.Survives := by
  rw [parse?_render_eq_some hr h, forall_allDefaults, List.forall₂_same]
  constructor
  · exact fun ⟨_, _, hfs⟩ f hf => FunctionDecl.reread_self.mp (hfs f hf)
  · exact fun hfs => ⟨hr, rfl, fun f hf => FunctionDecl.reread_self.mpr (hfs f hf)⟩

/-! ## Files -/

/-- A text is a registry file that lists these definitions, in this order. -/
def Lists (text : String) (vs : List VariableDecl) (fs : List FunctionDecl) : Prop :=
  ∃ j variableDecls functions, Json.parse? text = some j ∧
    j.record? ["variables", "functions"] = some [variableDecls, functions] ∧
    optionalField [] (Json.asListOf? VariableDecl.ofJson?) variableDecls = some vs ∧
    optionalField [] (Json.asListOf? FunctionDecl.ofJson?) functions = some fs

/-- A text is loaded just if it lists definitions, and then as their catalogs. -/
theorem parse?_eq_some {text : String} {t : Registry} : parse? text = some t ↔
    ∃ vs fs, Lists text vs fs ∧ t = ⟨.ofNamed (·.name) vs, .ofNamed (·.name) fs⟩ := by
  constructor
  · intro h
    obtain ⟨j, hj, h⟩ := Option.bind_eq_some_iff.mp h
    obtain ⟨fields, hfields, h⟩ := Option.bind_eq_some_iff.mp h
    split at h
    · next variableDecls functions =>
      obtain ⟨vs, hvs, h⟩ := Option.bind_eq_some_iff.mp h
      obtain ⟨fs, hfs, h⟩ := Option.bind_eq_some_iff.mp h
      exact ⟨vs, fs, ⟨j, variableDecls, functions, hj, hfields, hvs, hfs⟩, (Option.some.inj h).symm⟩
    · cases h
  · rintro ⟨vs, fs, ⟨j, variableDecls, functions, hj, hfields, hvs, hfs⟩, rfl⟩
    rw [parse?, hj]
    simp only [Option.bind_eq_bind, Option.bind_some, ofJson?, hfields, hvs, hfs]
    rfl

/-- The file of a registry whose defaults can be stored is read back as that registry just if all floats
among the defaults survive, and as one that differs from it in these floats only, if it is read at all.
Any text that lists definitions is loaded, and no other one; each definition stands under its name, and of
several of one name the last one. -/
theorem file_round_trip :
    (∀ r : Registry, r.Keyed → (∀ v ∈ r.allDefaults, v.Storable) →
      (parse? r.render = some r ↔ ∀ v ∈ r.allDefaults, v.Survives) ∧
      ∀ t, parse? r.render = some t → t.variableDecls = r.variableDecls ∧
        List.Forall₂ FunctionDecl.Reread r.functions.values t.functions.values) ∧
    (∀ text t, parse? text = some t → ∃ vs fs, Lists text vs fs) ∧
    ∀ text vs fs, Lists text vs fs → ∃ t, parse? text = some t ∧ t.Keyed ∧
      (∀ name, t.findVariable? name = vs.reverse.find? fun v => v.name = name) ∧
      ∀ name, t.findFunction? name = fs.reverse.find? fun f => f.name = name := by
  refine ⟨fun r hr h => ⟨parse?_render_iff hr h, fun t ht => ?_⟩, fun text t ht => ?_,
    fun text vs fs hlists => ?_⟩
  · exact ((parse?_render_eq_some hr h).mp ht).2
  · obtain ⟨vs, fs, hlists, -⟩ := parse?_eq_some.mp ht
    exact ⟨vs, fs, hlists⟩
  · refine ⟨_, parse?_eq_some.mpr ⟨vs, fs, hlists, rfl⟩, ⟨?_, ?_⟩, ?_, ?_⟩
    · exact Catalog.ofNamed_keyed _ vs
    · exact Catalog.ofNamed_keyed _ fs
    · exact Catalog.find?_ofNamed _ vs
    · exact Catalog.find?_ofNamed _ fs

/-- A registry with all kinds of characters in its names and texts, and a default of each kind. -/
def motley : Registry :=
  ((empty.addVariable ⟨"\"\n\t\x00", .bool⟩).addVariable ⟨"é🎭", .undefined⟩).addFunction
    ⟨"\\u0041", .void, [⟨.float, none⟩, ⟨.string, some (.string "\u2028[\x7b\"a\": null\x7d]")⟩,
      ⟨.float, some (.float (-0.0))⟩, ⟨.bool, some (.bool false)⟩], true⟩

theorem reread_motley : (∀ v ∈ motley.allDefaults, v.Storable) ∧ parse? motley.render = some motley := by
  have hkeyed : motley.Keyed := ((keyed_empty.addVariable _).addVariable _).addFunction _
  have hstorable : ∀ v ∈ motley.allDefaults, v.Storable := by decide +kernel
  exact ⟨hstorable, (file_round_trip.1 motley hkeyed hstorable).1.mpr (by decide +kernel)⟩

/-- A registry with a default that its shortest number is not read as. -/
def drifting : Registry :=
  empty.addFunction ⟨"f", .void, [⟨.float, some (.float 31.245270191439438)⟩], false⟩

/-- A float that is read as its neighbour keeps a registry from being read back. -/
theorem drifting_not_reread : drifting.Keyed ∧ (∀ v ∈ drifting.allDefaults, v.Storable) ∧
    parse? drifting.render ≠ some drifting := by
  have hkeyed : drifting.Keyed := keyed_empty.addFunction _
  have hstorable : ∀ v ∈ drifting.allDefaults, v.Storable := by decide +kernel
  refine ⟨hkeyed, hstorable, fun h => ?_⟩
  exact absurd ((parse?_render_iff hkeyed hstorable).mp h) (by decide +kernel)

end Registry

end Colloquy
