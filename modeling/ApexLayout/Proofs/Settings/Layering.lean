import ApexLayout.Proofs.Outcome
import ApexLayout.Settings.Layer

/-!
Settings in layers. Merging is associative, and the last layer that has a setting gives its value. So loading takes the
values in force, and fails on no others (`load_layers`).
-/
namespace ApexLayout

/-- The settings that a layer may have, with the type of their values. -/
inductive Setting : Type → Type where
  | printWidth : Setting UInt64
  | tabWidth : Setting UInt64
  | useTabs : Setting Bool
  | finalNewline : Setting Bool
  | backend : Setting String
  | host : Setting String
  | port : Setting UInt16
  | protocol : Setting String
  | executable : Setting String

namespace Layer

variable {α : Type} {a b : Layer}

def value (l : Layer) : Setting α → Option α
  | .printWidth => l.format.bind (·.printWidth)
  | .tabWidth => l.format.bind (·.tabWidth)
  | .useTabs => l.format.bind (·.useTabs)
  | .finalNewline => l.format.bind (·.finalNewline)
  | .backend => l.serializer.bind (·.backend)
  | .host => l.serializer.bind (·.host)
  | .port => l.serializer.bind (·.port)
  | .protocol => l.serializer.bind (·.protocol)
  | .executable => l.serializer.bind (·.executable)

def lastValue (layers : List Layer) (s : Setting α) : Option α := (layers.filterMap (·.value s)).getLast?

/-- For every setting the value of the last layer that has one. -/
def inForce (layers : List Layer) : Layer where
  format := some
    { printWidth := lastValue layers .printWidth
      tabWidth := lastValue layers .tabWidth
      useTabs := lastValue layers .useTabs
      finalNewline := lastValue layers .finalNewline }
  serializer := some
    { backend := lastValue layers .backend
      host := lastValue layers .host
      port := lastValue layers .port
      protocol := lastValue layers .protocol
      executable := lastValue layers .executable }

/-- What values must be like: widths are not zero, names are known, and a server has a host. -/
structure Valid (l : Layer) : Prop where
  printWidth : l.value .printWidth ≠ some 0
  tabWidth : l.value .tabWidth ≠ some 0
  backend {name : String} : l.value .backend = some name → ∃ backend : Backend, backend.name = name
  protocol {name : String} : l.value .protocol = some name → ∃ protocol : Protocol, protocol.name = name
  host {host : String} : l.value .backend = some Backend.server.name → l.value .host = some host →
    ∃ c ∈ host.toList, Text.isBlank c = false

/-- The settings are the values of the layer, and the usual ones where it has none. -/
structure Settles (l : Layer) (format : FormatSettings) (serializer : SerializerSettings) : Prop where
  printWidth : format.printWidth = (l.value .printWidth).getD 80
  tabWidth : format.tabWidth = (l.value .tabWidth).getD 2
  useTabs : format.useTabs = (l.value .useTabs).getD false
  finalNewline : format.finalNewline = (l.value .finalNewline).getD true
  variant : format.variant = .standard
  backend : serializer.backend.name = (l.value .backend).getD "none"
  host : serializer.host = (l.value .host).getD "localhost"
  port : serializer.port = (l.value .port).getD 2117
  protocol : serializer.protocol.name = (l.value .protocol).getD "http"
  executable : serializer.executable = l.value .executable

/-! ### Merging -/

theorem bind_mergeSections {σ : Type} {merge : σ → σ → σ} {field : σ → Option α}
    (wins : ∀ a b, field (merge a b) = (field b <|> field a)) (a b : Option σ) :
    (mergeSections merge a b).bind field = (b.bind field <|> a.bind field) := by
  cases a with
  | none => cases b <;> simp [mergeSections]
  | some a =>
    cases b with
    | none => simp [mergeSections]
    | some b => exact wins a b

theorem value_merge (a b : Layer) (s : Setting α) : (a.merge b).value s = (b.value s <|> a.value s) := by
  cases s <;> exact bind_mergeSections (fun _ _ => rfl) _ _

theorem mergeSections_assoc {σ : Type} {merge : σ → σ → σ} (assoc : ∀ a b c, merge (merge a b) c = merge a (merge b c))
    (a b c : Option σ) :
    mergeSections merge (mergeSections merge a b) c = mergeSections merge a (mergeSections merge b c) := by
  cases a <;> cases b <;> cases c <;> simp [mergeSections, assoc]

theorem merge_assoc (a b c : Layer) : (a.merge b).merge c = a.merge (b.merge c) := by
  have formats (a b c : FormatSection) : (a.merge b).merge c = a.merge (b.merge c) := by
    simp [FormatSection.merge, Option.or_assoc]
  have serializers (a b c : SerializerSection) : (a.merge b).merge c = a.merge (b.merge c) := by
    simp [SerializerSection.merge, Option.or_assoc]
  simp only [Layer.merge, mergeSections_assoc formats, mergeSections_assoc serializers]

theorem empty_merge (a : Layer) : Layer.merge {} a = a := by
  obtain ⟨format, serializer⟩ := a
  cases format <;> cases serializer <;> rfl

theorem merge_empty (a : Layer) : a.merge {} = a := by
  obtain ⟨format, serializer⟩ := a
  cases format <;> cases serializer <;> rfl

theorem lastValue_cons (l : Layer) (layers : List Layer) (s : Setting α) :
    lastValue (l :: layers) s = (lastValue layers s <|> l.value s) := by
  cases here : l.value s with
  | none => simp [lastValue, here]
  | some v => simp [lastValue, here, List.getLast?_cons]

theorem value_foldl_merge (layers : List Layer) (l : Layer) (s : Setting α) :
    (layers.foldl merge l).value s = (lastValue layers s <|> l.value s) := by
  induction layers generalizing l with
  | nil => simp [lastValue]
  | cons next layers ih =>
    rw [List.foldl_cons, ih, value_merge, lastValue_cons]
    simp [Option.or_assoc]

theorem value_foldl_merge_empty (layers : List Layer) (s : Setting α) :
    (layers.foldl merge {}).value s = lastValue layers s := by
  have unset : value {} s = none := by cases s <;> rfl
  rw [value_foldl_merge, unset]
  simp

/-! ### Checking -/

theorem checkWidth_eq_ok {field : String} {default width : UInt64} {v : Option UInt64} :
    checkWidth field default v = .ok width ↔ v ≠ some 0 ∧ width = v.getD default := by
  cases v with
  | none => simp [checkWidth, eq_comm]
  | some w =>
    by_cases zero : w = 0
    · simp [checkWidth, zero]
    · simp [checkWidth, zero, eq_comm]

/-- What is read from a name has that name, and the usual one if none is given. -/
theorem checkName_eq_ok {field : String} {read : String → Option α} {complaint : String → String} {default a : α}
    {nameOf : α → String} (reads : ∀ name a, read name = some a ↔ nameOf a = name) (v : Option String) :
    checkName field read complaint default v = .ok a ↔ nameOf a = v.getD (nameOf default) := by
  cases v with
  | none =>
    rw [Option.getD_none, ← reads, (reads _ default).mpr rfl]
    simp [checkName]
  | some name =>
    rw [Option.getD_some, ← reads]
    cases known : read name with
    | none => simp [checkName, known]
    | some b => simp [checkName, known]

theorem backend_ofName? (name : String) (backend : Backend) : Backend.ofName? name = some backend ↔ backend.name = name := by
  constructor
  · intro found
    simpa using List.find?_some found
  · rintro rfl
    cases backend <;> decide

theorem protocol_ofName? (name : String) (protocol : Protocol) :
    Protocol.ofName? name = some protocol ↔ protocol.name = name := by
  constructor
  · intro found
    simpa using List.find?_some found
  · rintro rfl
    cases protocol <;> decide

theorem backend_eq_of_name {first second : Backend} (same : first.name = second.name) : first = second := by
  rw [← backend_ofName?, (backend_ofName? _ second).mpr rfl] at same
  exact (Option.some.inj same).symm

theorem not_allBlank {s : String} : ¬ Text.allBlank s ↔ ∃ c ∈ s.toList, Text.isBlank c = false := by
  simp [Text.allBlank]

theorem formatSection_resolve_eq_ok {s : FormatSection} {f : FormatSettings} :
    s.resolve = .ok f ↔ s.printWidth ≠ some 0 ∧ s.tabWidth ≠ some 0 ∧
      f = ⟨s.printWidth.getD 80, s.tabWidth.getD 2, s.useTabs.getD false, s.finalNewline.getD true, .standard⟩ := by
  simp only [FormatSection.resolve, bind_eq_ok, pure_eq_ok, checkWidth_eq_ok]
  constructor
  · rintro ⟨width, ⟨some_width, rfl⟩, tab, ⟨some_tab, rfl⟩, rfl⟩
    exact ⟨some_width, some_tab, rfl⟩
  · rintro ⟨some_width, some_tab, rfl⟩
    exact ⟨_, ⟨some_width, rfl⟩, _, ⟨some_tab, rfl⟩, rfl⟩

theorem serializerSection_resolve_eq_ok {s : SerializerSection} {r : SerializerSettings} :
    s.resolve = .ok r ↔ r.backend.name = s.backend.getD "none" ∧ r.protocol.name = s.protocol.getD "http" ∧
      ¬ (r.backend = .server ∧ Text.allBlank r.host) ∧
      r.host = s.host.getD "localhost" ∧ r.port = s.port.getD 2117 ∧ r.executable = s.executable := by
  simp only [SerializerSection.resolve, bind_eq_ok, checkName_eq_ok backend_ofName?, checkName_eq_ok protocol_ofName?]
  constructor
  · rintro ⟨backend, named, protocol, called, rest⟩
    split at rest
    · cases rest
    · next served =>
      cases rest
      exact ⟨named, called, served, rfl, rfl, rfl⟩
  · obtain ⟨backend, host, port, protocol, executable⟩ := r
    rintro ⟨named, called, served, rfl, rfl, rfl⟩
    refine ⟨backend, named, protocol, called, ?_⟩
    rw [if_neg served]
    rfl

/-- What a layer resolves to is made of its values alone, whichever sections it has. -/
theorem resolve_eq (l : Layer) :
    l.resolve = do
      let format ← FormatSection.resolve
        ⟨l.value .printWidth, l.value .tabWidth, l.value .useTabs, l.value .finalNewline⟩
      let serializer ← SerializerSection.resolve
        ⟨l.value .backend, l.value .host, l.value .port, l.value .protocol, l.value .executable⟩
      return (format, serializer) := by
  obtain ⟨format, serializer⟩ := l
  cases format <;> cases serializer <;> rfl

theorem resolve_congr (same : ∀ (α : Type) (s : Setting α), a.value s = b.value s) : a.resolve = b.resolve := by
  simp only [resolve_eq, same]

theorem resolve_eq_ok {l : Layer} {format : FormatSettings} {serializer : SerializerSettings} :
    l.resolve = .ok (format, serializer) ↔ l.Valid ∧ l.Settles format serializer := by
  simp only [resolve_eq, bind_eq_ok, pure_eq_ok, formatSection_resolve_eq_ok, serializerSection_resolve_eq_ok,
    Prod.mk.injEq]
  constructor
  · rintro ⟨_, ⟨some_width, some_tab, rfl⟩, serializer, ⟨named, called, served, host, port, executable⟩, rfl, rfl⟩
    refine ⟨⟨some_width, some_tab, ?_, ?_, ?_⟩, ⟨rfl, rfl, rfl, rfl, rfl, named, host, port, called, executable⟩⟩
    · intro name given
      exact ⟨serializer.backend, by rw [named, given, Option.getD_some]⟩
    · intro name given
      exact ⟨serializer.protocol, by rw [called, given, Option.getD_some]⟩
    · intro text given there
      rw [← not_allBlank]
      intro blank
      rw [given, Option.getD_some] at named
      rw [there, Option.getD_some] at host
      exact served ⟨backend_eq_of_name named, host ▸ blank⟩
  · rintro ⟨valid, settles⟩
    refine ⟨format, ⟨valid.printWidth, valid.tabWidth, ?_⟩, serializer,
      ⟨settles.backend, settles.protocol, ?_, settles.host, settles.port, settles.executable⟩, rfl, rfl⟩
    · obtain ⟨width, tab, tabs, newline, variant⟩ := format
      obtain ⟨rfl, rfl, rfl, rfl, rfl, -⟩ := settles
      rfl
    · rintro ⟨server, blank⟩
      have named := settles.backend
      rw [server] at named
      have given : l.value .backend = some Backend.server.name := by
        cases none_or : l.value .backend with
        | none =>
          rw [none_or] at named
          exact absurd named (by decide)
        | some name =>
          rw [none_or, Option.getD_some] at named
          rw [named]
      rw [settles.host] at blank
      cases there : l.value .host with
      | none =>
        rw [there] at blank
        exact absurd blank (by decide)
      | some text =>
        rw [there, Option.getD_some] at blank
        exact not_allBlank.mpr (valid.host given there) blank

theorem exists_resolve {l : Layer} : (∃ settings, l.resolve = .ok settings) ↔ l.Valid := by
  constructor
  · rintro ⟨⟨format, serializer⟩, resolved⟩
    exact (resolve_eq_ok.mp resolved).1
  · intro valid
    obtain ⟨backend, named⟩ : ∃ backend : Backend, backend.name = (l.value .backend).getD "none" := by
      cases given : l.value .backend with
      | none => exact ⟨.script, rfl⟩
      | some name => exact valid.backend given
    obtain ⟨protocol, called⟩ : ∃ protocol : Protocol, protocol.name = (l.value .protocol).getD "http" := by
      cases given : l.value .protocol with
      | none => exact ⟨.http, rfl⟩
      | some name => exact valid.protocol given
    let format : FormatSettings :=
      { printWidth := (l.value .printWidth).getD 80
        tabWidth := (l.value .tabWidth).getD 2
        useTabs := (l.value .useTabs).getD false
        finalNewline := (l.value .finalNewline).getD true }
    let serializer : SerializerSettings :=
      { backend, protocol
        host := (l.value .host).getD "localhost"
        port := (l.value .port).getD 2117
        executable := l.value .executable }
    have settles : l.Settles format serializer := ⟨rfl, rfl, rfl, rfl, rfl, named, rfl, rfl, called, rfl⟩
    exact ⟨_, resolve_eq_ok.mpr ⟨valid, settles⟩⟩

theorem value_inForce (layers : List Layer) (s : Setting α) : (inForce layers).value s = lastValue layers s := by
  cases s <;> rfl

theorem resolve_foldl_merge (layers : List Layer) : (layers.foldl merge {}).resolve = (inForce layers).resolve := by
  apply resolve_congr
  intro α s
  rw [value_foldl_merge_empty, value_inForce]

end Layer

/-! ### Loading -/

namespace Settings

/-- The layer of the project's file, or of the explicit one in its place. -/
def Sources.projectLayer (s : Sources) (start : String) (explicit : Option String) : Except SettingsError Layer :=
  match explicit <|> projectFile? s.files start with
  | some path => Layer.ofFile s.files path
  | none => .ok {}

theorem load_eq (s : Sources) (start : String) (explicit : Option String) (commandLine : Layer) :
    load s start explicit commandLine = do
      let global ← s.globalLayer
      let project ← s.projectLayer start explicit
      let environment ← Layer.ofEnvironment s.env
      let settings ← ([global, project, environment, commandLine].foldl Layer.merge {}).resolve
      return ⟨settings.1, settings.2, explicit <|> projectFile? s.files start⟩ := by
  simp only [List.foldl_cons, List.foldl_nil, Layer.empty_merge, load, Sources.projectLayer]
  cases explicit <|> projectFile? s.files start with
  | none => rfl
  | some path => rfl

/-- Merging layers is associative, and the layer without settings is its unit. Layers that are merged one
    after the other have for every setting the value of the last one that has it. So, whenever all layers
    can be read, the settings loaded are those in force by the command line, the environment, the project
    and the global file, in this order, and the usual ones otherwise. Loading fails if and only if the
    values in force are not valid, whatever the values are that others overrule. -/
theorem load_layers :
    (∀ a b c : Layer, (a.merge b).merge c = a.merge (b.merge c)) ∧
    (∀ a : Layer, Layer.merge {} a = a ∧ a.merge {} = a) ∧
    (∀ (layers : List Layer) (α : Type) (s : Setting α),
      (layers.foldl Layer.merge {}).value s = Layer.lastValue layers s) ∧
    ∀ (sources : Sources) (start : String) (explicit : Option String) (global project environment commandLine : Layer),
      sources.globalLayer = .ok global → sources.projectLayer start explicit = .ok project →
      Layer.ofEnvironment sources.env = .ok environment →
        load sources start explicit commandLine =
          (fun settings => ⟨settings.1, settings.2, explicit <|> projectFile? sources.files start⟩) <$>
            (Layer.inForce [global, project, environment, commandLine]).resolve ∧
        ((∃ loaded, load sources start explicit commandLine = .ok loaded) ↔
          (Layer.inForce [global, project, environment, commandLine]).Valid) ∧
        ∀ loaded, load sources start explicit commandLine = .ok loaded →
          (Layer.inForce [global, project, environment, commandLine]).Settles loaded.format loaded.serializer := by
  refine ⟨Layer.merge_assoc, fun a => ⟨a.empty_merge, a.merge_empty⟩, ?_, ?_⟩
  · intro layers α s
    exact Layer.value_foldl_merge_empty layers s
  · intro sources start explicit global project environment commandLine reads_global reads_project reads_environment
    have loads : load sources start explicit commandLine =
        (fun settings => ⟨settings.1, settings.2, explicit <|> projectFile? sources.files start⟩) <$>
          (Layer.inForce [global, project, environment, commandLine]).resolve := by
      rw [load_eq, reads_global, reads_project, reads_environment, ← Layer.resolve_foldl_merge]
      rfl
    refine ⟨loads, ?_, ?_⟩
    · rw [← Layer.exists_resolve, loads]
      simp only [map_eq_ok]
      constructor
      · rintro ⟨loaded, settings, resolved, -⟩
        exact ⟨settings, resolved⟩
      · rintro ⟨settings, resolved⟩
        exact ⟨_, settings, resolved, rfl⟩
    · intro loaded success
      rw [loads, map_eq_ok] at success
      obtain ⟨settings, resolved, rfl⟩ := success
      exact (Layer.resolve_eq_ok.mp resolved).2

/-- A global file with no width to print at, and a project with a backend that nobody knows. -/
def overruled : Sources where
  files :=
    { top := "/w"
      entries := [(["global"], .file "format.print_width=0\nformat.tab_width=4"),
        (["apexfmt.toml"], .file "[parser]\nbackend='jvm'")] }
  env := [("APEXFMT_PRINT_WIDTH", "100")]
  globalFile := some "/w/global"

/-- The environment and the command line overrule both, and nothing is reported. -/
theorem load_layers_overruled : ∃ loaded,
    load overruled "/w" none { serializer := some { backend := some "native" } } = .ok loaded ∧
      loaded.format.printWidth = 100 ∧ loaded.format.tabWidth = 4 ∧ loaded.serializer.backend.name = "native" := by
  let global : Layer := { format := some { printWidth := some 0, tabWidth := some 4 } }
  let project : Layer := { serializer := some { backend := some "jvm" } }
  let environment : Layer := { format := some { printWidth := some 100 } }
  let commandLine : Layer := { serializer := some { backend := some "native" } }
  have reads_global : overruled.globalLayer = .ok global := by decide +kernel
  have reads_project : overruled.projectLayer "/w" none = .ok project := by decide +kernel
  have reads_environment : Layer.ofEnvironment overruled.env = .ok environment := by rfl
  obtain ⟨-, loads, settles⟩ := load_layers.2.2.2 overruled "/w" none global project environment commandLine
    reads_global reads_project reads_environment
  have valid : (Layer.inForce [global, project, environment, commandLine]).Valid := by
    constructor
    case printWidth => decide
    case tabWidth => decide
    case backend =>
      rintro _ ⟨⟩
      exact ⟨.native, rfl⟩
    case protocol =>
      rintro _ ⟨⟩
    case host =>
      rintro _ - ⟨⟩
  obtain ⟨loaded, success⟩ := loads.mpr valid
  have settled := settles loaded success
  exact ⟨loaded, success, settled.printWidth, settled.tabWidth, settled.backend⟩

end Settings
end ApexLayout
