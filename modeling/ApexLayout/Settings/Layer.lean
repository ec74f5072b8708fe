import ApexLayout.Settings.Basic
import ApexLayout.Files.Basic
import ApexLayout.Text.Case
import ApexLayout.Toml.Reader

/-!
Settings in layers. A layer may leave any setting unset; merging layers keeps for every setting the
value of the last layer that has it. Only merged settings are checked.
-/
namespace ApexLayout

structure FormatSection where
  printWidth : Option UInt64 := none
  tabWidth : Option UInt64 := none
  useTabs : Option Bool := none
  finalNewline : Option Bool := none
  deriving Repr, DecidableEq

structure SerializerSection where
  backend : Option String := none
  host : Option String := none
  port : Option UInt16 := none
  protocol : Option String := none
  executable : Option String := none
  deriving Repr, DecidableEq

structure Layer where
  format : Option FormatSection := none
  serializer : Option SerializerSection := none
  deriving Repr, DecidableEq

/-! ### Merging -/

def FormatSection.merge (a b : FormatSection) : FormatSection where
  printWidth := b.printWidth <|> a.printWidth
  tabWidth := b.tabWidth <|> a.tabWidth
  useTabs := b.useTabs <|> a.useTabs
  finalNewline := b.finalNewline <|> a.finalNewline

def SerializerSection.merge (a b : SerializerSection) : SerializerSection where
  backend := b.backend <|> a.backend
  host := b.host <|> a.host
  port := b.port <|> a.port
  protocol := b.protocol <|> a.protocol
  executable := b.executable <|> a.executable

def mergeSections (merge : α → α → α) : Option α → Option α → Option α
  | some a, some b => some (merge a b)
  | a, none => a
  | none, b => b

def Layer.merge (a b : Layer) : Layer where
  format := mergeSections FormatSection.merge a.format b.format
  serializer := mergeSections SerializerSection.merge a.serializer b.serializer

/-! ### Checking -/

inductive SettingsError where
  | notFound (path : String)
  | unreadable (reason : String)
  /-- The file is no TOML document, or not one of settings. -/
  | notSettings (path : String)
  | invalid (reason : String)
  | invalidValue (field : String) (reason : String)
  deriving Repr, DecidableEq

def SettingsError.message : SettingsError → String
  | .notFound path => "Configuration file not found: " ++ path
  | .unreadable reason => "Failed to read configuration file: " ++ reason
  | .notSettings path => "Invalid TOML syntax in " ++ path ++ ": not a document of settings"
  | .invalid reason => "Invalid configuration: " ++ reason
  | .invalidValue field reason => "Invalid value for '" ++ field ++ "': " ++ reason

def checkWidth (field : String) (default : UInt64) : Option UInt64 → Except SettingsError UInt64
  | none => .ok default
  | some width => if width = 0 then .error (.invalidValue field "must be greater than zero") else .ok width

def Backend.complaint (name : String) : String :=
  "unknown parser backend '" ++ name ++ "', expected none, built-in or native"

def Protocol.complaint (name : String) : String := "unknown protocol '" ++ name ++ "', expected http or https"

def checkName (field : String) (read : String → Option α) (complaint : String → String) (default : α) :
    Option String → Except SettingsError α
  | none => .ok default
  | some name =>
    match read name with
    | some a => .ok a
    | none => .error (.invalidValue field (complaint name))

def FormatSection.resolve (s : FormatSection) : Except SettingsError FormatSettings := do
  let usual : FormatSettings := {}
  let printWidth ← checkWidth "format.print_width" usual.printWidth s.printWidth
  let tabWidth ← checkWidth "format.tab_width" usual.tabWidth s.tabWidth
  return { usual with
    printWidth, tabWidth
    useTabs := s.useTabs.getD usual.useTabs
    finalNewline := s.finalNewline.getD usual.finalNewline }

/-- The server needs a host. -/
def SerializerSection.resolve (s : SerializerSection) : Except SettingsError SerializerSettings := do
  let usual : SerializerSettings := {}
  let backend ← checkName "parser.backend" Backend.ofName? Backend.complaint usual.backend s.backend
  let protocol ← checkName "parser.protocol" Protocol.ofName? Protocol.complaint usual.protocol s.protocol
  let host := s.host.getD usual.host
  if backend = .server ∧ Text.allBlank host then throw (.invalid "the built-in parser backend needs a host")
  return { backend, host, port := s.port.getD usual.port, protocol, executable := s.executable }

def Layer.resolve (l : Layer) : Except SettingsError (FormatSettings × SerializerSettings) := do
  let format ← (l.format.getD {}).resolve
  let serializer ← (l.serializer.getD {}).resolve
  return (format, serializer)

/-! ### Reading -/

namespace Settings

/-- How many values a record may have that gives them by place. -/
inductive Arity where
  | exactly
  | atLeast
  deriving Repr, DecidableEq

def Arity.admits (arity : Arity) (names values : Nat) : Bool :=
  match arity with
  | .exactly => values == names
  | .atLeast => names ≤ values

/-- The values that a record gives to its fields: by name, without further names, or by place. -/
def strictFields (arity : Arity) (names : List String) : Json → Option (List (Option Json))
  | .object fields =>
    if fields.all fun (name, _) => names.contains name then some (names.map fun name => fields.lookup name) else none
  | .array items =>
    if arity.admits names.length items.length then some ((items.take names.length).map some) else none
  | _ => none

def optionalField (read : Reader α) : Option Json → Option (Option α) := orDefault (orNull read) none

def formatSection (arity : Arity) : Reader FormatSection := fun json => do
  match ← strictFields arity ["print_width", "tab_width", "use_tabs", "insert_final_newline"] json with
  | [width, tab, tabs, newline] =>
    let printWidth ← optionalField word64 width
    let tabWidth ← optionalField word64 tab
    let useTabs ← optionalField truth tabs
    let finalNewline ← optionalField truth newline
    return { printWidth, tabWidth, useTabs, finalNewline }
  | _ => none

def serializerSection (arity : Arity) : Reader SerializerSection := fun json => do
  match ← strictFields arity ["backend", "host", "port", "protocol", "executable"] json with
  | [backend, host, port, protocol, executable] =>
    let backend ← optionalField text backend
    let host ← optionalField text host
    let port ← optionalField word16 port
    let protocol ← optionalField text protocol
    let executable ← optionalField text executable
    return { backend, host, port, protocol, executable }
  | _ => none

def layer (arity : Arity) : Reader Layer := fun json => do
  match ← strictFields arity ["format", "parser"] json with
  | [format, serializer] =>
    let format ← optionalField (formatSection arity) format
    let serializer ← optionalField (serializerSection arity) serializer
    return { format, serializer }
  | _ => none

end Settings

/-! ### Sources -/

/-- The settings in force, and the file of the project that was read. -/
structure LoadedSettings where
  format : FormatSettings
  serializer : SerializerSettings
  projectFile : Option String
  deriving Repr, DecidableEq

namespace Layer

def ofToml? (text : String) : Option Layer := (Toml.read? text).bind (Settings.layer .atLeast)

def ofFile (files : Files) (path : String) : Except SettingsError Layer :=
  match files.read path with
  | .error .missing => .error (.notFound path)
  | .error e => .error (.unreadable e.message)
  | .ok text =>
    match ofToml? text with
    | some layer => .ok layer
    | none => .error (.notSettings path)

/-! ### The environment -/

abbrev Environment := List (String × String)

def widthVariable (env : Environment) (name : String) : Except SettingsError (Option UInt64) :=
  match env.lookup name with
  | none => .ok none
  | some value =>
    match Decimal.word64? (Text.trim value) with
    | some width => .ok (some width)
    | none => .error (.invalidValue name ("expected a number, got '" ++ value ++ "'"))

def isYes (value : String) : Bool := ["true", "1", "yes"].contains (String.ofList (value.toList.flatMap Text.lowerChar))

def ofEnvironment (env : Environment) : Except SettingsError Layer := do
  let printWidth ← widthVariable env "APEXFMT_PRINT_WIDTH"
  let tabWidth ← widthVariable env "APEXFMT_TAB_WIDTH"
  return {
    format := some { printWidth, tabWidth, useTabs := (env.lookup "APEXFMT_USE_TABS").map isYes }
    serializer := (env.lookup "APEXFMT_PARSER").map fun backend => { backend := some backend } }

end Layer

namespace Settings

def projectFileName : String := "apexfmt.toml"

/-- The settings file of a project: the nearest one in a directory or above it. -/
def projectFile? (files : Files) (start : String) : Option String :=
  ((Path.ancestors start).map (Path.join · projectFileName)).find? files.isFile

def globalFile (home : String) : String := Path.join (Path.join home ".apexfmt") "config.toml"

/-- What settings are read from. -/
structure Sources where
  files : Files
  env : Layer.Environment := []
  globalFile : Option String := none

/-- The layer of the global file, which need not exist. -/
def Sources.globalLayer (s : Sources) : Except SettingsError Layer :=
  match s.globalFile with
  | some path => if s.files.exists? path then Layer.ofFile s.files path else .ok {}
  | none => .ok {}

/-- Loads the settings for a directory. An explicit file stands in for the project's. -/
def load (s : Sources) (start : String) (explicit : Option String) (commandLine : Layer) :
    Except SettingsError LoadedSettings := do
  let global ← s.globalLayer
  let projectFile := explicit <|> projectFile? s.files start
  let project ← match projectFile with
    | some path => Layer.ofFile s.files path
    | none => pure {}
  let environment ← Layer.ofEnvironment s.env
  let (format, serializer) ← (((global.merge project).merge environment).merge commandLine).resolve
  return { format, serializer, projectFile }

end Settings
end ApexLayout
