import ApexLayout.Json.Basic

/-!
The settings of the formatter and of the external serializer, with their names in settings files
and messages.
-/
namespace ApexLayout

/-- The rule by which the serializer starts to read a source. -/
inductive Variant where
  /-- A class, interface, enum or trigger. -/
  | standard
  /-- A bare sequence of statements. -/
  | anonymous
  deriving Repr, DecidableEq

def Variant.name : Variant → String
  | .standard => "standard"
  | .anonymous => "anonymous"

structure FormatSettings where
  /-- The columns a line may have before it breaks. -/
  printWidth : UInt64 := 80
  /-- The columns of one level of indentation. -/
  tabWidth : UInt64 := 2
  useTabs : Bool := false
  /-- The text ends with a line end. -/
  finalNewline : Bool := true
  variant : Variant := .standard
  deriving Repr, DecidableEq

/-- The columns left on a line, in sixty-four signed bits: widths of 2^63 or more read as negative, and so does a
    difference of as much. -/
def FormatSettings.columnsLeft (s : FormatSettings) (taken : Nat) : Int :=
  (s.printWidth.toInt64 - (UInt64.ofNat taken).toInt64).toInt

def FormatSettings.isAnonymous (s : FormatSettings) : Bool := s.variant == .anonymous

inductive Backend where
  /-- The serializer script, started for every source. -/
  | script
  /-- A running server. -/
  | server
  /-- A native executable, started for every source. -/
  | native
  deriving Repr, DecidableEq

namespace Backend

def all : List Backend := [.script, .server, .native]

def name : Backend → String
  | .script => "none"
  | .server => "built-in"
  | .native => "native"

def label : Backend → String
  | .script => "None"
  | .server => "BuiltIn"
  | .native => "Native"

def ofName? (s : String) : Option Backend := all.find? (·.name == s)

end Backend

inductive Protocol where
  | http
  | https
  deriving Repr, DecidableEq

namespace Protocol

def all : List Protocol := [.http, .https]

def name : Protocol → String
  | .http => "http"
  | .https => "https"

def ofName? (s : String) : Option Protocol := all.find? (·.name == s)

end Protocol

structure SerializerSettings where
  backend : Backend := .script
  host : String := "localhost"
  port : UInt16 := 2117
  protocol : Protocol := .http
  /-- The executable to start in place of the usual one. -/
  executable : Option String := none
  deriving Repr, DecidableEq

namespace SerializerSettings

def serverUrl (s : SerializerSettings) : String := s.protocol.name ++ "://" ++ s.host ++ ":" ++ toString s.port.toNat

def program (s : SerializerSettings) : String :=
  match s.executable with
  | some path => path
  | none =>
    match s.backend with
    | .native => "apex-ast-serializer-native"
    | _ => "apex-ast-serializer"

end SerializerSettings

/-! ### Records -/

namespace Settings

abbrev Reader (α : Type) := Json → Option α

def word64 : Reader UInt64 := fun json =>
  json.nat?.bind fun n => if n < Nat.pow 2 64 then some (UInt64.ofNat n) else none

def word16 : Reader UInt16 := fun json =>
  json.nat?.bind fun n => if n < Nat.pow 2 16 then some (UInt16.ofNat n) else none

def truth : Reader Bool := Json.bool?

def text : Reader String := Json.string?

def orNull (read : Reader α) : Reader (Option α)
  | .null => some none
  | json => (read json).map some

/-- A name out of a fixed set: a string, or an object with the name as its one key and null under it. -/
def nameOf (read : String → Option α) : Reader α
  | .string name => read name
  | .object [(name, .null)] => read name
  | _ => none

/-- The values that a record gives to its fields, in the order of their names. -/
def recordFields (names : List String) : Json → Option (List (Option Json))
  | .object fields => some (names.map fun name => fields.lookup name)
  | .array items =>
    if items.length ≤ names.length then some ((List.range names.length).map (items[·]?)) else none
  | _ => none

def orDefault (read : Reader α) (default : α) : Option Json → Option α
  | some json => read json
  | none => some default

def variantOf : String → Option Variant
  | "standard" => some .standard
  | "anonymous" => some .anonymous
  | _ => none

def formatSettings : Reader FormatSettings := fun json => do
  match ← recordFields ["print_width", "tab_width", "use_tabs", "insert_final_newline", "parser_variant"] json with
  | [width, tab, tabs, newline, variant] =>
    let printWidth ← orDefault word64 ({} : FormatSettings).printWidth width
    let tabWidth ← orDefault word64 ({} : FormatSettings).tabWidth tab
    let useTabs ← orDefault truth ({} : FormatSettings).useTabs tabs
    let finalNewline ← orDefault truth ({} : FormatSettings).finalNewline newline
    let variant ← orDefault (nameOf variantOf) ({} : FormatSettings).variant variant
    return { printWidth, tabWidth, useTabs, finalNewline, variant }
  | _ => none

def serializerSettings : Reader SerializerSettings := fun json => do
  match ← recordFields ["backend", "host", "port", "protocol", "executable"] json with
  | [backend, host, port, protocol, executable] =>
    let backend ← orDefault (nameOf Backend.ofName?) ({} : SerializerSettings).backend backend
    let host ← orDefault text ({} : SerializerSettings).host host
    let port ← orDefault word16 ({} : SerializerSettings).port port
    let protocol ← orDefault (nameOf Protocol.ofName?) ({} : SerializerSettings).protocol protocol
    let executable ← orDefault (orNull text) ({} : SerializerSettings).executable executable
    return { backend, host, port, protocol, executable }
  | _ => none

end Settings
end ApexLayout
