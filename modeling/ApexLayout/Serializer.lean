import ApexLayout.Files.Basic
import ApexLayout.Format

/-!
The external serializer, which parses a source and writes its tree. It is either started for every
source or asked over the network. What it answers is a function of what it is asked.
-/
namespace ApexLayout

inductive Request where
  | start (program : String) (arguments : List String) (input : String)
  | post (url : String) (body : Json)
  deriving Repr

inductive Reply where
  /-- The serializer could not be started or reached. -/
  | unreachable (reason : String)
  | finished (status : Nat) (stdout stderr : String)
  deriving Repr, DecidableEq

abbrev Serializer := Request → Reply

namespace SerializerSettings

def endpoint (s : SerializerSettings) : String :=
  String.ofList ((s.serverUrl.toList.reverse.dropWhile (· = '/')).reverse) ++ "/api/ast"

def request (s : SerializerSettings) (variant : Variant) (source : String) : Request :=
  let anonymous := variant = .anonymous
  match s.backend with
  | .server =>
    .post s.endpoint (.object
      [("sourceCode", .string source), ("anonymous", .bool anonymous), ("outputFormat", .string "json"),
        ("idRef", .bool true), ("prettyPrint", .bool false)])
  | _ => .start s.program (if anonymous then ["-a"] else []) source

end SerializerSettings

/-- Why a program of this name cannot be started, wherever it is looked for. -/
def programFault? (program : String) : Option String :=
  if program.toList.contains '\x00' then some "nul byte found in provided data"
  else if Path.isLong program || (Path.isLongName program && !program.toList.contains '/') then
    some FileError.tooLong.message
  else none

def Request.reply (request : Request) (serializer : Serializer) : Reply :=
  match request with
  | .start program _ _ =>
    match programFault? program with
    | some reason => .unreachable reason
    | none => serializer request
  | .post _ _ => serializer request

def Reply.text (request : Request) : Reply → Outcome String
  | .unreachable reason =>
    match request with
    | .start program _ _ => .error (.serializer ("failed to start " ++ program ++ ": " ++ reason))
    | .post _ _ => .error (.serializer ("Failed to connect to Apex parsing server\r\n" ++ reason))
  | .finished status stdout stderr =>
    if status = 0 then .ok stdout else .error (.serializer (stdout ++ stderr))

/-- The serializer's text for a source, which must not be blank. -/
def serialize (serializer : Serializer) (settings : SerializerSettings) (variant : Variant) (source : String) :
    Outcome String := do
  let request := settings.request variant source
  let text ← (request.reply serializer).text request
  if Text.allBlank text then
    throw (.serializer "Failed to parse Apex code: the parser produced no output")
  return text

/-- A source laid out anew. The blanks around it are dropped before it is parsed. -/
def formatSource (serializer : Serializer) (source : String) (format : FormatSettings)
    (settings : SerializerSettings) : Outcome String := do
  let source := Text.trim source
  let text ← serialize serializer settings format.variant source
  ApexLayout.format text source format

def isFormatted (serializer : Serializer) (source : String) (format : FormatSettings)
    (settings : SerializerSettings) : Outcome Bool :=
  (· == source) <$> formatSource serializer source format settings

end ApexLayout
