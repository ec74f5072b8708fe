import ApexLayout.Serializer
import ApexLayout.Command.Arguments

/-!
Carrying out commands. The command that formats files reads and formats all of them before it writes
any, and ends without writing if one of them cannot be read.
-/
namespace ApexLayout.Command

structure Report where
  status : Nat := 0
  stdout : String := ""
  stderr : String := ""
  /-- The files after the command. -/
  files : Files
  /-- What was asked of the serializer, in this order. -/
  requests : List Request := []

/-- Why a command ends early: what it could not do, and the causes, the nearest first. -/
structure Failure where
  message : String
  causes : List String := []
  deriving Repr, DecidableEq

namespace Failure

def hanging (indentation text : String) : String := ("\n" ++ indentation).intercalate (Text.lines text)

/-- A number right-aligned in five columns. -/
def numbered (n : Nat) : String :=
  let digits := toString n
  String.ofList (List.replicate (5 - digits.length) ' ') ++ digits

def causeLines : List String → List String
  | [cause] => ["    " ++ hanging "    " cause]
  | causes => causes.zipIdx.map fun (cause, n) => numbered n ++ ": " ++ hanging "       " cause

def render (f : Failure) : String :=
  let causes :=
    if f.causes.isEmpty then ""
    else "\n\nCaused by:\n" ++ "\n".intercalate (causeLines f.causes)
  "Error: " ++ f.message ++ causes ++ "\n"

def ofSettings (e : SettingsError) : Failure where
  message := "Invalid configuration"
  causes := match e with
    | .unreadable reason => [e.message, reason]
    | e => [e.message]

def ofFile (path : String) (e : FileError) : Failure where
  message := "Failed to read " ++ path
  causes := [e.message]

def ofFormat (doing path : String) (e : FormatError) : Failure where
  message := doing ++ " " ++ path
  causes := [e.message]

end Failure

structure World where
  files : Files
  env : Layer.Environment := []
  /-- The home directory. -/
  home : Option String := none
  serializer : Serializer
  /-- How durations are written. -/
  duration : String := "0.00ms"

namespace World

def workingDirectory (w : World) : String := w.files.here.foldl Path.join w.files.top

def load (w : World) (o : Overrides) : Except Failure LoadedSettings :=
  match Settings.load ⟨w.files, w.env, w.home.map Settings.globalFile⟩ w.workingDirectory o.config o.layer with
  | .ok settings => .ok settings
  | .error e => .error (.ofSettings e)

def read (w : World) (path : String) : Except Failure String :=
  match w.files.read path with
  | .ok source => .ok source
  | .error e => .error (.ofFile path e)

end World

/-- The settings for one file. A bare sequence of statements has an extension of its own. -/
def settingsFor (o : Overrides) (settings : FormatSettings) (path : String) : FormatSettings :=
  let anonymous := o.anonymous || Path.extension? path == some "apex"
  { settings with variant := if anonymous then .anonymous else .standard }

/-! ### Formatting files -/

def extensions : List String := ["cls", "trigger", "apex"]

/-- The files that paths stand for. A path that is no directory stands for itself. -/
def collect (files : Files) (paths : List String) : List String :=
  paths.flatMap fun path =>
    if files.isDirectory path then
      (files.walk path).filter fun file => ((Path.extension? file).map extensions.contains).getD false
    else [path]

structure FormattedFile where
  path : String
  source : String
  result : Outcome String

def FormattedFile.isChanged (f : FormattedFile) : Bool :=
  match f.result with
  | .ok text => text != f.source
  | .error _ => false

def formatAll (w : World) (o : Overrides) (settings : LoadedSettings) :
    List String → List FormattedFile × Option Failure
  | [] => ([], none)
  | path :: paths =>
    match w.read path with
    | .error failure => ([], some failure)
    | .ok source =>
      let result := formatSource w.serializer source (settingsFor o settings.format path) settings.serializer
      let (rest, failure) := formatAll w o settings paths
      (⟨path, source, result⟩ :: rest, failure)

/-- What was asked of the serializer for a file. -/
def requestFor (o : Overrides) (settings : LoadedSettings) (path source : String) : Request :=
  settings.serializer.request (settingsFor o settings.format path).variant (Text.trim source)

def line (text : String) : String := text ++ "\n"

def truthText (b : Bool) : String := if b then "true" else "false"

def settingsText (s : LoadedSettings) : String :=
  line "Configuration:" ++
  line ("  print_width: " ++ toString s.format.printWidth.toNat) ++
  line ("  tab_width: " ++ toString s.format.tabWidth.toNat) ++
  line ("  use_tabs: " ++ truthText s.format.useTabs) ++
  line ("  insert_final_newline: " ++ truthText s.format.finalNewline) ++
  line ("  parser: " ++ s.serializer.backend.label) ++
  match s.projectFile with
  | some path => line ("  config_file: " ++ path)
  | none => ""

def settle (w : World) (mode : Mode) (verbosity : Verbosity) (report : Report) (f : FormattedFile) : Report :=
  match f.result with
  | .error e => { report with stderr := report.stderr ++ line ("Error in " ++ f.path ++ ": " ++ e.message) }
  | .ok text =>
    let notice (words : String) : String := if verbosity = .quiet then "" else line (words ++ f.path)
    let report := match mode with
      | .print => { report with stdout := report.stdout ++ text }
      | .check => if f.isChanged then { report with stderr := report.stderr ++ notice "Would reformat: " } else report
      | .write =>
        if f.isChanged then
          { report with files := report.files.write f.path text, stderr := report.stderr ++ notice "Formatted: " }
        else report
    if verbosity = .verbose then
      let state := if f.isChanged then " changed (" else " unchanged ("
      { report with stderr := report.stderr ++ line ("  " ++ f.path ++ state ++ w.duration ++ ")") }
    else report

def summary (w : World) (mode : Mode) (verbosity : Verbosity) (files changed errors : Nat) : String :=
  let closing :=
    if verbosity = .quiet then ""
    else
      match mode with
      | .check =>
        if 0 < changed then line "" ++ line (toString changed ++ " file(s) would be reformatted")
        else if errors = 0 then line ("All " ++ toString files ++ " file(s) are formatted correctly")
        else ""
      | .write => if 0 < changed then line "" ++ line ("Formatted " ++ toString changed ++ " file(s)") else ""
      | .print => ""
  let totals :=
    if verbosity = .verbose then
      line ("Summary: " ++ toString changed ++ " changed, " ++ toString (files - changed - errors) ++ " unchanged, " ++
        toString errors ++ " errors") ++
      line ("Total time: " ++ w.duration)
    else ""
  closing ++ totals

def failed (w : World) (failure : Failure) (said : String) (requests : List Request) : Report :=
  { status := 1, stderr := said ++ failure.render, files := w.files, requests }

/-- Formats files. The status tells of errors, and of changes if they are only looked for. -/
def runFormat (w : World) (paths : List String) (mode : Mode) (verbosity : Verbosity) (o : Overrides) : Report :=
  match w.load o with
  | .error failure => failed w failure "" []
  | .ok settings =>
    match collect w.files paths with
    | [] => { files := w.files, stderr := if verbosity = .quiet then "" else line "No Apex files found" }
    | files =>
      let header :=
        if verbosity = .verbose then
          settingsText settings ++ line ("Processing " ++ toString files.length ++ " file(s)...") ++ line ""
        else ""
      let (formatted, failure) := formatAll w o settings files
      let requests := formatted.map fun f => requestFor o settings f.path f.source
      match failure with
      | some failure => failed w failure header requests
      | none =>
        let report := formatted.foldl (settle w mode verbosity) { stderr := header, files := w.files, requests }
        let changed := (formatted.filter (·.isChanged)).length
        let errors := (formatted.filter (·.result.toBool.not)).length
        { report with
          status := if 0 < errors ∨ (mode = .check ∧ 0 < changed) then 1 else 0
          stderr := report.stderr ++ summary w mode verbosity files.length changed errors }

/-! ### Showing what a file is parsed and laid out from -/

/-- Text of the serializer, laid out on lines. Its values may be nested to a depth of 127. -/
def prettyTree (text : String) : Except Failure String :=
  match (Json.read? text).filter fun json => json.depth < 128 with
  | some json => .ok (json.pretty 0)
  | none => .error { message := "Parser returned invalid JSON", causes := ["not a JSON value"] }

def showFile (w : World) (path : String) (o : Overrides)
    (display : String → String → FormatSettings → Except Failure String) : Report :=
  let read : Except Failure (LoadedSettings × String) := do
    let settings ← w.load o
    let source ← w.read path
    return (settings, source)
  match read with
  | .error failure => failed w failure "" []
  | .ok (settings, source) =>
    let format := settingsFor o settings.format path
    let source := Text.trim source
    let requests := [requestFor o settings path source]
    let shown : Except Failure String := match serialize w.serializer settings.serializer format.variant source with
      | .error e => .error (.ofFormat "Failed to parse" path e)
      | .ok text => display text source format
    match shown with
    | .error failure => failed w failure "" requests
    | .ok text => { stdout := line text, files := w.files, requests }

def runTree (w : World) (path : String) (pretty : Bool) (o : Overrides) : Report :=
  showFile w path o fun text _ _ => if pretty then prettyTree text else .ok (Text.trimEnd text)

def runDocument (w : World) (path : String) (o : Overrides) : Report :=
  showFile w path o fun text source format =>
    match toDoc text source format with
    | .ok doc => .ok doc.dump
    | .error e => .error (.ofFormat "Failed to print" path e)

/-! ### The command line -/

def helpText : String :=
  line "Apex source formatter" ++ line "" ++ line "Usage: apexfmt <COMMAND>" ++ line "" ++ line "Commands:" ++
  line "  fmt   Format Apex source files" ++
  line "  ast   Dump the parser output for a file as JSON" ++
  line "  doc   Dump the document the printer builds for a file"

def versionNumber : String := "0.1.0"

def Task.run (w : World) : Task → Report
  | .format paths mode verbosity o => runFormat w paths mode verbosity o
  | .tree path pretty o => runTree w path pretty o
  | .document path o => runDocument w path o

def run (w : World) (args : List String) : Report :=
  match Invocation.ofArguments args with
  | .task task => task.run w
  | .version name => { stdout := line (name ++ " " ++ versionNumber), files := w.files }
  | .help => { stdout := helpText, files := w.files }
  | .invalid => { status := 2, stderr := helpText, files := w.files }

end ApexLayout.Command
