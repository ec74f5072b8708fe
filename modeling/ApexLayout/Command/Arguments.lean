import ApexLayout.Settings.Layer

/-!
The command line. Arguments are read from left to right, so a request for help or the version wins
over faults behind it; what excludes what is checked at the end.
-/
namespace ApexLayout.Command

structure Overrides where
  config : Option String := none
  printWidth : Option UInt64 := none
  tabWidth : Option UInt64 := none
  useTabs : Bool := false
  noFinalNewline : Bool := false
  anonymous : Bool := false
  parser : Option String := none
  host : Option String := none
  port : Option UInt16 := none
  protocol : Option String := none
  deriving Repr, DecidableEq

def Overrides.layer (o : Overrides) : Layer where
  format := some {
    printWidth := o.printWidth
    tabWidth := o.tabWidth
    useTabs := if o.useTabs then some true else none
    finalNewline := if o.noFinalNewline then some false else none }
  serializer := some { backend := o.parser, host := o.host, port := o.port, protocol := o.protocol }

/-- What becomes of the formatted text. -/
inductive Mode where
  | print
  | check
  | write
  deriving Repr, DecidableEq

inductive Verbosity where
  | quiet
  | normal
  | verbose
  deriving Repr, DecidableEq

inductive Task where
  | format (paths : List String) (mode : Mode) (verbosity : Verbosity) (overrides : Overrides)
  | tree (path : String) (pretty : Bool) (overrides : Overrides)
  | document (path : String) (overrides : Overrides)
  deriving Repr, DecidableEq

/-- What a command line asks for. -/
inductive Invocation where
  | task (task : Task)
  | version (name : String)
  | help
  /-- The command line is not understood. -/
  | invalid
  deriving Repr, DecidableEq

/-! ### Options -/

/-- What may stand behind an option. -/
inductive SwitchKind where
  | flag
  | width
  | port
  | word
  | path
  | help
  | version
  deriving Repr, DecidableEq

def SwitchKind.accepts (kind : SwitchKind) (value : String) : Bool :=
  match kind with
  | .width => (Decimal.word64? value).isSome
  | .port => (Decimal.word16? value).isSome
  | .word => true
  | .path => !value.isEmpty
  | _ => false

def SwitchKind.takesValue : SwitchKind → Bool
  | .width | .port | .word | .path => true
  | _ => false

structure Switch where
  name : String
  letter : Option Char := none
  kind : SwitchKind
  deriving Repr, DecidableEq

def commonOptions : List Switch :=
  [⟨"config", none, .path⟩, ⟨"print-width", none, .width⟩, ⟨"tab-width", none, .width⟩, ⟨"use-tabs", none, .flag⟩,
    ⟨"no-final-newline", none, .flag⟩, ⟨"anonymous", none, .flag⟩, ⟨"parser", none, .word⟩, ⟨"host", none, .word⟩,
    ⟨"port", none, .port⟩, ⟨"protocol", none, .word⟩, ⟨"help", some 'h', .help⟩, ⟨"version", some 'V', .version⟩]

inductive Verb where
  | format
  | tree
  | document
  deriving Repr, DecidableEq

namespace Verb

def name : Verb → String
  | .format => "fmt"
  | .tree => "ast"
  | .document => "doc"

def ofName? : String → Option Verb
  | "fmt" | "f" => some .format
  | "ast" => some .tree
  | "doc" => some .document
  | _ => none

def options : Verb → List Switch
  | .format =>
    [⟨"check", none, .flag⟩, ⟨"write", some 'w', .flag⟩, ⟨"verbose", some 'v', .flag⟩, ⟨"quiet", some 'q', .flag⟩] ++
      commonOptions
  | .tree => ⟨"pretty", none, .flag⟩ :: commonOptions
  | .document => commonOptions

def takesPaths : Verb → Bool
  | .format => true
  | _ => false

end Verb

/-! ### Reading -/

structure Reading where
  flags : List String := []
  values : List (String × String) := []
  paths : List String := []
  /-- The option that waits for its value. -/
  waiting : Option Switch := none
  /-- All that follows is a path. -/
  onlyPaths : Bool := false
  deriving Repr

/-- Why the reading ends before the end of the arguments. -/
inductive Stop where
  | help
  | version
  | invalid
  deriving Repr, DecidableEq

namespace Reading

def value (r : Reading) (option : Switch) (value : String) : Except Stop Reading :=
  if option.kind.accepts value && (r.values.lookup option.name).isNone then
    .ok { r with values := r.values ++ [(option.name, value)], waiting := none }
  else .error .invalid

def bare (r : Reading) (option : Switch) : Except Stop Reading :=
  match option.kind with
  | .help => .error .help
  | .version => .error .version
  | .flag => if r.flags.contains option.name then .error .invalid else .ok { r with flags := r.flags ++ [option.name] }
  | _ => .ok { r with waiting := some option }

def long (verb : Verb) (r : Reading) (name : String) (value : Option String) : Except Stop Reading :=
  match verb.options.find? (·.name == name), value with
  | none, _ => .error .invalid
  | some option, none => r.bare option
  | some option, some value => if option.kind.takesValue then r.value option value else .error .invalid

def letters (verb : Verb) (r : Reading) : List Char → Except Stop Reading
  | [] => .ok r
  | c :: cs =>
    match verb.options.find? (·.letter == some c) with
    | none => .error .invalid
    | some option => do
      let r ← r.bare option
      r.letters verb cs

def path (verb : Verb) (r : Reading) (path : String) : Except Stop Reading :=
  if path.isEmpty || (!verb.takesPaths && !r.paths.isEmpty) then .error .invalid
  else .ok { r with paths := r.paths ++ [path] }

/-- What stands before and behind the first equals sign. -/
def splitValue (cs : List Char) : String × Option String :=
  let name := String.ofList (cs.takeWhile (· ≠ '='))
  match cs.dropWhile (· ≠ '=') with
  | [] => (name, none)
  | _ :: value => (name, some (String.ofList value))

/-- One argument. Nothing that looks like an option is a value. -/
def argument (verb : Verb) (r : Reading) (arg : String) : Except Stop Reading :=
  if r.onlyPaths then r.path verb arg
  else
    match arg.toList with
    | ['-', '-'] => .ok { r with onlyPaths := true }
    | '-' :: '-' :: cs =>
      if r.waiting.isSome then .error .invalid
      else
        let (name, value) := splitValue cs
        r.long verb name value
    | '-' :: c :: cs => if r.waiting.isSome then .error .invalid else r.letters verb (c :: cs)
    | _ =>
      match r.waiting with
      | some option => r.value option arg
      | none => r.path verb arg

def arguments (verb : Verb) (r : Reading) : List String → Except Stop Reading
  | [] => .ok r
  | arg :: args => do
    let r ← r.argument verb arg
    r.arguments verb args

def hasFlag (r : Reading) (name : String) : Bool := r.flags.contains name

def value? (r : Reading) (name : String) : Option String := r.values.lookup name

def overrides (r : Reading) : Overrides where
  config := r.value? "config"
  printWidth := (r.value? "print-width").bind Decimal.word64?
  tabWidth := (r.value? "tab-width").bind Decimal.word64?
  useTabs := r.hasFlag "use-tabs"
  noFinalNewline := r.hasFlag "no-final-newline"
  anonymous := r.hasFlag "anonymous"
  parser := r.value? "parser"
  host := r.value? "host"
  port := (r.value? "port").bind Decimal.word16?
  protocol := r.value? "protocol"

def mode (r : Reading) : Mode :=
  if r.hasFlag "check" then .check else if r.hasFlag "write" then .write else .print

def verbosity (r : Reading) : Verbosity :=
  if r.hasFlag "quiet" then .quiet else if r.hasFlag "verbose" then .verbose else .normal

/-- Flags of which only one may be given are given together. -/
def isContradictory (r : Reading) : Bool :=
  (r.hasFlag "check" && r.hasFlag "write") || (r.hasFlag "verbose" && r.hasFlag "quiet")

def task? (verb : Verb) (r : Reading) : Option Task :=
  if r.waiting.isSome || r.isContradictory then none
  else
    match verb, r.paths with
    | _, [] => none
    | .format, paths => some (.format paths r.mode r.verbosity r.overrides)
    | .tree, path :: _ => some (.tree path (r.hasFlag "pretty") r.overrides)
    | .document, path :: _ => some (.document path r.overrides)

end Reading

def programName : String := "apexfmt"

def Verb.invocation (verb : Verb) (args : List String) : Invocation :=
  match ({} : Reading).arguments verb args with
  | .error .help => .help
  | .error .version => .version (programName ++ "-" ++ verb.name)
  | .error .invalid => .invalid
  | .ok r =>
    match r.task? verb with
    | some task => .task task
    | none => .invalid

/-- What stands behind the word for help: nothing, or one command. -/
def helpTopics : List String → Invocation
  | [] => .help
  | [topic] => if topic == "help" || (Verb.ofName? topic).isSome then .help else .invalid
  | _ => .invalid

def Invocation.ofArguments : List String → Invocation
  | [] => .invalid
  | arg :: args =>
    match Verb.ofName? arg with
    | some verb => verb.invocation args
    | none =>
      if arg == "help" then helpTopics args
      else
        match arg.toList with
        | '-' :: 'h' :: _ => .help
        | '-' :: 'V' :: _ => .version programName
        | _ => if arg == "--help" then .help else if arg == "--version" then .version programName else .invalid

end ApexLayout.Command
