import ApexLayout.Command.Run

/-!
The program. It starts no other program: what the serializer answers for every source is read from
the standard input.
-/
open ApexLayout ApexLayout.Command

def absolutePlace (path : String) : Place := (Path.pieces path).filter (!·.isEmpty)

/-- What stands at a path, and below it. -/
partial def entriesAt (path : String) : IO (List (Place × Entry)) := do
  try
    let real ← IO.FS.realPath path
    let place := absolutePlace real.toString
    if ← real.isDir then
      let inner ← (← real.readDir).toList.mapM fun entry => entriesAt entry.path.toString
      return (place, .directory) :: inner.flatten
    else return [(place, .file (← IO.FS.readFile path))]
  catch _ => return []

def namedPaths (args : List String) : List String :=
  match Invocation.ofArguments args with
  | .task (.format paths _ _ o) => paths ++ o.config.toList
  | .task (.tree path _ o) => path :: o.config.toList
  | .task (.document path o) => path :: o.config.toList
  | _ => []

def readEnvironment : IO Layer.Environment := do
  let names := ["APEXFMT_PRINT_WIDTH", "APEXFMT_TAB_WIDTH", "APEXFMT_USE_TABS", "APEXFMT_PARSER"]
  let values ← names.mapM fun name => do return (← IO.getEnv name).map (name, ·)
  return values.filterMap id

def main (args : List String) : IO UInt32 := do
  let answer ← (← IO.getStdin).readToEnd
  let directory := (← IO.currentDir).toString
  let home ← IO.getEnv "HOME"
  let settingsFiles := (home.map Settings.globalFile).toList ++
    (Path.ancestors directory).map (Path.join · Settings.projectFileName)
  let entries ← (directory :: settingsFiles ++ namedPaths args).mapM fun path => do
    if path == directory then return [(absolutePlace path, Entry.directory)] else entriesAt path
  let files : Files := { here := absolutePlace directory, entries := entries.flatten }
  let report := Command.run
    { files, env := ← readEnvironment, home, serializer := fun _ => .finished 0 answer "" } args
  for (place, entry) in report.files.entries do
    match entry with
    | .file text =>
      if files.entry? place != some entry then IO.FS.writeFile ("/" ++ Path.ofPieces place) text
    | .directory => pure ()
  IO.print report.stdout
  IO.eprint report.stderr
  return UInt32.ofNat report.status
