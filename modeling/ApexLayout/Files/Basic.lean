import ApexLayout.Text.Blank

/-!
The files that a command sees: a tree of directories below one at the top. Paths are taken apart and
put together as texts.
-/
namespace ApexLayout

namespace Path

def pieces (path : String) : List String := (Text.pieces '/' path.toList).map String.ofList

def ofPieces (pieces : List String) : String := "/".intercalate pieces

def isAbsolute (path : String) : Bool := path.toList.head? == some '/'

/-- A path below another one. An absolute path stays as it is. -/
def join (base path : String) : String :=
  if isAbsolute path || base.isEmpty then path
  else if base.toList.getLast? == some '/' then base ++ path
  else base ++ "/" ++ path

/-! ### Limits -/

def isLongName (name : String) : Bool := 255 < name.utf8ByteSize

def isLong (path : String) : Bool := 4095 < path.utf8ByteSize

/-! ### The directories above -/

def isIdle (piece : String) : Bool := piece.isEmpty || piece == "."

/-- The pieces without those at the end that name nothing. -/
def dropIdle (pieces : List String) : List String := (pieces.reverse.dropWhile isIdle).reverse

def above (pieces : List String) : List String := dropIdle (dropIdle pieces).dropLast

/-- The path itself and the directories above it, the nearest first. The bound is on their number. -/
def upwards : Nat → List String → List (List String)
  | 0, pieces => [pieces]
  | bound + 1, pieces =>
    match above pieces with
    | [] => [pieces]
    | next => pieces :: upwards bound next

def ancestors (path : String) : List String :=
  (upwards (pieces path).length (pieces path)).map ofPieces

/-! ### Names -/

def fileName (path : String) : String := ((dropIdle (pieces path)).getLast?).getD ""

/-- What stands behind the last dot of the name, unless the name starts with that dot. -/
def extension? (path : String) : Option String :=
  match (Text.pieces '.' (fileName path).toList).reverse with
  | last :: before :: rest => if rest.isEmpty && before.isEmpty then none else some (String.ofList last)
  | _ => none

end Path

inductive Entry where
  | file (content : String)
  | directory
  deriving Repr, DecidableEq

inductive FileError where
  | missing
  | notDirectory
  | isDirectory
  /-- A name or the whole path is too long. -/
  | tooLong
  /-- The path holds a NUL character. -/
  | holdsNul
  deriving Repr, DecidableEq

def FileError.message : FileError → String
  | .missing => "No such file or directory (os error 2)"
  | .notDirectory => "Not a directory (os error 20)"
  | .isDirectory => "Is a directory (os error 21)"
  | .tooLong => "File name too long (os error 36)"
  | .holdsNul => "file name contained an unexpected NUL byte"

/-- A place: the names that lead to it from the top. -/
abbrev Place := List String

inductive Destination where
  | below (place : Place)
  /-- A directory that does not lie below the top. -/
  | outside
  deriving Repr, DecidableEq

structure Files where
  /-- The absolute path of the top, without a slash at its end. -/
  top : String := ""
  /-- The directory in which paths start that are not absolute. -/
  here : Place := []
  /-- The files, and the directories that may be empty. -/
  entries : List (Place × Entry) := []
  deriving Repr

namespace Files

/-- What stands at a place. A directory need not be listed if something below it is. -/
def entry? (f : Files) (place : Place) : Option Entry :=
  match f.entries.lookup place with
  | some entry => some entry
  | none => if place.isEmpty || f.entries.any (fun (p, _) => place.isPrefixOf p) then some .directory else none

def destinationEntry? (f : Files) : Destination → Option Entry
  | .below place => f.entry? place
  | .outside => some .directory

/-- One step along a path, from a directory. A name that is too long is not looked up, and outside the top
    no name is known. -/
def step (f : Files) (start : Destination) (piece : String) : Except FileError Destination :=
  match f.destinationEntry? start with
  | none => .error .missing
  | some (.file _) => .error .notDirectory
  | some .directory =>
    if Path.isIdle piece then .ok start
    else
      match start with
      | .below place =>
        if piece == ".." then .ok (if place.isEmpty then .outside else .below place.dropLast)
        else if Path.isLongName piece then .error .tooLong
        else if (f.entry? (place ++ [piece])).isNone then .error .missing
        else .ok (.below (place ++ [piece]))
      | .outside =>
        if piece == ".." then .ok .outside
        else if Path.isLongName piece then .error .tooLong
        else .error .missing

/-- Where a path leads. A text that is no path is refused before it is followed. -/
def destination (f : Files) (path : String) : Except FileError Destination :=
  if path.toList.contains '\x00' then .error .holdsNul
  else if Path.isLong path then .error .tooLong
  else if path.isEmpty then .error .missing
  else if path == f.top then .ok (.below [])
  else
    match Text.dropPrefix? (f.top ++ "/") path with
    | some rest => (Path.pieces rest).foldlM f.step (.below [])
    | none => (Path.pieces path).foldlM f.step (if Path.isAbsolute path then .outside else .below f.here)

def at? (f : Files) (path : String) : Option Entry :=
  match f.destination path with
  | .ok destination => f.destinationEntry? destination
  | .error _ => none

def exists? (f : Files) (path : String) : Bool := (f.at? path).isSome

def isDirectory (f : Files) (path : String) : Bool := f.at? path == some .directory

def isFile (f : Files) (path : String) : Bool := (f.at? path).isSome && f.at? path != some .directory

def read (f : Files) (path : String) : Except FileError String := do
  let destination ← f.destination path
  match f.destinationEntry? destination with
  | some (.file content) => return content
  | some .directory => throw .isDirectory
  | none => throw .missing

def write (f : Files) (path content : String) : Files :=
  match f.destination path with
  | .ok (.below place) =>
    { f with entries := f.entries.map fun (p, entry) => if p = place then (p, .file content) else (p, entry) }
  | _ => f

/-! ### Looking through directories -/

def names (f : Files) (place : Place) : List String :=
  let below := f.entries.filterMap fun (p, _) =>
    if place.isPrefixOf p then (p.drop place.length).head? else none
  below.eraseDups.mergeSort (· ≤ ·)

/-- The paths of the files in a directory and the directories below it, by name. The bound is on how
    deep directories are nested. -/
def filesBelow (f : Files) : Nat → String → Place → List String
  | 0, _, _ => []
  | bound + 1, path, place =>
    (f.names place).flatMap fun name =>
      let inner := place ++ [name]
      match f.entry? inner with
      | some (.file _) => [Path.join path name]
      | some .directory => f.filesBelow bound (Path.join path name) inner
      | none => []

def depth (f : Files) : Nat := f.entries.foldl (fun depth (p, _) => max depth p.length) 0

def walk (f : Files) (path : String) : List String :=
  match f.destination path with
  | .ok (.below place) => f.filesBelow (f.depth + 1) path place
  | _ => []

end Files
end ApexLayout
