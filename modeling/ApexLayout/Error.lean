/-!
The ways in which formatting a source fails. Formatting is all or nothing: the first failure is the
answer, and `message` is its wording.
-/
namespace ApexLayout

inductive FormatError where
  /-- The parser reported errors in the source. -/
  | parse (details : String)
  /-- A reference to an id that no object before it has. -/
  | reference (id : String)
  /-- A node of a class that cannot be printed. -/
  | unsupported (className : String)
  /-- A location that does not agree with the source. -/
  | location (className : String) (detail : String)
  /-- A tree that is not formed as the serializer forms it. -/
  | malformed (detail : String)
  /-- The serializer's output is not JSON. -/
  | json
  /-- The serializer failed. -/
  | serializer (details : String)
  /-- There is no answer, because the work does not end. -/
  | endless
  /-- There is no answer, because a list is read beyond its end. The work stops at once. -/
  | outOfBounds
  deriving Repr, DecidableEq

def FormatError.message : FormatError → String
  | .parse details => "Parse error: " ++ details
  | .reference id => "Unresolved @reference to id '" ++ id ++ "'"
  | .unsupported className => "No handler found for " ++ className
  | .location className detail => "Location invariant violated on " ++ className ++ ": " ++ detail
  | .malformed detail => "Malformed AST: " ++ detail
  | .json => "Invalid AST JSON"
  | .serializer details => "Parser failed: " ++ details
  | .endless => "Formatting does not end"
  | .outOfBounds => "A list is read beyond its end"

abbrev Outcome (α : Type) := Except FormatError α

end ApexLayout
