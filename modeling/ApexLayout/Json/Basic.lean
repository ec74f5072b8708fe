import ApexLayout.Decimal.Double

/-!
JSON values. Objects keep the order of their keys. A number is a whole number if it was written as
one and fits into 64 bits, and a double otherwise. Values are written on one line or indented by two
spaces.
-/
namespace ApexLayout

inductive Number where
  | int (value : Int)
  | double (value : Decimal.Double)
  deriving Repr, DecidableEq

/-- The text of a number: whole numbers in decimal, doubles with the fewest digits. -/
def Number.text : Number → String
  | .int value => toString value
  | .double value => value.text

def Number.toNat? : Number → Option Nat
  | .int (.ofNat n) => some n
  | _ => none

inductive Json where
  | null
  | bool (value : Bool)
  | number (value : Number)
  | string (value : String)
  | array (items : List Json)
  | object (fields : List (String × Json))
  deriving Repr, Inhabited, BEq

namespace Json

def get? (json : Json) (key : String) : Option Json :=
  match json with
  | .object fields => fields.lookup key
  | _ => none

def string? : Json → Option String
  | .string value => some value
  | _ => none

def nat? : Json → Option Nat
  | .number value => value.toNat?
  | _ => none

def bool? : Json → Option Bool
  | .bool value => some value
  | _ => none

def array? : Json → Option (List Json)
  | .array items => some items
  | _ => none

def object? : Json → Option (List (String × Json))
  | .object fields => some fields
  | _ => none

def ofNat (n : Nat) : Json := .number (.int n)

/-- A repeated key keeps its first place and takes the last value. -/
def insert (fields : List (String × Json)) (key : String) (value : Json) : List (String × Json) :=
  match fields with
  | [] => [(key, value)]
  | (k, v) :: rest => if k = key then (k, value) :: rest else (k, v) :: insert rest key value

mutual
/-- How deep objects and arrays are nested in the value. -/
def depth : Json → Nat
  | .array items => 1 + depths items
  | .object fields => 1 + fieldDepths fields
  | _ => 0
def depths : List Json → Nat
  | [] => 0
  | item :: items => max item.depth (depths items)
def fieldDepths : List (String × Json) → Nat
  | [] => 0
  | (_, value) :: fields => max value.depth (fieldDepths fields)
end

end Json

/-! ### Writing -/

namespace Json

/-- A character as it stands in a JSON string: only the quote, the backslash and controls are escaped. -/
def escapeChar (c : Char) : List Char :=
  if c = '"' then ['\\', '"']
  else if c = '\\' then ['\\', '\\']
  else if c = '\n' then ['\\', 'n']
  else if c = '\r' then ['\\', 'r']
  else if c = '\t' then ['\\', 't']
  else if c = '\x08' then ['\\', 'b']
  else if c = '\x0c' then ['\\', 'f']
  else if c.toNat < 0x20 then
    let ds := Nat.toDigits 16 c.toNat
    '\\' :: 'u' :: List.replicate (4 - ds.length) '0' ++ ds
  else [c]

def quote (s : String) : String := String.ofList ('"' :: s.toList.flatMap escapeChar ++ ['"'])

mutual
def compact : Json → String
  | .null => "null"
  | .bool true => "true"
  | .bool false => "false"
  | .number value => value.text
  | .string value => quote value
  | .array items => "[" ++ compactItems items ++ "]"
  | .object fields => "\x7b" ++ compactFields fields ++ "\x7d"
def compactItems : List Json → String
  | [] => ""
  | [item] => item.compact
  | item :: items => item.compact ++ "," ++ compactItems items
def compactFields : List (String × Json) → String
  | [] => ""
  | [(key, value)] => quote key ++ ":" ++ value.compact
  | (key, value) :: fields => quote key ++ ":" ++ value.compact ++ "," ++ compactFields fields
end

def newLine (level : Nat) : String := "\n" ++ String.ofList (List.replicate (2 * level) ' ')

mutual
/-- The value with a line for every item and field. Empty arrays and objects stay on one line. -/
def pretty (level : Nat) : Json → String
  | .array [] => "[]"
  | .array items => "[" ++ prettyItems (level + 1) items ++ newLine level ++ "]"
  | .object [] => "\x7b\x7d"
  | .object fields => "\x7b" ++ prettyFields (level + 1) fields ++ newLine level ++ "\x7d"
  | .null => "null"
  | .bool true => "true"
  | .bool false => "false"
  | .number value => value.text
  | .string value => quote value
def prettyItems (level : Nat) : List Json → String
  | [] => ""
  | [item] => newLine level ++ item.pretty level
  | item :: items => newLine level ++ item.pretty level ++ "," ++ prettyItems level items
def prettyFields (level : Nat) : List (String × Json) → String
  | [] => ""
  | [(key, value)] => newLine level ++ quote key ++ ": " ++ value.pretty level
  | (key, value) :: fields =>
    newLine level ++ quote key ++ ": " ++ value.pretty level ++ "," ++ prettyFields level fields
end

end Json
end ApexLayout
