import ApexLayout.Json.Basic
import ApexLayout.Toml.Scalar

/-!
Reading a TOML document as a JSON value. A table may be opened by one header, also after tables below
it were opened; a table made by dotted keys is extended by dotted keys only. Values, inline tables and
arrays among them, are closed. Arrays of tables are refused, since no document of settings has them.
-/
namespace ApexLayout.Toml

/-- How a table came to be. -/
inductive Origin where
  /-- By a header of its own. -/
  | header
  /-- By the header of a table below it. -/
  | implied
  /-- By dotted keys. -/
  | dotted
  deriving Repr, DecidableEq

inductive Item where
  | value (value : Json)
  | table (origin : Origin) (fields : List (String × Item))
  deriving Repr, Inhabited

/-- The items of a table, in the order in which they are written. -/
abbrev Fields := List (String × Item)

namespace Fields

def update (key : String) (f : Option Item → Option Item) : Fields → Option Fields
  | [] => (f none).map fun item => [(key, item)]
  | (k, item) :: rest =>
    if k = key then (f (some item)).map fun item => (k, item) :: rest
    else (update key f rest).map ((k, item) :: ·)

def add (key : String) (item : Item) (fields : Fields) : Option Fields :=
  fields.update key fun
    | none => some item
    | some _ => none

/-- Adds an item below dotted keys. They lead through tables that no header has opened, and the last of
    these was made by dotted keys. -/
def addBelow (key : String) (item : Item) : List String → Fields → Option Fields
  | [], fields => fields.add key item
  | name :: names, fields =>
    fields.update name fun
      | none => (addBelow key item names []).map (.table .dotted)
      | some (.table .dotted inner) => (addBelow key item names inner).map (.table .dotted)
      | some (.table .implied inner) =>
        if names.isEmpty then none else (addBelow key item names inner).map (.table .implied)
      | some _ => none

def openTable : List String → Fields → Option Fields
  | [], _ => none
  | [name], fields =>
    fields.update name fun
      | none => some (.table .header [])
      | some (.table .implied inner) => some (.table .header inner)
      | some _ => none
  | name :: names, fields =>
    fields.update name fun
      | none => (openTable names []).map (.table .implied)
      | some (.table origin inner) => (openTable names inner).map (.table origin)
      | some (.value _) => none

def modifyAt (f : Fields → Option Fields) : List String → Fields → Option Fields
  | [], fields => f fields
  | name :: names, fields =>
    fields.update name fun
      | some (.table origin inner) => (modifyAt f names inner).map (.table origin)
      | _ => none

end Fields

mutual
def Item.toJson : Item → Json
  | .value value => value
  | .table _ fields => .object (fieldValues fields)
def fieldValues : List (String × Item) → List (String × Json)
  | [] => []
  | (key, item) :: rest => (key, item.toJson) :: fieldValues rest
end

/-- The value of a text that JSON has no values for: an object with its type and the text, which no
    setting takes. -/
def taggedValue (type : String) (cs rest : List Char) : Json :=
  .object [("type", .string type), ("value", .string (String.ofList (cs.take (cs.length - rest.length))))]

def scalar : Reader Json
  | '"' :: rest => (stringIn '"' rest).map fun (s, rest) => (.string s, rest)
  | '\'' :: rest => (stringIn '\'' rest).map fun (s, rest) => (.string s, rest)
  | 't' :: 'r' :: 'u' :: 'e' :: rest => some (.bool true, rest)
  | 'f' :: 'a' :: 'l' :: 's' :: 'e' :: rest => some (.bool false, rest)
  | cs =>
    match moment? cs with
    | some rest => some (taggedValue "datetime" cs rest, rest)
    | none =>
      match fraction? cs with
      | some rest => some (taggedValue "float" cs rest, rest)
      | none => (integer cs).map fun (n, rest) => (.number (.int n), rest)

/-- The items of an array, from the first one on; a comma may stand behind the last one. -/
def arrayItems (read : Reader Json) : Nat → List Json → Reader Json
  | 0, _, _ => none
  | bound + 1, before, cs =>
    match skipLines false cs with
    | ']' :: rest => some (.array before.reverse, rest)
    | cs => do
      let (item, rest) ← read cs
      match skipLines false rest with
      | ',' :: rest => arrayItems read bound (item :: before) rest
      | ']' :: rest => return (.array (item :: before).reverse, rest)
      | _ => none

def keyValue (read : Reader Json) (fields : Fields) (cs : List Char) : Option (Fields × List Char) := do
  let (keys, rest) ← key cs
  match rest with
  | '=' :: rest =>
    let (value, rest) ← read (skipSpaces rest)
    let last ← keys.getLast?
    let fields ← fields.addBelow last (.value value) keys.dropLast
    return (fields, rest)
  | _ => none

def inlineFields (read : Reader Json) : Nat → Fields → Reader Json
  | 0, _, _ => none
  | bound + 1, fields, cs => do
    let (fields, rest) ← keyValue read fields cs
    match skipSpaces rest with
    | ',' :: rest => inlineFields read bound fields rest
    | '\x7d' :: rest => return (.object (fieldValues fields), rest)
    | _ => none

/-- A value in which arrays and inline tables may be nested so deep. -/
def value : Nat → Reader Json
  | 0, cs => scalar cs
  | levels + 1, cs =>
    match cs with
    | '[' :: rest => arrayItems (value levels) (rest.length + 1) [] rest
    | '\x7b' :: rest =>
      match skipSpaces rest with
      | '\x7d' :: rest => some (.object [], rest)
      | rest => inlineFields (value levels) (rest.length + 1) [] rest
    | cs => scalar cs

def valueLine (cs : List Char) : Option (Json × List Char) := do
  let (value, rest) ← value maxNesting cs
  let rest ← restOfLine? rest
  return (value, rest)

/-- The lines of a document. Keys go to the table whose header was read last. -/
def readLines : Nat → List String → Fields → List Char → Option Fields
  | 0, _, _, _ => none
  | bound + 1, table, fields, cs =>
    match skipSpaces cs with
    | [] => some fields
    | '[' :: rest => do
      let (keys, rest) ← key rest
      match rest with
      | ']' :: rest =>
        let rest ← restOfLine? rest
        let fields ← fields.openTable keys
        readLines bound keys fields rest
      | _ => none
    | c :: cs =>
      if c = '\n' ∨ c = '\r' ∨ c = '#' then (restOfLine? (c :: cs)).bind fun rest => readLines bound table fields rest
      else do
        let (keys, rest) ← key (c :: cs)
        match rest with
        | '=' :: rest =>
          let (value, rest) ← valueLine (skipSpaces rest)
          let last ← keys.getLast?
          let fields ← fields.modifyAt (·.addBelow last (.value value) keys.dropLast) table
          readLines bound table fields rest
        | _ => none

/-- The value of a document, which may start with a byte order mark. -/
def read? (text : String) : Option Json :=
  let cs := match text.toList with
    | '\ufeff' :: cs => cs
    | cs => cs
  (readLines (cs.length + 1) [] [] cs).map fun fields => .object (fieldValues fields)

end ApexLayout.Toml
