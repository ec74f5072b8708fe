import ApexLayout.Printer.Basic
import ApexLayout.Text.Case

/-!
Queries and searches. A query that stands on several lines in the source has one clause on every line;
any other breaks between its clauses only if it does not fit.
-/
namespace ApexLayout.Printer

/-- A query within an expression, in square brackets. -/
def inlineQuery (p : Printer) (field : String) : Outcome Draft := do
  let query ← p.print [field]
  return Doc.indentGroup (.concat (bracketed "[" query "]"))

/-- What stands between the clauses of a query. -/
def clauseLine (p : Printer) (id : NodeId) : Draft :=
  if p.manuscript.occurrences.isMultiline id then Doc.hardLine else .line

/-- A clause that may be absent. -/
def clause (p : Printer) (field : String) : Outcome (List Draft) := do
  let doc ← p.print [field, "value"]
  return if doc.isEmpty then [] else [doc]

def clauses (p : Printer) : List String → Outcome (List Draft)
  | [] => .ok []
  | field :: fields => do
    let first ← p.clause field
    let rest ← p.clauses fields
    return first ++ rest

/-- A query; its identifiers for `WITH` make one clause. -/
def query (p : Printer) (id : NodeId) : Outcome Draft := do
  let select ← p.print ["select"]
  let source ← p.print ["from"]
  let filters ← p.clauses ["where", "with"]
  let identifiers ← p.printEach ["withIdentifiers"]
  let identifiers : List Draft := if identifiers.isEmpty then [] else [Doc.join " " identifiers]
  let rest ← p.clauses ["groupBy", "orderBy", "limit", "offset", "bind", "tracking", "updateStats", "options"]
  return Doc.join (p.clauseLine id) ([select, source] ++ filters ++ identifiers ++ rest)

/-- A word with the value right behind it. -/
def wordAndValue (p : Printer) (word field : String) : Outcome Draft := do
  let value ← p.print [field]
  return .concat [.text word, value]

/-- A limit or an offset. -/
def limit (p : Printer) (word field : String) : Outcome Draft := do
  let value ← p.print [field]
  return .concat [.text word, " ", value]

/-- A word, and the items of a list. -/
def wordAndLines (p : Printer) (word : String) : Outcome Draft := do
  let items ← p.printEach ["exprs"]
  return Doc.indentGroup (.concat [.text word, .line, commaLines items])

/-- A word, and what it is about on the same line or the next. -/
def wordAndLine (p : Printer) (word field : String) : Outcome Draft := do
  let doc ← p.print [field]
  return Doc.indentGroup (.concat [.text word, .line, doc])

/-! ### What is selected, and from where -/

/-- The other name that a column, query or table is given. -/
def aliasDocs (p : Printer) : Outcome (List Draft) := do
  let name ← p.print ["alias", "value"]
  return if name.isEmpty then [] else [" ", name]

/-- A selected field. -/
def selectColumn (p : Printer) : Outcome Draft := do
  let field ← p.print ["field"]
  let aliasDocs ← p.aliasDocs
  return Doc.fill (.concat (field :: aliasDocs))

/-- A selected distance, always under another name. -/
def selectDistance (p : Printer) : Outcome Draft := do
  let distance ← p.print ["expr"]
  let name ← p.print ["alias", "value"]
  return Doc.fill (.concat [distance, " ", name])

/-- A query among the selected columns. -/
def innerQuery (p : Printer) : Outcome Draft := do
  let query ← p.print ["query"]
  let aliasDocs ← p.aliasDocs
  return Doc.indentGroup (Doc.parts [bracketed "(" query ")", aliasDocs])

/-- Columns by the type of a row. -/
def typeCases (p : Printer) : Outcome Draft := do
  let subject ← p.print ["op"]
  let cases ← p.printEach ["whenBranches"]
  let otherwise ← p.print ["elseBranch", "value"]
  let otherwise : List Draft := if otherwise.isEmpty then [] else [.line, otherwise]
  return Doc.indentGroup (Doc.parts
    [["TYPEOF ", subject, Doc.hardLine, Doc.join .line cases], otherwise, [.dedent .softLine, "END"]])

/-- The columns for one type. -/
def typeCase (p : Printer) : Outcome Draft := do
  let type ← p.print ["op"]
  let fields ← p.printEach ["identifiers"]
  return Doc.indentGroup (.concat ["WHEN ", type, " THEN", .line, commaLines fields, .dedent .softLine])

/-- The columns for all other types. -/
def elseCase (p : Printer) : Outcome Draft := do
  let fields ← p.printEach ["identifiers"]
  return Doc.indentGroup (.concat ["ELSE ", commaLines fields, .dedent .softLine])

/-- A field, within up to two functions. -/
def field (p : Printer) : Outcome Draft := do
  let outer ← p.print ["function1", "value"]
  let inner ← p.print ["function2", "value"]
  let name ← p.print ["field"]
  if outer.isEmpty then return name
  let argument := Doc.indentGroup (.concat [.softLine, name, .dedent .softLine])
  let argument :=
    if inner.isEmpty then argument
    else Doc.indentGroup (.concat [.softLine, inner, "(", argument, ")", .dedent .softLine])
  return .concat [outer, "(", argument, ")"]

/-- A field, behind its entity if that is named. -/
def fieldIdentifier (p : Printer) : Outcome Draft := do
  let entity ← p.print ["entity", "value"]
  let name ← p.print ["field"]
  return if entity.isEmpty then name else .concat [entity, ".", name]

def fromClause (p : Printer) : Outcome Draft := do
  let tables ← p.printEach ["exprs"]
  return Doc.indentGroup (.concat ["FROM", .line, Doc.join ", " tables])

/-- A table with its other name and its scope. -/
def fromTable (p : Printer) : Outcome Draft := do
  let table ← p.print ["table"]
  let aliasDocs ← p.aliasDocs
  let scope ← p.print ["using", "value"]
  let scope : List Draft := if scope.isEmpty then [] else [.line, scope, .dedent .softLine]
  return Doc.indentGroup (Doc.parts [[table], aliasDocs, scope])

/-- The scope of a query, or the statistics it updates. -/
def closedList (p : Printer) (word listField : String) : Outcome Draft := do
  let items ← p.printEach [listField]
  return Doc.indentGroup (.concat [.text word, .line, commaLines items, .dedent .softLine])

/-- An entry of a scope. -/
def scopeName (p : Printer) (separator : String) : Outcome Draft := do
  let name ← p.print ["name", "value"]
  let value ← p.print ["field", "value"]
  return .concat [name, .text separator, value]

/-- An entry of a scope with an id. -/
def scopeId (p : Printer) : Outcome Draft := do
  let name ← p.print ["name"]
  let id ← p.print ["id"]
  let value ← p.print ["field"]
  return .concat [name, "(", id, " = ", value, ")"]

/-! ### Conditions -/

/-- Fields with words or single spaces between them. -/
def spaced (p : Printer) : List String → Outcome Draft
  | [] => .ok Doc.empty
  | first :: rest => do
    let first ← p.print [first]
    let rest ← rest.mapM fun field => p.print [field]
    return Doc.fill (.concat (first :: rest.flatMap fun doc => [Doc.text " ", doc]))

/-- A condition on what another query finds. -/
def conditionInQuery (p : Printer) : Outcome Draft := do
  let name ← p.print ["field"]
  let op ← p.print ["op"]
  let query ← p.print ["inner"]
  return Doc.indentGroup (Doc.parts [[name, " ", op], bracketed " (" query ")"])

/-- A condition on the values of a list. -/
def conditionInList (p : Printer) : Outcome Draft := do
  let name ← p.print ["field"]
  let op ← p.print ["op"]
  let values ← p.printEach ["expr"]
  return Doc.fill (.concat
    [name, " ", op, " (", .indent (.concat [.softLine, commaLines values, .dedent .softLine]), ")"])

/-- Whether the condition is part of another. -/
def isInCondition (p : Printer) : Bool :=
  (p.parent?.map (p.tree.isAmong · [.whereCompoundExpr, .whereUnaryExpr])).getD false

/-- Conditions with the same operator between them. Within another condition they stand in parentheses,
    unless its operator is the same. -/
def compoundCondition (p : Printer) (id : NodeId) : Outcome Draft := do
  let operatorOf (node : NodeId) : Option Kind := (p.tree.child? node "op").bind p.tree.kind?
  let around := p.parent?.bind operatorOf
  let op ← p.print ["op"]
  let conditions ← p.printEach ["expr"]
  let doc := Doc.join (.concat [.line, op, " "]) conditions
  return if p.isInCondition && (around.isNone || operatorOf id != around) then .concat ["(", doc, ")"] else doc

/-- A negation, in parentheses within another condition. -/
def negatedCondition (p : Printer) : Outcome Draft := do
  let op ← p.print ["op"]
  let condition ← p.print ["expr"]
  let doc : Draft := .concat [op, " ", condition]
  return if p.isInCondition then .concat ["(", doc, ")"] else doc

/-- The distance between two places. -/
def distance (p : Printer) : Outcome Draft := do
  let name ← p.print ["field"]
  let location ← p.print ["location"]
  let unit ← p.print ["unit"]
  return Doc.indentGroup (.concat (bracketed "DISTANCE(" (commaLines [name, location, quoted unit]) ")"))

/-- A place on the earth. -/
def geolocation (p : Printer) : Outcome Draft := do
  let latitude ← p.print ["latitude"]
  let longitude ← p.print ["longitude"]
  return Doc.indentGroup (.concat ["GEOLOCATION(", commaLines [latitude, longitude], .dedent .softLine, ")"])

/-- A quoted string; its text is printed as it was read. -/
def queryString (p : Printer) (id : NodeId) : Draft := quoted (.text ((p.tree.string? id "literal").getD ""))

/-- All conditions on categories. -/
def dataCategories (p : Printer) : Outcome Draft := do
  let categories ← p.printEach ["categories"]
  return Doc.indentGroup (.concat ["WITH DATA CATEGORY", .line, Doc.join (.concat [.line, "AND "]) categories])

/-- A condition on categories; only several of them need parentheses. -/
def dataCategory (p : Printer) : Outcome Draft := do
  let type ← p.print ["type"]
  let op ← p.print ["op"]
  let categories ← p.printEach ["categories"]
  let categories := categories.filter (!·.isEmpty)
  let bracket (sign : Draft) : List Draft := if 1 < categories.length then [sign] else []
  return Doc.indentGroup (Doc.parts
    [[type, " ", op, " "], bracket "(", [.softLine, commaLines categories, .dedent .softLine], bracket ")"])

/-- A name and its value, behind a word. -/
def equation (p : Printer) (word : List Draft) (left right : String) : Outcome Draft := do
  let name ← p.print [left]
  let value ← p.print [right]
  return Doc.parts [word, [name, " = ", value]]

/-! ### Order and groups -/

def orderBy (p : Printer) : Outcome Draft := do
  let keys ← p.printEach ["exprs"]
  return Doc.fill (.concat ["ORDER BY", .indent (.concat [.line, commaLines keys])])

/-- What is sorted by, and the words for its direction and its nulls. -/
def orderKey (p : Printer) (field : String) : Outcome Draft := do
  let key ← p.print [field]
  let order ← p.print ["order"]
  let nullOrder ← p.print ["nullOrder"]
  let words := [order, nullOrder].filter (!·.isEmpty)
  return .concat (key :: words.flatMap fun doc => [Doc.text " ", doc])

/-- An order that is not written in the source has its extent at the start, and is not printed. -/
def orderWord (p : Printer) (id : NodeId) (word : String) : Draft :=
  match p.manuscript.extents.get? id with
  | some span => if 0 < span.start then .text word else Doc.empty
  | none => Doc.empty

/-- The groups of a query, and the condition on them. -/
def groupBy (p : Printer) : Outcome Draft := do
  let keys ← p.printEach ["exprs"]
  let type ← p.print ["type", "value"]
  let having ← p.print ["having", "value"]
  let parts : Draft :=
    if type.isEmpty then .concat ["GROUP BY", .line, commaLines keys]
    else Doc.parts [["GROUP BY", " ", type], bracketed "(" (commaLines keys) ")"]
  let doc := Doc.indentGroup parts
  return if having.isEmpty then doc else .concat [doc, .line, Doc.fill having]

def bindClause (p : Printer) : Outcome Draft := do
  let bindings ← p.printEach ["exprs"]
  return .concat ["BIND ", Doc.join ", " bindings]

/-! ### Searches -/

/-- A search; its filters come last. -/
def search (p : Printer) (id : NodeId) : Outcome Draft := do
  let filters ← p.printEach ["withs"]
  let find ← p.print ["find"]
  let clauses ← p.clauses ["in", "returning", "division", "dataCategory", "limit", "updateStats", "using"]
  let filters : List Draft := if filters.isEmpty then [] else [Doc.join .line filters]
  return Doc.join (p.clauseLine id) ([find] ++ clauses ++ filters)

/-- The fields that are searched. -/
def inClause (p : Printer) (id : NodeId) : Draft :=
  .concat ["IN ", .text (Text.upper ((p.tree.string? id "scope").getD "")), " FIELDS"]

def searchWith (p : Printer) : Outcome Draft := do
  let name ← p.print ["name"]
  let value ← p.print ["value", "value"]
  return .concat ["WITH ", name, value]

/-- One value, or a list of them. -/
def searchValues (p : Printer) : Outcome Draft := do
  let values ← p.printEach ["values"]
  match values with
  | [single] => return Doc.indentGroup (.concat [" = ", single])
  | values => return Doc.indentGroup (.concat (bracketed " IN (" (commaLines values) ")"))

def searchTarget (p : Printer) : Outcome Draft := do
  let target ← p.print ["target"]
  let value ← p.print ["value"]
  return Doc.indentGroup (.concat ["(", target, " = ", value, ")"])

/-- A type that is returned, with its columns if they are named. -/
def returning (p : Printer) : Outcome Draft := do
  let name ← p.print ["name"]
  let select ← p.print ["select", "value"]
  return Doc.fill (if select.isEmpty then name else .concat [name, "(", select, ")"])

/-- The columns of a returned type, and what narrows them. -/
def returningSelect (p : Printer) : Outcome Draft := do
  let fields ← p.printEach ["fields"]
  let clauses ← p.clauses ["where", "using", "orderBy", "limit", "offset", "bind"]
  return Doc.indentGroup (.concat [.softLine, Doc.join .line (commaLines fields :: clauses)])

def usingType (p : Printer) : Outcome Draft := do
  let filter ← p.print ["filter"]
  let value ← p.print ["value"]
  return .concat [filter, " ", value]

end ApexLayout.Printer
