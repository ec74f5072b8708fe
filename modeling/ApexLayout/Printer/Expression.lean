import ApexLayout.Printer.Operator

/-!
Expressions. Operations whose operators bind alike are laid out as one chain, with all operands at
the same indentation. In a chain of calls a line may break before every dot, and the outermost call
has the group. The index of an array access is printed with its subject, so that it is indented
under the chain.
-/
namespace ApexLayout.Printer

def arguments (p : Printer) : Outcome (List Draft) := do
  let docs ← p.printEach ["inputParameters"]
  return docs.map Doc.fill

/-! ### Operations -/

/-- The node at the end of an operation's line has a comment there, so that the line must end. -/
def operandLine (p : Printer) (left : Option NodeId) : Draft :=
  if (left.map p.manuscript.hasEndOfLineTrailingComment).getD false then Doc.hardLine else .line

def operation (p : Printer) (id : NodeId) : Outcome Draft := do
  let own ← p.tierOf id
  let parent := p.parent?.filter p.isOperation
  let left := p.tree.child? id "left"
  let leftOperation := left.filter p.isOperation
  let rightOperation := (p.tree.child? id "right").filter p.isOperation
  let leftTier ← leftOperation.mapM p.tierOf
  let parentTier ← parent.mapM p.tierOf
  let leftDoc ← p.print ["left"]
  let opDoc ← p.print ["op"]
  let rightDoc ← p.print ["right"]
  let rightTier ← if leftTier.isSome then rightOperation.mapM p.tierOf else pure none
  let isLeftOfAlike := parentTier == some own && p.nameAt 0 != "right"
  let leftAlike := leftTier == some own
  let operandsAlike := leftTier.isSome && leftTier == rightTier
  let flat : List Draft := [" ", .concat [opDoc, .line, rightDoc]]
  if (isLeftOfAlike && (leftAlike || leftOperation.isNone)) || operandsAlike || (leftAlike && parent.isNone) then
    let chain : Draft := .concat (leftDoc :: flat)
    return if p.flags.inParentheses then .indent chain else chain
  else if isLeftOfAlike then return .concat (Doc.fill leftDoc :: flat)
  else
    return Doc.fill (.concat [Doc.fill leftDoc, " ", Doc.fill (.concat [opDoc, p.operandLine left, rightDoc])])

def assignment (p : Printer) (id : NodeId) : Outcome Draft := do
  let left ← p.print ["left"]
  let op ← p.print ["op"]
  let right ← p.print ["right"]
  match p.tree.child? id "right" with
  | some value =>
    if p.isOperation value || p.manuscript.hasLeadingComment value then
      return Doc.indentGroup (.concat [left, " ", op, .line, right])
    else return Doc.fill (.concat [left, " ", op, " ", right])
  | none => return Doc.fill (.concat [left, " ", op, " ", right])

def nullCoalescing (p : Printer) : Outcome Draft := do
  let left ← p.print ["left"]
  let right ← p.print ["right"]
  return .concat [left, " ??", Doc.indentGroup (.concat [.line, right])]

/-- The branches are aligned behind the signs before them. -/
def ternary (p : Printer) : Outcome Draft := do
  let condition ← p.print ["condition"]
  let whenTrue ← p.print ["trueExpr"]
  let whenFalse ← p.print ["falseExpr"]
  return Doc.indentGroup (.concat
    [condition, .line, "? ", Doc.fill (.align 2 whenTrue), .line, ": ", Doc.fill (.align 2 whenFalse)])

def behindOperator (p : Printer) : Outcome Draft := do
  let operand ← p.print ["expr"]
  let op ← p.print ["op"]
  return .concat [operand, op]

def beforeOperator (p : Printer) : Outcome Draft := do
  let op ← p.print ["op"]
  let operand ← p.print ["expr"]
  return .concat [op, operand]

def instanceTest (p : Printer) : Outcome Draft := do
  let operand ← p.print ["expr"]
  let type ← p.print ["type"]
  return .concat [operand, " instanceof ", type]

def castTo (p : Printer) : Outcome Draft := do
  let type ← p.print ["type"]
  let operand ← p.print ["expr"]
  return .concat ["(", type, ") ", operand]

def parenthesized (p : Printer) : Outcome Draft := do
  let inner ← p.print ["expr"]
  return .concat ["(", inner, ")"]

/-! ### Chains of members -/

/-- The node being printed is the receiver of another expression, or the subject of an array access that
    is one. -/
def isReceiver (p : Printer) : Bool :=
  p.nameAt 1 == "dottedExpr" ||
    (p.tree.isKind p.current .variableExpr && (p.parent?.map (p.tree.isKind · .arrayExpr)).getD false &&
      p.nameAt 2 == "dottedExpr")

def hasQueryReceiver (p : Printer) (id : NodeId) : Bool :=
  match p.tree.optionalChild? id "dottedExpr" with
  | none => false
  | some receiver =>
    p.tree.isKind receiver .soqlExpr ||
      (p.tree.isKind receiver .arrayExpr &&
        ((p.tree.child? receiver "expr").map (p.tree.isKind · .soqlExpr)).getD false)

def hasSelfReceiver (p : Printer) (id : NodeId) : Bool :=
  ((p.tree.optionalChild? id "dottedExpr").map (p.tree.isAmong · [.thisVariableExpr, .superVariableExpr])).getD false

/-- A line may break before the dot. No blank may come after `super`, and none comes after `this`. -/
def breaksAtDot (p : Printer) (id : NodeId) : Bool :=
  if p.hasSelfReceiver id then false
  else
    !p.tree.isKind id .methodCallExpr || p.isReceiver || (p.tree.optionalChild? id "dottedExpr").isSome

def receiver (p : Printer) (id : NodeId) : Outcome Draft := do
  let doc ← p.print ["dottedExpr", "value"]
  if doc.isEmpty then return Doc.empty
  else
    let line : List Draft := if p.breaksAtDot id then [.softLine] else []
    let safe : List Draft := if p.tree.flag id "isSafeNav" then ["?"] else []
    return Doc.parts [[doc], line, safe, ["."]]

/-- The index of the array access being printed. A literal stays next to its brackets. -/
def arrayIndex (p : Printer) (grouped : Bool) : Outcome Draft := do
  let isLiteral := ((p.tree.child? p.current "index").map (p.tree.isKind · .literalExpr)).getD false
  let index ← p.print ["index"]
  let parts : Draft := if isLiteral then .concat ["[", index, "]"] else .concat (bracketed "[" index "]")
  return if grouped then Doc.indentGroup parts else parts

/-- The index of the array access of which the node being printed is the subject, if it is one. -/
def subjectIndex (p : Printer) (grouped : Bool) : Outcome Draft :=
  if (p.parent?.map (p.tree.isKind · .arrayExpr)).getD false && p.nameAt 0 == "expr" then
    p.outward.arrayIndex grouped
  else .ok Doc.empty

def arrayAccess (p : Printer) (id : NodeId) : Outcome Draft := do
  let subject ← p.print ["expr"]
  if ((p.tree.child? id "expr").map (p.tree.isAmong · [.variableExpr, .methodCallExpr])).getD false then
    return subject
  else
    let index ← p.arrayIndex true
    return Doc.fill (.concat [subject, index])

def dottedNames (p : Printer) (field : String) : Outcome Draft := do
  let names ← p.printEach [field]
  return Doc.join "." names

def variableAccess (p : Printer) (id : NodeId) : Outcome Draft := do
  let receiver ← p.receiver id
  let names ← p.dottedNames "names"
  let index ← p.subjectIndex (p.isReceiver || !receiver.isEmpty)
  let parts : Draft := .concat [receiver, names, index]
  return if p.isReceiver || p.hasQueryReceiver id then parts else Doc.indentGroup parts

def methodCall (p : Printer) (id : NodeId) : Outcome Draft := do
  let inOperation := (p.parent?.map p.isOperation).getD false
  let receiver ← p.receiver id
  let names ← p.dottedNames "names"
  let arguments ← p.arguments
  let arguments : Draft :=
    if arguments.isEmpty then Doc.empty else .concat [.softLine, commaLines arguments, .dedent .softLine]
  let hasReceiver := !receiver.isEmpty
  let index ← p.subjectIndex (p.isReceiver || hasReceiver)
  if p.isReceiver || (p.hasQueryReceiver id && inOperation) || p.hasSelfReceiver id then
    return .concat [receiver, names, "(", Doc.indentGroup arguments, ")", index]
  else
    let (names, arguments) :=
      if hasReceiver then (names, Doc.indentGroup arguments) else (Doc.fill names, Doc.fill arguments)
    return Doc.indentGroup (.concat [receiver, names, "(", arguments, ")", index])

def plainCall (start : List Draft) (arguments : List Draft) : Draft :=
  Doc.indentGroup (Doc.parts [start, bracketed "(" (commaLines arguments) ")"])

def javaVariable (p : Printer) : Outcome Draft := do
  let names ← p.dottedNames "names"
  return .concat ["java:", names]

def javaCall (p : Printer) : Outcome Draft := do
  let names ← p.dottedNames "names"
  let arguments ← p.arguments
  return plainCall ["java:", names] arguments

def constructorCall (p : Printer) (word : String) : Outcome Draft := do
  let arguments ← p.arguments
  return plainCall [word] arguments

def classReference (p : Printer) : Outcome Draft := do
  let type ← p.print ["type"]
  return .concat [type, ".class"]

def triggerVariable (p : Printer) : Outcome Draft := do
  let name ← p.print ["variable"]
  return .concat ["Trigger.", name]

def packageVersion (p : Printer) : Outcome Draft := do
  let version ← p.print ["version"]
  return .concat ["Package.Version.", version]

/-! ### Literals -/

/-- A number with the letter of its type in the usual case, unless there is no text. -/
def numberText? (raw : String) : Option String :=
  match raw.toList.reverse with
  | [] => none
  | last :: rest =>
    if last = 'd' ∨ last = 'D' then some (String.ofList (('d' :: rest).reverse))
    else if last = 'l' ∨ last = 'L' then some (String.ofList (('L' :: rest).reverse))
    else some raw

/-- Strings and numbers are taken from the source as they are written there. -/
def literal (p : Printer) (id : NodeId) : Outcome Draft :=
  let value := p.print ["literal", "$"]
  match (p.tree.constant? id "type").getD "" with
  | "NULL" => .ok "null"
  | "STRING" => do
    let raw ← p.manuscript.reportedSourceOf id
    if raw.isEmpty then value else return raw
  | "LONG" | "DECIMAL" | "DOUBLE" => do
    let raw ← p.manuscript.reportedSourceOf id
    match numberText? raw with
    | some text => return text
    | none => value
  | _ => value

/-! ### Objects -/

def newObject (p : Printer) : Outcome Draft := do
  let creator ← p.print ["creator"]
  return .concat ["new ", creator]

def creation (type : Draft) (arguments : List Draft) : Draft :=
  let inner : List Draft :=
    if arguments.isEmpty then [] else [.softLine, commaLines arguments, .dedent .softLine]
  Doc.indentGroup (Doc.parts [type :: "(" :: inner, [Doc.text ")"]])

def newStandard (p : Printer) : Outcome Draft := do
  let type ← p.print ["type"]
  let arguments ← p.arguments
  return creation type arguments

def newKeyValue (p : Printer) : Outcome Draft := do
  let type ← p.print ["type"]
  let arguments ← p.printEach ["keyValues"]
  return creation type arguments

def initializer (p : Printer) (opening closing : String) : Outcome (List Draft) := do
  let argument ← p.print ["expr", "value"]
  return if argument.isEmpty then [.concat [opening, closing]] else [.concat (bracketed opening argument closing)]

def collectionValues (p : Printer) (field : String) : Outcome (List Draft) := do
  let values ← p.printEach [field]
  return if values.isEmpty then ["\x7b\x7d"] else [.concat ["\x7b", .line, commaLines values, .dedent .line, "\x7d"]]

/-- A new collection: its name, its types, and what it is made from. -/
def collection (p : Printer) (name separator : String) (contents : Printer → Outcome (List Draft)) : Outcome Draft := do
  let types ← p.printEach ["types"]
  let contents ← contents p
  return Doc.indentGroup (Doc.parts [[Doc.text (name ++ "<"), Doc.join separator types, ">"], contents])

/-- The size of a new list is a whole number, and its type has no arguments. -/
def isSizedList (p : Printer) (id : NodeId) : Bool :=
  let plainType :=
    match p.tree.nodesIn id "types" with
    | [] => false
    | type :: _ => !(p.tree.isKind type .classTypeRef && !(p.tree.items type "typeArguments").isEmpty)
  plainType &&
    ((p.tree.optionalChild? id "expr").map fun size => p.tree.constant? size "type" == some "INTEGER").getD false

/-- A list of a given size is written as an array. -/
def newList (p : Printer) (id : NodeId) : Outcome Draft := do
  if p.isSizedList id then
    let types ← p.printEach ["types"]
    let size ← p.initializer "[" "]"
    return Doc.indentGroup (.concat (Doc.join "." types :: size))
  else p.collection "List" "." (·.initializer "(" ")")

def mapEntry (p : Printer) : Outcome Draft := do
  let key ← p.print ["key"]
  let value ← p.print ["value"]
  return .concat [key, " => ", value]

end ApexLayout.Printer
