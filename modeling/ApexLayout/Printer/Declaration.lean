import ApexLayout.Printer.Statement
import ApexLayout.Text.Case

/-!
Units, declarations of types, their members, and what stands before a declaration.
-/
namespace ApexLayout.Printer

/-- The members that print something, with a line end after each but the last. -/
def separateMembers (members : List Draft) : List Draft :=
  let rec go : List Draft → List Draft
    | [] => []
    | [last] => [last]
    | member :: rest => .concat [member, Doc.hardLine] :: go rest
  go (members.filter (!·.isEmpty))

/-! ### Modifiers and annotations -/

def modifierList (modifiers : List Draft) : List Draft := if modifiers.isEmpty then [] else [.concat modifiers]

def modifierWord (className : String) : String :=
  let variant := String.ofList (((Text.pieces '$' className.toList).getLast?).getD [])
  Text.lowerFirst ((Text.dropSuffix? "Modifier" variant).getD variant)

def modifier (word : String) : Draft := .concat [.text word, " "]

/-- An annotation, on a line of its own with the comments behind it. -/
def annotated (p : Printer) (id : NodeId) : Outcome Draft := do
  let parameters ← p.printEach ["parameters"]
  let name ← p.print ["name", "value"]
  let parameters : List Draft :=
    if parameters.isEmpty then []
    else [Doc.indentGroup (.concat (bracketed "(" (Doc.join .line parameters) ")"))]
  let comments := (p.manuscript.trailingComments id).flatMap fun c => [Doc.text " ", c.toComment.doc]
  return Doc.parts [["@", name], parameters, comments, [Doc.hardLine]]

def annotationKeyValue (p : Printer) : Outcome Draft := do
  let key ← p.print ["key", "value"]
  let value ← p.print ["value"]
  return .concat [key, "=", value]

/-! ### Bodies -/

/-- What stands in the braces of a body: its comments if it is empty, otherwise its members. -/
def bodyLines (p : Printer) (id : NodeId) (members : List Draft) : List Draft :=
  let dangling := p.manuscript.danglingDocs id
  if !dangling.isEmpty then [.indent (.concat (Doc.hardLine :: dangling))]
  else if members.isEmpty then []
  else [.indent (.concat (Doc.hardLine :: members))]

def anonymousUnit (p : Printer) : Outcome Draft := do
  let members ← p.printEach ["members"]
  return .concat (separateMembers members)

def triggerUnit (p : Printer) (id : NodeId) : Outcome Draft := do
  let usages ← p.printEach ["usages"]
  let targets ← p.printEach ["target"]
  let name ← p.print ["name"]
  let members ← p.printEach ["members"]
  return Doc.parts
    [["trigger ", name, " on ", Doc.join "," targets, "(", inside (commaLines usages), ") \x7b"],
      p.bodyLines id (separateMembers members), [.dedent (.concat [Doc.hardLine, "\x7d"])]]

def usageWords? : String → Option String
  | "BEFORE_DELETE" => some "before delete"
  | "BEFORE_INSERT" => some "before insert"
  | "BEFORE_UPDATE" => some "before update"
  | "BEFORE_UNDELETE" => some "before undelete"
  | "AFTER_DELETE" => some "after delete"
  | "AFTER_INSERT" => some "after insert"
  | "AFTER_UPDATE" => some "after update"
  | "AFTER_UNDELETE" => some "after undelete"
  | _ => none

def triggerUsage (p : Printer) (id : NodeId) : Outcome Draft :=
  let usage := (p.tree.string? id "$").getD ""
  match usageWords? usage with
  | some words => .ok words
  | none => .error (.malformed ("unknown trigger usage " ++ Text.quoted usage))

/-! ### Types -/

def typeList (types : List Draft) : Draft := .concat ["<", Doc.join ", " types, ">"]

def typeArguments (p : Printer) (id : NodeId) : Outcome (List Draft) :=
  if (p.tree.optional? id "typeArguments").isNone then .ok []
  else do
    let types ← p.printEach ["typeArguments", "value"]
    return [typeList types]

/-- A class or an interface: the word for it, the field of the type that it extends, and whether it may
    implement interfaces. -/
def typeDeclaration (p : Printer) (id : NodeId) (word superField : String) (implements : Bool) : Outcome Draft := do
  let extended ← p.print [superField, "value"]
  let modifiers ← p.printEach ["modifiers"]
  let members ← p.printEach ["members"]
  let name ← p.print ["name"]
  let types ← p.typeArguments id
  let interfaces ← if implements then p.printEach ["interfaces"] else pure []
  let implemented : List Draft :=
    if interfaces.isEmpty then [] else [.concat [" implements ", Doc.join ", " interfaces]]
  return Doc.parts
    [modifierList modifiers, [.text word, name], types, unlessEmpty extended [.concat [" extends ", extended]],
      implemented, [" \x7b"], p.bodyLines id (separateMembers members), [.concat [Doc.hardLine, "\x7d"]]]

def classDeclaration (p : Printer) (id : NodeId) : Outcome Draft := p.typeDeclaration id "class " "superClass" true

def interfaceDeclaration (p : Printer) (id : NodeId) : Outcome Draft :=
  p.typeDeclaration id "interface " "superInterface" false

def enumDeclaration (p : Printer) (id : NodeId) : Outcome Draft := do
  let modifiers ← p.printEach ["modifiers"]
  let members ← p.printEach ["members"]
  let name ← p.print ["name"]
  let members : List Draft :=
    if members.isEmpty then [] else [Doc.join (.concat [",", Doc.hardLine]) members]
  return Doc.parts
    [[Doc.join "" modifiers, "enum ", name, " \x7b"], p.bodyLines id members, [.concat [Doc.hardLine, "\x7d"]]]

def parameter (p : Printer) (withModifiers : Bool) : Outcome Draft := do
  let modifiers : List Draft ←
    if withModifiers then (fun docs => [Doc.join "" docs]) <$> p.printEach ["modifiers"] else pure []
  let type ← p.print ["typeRef"]
  let name ← p.print ["name"]
  return Doc.parts [modifiers, [type, " ", name]]

def classType (p : Printer) : Outcome Draft := do
  let names ← p.printEach ["names"]
  let types ← p.printEach ["typeArguments"]
  return .concat (Doc.join "." names :: if types.isEmpty then [] else [typeList types])

def arrayType (p : Printer) : Outcome Draft := do
  let held ← p.print ["heldType"]
  return .concat [held, "[]"]

def structuredVersion (p : Printer) : Outcome Draft := do
  let major ← p.print ["major"]
  let minor ← p.print ["minor"]
  return .concat [major, ".", minor]

/-! ### Members -/

def blockMember (p : Printer) (word : List Draft) : Outcome Draft := do
  let statement ← p.print ["stmnt"]
  return Doc.parts [word, unlessEmpty statement [statement]]

/-- The body of a method or an accessor; a semicolon if it has none. -/
def bodyOrSemicolon (statement : Draft) : Draft := if statement.isEmpty then ";" else .concat [" ", statement]

def methodDeclaration (p : Printer) : Outcome Draft := do
  let statement ← p.print ["stmnt", "value"]
  let modifiers ← p.printEach ["modifiers"]
  let parameters ← p.printEach ["parameters"]
  let type ← p.print ["type", "value"]
  let name ← p.print ["name"]
  let parameters : List Draft := if parameters.isEmpty then [] else [inside (commaLines parameters)]
  return Doc.parts
    [modifierList modifiers, unlessEmpty type [.concat [type, " "]], [name, "("], parameters,
      [")", bodyOrSemicolon statement]]

def propertyDeclaration (p : Printer) : Outcome Draft := do
  let modifiers ← p.printEach ["modifiers"]
  let getter ← p.print ["getter", "value"]
  let setter ← p.print ["setter", "value"]
  let type ← p.print ["type"]
  let name ← p.print ["name"]
  let opening : List Draft := if getter.isEmpty && setter.isEmpty then [] else [.line]
  let afterGetter : Draft := if setter.isEmpty then .dedent .line else .line
  let accessors : Draft :=
    Doc.parts [opening, unlessEmpty getter [getter, afterGetter], unlessEmpty setter [setter, .dedent .line]]
  return Doc.fill (.concat [Doc.join "" modifiers, type, " ", name, " \x7b", Doc.indentGroup accessors, "\x7d"])

def accessor (p : Printer) (word : String) : Outcome Draft := do
  let statement ← p.print ["stmnt", "value"]
  let modifier ← p.print ["modifier", "value"]
  return .concat [modifier, .text word, bodyOrSemicolon statement]

/-! ### Variables -/

def variableDeclarations (p : Printer) : Outcome Draft := do
  let modifiers ← p.printEach ["modifiers"]
  let type ← p.print ["type"]
  let declared ← p.printEach ["decls"]
  let parts : List Draft := match declared with
    | [] => []
    | [single] => [.concat [single, ";"]]
    | several => [.indent (commaLines several), ";"]
  return Doc.fill (Doc.parts [[Doc.join "" modifiers, type, " "], parts])

def variableDeclaration (p : Printer) : Outcome Draft := do
  let name ← p.print ["name"]
  let value ← p.print ["assignment", "value"]
  if value.isEmpty then return Doc.fill name
  let breaks := ((p.tree.optionalChild? p.current "assignment").map fun node =>
    p.isOperation node || p.manuscript.hasLeadingComment node).getD false
  if breaks then return Doc.indentGroup (.concat [name, " =", .line, value])
  else return Doc.fill (.concat [name, " = ", value])

def namedArgument (p : Printer) : Outcome Draft := do
  let name ← p.print ["name"]
  let value ← p.print ["value"]
  let isOperation := ((p.tree.child? p.current "value").map p.isOperation).getD false
  return .concat [name, " = ", if isOperation then Doc.indentGroup value else value]

end ApexLayout.Printer
