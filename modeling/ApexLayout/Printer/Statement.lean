import ApexLayout.Printer.Expression

/-!
Statements. A block stays on the line of its header; any other body goes to a line of its own. A
comment between two parts of a statement may force the second one onto a new line.
-/
namespace ApexLayout.Printer

/-- What stands in parentheses, with lines next to them. -/
def inside (contents : Draft) : Draft := Doc.indentGroup (.concat [.softLine, contents, .dedent .softLine])

def isBlockAt (p : Printer) (id : NodeId) (names : List String) : Bool :=
  let target := names.foldl (fun node name => node.bind (p.tree.child? · name)) (some id)
  (target.map (p.tree.isKind · .blockStmnt)).getD false

def body (statement : Draft) (isBlock : Bool) : Draft :=
  if isBlock then .concat [" ", statement] else Doc.indentGroup (.concat [Doc.hardLine, statement])

/-- A document, unless nothing is printed. -/
def unlessEmpty (doc : Draft) (docs : List Draft) : List Draft := if doc.isEmpty then [] else docs

def block (p : Printer) (id : NodeId) : Outcome Draft := do
  let dangling := p.manuscript.danglingDocs id
  let statements ← p.printEach ["stmnts"]
  let contents : List Draft :=
    if !dangling.isEmpty then [.concat (Doc.hardLine :: dangling)]
    else if !statements.isEmpty then [Doc.hardLine, Doc.join Doc.hardLine statements]
    else []
  return Doc.indentGroup (Doc.parts [["\x7b"], contents, [.dedent Doc.hardLine, "\x7d"]])

def expressionStatement (p : Printer) : Outcome Draft := do
  let expression ← p.print ["expr"]
  return .concat [expression, ";"]

def returnStatement (p : Printer) (id : NodeId) : Outcome Draft := do
  let value ← p.print ["expr", "value"]
  let parts : Draft := Doc.parts [["return"], unlessEmpty value [" ", value], [";"]]
  let isOperation := ((p.tree.optionalChild? id "expr").map p.isOperation).getD false
  return if isOperation then Doc.indentGroup parts else Doc.fill parts

def throwStatement (p : Printer) : Outcome Draft := do
  let value ← p.print ["expr"]
  return .concat ["throw ", value, ";"]

/-! ### Data manipulation -/

def accessMode (p : Printer) : Outcome (List Draft) := do
  let mode ← p.print ["runAsMode", "value"]
  return unlessEmpty mode [.concat ["as ", mode, " "]]

/-- A statement that changes records. It may name the field by which they are found. -/
def dataChange (p : Printer) (word : String) : Outcome Draft := do
  let mode ← p.accessMode
  let records ← p.print ["expr"]
  let key ← if (p.tree.child? p.current "id").isSome then p.print ["id", "value"] else pure Doc.empty
  return Doc.fill (Doc.parts [[.text word, " "], mode, [records], unlessEmpty key [.indent .line, key], [";"]])

def mergeStatement (p : Printer) : Outcome Draft := do
  let mode ← p.accessMode
  let first ← p.print ["expr1"]
  let second ← p.print ["expr2"]
  return Doc.indentGroup (Doc.parts [["merge "], mode, [first, .line, second, ";"]])

/-! ### Branches -/

/-- A line end if it is needed, otherwise a space. -/
def breakOrSpace (breaks : Bool) : Draft := if breaks then Doc.hardLine else " "

def flagAt (flags : List Bool) (place : Nat) : Outcome Bool :=
  match flags[place]? with
  | some flag => .ok flag
  | none => .error .outOfBounds

/-- Whether the branch behind a place starts on a new line. The flags say of every branch that is a node whether
    its body is a block, and whether a comment is behind it. -/
def branchBreaks (p : Printer) (nodes : List NodeId) (isBlock : List Bool) (trailing : List Bool) (before : Nat) :
    Outcome Bool := do
  let ownLine := ((nodes[before + 1]?).map p.manuscript.hasOwnLineLeadingComment).getD false
  let behindBlock ← flagAt isBlock before
  if !behindBlock || ownLine then return true else flagAt trailing before

/-- The conditional branches from a place on, each behind the first with what stands before it. -/
def branches (p : Printer) (nodes : List NodeId) (isBlock : List Bool) (trailing : List Bool) :
    Nat → List Draft → Outcome (List Draft)
  | _, [] => .ok []
  | 0, doc :: docs => do
    let rest ← branches p nodes isBlock trailing 1 docs
    return doc :: rest
  | before + 1, doc :: docs => do
    let breaks ← branchBreaks p nodes isBlock trailing before
    let rest ← branches p nodes isBlock trailing (before + 2) docs
    return breakOrSpace breaks :: doc :: rest

def ifElse (p : Printer) (id : NodeId) : Outcome Draft := do
  let docs ← p.printEach ["ifBlocks"]
  let otherwise ← p.print ["elseBlock", "value"]
  let nodes := p.tree.nodesIn id "ifBlocks"
  let isBlock := nodes.map (p.isBlockAt · ["stmnt"])
  let trailing := nodes.map p.manuscript.hasTrailingComment
  let chain ← branches p nodes isBlock trailing 0 docs
  let lastIsBlock := (isBlock[docs.length - 1]?).getD false
  let ownLine := ((p.tree.optionalChild? id "elseBlock").map p.manuscript.hasOwnLineLeadingComment).getD false
  let lineEnd : List Draft :=
    if (docs.isEmpty || lastIsBlock) && (ownLine || (trailing.getLast?).getD false) then [Doc.hardLine] else []
  let separator : List Draft := if docs.isEmpty then [] else [breakOrSpace (!lastIsBlock)]
  return Doc.fill (Doc.parts [chain, unlessEmpty otherwise (separator ++ lineEnd ++ [otherwise])])

def ifBlock (p : Printer) (id : NodeId) : Outcome Draft := do
  let statement ← p.print ["stmnt"]
  let condition ← p.print ["expr"]
  let word : List Draft := if 0 < p.flags.branch.getD 0 then ["else ", "if "] else ["if "]
  return Doc.parts
    [word, [Doc.indentGroup (.concat (bracketed "(" condition ")")), body statement (p.isBlockAt id ["stmnt"])]]

def elseBlock (p : Printer) (id : NodeId) : Outcome Draft := do
  let statement ← p.print ["stmnt"]
  return .concat ["else", body statement (p.isBlockAt id ["stmnt"])]

def switchStatement (p : Printer) : Outcome Draft := do
  let cases ← p.printEach ["whenBlocks"]
  let subject ← p.print ["expr"]
  return Doc.indentGroup (.concat
    ["switch on", Doc.fill (.concat [.line, subject]), " \x7b", Doc.hardLine, Doc.join Doc.hardLine cases,
      .dedent Doc.hardLine, "\x7d"])

def valueWhen (p : Printer) : Outcome Draft := do
  let cases ← p.printEach ["whenCases"]
  let statement ← p.print ["stmnt"]
  return .concat ["when ", Doc.indentGroup (commaLines cases), " ", statement]

def elseWhen (p : Printer) : Outcome Draft := do
  let statement ← p.print ["stmnt"]
  return .concat ["when else ", statement]

def typeWhen (p : Printer) : Outcome Draft := do
  let type ← p.print ["typeRef"]
  let name ← p.print ["name"]
  let statement ← p.print ["stmnt"]
  return .concat ["when ", type, " ", name, " ", statement]

/-! ### Handlers -/

/-- Whether the handler at a place starts on a new line. The first one is behind the block itself. -/
def handlerBreaks (p : Printer) (nodes : List NodeId) (trailing : List Bool) (tryTrailing : Bool) (index : Nat) :
    Outcome Bool := do
  let ownLine := ((nodes[index]?).map p.manuscript.hasOwnLineLeadingComment).getD false
  let behind ← if index = 0 then pure tryTrailing else flagAt trailing (index - 1)
  return ownLine || behind

def handlers (p : Printer) (nodes : List NodeId) (trailing : List Bool) (tryTrailing : Bool) :
    Nat → List Draft → Outcome (List Draft)
  | _, [] => .ok []
  | index, doc :: docs => do
    let breaks ← handlerBreaks p nodes trailing tryTrailing index
    let rest ← handlers p nodes trailing tryTrailing (index + 1) docs
    return breakOrSpace breaks :: doc :: rest

def tryStatement (p : Printer) (id : NodeId) : Outcome Draft := do
  let guarded ← p.print ["tryBlock"]
  let docs ← p.printEach ["catchBlocks"]
  let final ← p.print ["finallyBlock", "value"]
  let tryTrailing := ((p.tree.child? id "tryBlock").map p.manuscript.hasTrailingComment).getD false
  let nodes := p.tree.nodesIn id "catchBlocks"
  let trailing := nodes.map p.manuscript.hasTrailingComment
  let ownLine := ((p.tree.optionalChild? id "finallyBlock").map p.manuscript.hasOwnLineLeadingComment).getD false
  let breaks := ownLine || (trailing.getLast?).getD tryTrailing
  let catches ← handlers p nodes trailing tryTrailing 0 docs
  return Doc.parts
    [["try "], unlessEmpty guarded [guarded], catches, unlessEmpty final [breakOrSpace breaks, final]]

def catchBlock (p : Printer) : Outcome Draft := do
  let parameter ← p.print ["parameter"]
  let statement ← p.print ["stmnt"]
  return .concat ["catch (", parameter, ") ", statement]

def finallyBlock (p : Printer) : Outcome Draft := do
  let statement ← p.print ["stmnt"]
  return .concat ["finally ", statement]

def runAsBlock (p : Printer) : Outcome Draft := do
  let arguments ← p.arguments
  let statement ← p.print ["stmnt"]
  return .concat ["System.runAs(", commaLines arguments, ") ", statement]

/-! ### Loops -/

def loopBody (p : Printer) (id : NodeId) : Outcome Draft :=
  if (p.tree.optionalChild? id "stmnt").isNone then .ok ";"
  else do
    let statement ← p.print ["stmnt", "value"]
    return body statement (p.isBlockAt id ["stmnt", "value"])

def whileLoop (p : Printer) (id : NodeId) : Outcome Draft := do
  let condition ← p.print ["condition"]
  let rest ← p.loopBody id
  return .concat ["while (", inside condition, ")", rest]

def doLoop (p : Printer) : Outcome Draft := do
  let statement ← p.print ["stmnt"]
  let condition ← p.print ["condition"]
  return .concat ["do ", statement, " while (", inside condition, ");"]

def runsOverQuery (p : Printer) (id : NodeId) : Bool :=
  let source := do
    let control ← p.tree.child? id "forControl"
    let init ← p.tree.child? control "init"
    p.tree.optionalChild? init "expr"
  (source.map (p.tree.isAmong · [.soqlExpr, .soslExpr])).getD false

/-- The parentheses stand next to a query, unless there is a comment on a line of its own. -/
def forLoop (p : Printer) (id : NodeId) : Outcome Draft := do
  let control ← p.print ["forControl"]
  let hasOwnLine := ((p.tree.child? id "forControl").map p.manuscript.hasOwnLineComment).getD false
  let header := if p.runsOverQuery id && !hasOwnLine then control else inside control
  let rest ← p.loopBody id
  return .concat ["for (", header, ")", rest]

def forInitParts (p : Printer) : Outcome (Draft × Draft) := do
  let names ← p.dottedNames "name"
  let value ← p.print ["expr", "value"]
  return (names, value)

/-- The name and the value of a loop variable, with the comments of the variable around the two. -/
def forInitWithComments (p : Printer) : Outcome (Draft × Draft) := do
  let (names, value) ← p.forInitParts
  match p.commentDocs? p.current with
  | none => return (names, value)
  | some (leading, trailing) =>
    let names : Draft := Doc.parts [leading, [names]]
    return if value.isEmpty then (.concat (names :: trailing), value) else (names, .concat (value :: trailing))

def forInit (p : Printer) : Outcome Draft := do
  let (names, value) ← p.forInitParts
  return if value.isEmpty then names else .concat [names, " = ", value]

def enhancedForControl (p : Printer) : Outcome Draft := do
  let init ← p.withNode ["init"] forInitWithComments
  let type ← p.print ["type"]
  let init := match init with
    | some (names, value) => Doc.join " : " [names, value]
    | none => Doc.empty
  return .concat [type, " ", init]

def countingForControl (p : Printer) : Outcome Draft := do
  let inits ← p.print ["inits", "value"]
  let condition ← p.print ["condition", "value"]
  let control ← p.print ["control", "value"]
  return Doc.fill (Doc.parts
    [unlessEmpty inits [inits], [";"], unlessEmpty condition [.line, condition], [";"],
      unlessEmpty control [.line, control]])

def forInits (p : Printer) : Outcome Draft := do
  let type ← p.print ["type", "value"]
  let inits ← p.withNodes ["inits"] forInitWithComments
  let inits := inits.map fun (names, value) => if value.isEmpty then names else Doc.join " = " [names, value]
  return Doc.indentGroup (Doc.parts [unlessEmpty type [.concat [type, " "]], [commaLines inits]])

end ApexLayout.Printer
