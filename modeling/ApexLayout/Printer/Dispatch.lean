import ApexLayout.Printer.Declaration
import ApexLayout.Printer.Query

/-!
The document of a node, by its kind, and of a whole unit.
-/
namespace ApexLayout
namespace Printer

def ofKind (p : Printer) (id : NodeId) (kind : Kind) : Outcome Draft :=
  match kind with
  | .parserOutput => p.print ["unit"]
  | .boxedInt => p.print ["$"]
  | .boxedString => quoted <$> p.print ["$"]
  | .blockComment | .inlineComment => .ok Doc.empty
  | .locationIdentifier | .syntheticIdentifier => p.print ["value"]
  -- Units, declarations and members
  | .anonymousBlockUnit => p.anonymousUnit
  | .classDeclUnit | .enumDeclUnit | .interfaceDeclUnit => p.print ["body"]
  | .triggerDeclUnit => p.triggerUnit id
  | .classDecl => p.classDeclaration id
  | .interfaceDecl => p.interfaceDeclaration id
  | .enumDecl => p.enumDeclaration id
  | .methodDecl => p.methodDeclaration
  | .propertyDecl => p.propertyDeclaration
  | .propertyGetter => p.accessor "get"
  | .propertySetter => p.accessor "set"
  | .variableDecls => p.variableDeclarations
  | .variableDecl => p.variableDeclaration
  | .nameValueParameter => p.namedArgument
  | .triggerUsage => p.triggerUsage id
  | .fieldMember => p.print ["variableDecls"]
  | .innerClassMember | .innerEnumMember | .innerInterfaceMember => p.print ["body"]
  | .methodMember => p.print ["methodDecl"]
  | .propertyMember => p.print ["propertyDecl"]
  | .staticStmntBlockMember => p.blockMember [.concat ["static", " "]]
  | .stmntBlockMember => p.blockMember []
  | .annotationMark => p.annotated id
  | .annotationKeyValue => p.annotationKeyValue
  | .annotationString | .stringAnnotationValue => quoted <$> p.print ["value"]
  | .emptyModifierParameterRef => p.parameter false
  | .modifierParameterRef => p.parameter true
  | .arrayTypeRef => p.arrayType
  | .classTypeRef => p.classType
  | .javaTypeRef => p.javaVariable
  | .structuredVersion => p.structuredVersion
  -- Statements
  | .blockStmnt => p.block id
  | .dmlDeleteStmnt => p.dataChange "delete"
  | .dmlInsertStmnt => p.dataChange "insert"
  | .dmlUndeleteStmnt => p.dataChange "undelete"
  | .dmlUpdateStmnt => p.dataChange "update"
  | .dmlUpsertStmnt => p.dataChange "upsert"
  | .dmlMergeStmnt => p.mergeStatement
  | .doLoop => p.doLoop
  | .expressionStmnt => p.expressionStatement
  | .forLoop => p.forLoop id
  | .ifElseBlock => p.ifElse id
  | .returnStmnt => p.returnStatement id
  | .runAsBlock => p.runAsBlock
  | .switchStmnt => p.switchStatement
  | .throwStmnt => p.throwStatement
  | .tryCatchFinallyBlock => p.tryStatement id
  | .variableDeclStmnt => p.print ["variableDecls"]
  | .whileLoop => p.whileLoop id
  | .ifBlock => p.ifBlock id
  | .elseBlock => p.elseBlock id
  | .catchBlock => p.catchBlock
  | .finallyBlock => p.finallyBlock
  | .cStyleForControl => p.countingForControl
  | .enhancedForControl => p.enhancedForControl
  | .forInits => p.forInits
  | .forInit => p.forInit
  | .valueWhen => p.valueWhen
  | .elseWhen => p.elseWhen
  | .typeWhen => p.typeWhen
  | .enumCase => p.dottedNames "identifiers"
  | .literalCase => p.print ["expr"]
  -- Expressions
  | .arrayExpr => p.arrayAccess id
  | .assignmentExpr => p.assignment id
  | .binaryExpr | .booleanExpr => p.operation id
  | .castExpr => p.castTo
  | .classRefExpr => p.classReference
  | .instanceOf => p.instanceTest
  | .javaMethodCallExpr => p.javaCall
  | .javaVariableExpr => p.javaVariable
  | .literalExpr => p.literal id
  | .methodCallExpr => p.methodCall id
  | .nestedExpr => p.parenthesized
  | .newExpr => p.newObject
  | .nullCoalescingExpr => p.nullCoalescing
  | .packageVersionExpr => p.packageVersion
  | .postfixExpr => p.behindOperator
  | .prefixExpr => p.beforeOperator
  | .soqlExpr => p.inlineQuery "query"
  | .soslExpr => p.inlineQuery "search"
  | .superMethodCallExpr => p.constructorCall "super"
  | .ternaryExpr => p.ternary
  | .thisMethodCallExpr => p.constructorCall "this"
  | .triggerVariableExpr => p.triggerVariable
  | .variableExpr => p.variableAccess id
  | .newKeyValue => p.newKeyValue
  | .newListInit => p.newList id
  | .newListLiteral => p.collection "List" "." (·.collectionValues "values")
  | .newMapInit => p.collection "Map" ", " (·.initializer "(" ")")
  | .newMapLiteral => p.collection "Map" ", " (·.collectionValues "pairs")
  | .newSetInit => p.collection "Set" ", " (·.initializer "(" ")")
  | .newSetLiteral => p.collection "Set" ", " (·.collectionValues "values")
  | .newStandard => p.newStandard
  | .mapLiteralKeyValue => p.mapEntry
  | .assignmentOp | .binaryOp | .booleanOp | .postfixOp | .prefixOp => p.operator id kind
  -- Queries
  | .query => p.query id
  | .selectColumnClause => p.wordAndLines "SELECT"
  | .selectCaseExpr => p.print ["expr"]
  | .selectColumnExpr => p.selectColumn
  | .selectDistanceExpr => p.selectDistance
  | .selectInnerQuery => p.innerQuery
  | .caseExpr => p.typeCases
  | .caseOp | .whenOp => p.print ["identifier"]
  | .whenExpr => p.typeCase
  | .elseExpr => p.elseCase
  | .field => p.field
  | .fieldIdentifier => p.fieldIdentifier
  | .fromClause => p.fromClause
  | .fromExpr => p.fromTable
  | .groupByClause => p.groupBy
  | .groupByExpr => p.print ["field"]
  | .havingClause => p.wordAndLine "HAVING" "expr"
  | .whereClause => p.wordAndLine "WHERE" "expr"
  | .whereCalcExpr => p.spaced ["field1", "calc", "field2", "op", "expr"]
  | .whereCompoundExpr => p.compoundCondition id
  | .whereDistanceExpr => p.spaced ["distance", "op", "expr"]
  | .whereInnerExpr => p.conditionInQuery
  | .whereOpExpr => p.spaced ["field", "op", "expr"]
  | .whereOpExprs => p.conditionInList
  | .whereUnaryExpr => p.negatedCondition
  | .distanceFunctionExpr => p.distance
  | .geolocationExpr | .numberExpr | .apexExpr => p.print ["expr"]
  | .geolocationLiteral => p.geolocation
  | .numberLiteral => p.print ["number", "$"]
  | .queryLiteralExpr | .queryDate | .queryMultiCurrency => p.print ["literal"]
  | .queryDateFormula => p.print ["dateFormula"]
  | .queryDateTime | .queryTime => Doc.text <$> p.manuscript.reportedSourceOf id
  | .queryNumber => p.print ["literal", "$"]
  | .queryString => .ok (p.queryString id)
  | .colonExpr => p.wordAndValue ":" "expr"
  | .orderByClause => p.orderBy
  | .orderByDistance => p.orderKey "distance"
  | .orderByValue => p.orderKey "field"
  | .orderAsc => .ok (p.orderWord id "ASC")
  | .orderDesc => .ok (p.orderWord id "DESC")
  | .orderNullFirst => .ok (p.orderWord id "NULLS FIRST")
  | .orderNullLast => .ok (p.orderWord id "NULLS LAST")
  | .withValue => p.equation ["WITH "] "name" "expr"
  | .withDataCategories | .withDataCategoryClause => p.dataCategories
  | .withIdentifier => p.wordAndValue "WITH " "identifier"
  | .dataCategory => p.dataCategory
  | .limitExpr => p.limit "LIMIT" "expr"
  | .limitValue => p.limit "LIMIT" "i"
  | .offsetExpr => p.limit "OFFSET" "expr"
  | .offsetValue => p.limit "OFFSET" "i"
  | .queryUsingClause => p.closedList "USING" "exprs"
  | .usingWord => p.scopeName " "
  | .usingEquals => p.scopeName " = "
  | .usingId => p.scopeId
  | .updateStatsClause => p.closedList "UPDATE" "options"
  | .bindClause => p.bindClause
  | .bindExpr => p.equation [] "field" "value"
  -- Searches
  | .search => p.search id
  | .findClause => p.wordAndLine "FIND" "search"
  | .findExpr | .divisionExpr => p.print ["expr"]
  | .findString => quoted <$> p.print ["value"]
  | .inClause => .ok (p.inClause id)
  | .withDivisionClause => p.wordAndValue "WITH DIVISION = " "value"
  | .divisionLiteral => quoted <$> p.print ["literal"]
  | .searchWithClause => p.searchWith
  | .searchWithStringValue => p.searchValues
  | .searchWithTargetValue => p.searchTarget
  | .returningClause => p.wordAndLines "RETURNING"
  | .returningExpr => p.returning
  | .returningSelectExpr => p.returningSelect
  | .searchUsingClause => p.wordAndValue "USING " "type"
  | .usingType => p.usingType
  | kind =>
    match kind.modifierWord? with
    | some word => .ok (modifier word)
    | none => .ok (.text (kind.word?.getD ""))

/-- The document of a node of a class, without its comments. A modifier of a kind that is not known is
    printed by the name of its class. -/
def ofClass (p : Printer) (id : NodeId) : Class → Outcome Draft
  | .known kind => p.ofKind id kind
  | .other name =>
    if (Class.other name).family? == some Kind.annotationMark.family then .ok (modifier (modifierWord name))
    else .error (.unsupported name)

/-- The document of the occurrence at the end of the path. An ignored node is taken from the source as it
    is. A blank line after the node is printed unless comments follow, which then have it. -/
def occurrence (p : Printer) (id : NodeId) (edge : Option Edge) : Outcome Draft :=
  match (p.tree.node id).nodeClass with
  | none => .ok Doc.empty
  | some nodeClass => do
    let doc ←
      if p.tree.origin id == edge && p.manuscript.shelf.isIgnored id then Doc.text <$> p.manuscript.sourceOf id
      else do
        let doc ← p.ofClass id nodeClass
        pure (if p.flags.blankAfter && !p.manuscript.hasTrailingComment id then .concat [doc, Doc.hardLine] else doc)
    match p.commentDocs? id with
    | some (leading, trailing) => return Doc.parts [leading, [doc], trailing]
    | none => return doc

end Printer

namespace Manuscript

/-- Prints a node that is reached by an edge from the end of a path. The bound is on the number of
    nodes entered one below the other; no node is entered twice but as the subject of an access. -/
def printAt (m : Manuscript) : Nat → Path → NodeId → Option Edge → Outcome Draft
  | 0, path, id, edge => do
    let _ ← Printer.extend m.tree path [⟨id, edge⟩]
    .error .endless
  | bound + 1, path, id, edge => do
    let path ← Printer.extend m.tree path [⟨id, edge⟩]
    Printer.occurrence ⟨m, path, m.printAt bound⟩ id edge

/-- A bound that is left only by work that does not end: every node on a path is there once, and may be left
    for the one around it once. An index that is taken for the subject of its access is left for itself. -/
def depthBound (m : Manuscript) : Nat := 2 * m.tree.size + 2

def unitPath (m : Manuscript) : Path :=
  match m.tree.origin m.unit with
  | some edge => [⟨edge.parent, m.tree.origin edge.parent⟩]
  | none => []

/-- The document of the whole source: the unit, the comments that belong to nothing in it, and the last
    line end. -/
def doc (m : Manuscript) : Outcome Draft := do
  let unit ← m.printAt m.depthBound m.unitPath m.unit (m.tree.origin m.unit)
  let loose := Comment.danglingDocs m.source (m.shelf.loose.map (·.toComment))
  let separator : List Draft := if loose.isEmpty || unit.isEmpty then [] else [Doc.hardLine]
  let lineEnd : List Draft := if m.settings.finalNewline then [Doc.hardLine] else []
  return Doc.parts [[unit], separator, loose, lineEnd]

end Manuscript
end ApexLayout
