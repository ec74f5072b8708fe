import ApexLayout.Proofs.Printing.Handlers

/-!
What every kind of node lays out. The table of routes is all that matters of a kind for the comments
that are printed: a comment is printed where a route leads to its node, and nowhere else.
-/
namespace ApexLayout.Printer
open Doc

def routes (p : Printer) (id : NodeId) : Kind → List Route
  | .parserOutput => [.one ["unit"]]
  | .boxedInt | .boxedString => [.one ["$"]]
  | .locationIdentifier | .syntheticIdentifier => [.one ["value"]]
  -- Units, declarations and members
  | .anonymousBlockUnit => [.each ["members"]]
  | .classDeclUnit | .enumDeclUnit | .interfaceDeclUnit => [.one ["body"]]
  | .triggerDeclUnit => [Route.each ["usages"], .each ["target"], .one ["name"]] ++ p.memberRoutes id
  | .classDecl =>
    [Route.one ["superClass", "value"], .each ["modifiers"]] ++ (p.memberRoutes id ++
      [Route.one ["name"], .each ["typeArguments", "value"], .each ["interfaces"]])
  | .interfaceDecl =>
    [Route.one ["superInterface", "value"], .each ["modifiers"]] ++ (p.memberRoutes id ++
      [Route.one ["name"], .each ["typeArguments", "value"]])
  | .enumDecl => [Route.each ["modifiers"]] ++ (p.memberRoutes id ++ [Route.one ["name"]])
  | .methodDecl =>
    [.one ["stmnt", "value"], .each ["modifiers"], .each ["parameters"], .one ["type", "value"], .one ["name"]]
  | .propertyDecl =>
    [.each ["modifiers"], .one ["getter", "value"], .one ["setter", "value"], .one ["type"], .one ["name"]]
  | .propertyGetter | .propertySetter => [.one ["stmnt", "value"], .one ["modifier", "value"]]
  | .variableDecls => [.each ["modifiers"], .one ["type"], .each ["decls"]]
  | .variableDecl => [.one ["name"], .one ["assignment", "value"]]
  | .nameValueParameter => [.one ["name"], .one ["value"]]
  | .fieldMember | .variableDeclStmnt => [.one ["variableDecls"]]
  | .innerClassMember | .innerEnumMember | .innerInterfaceMember => [.one ["body"]]
  | .methodMember => [.one ["methodDecl"]]
  | .propertyMember => [.one ["propertyDecl"]]
  | .staticStmntBlockMember | .stmntBlockMember => [.one ["stmnt"]]
  | .annotationMark => [.each ["parameters"], .one ["name", "value"]]
  | .annotationKeyValue => [.one ["key", "value"], .one ["value"]]
  | .annotationString | .stringAnnotationValue => [.one ["value"]]
  | .emptyModifierParameterRef => [.one ["typeRef"], .one ["name"]]
  | .modifierParameterRef => [.each ["modifiers"], .one ["typeRef"], .one ["name"]]
  | .arrayTypeRef => [.one ["heldType"]]
  | .classTypeRef => [.each ["names"], .each ["typeArguments"]]
  | .javaTypeRef | .javaVariableExpr => [.each ["names"]]
  | .structuredVersion => [.one ["major"], .one ["minor"]]
  -- Statements
  | .blockStmnt => if (p.manuscript.danglingDocs id).isEmpty then [.each ["stmnts"]] else []
  | .dmlDeleteStmnt | .dmlInsertStmnt | .dmlUndeleteStmnt | .dmlUpdateStmnt | .dmlUpsertStmnt =>
    [.one ["runAsMode", "value"], .one ["expr"], .one ["id", "value"]]
  | .dmlMergeStmnt => [.one ["runAsMode", "value"], .one ["expr1"], .one ["expr2"]]
  | .doLoop => [.one ["stmnt"], .one ["condition"]]
  | .expressionStmnt | .throwStmnt | .literalCase => [.one ["expr"]]
  | .forLoop => [.one ["forControl"], .one ["stmnt", "value"]]
  | .ifElseBlock => [.each ["ifBlocks"], .one ["elseBlock", "value"]]
  | .returnStmnt => [.one ["expr", "value"]]
  | .runAsBlock => [.each ["inputParameters"], .one ["stmnt"]]
  | .switchStmnt => [.each ["whenBlocks"], .one ["expr"]]
  | .tryCatchFinallyBlock => [.one ["tryBlock"], .each ["catchBlocks"], .one ["finallyBlock", "value"]]
  | .whileLoop => [.one ["condition"], .one ["stmnt", "value"]]
  | .ifBlock => [.one ["stmnt"], .one ["expr"]]
  | .elseBlock | .finallyBlock | .elseWhen => [.one ["stmnt"]]
  | .catchBlock => [.one ["parameter"], .one ["stmnt"]]
  | .cStyleForControl => [.one ["inits", "value"], .one ["condition", "value"], .one ["control", "value"]]
  | .enhancedForControl => [.variable "init", .one ["type"]]
  | .forInits => [.one ["type", "value"], .variables "inits"]
  | .forInit => [.each ["name"], .one ["expr", "value"]]
  | .valueWhen => [.each ["whenCases"], .one ["stmnt"]]
  | .typeWhen => [.one ["typeRef"], .one ["name"], .one ["stmnt"]]
  | .enumCase => [.each ["identifiers"]]
  -- Expressions
  | .arrayExpr => .one ["expr"] :: if p.subjectTakesIndex id then [] else [.one ["index"]]
  | .assignmentExpr | .binaryExpr | .booleanExpr => [.one ["left"], .one ["op"], .one ["right"]]
  | .castExpr => [.one ["type"], .one ["expr"]]
  | .classRefExpr => [.one ["type"]]
  | .instanceOf => [.one ["expr"], .one ["type"]]
  | .javaMethodCallExpr => [.each ["names"], .each ["inputParameters"]]
  | .literalExpr => p.literalRoutes id
  | .methodCallExpr => [.one ["dottedExpr", "value"], .each ["names"], .each ["inputParameters"]] ++ p.indexRoutes
  | .nestedExpr => [.one ["expr"]]
  | .newExpr => [.one ["creator"]]
  | .nullCoalescingExpr => [.one ["left"], .one ["right"]]
  | .packageVersionExpr => [.one ["version"]]
  | .postfixExpr => [.one ["expr"], .one ["op"]]
  | .prefixExpr => [.one ["op"], .one ["expr"]]
  | .soqlExpr => [.one ["query"]]
  | .soslExpr => [.one ["search"]]
  | .superMethodCallExpr | .thisMethodCallExpr => [.each ["inputParameters"]]
  | .ternaryExpr => [.one ["condition"], .one ["trueExpr"], .one ["falseExpr"]]
  | .triggerVariableExpr => [.one ["variable"]]
  | .variableExpr => [.one ["dottedExpr", "value"], .each ["names"]] ++ p.indexRoutes
  | .newKeyValue => [.one ["type"], .each ["keyValues"]]
  | .newListInit | .newMapInit | .newSetInit => [.each ["types"], .one ["expr", "value"]]
  | .newListLiteral | .newSetLiteral => [.each ["types"], .each ["values"]]
  | .newMapLiteral => [.each ["types"], .each ["pairs"]]
  | .newStandard => [.one ["type"], .each ["inputParameters"]]
  | .mapLiteralKeyValue => [.one ["key"], .one ["value"]]
  -- Queries
  | .query =>
    [.one ["select"], .one ["from"], .one ["where", "value"], .one ["with", "value"], .each ["withIdentifiers"],
      .one ["groupBy", "value"], .one ["orderBy", "value"], .one ["limit", "value"], .one ["offset", "value"],
      .one ["bind", "value"], .one ["tracking", "value"], .one ["updateStats", "value"], .one ["options", "value"]]
  | .selectColumnClause | .fromClause | .orderByClause | .bindClause | .returningClause => [.each ["exprs"]]
  | .selectCaseExpr | .geolocationExpr | .numberExpr | .apexExpr | .colonExpr | .findExpr | .divisionExpr =>
    [.one ["expr"]]
  | .selectColumnExpr => [.one ["field"], .one ["alias", "value"]]
  | .selectDistanceExpr => [.one ["expr"], .one ["alias", "value"]]
  | .selectInnerQuery => [.one ["query"], .one ["alias", "value"]]
  | .caseExpr => [.one ["op"], .each ["whenBranches"], .one ["elseBranch", "value"]]
  | .caseOp | .whenOp | .withIdentifier => [.one ["identifier"]]
  | .whenExpr => [.one ["op"], .each ["identifiers"]]
  | .elseExpr => [.each ["identifiers"]]
  | .field => p.fieldRoutes
  | .fieldIdentifier => [.one ["entity", "value"], .one ["field"]]
  | .fromExpr => [.one ["table"], .one ["alias", "value"], .one ["using", "value"]]
  | .groupByClause => [.each ["exprs"], .one ["type", "value"], .one ["having", "value"]]
  | .groupByExpr => [.one ["field"]]
  | .havingClause | .whereClause => [.one ["expr"]]
  | .whereCalcExpr => [.one ["field1"], .one ["calc"], .one ["field2"], .one ["op"], .one ["expr"]]
  | .whereCompoundExpr => [.between "op" "expr", .each ["expr"]]
  | .whereDistanceExpr => [.one ["distance"], .one ["op"], .one ["expr"]]
  | .whereInnerExpr => [.one ["field"], .one ["op"], .one ["inner"]]
  | .whereOpExpr => [.one ["field"], .one ["op"], .one ["expr"]]
  | .whereOpExprs => [.one ["field"], .one ["op"], .each ["expr"]]
  | .whereUnaryExpr => [.one ["op"], .one ["expr"]]
  | .distanceFunctionExpr => [.one ["field"], .one ["location"], .one ["unit"]]
  | .geolocationLiteral => [.one ["latitude"], .one ["longitude"]]
  | .numberLiteral => [.one ["number", "$"]]
  | .queryLiteralExpr | .queryDate | .queryMultiCurrency | .divisionLiteral => [.one ["literal"]]
  | .queryDateFormula => [.one ["dateFormula"]]
  | .queryNumber => [.one ["literal", "$"]]
  | .orderByDistance => [.one ["distance"], .one ["order"], .one ["nullOrder"]]
  | .orderByValue => [.one ["field"], .one ["order"], .one ["nullOrder"]]
  | .withValue => [.one ["name"], .one ["expr"]]
  | .withDataCategories | .withDataCategoryClause => [.each ["categories"]]
  | .dataCategory => [.one ["type"], .one ["op"], .each ["categories"]]
  | .limitExpr | .offsetExpr => [.one ["expr"]]
  | .limitValue | .offsetValue => [.one ["i"]]
  | .queryUsingClause => [.each ["exprs"]]
  | .usingWord | .usingEquals => [.one ["name", "value"], .one ["field", "value"]]
  | .usingId => [.one ["name"], .one ["id"], .one ["field"]]
  | .updateStatsClause => [.each ["options"]]
  | .bindExpr => [.one ["field"], .one ["value"]]
  -- Searches
  | .search =>
    [.each ["withs"], .one ["find"], .one ["in", "value"], .one ["returning", "value"], .one ["division", "value"],
      .one ["dataCategory", "value"], .one ["limit", "value"], .one ["updateStats", "value"], .one ["using", "value"]]
  | .findClause => [.one ["search"]]
  | .findString | .withDivisionClause => [.one ["value"]]
  | .searchWithClause => [.one ["name"], .one ["value", "value"]]
  | .searchWithStringValue => [.each ["values"]]
  | .searchWithTargetValue => [.one ["target"], .one ["value"]]
  | .returningExpr => [.one ["name"], .one ["select", "value"]]
  | .returningSelectExpr =>
    [.each ["fields"], .one ["where", "value"], .one ["using", "value"], .one ["orderBy", "value"],
      .one ["limit", "value"], .one ["offset", "value"], .one ["bind", "value"]]
  | .searchUsingClause => [.one ["type"]]
  | .usingType => [.one ["filter"], .one ["value"]]
  | _ => []

/-- The comments that a node of a kind lays out itself: those in its body, or behind an annotation. -/
def ownComments (p : Printer) (id : NodeId) : Kind → List BoundComment
  | .annotationMark => p.manuscript.trailingComments id
  | .triggerDeclUnit | .classDecl | .enumDecl | .interfaceDecl | .blockStmnt =>
    (p.manuscript.shelf.dangling id).filter (·.toComment.isVisible p.manuscript.source)
  | _ => []

theorem notedAll_danglingDocs (m : Manuscript) (id : NodeId) (c : Comment) :
    notedAll c (m.danglingDocs id) =
      (((m.shelf.dangling id).filter (·.toComment.isVisible m.source)).map (·.toComment)).count c := by
  rw [Manuscript.danglingDocs, Comment.notedAll_danglingDocs, List.filter_map]
  rfl

variable {p : Printer} {c : Comment} {plan : Plan} (tally : p.Tally c plan) {id : NodeId}
include tally

attribute [local simp] ownComments notedAll_spread in
theorem ofKind_lays (here : p.current = id) (kind : Kind) :
    p.Lays plan (noted c) (((p.ownComments id kind).map (·.toComment)).count c) (p.routes id kind) (p.ofKind id kind) := by
  have body := notedAll_danglingDocs p.manuscript id c
  cases kind with
  -- Documents of a few fields
  | staticStmntBlockMember | stmntBlockMember | arrayTypeRef | expressionStmnt | throwStmnt | elseBlock | finallyBlock
  | elseWhen | classRefExpr | nestedExpr | newExpr | packageVersionExpr | soqlExpr | soslExpr | triggerVariableExpr
  | havingClause | whereClause | colonExpr | withIdentifier | limitExpr | limitValue | offsetExpr | offsetValue
  | findClause | withDivisionClause | searchUsingClause | returnStmnt => exact tally.one fun _ => .pure (by simp)
  | propertyGetter | propertySetter | annotationKeyValue | structuredVersion | doLoop | catchBlock | castExpr
  | instanceOf | nullCoalescingExpr | postfixExpr | prefixExpr | mapLiteralKeyValue | selectDistanceExpr
  | geolocationLiteral | withValue | usingWord | usingEquals | bindExpr | searchWithClause | searchWithTargetValue
  | usingType | nameValueParameter | ifBlock | whereUnaryExpr | emptyModifierParameterRef =>
    exact tally.one fun _ => tally.one fun _ => .pure (by simp +arith)
  | fieldIdentifier => exact fieldIdentifier_lays tally
  | returningExpr => exact returning_lays tally
  | variableDecl => exact variableDeclaration_lays tally
  | cStyleForControl | typeWhen | ternaryExpr | whereInnerExpr | distanceFunctionExpr | usingId | orderByDistance
  | orderByValue => exact tally.one fun _ => tally.one fun _ => tally.one fun _ => .pure (by simp +arith)
  | field => exact field_lays tally
  | assignmentExpr => exact assignment_lays tally
  | binaryExpr | booleanExpr => exact operation_lays tally
  | literalExpr => exact literal_lays tally
  -- Documents of lists
  | anonymousBlockUnit | enumCase | selectColumnClause | elseExpr | fromClause | orderByClause | withDataCategories
  | withDataCategoryClause | queryUsingClause | updateStatsClause | bindClause | returningClause =>
    exact tally.each fun _ => .pure (by simp)
  | searchWithStringValue => exact searchValues_lays tally
  | switchStmnt | valueWhen => exact tally.each fun _ => tally.one fun _ => .pure (by simp +arith)
  | newKeyValue | whenExpr => exact tally.one fun _ => tally.each fun _ => .pure (by simp)
  | whereOpExprs | dataCategory =>
    exact tally.one fun _ => tally.one fun _ => tally.each fun _ => .pure (by simp +arith)
  | whereCompoundExpr => exact compoundCondition_lays tally
  | caseExpr => exact tally.one fun _ => tally.each fun _ => tally.one fun _ => .pure (by simp +arith)
  | classTypeRef => exact tally.each fun _ => tally.each fun _ => .pure (by simp)
  | groupByClause => exact groupBy_lays tally
  | methodDecl =>
    exact tally.one fun _ => tally.each fun _ => tally.each fun _ => tally.one fun _ => tally.one fun _ =>
      .pure (by simp +arith)
  | propertyDecl =>
    exact tally.each fun _ => tally.one fun _ => tally.one fun _ => tally.one fun _ => tally.one fun _ =>
      .pure (by simp +arith)
  | modifierParameterRef => exact parameter_lays tally true
  | variableDecls => exact variableDeclarations_lays tally
  -- Bodies and annotations
  | triggerDeclUnit => exact body ▸ triggerUnit_lays tally
  | classDecl => exact body ▸ typeDeclaration_lays tally here _ _ true
  | interfaceDecl => exact body ▸ typeDeclaration_lays tally here _ _ false
  | enumDecl => exact body ▸ enumDeclaration_lays tally
  | annotationMark => exact annotated_lays tally
  | blockStmnt => exact body ▸ block_lays tally
  | ifElseBlock =>
    refine tally.each fun docs => tally.one fun otherwise => .given fun chain spaced => .pure ?_
    simp [(spaced_of_branches spaced).notedAll c]
  | tryCatchFinallyBlock =>
    refine tally.one fun guarded => tally.each fun docs => tally.one fun final => .given fun catches spaced => .pure ?_
    simp +arith [(spaced_of_handlers spaced).notedAll c]
  -- Documents of parts
  | dmlDeleteStmnt | dmlInsertStmnt | dmlUndeleteStmnt | dmlUpdateStmnt | dmlUpsertStmnt =>
    exact dataChange_lays tally _
  | dmlMergeStmnt =>
    exact (accessMode_lays tally).seq fun _ => tally.one fun _ => tally.one fun _ => .pure (by simp +arith)
  | forLoop | whileLoop => exact tally.one fun _ => (loopBody_lays tally here).last fun _ => .pure (by simp)
  | runAsBlock => exact (arguments_lays tally).seq fun _ => tally.one fun _ => .pure (by simp)
  | superMethodCallExpr | thisMethodCallExpr => exact (arguments_lays tally).last fun _ => .pure (by simp)
  | newStandard => exact tally.one fun _ => (arguments_lays tally).last fun _ => .pure (by simp)
  | javaTypeRef | javaVariableExpr => exact (dottedNames_lays tally _).last fun _ => .pure (by simp)
  | javaMethodCallExpr =>
    exact (dottedNames_lays tally _).seq fun _ => (arguments_lays tally).last fun _ => .pure (by simp)
  | selectColumnExpr | selectInnerQuery => exact tally.one fun _ => (aliasDocs_lays tally).last fun _ => .pure (by simp)
  | fromExpr =>
    exact tally.one fun _ => (aliasDocs_lays tally).seq fun _ => tally.one fun _ => .pure (by simp +arith)
  | whereCalcExpr | whereDistanceExpr | whereOpExpr => exact spaced_lays tally _ _
  | query =>
    exact tally.one fun _ => tally.one fun _ => (clauses_lay tally ["where", "with"]).seq fun _ => tally.each fun _ =>
      (clauses_lay tally _).last fun _ => .pure (by simp +arith)
  | search =>
    exact tally.each fun _ => tally.one fun _ => (clauses_lay tally _).last fun _ => .pure (by simp +arith)
  | returningSelectExpr => exact tally.each fun _ => (clauses_lay tally _).last fun _ => .pure (by simp)
  | newListLiteral | newSetLiteral | newMapLiteral =>
    exact collection_lays tally _ _ (·.collectionValues _) (collectionValues_lays tally _)
  | newMapInit | newSetInit => exact collection_lays tally _ _ (·.initializer _ _) (initializer_lays tally _ _)
  | newListInit =>
    exact .ite (fun _ => tally.each fun _ => (initializer_lays tally _ _).last fun _ => .pure (by simp)) fun _ =>
      collection_lays tally _ _ (·.initializer _ _) (initializer_lays tally _ _)
  | enhancedForControl => exact enhancedForControl_lays tally
  | forInits => exact forInits_lays tally
  | forInit => exact forInit_lays tally
  | variableExpr =>
    exact (receiver_lays tally).seq fun _ => (dottedNames_lays tally _).seq fun _ =>
      (subjectIndex_lays tally _).last fun _ => .pure (by simp +arith)
  | methodCallExpr => exact methodCall_lays tally
  | arrayExpr =>
    exact tally.one fun _ => .cond (fun _ => .pure (by simp)) fun _ =>
      (arrayIndex_lays tally true).last fun _ => .pure (by simp)
  -- A field in quotes
  | boxedString | annotationString | stringAnnotationValue | findString | divisionLiteral =>
    exact (tally.laysOne _).map fun doc => by simp
  -- What the source or a table gives
  | blockComment | inlineComment | inClause => exact .ok rfl
  | triggerUsage => exact triggerUsage_lays
  | assignmentOp | binaryOp | booleanOp | postfixOp | prefixOp => exact operator_lays _
  | queryDateTime | queryTime =>
    intro doc ok
    obtain ⟨text, _, rfl⟩ := map_eq_ok.mp ok
    rfl
  | queryString => exact .ok (by simp [queryString])
  | orderAsc | orderDesc | orderNullFirst | orderNullLast => exact .ok (by simp)
  -- A field as it is, or a word
  | _ => first | exact tally.laysOne _ | exact .ok (by simp)

end ApexLayout.Printer
