import ApexLayout.Printer.Dispatch

/-!
Printers that read alike print alike. A printer echoes another one if it stands at the same place, reads the same there
and prints the same for what fields lead to.
-/
namespace ApexLayout

/-- A manuscript reads like another one, for every node but for the comments printed beside it. -/
structure Manuscript.Echoes (m' m : Manuscript) : Prop where
  tree : m'.tree = m.tree
  extents : m'.extents = m.extents
  source : m'.source = m.source
  multiline : m'.occurrences.multiline = m.occurrences.multiline
  hasLeadingComment : m'.hasLeadingComment = m.hasLeadingComment
  hasOwnLineLeadingComment : m'.hasOwnLineLeadingComment = m.hasOwnLineLeadingComment
  hasTrailingComment : m'.hasTrailingComment = m.hasTrailingComment
  hasEndOfLineTrailingComment : m'.hasEndOfLineTrailingComment = m.hasEndOfLineTrailingComment
  hasOwnLineComment : m'.hasOwnLineComment = m.hasOwnLineComment
  danglingDocs : m'.danglingDocs = m.danglingDocs

namespace Manuscript.Echoes

variable {m m' : Manuscript} (echo : m'.Echoes m)
include echo

theorem slice : m'.slice = m.slice := by
  funext id span
  simp only [Manuscript.slice, echo.tree, echo.source]

theorem sourceOf : m'.sourceOf = m.sourceOf := by
  funext id
  simp only [Manuscript.sourceOf, echo.slice, echo.extents]

theorem reportedSourceOf : m'.reportedSourceOf = m.reportedSourceOf := by
  funext id
  simp only [Manuscript.reportedSourceOf, echo.slice, echo.tree]

theorem isMultiline : m'.occurrences.isMultiline = m.occurrences.isMultiline := by
  funext id
  simp only [Occurrences.isMultiline, echo.multiline]

end Manuscript.Echoes

namespace Printer

/-- A printer reads and prints like another one at the node being printed. -/
structure Echoes (q p : Printer) : Prop where
  manuscript : q.manuscript.Echoes p.manuscript
  path : q.path = p.path
  branch : q.flags.branch = p.flags.branch
  inParentheses : q.flags.inParentheses = p.flags.inParentheses
  print : q.print = p.print
  printEach : q.printEach = p.printEach
  variableAt : ∀ names, q.withNode names forInitWithComments = p.withNode names forInitWithComments
  variablesAt : ∀ names, q.withNodes names forInitWithComments = p.withNodes names forInitWithComments

namespace Echoes

variable {p q : Printer} (echo : q.Echoes p)
include echo

theorem tree : q.tree = p.tree := echo.manuscript.tree

theorem current : q.current = p.current := by
  simp only [Printer.current, echo.path, echo.tree]

theorem parent? : q.parent? = p.parent? := by
  simp only [Printer.parent?, echo.path]

theorem nameAt : q.nameAt = p.nameAt := by
  funext level
  simp only [Printer.nameAt, echo.path, echo.tree]

theorem isOperation : q.isOperation = p.isOperation := by
  funext id
  simp only [Printer.isOperation, echo.tree]

theorem tierOf : q.tierOf = p.tierOf := by
  funext id
  simp only [Printer.tierOf, echo.tree]

theorem arguments : q.arguments = p.arguments := by
  simp only [Printer.arguments, echo.printEach]

theorem isReceiver : q.isReceiver = p.isReceiver := by
  simp only [Printer.isReceiver, echo.nameAt, echo.tree, echo.current, echo.parent?]

theorem hasQueryReceiver (id : NodeId) : q.hasQueryReceiver id = p.hasQueryReceiver id := by
  simp only [Printer.hasQueryReceiver, echo.tree]

theorem hasSelfReceiver (id : NodeId) : q.hasSelfReceiver id = p.hasSelfReceiver id := by
  simp only [Printer.hasSelfReceiver, echo.tree]

theorem breaksAtDot (id : NodeId) : q.breaksAtDot id = p.breaksAtDot id := by
  simp only [Printer.breaksAtDot, echo.hasSelfReceiver, echo.tree, echo.isReceiver]

theorem receiver (id : NodeId) : q.receiver id = p.receiver id := by
  simp only [Printer.receiver, echo.breaksAtDot, echo.print, echo.tree]

theorem arrayIndex (grouped : Bool) : q.arrayIndex grouped = p.arrayIndex grouped := by
  simp only [Printer.arrayIndex, echo.tree, echo.current, echo.print]

theorem dottedNames (field : String) : q.dottedNames field = p.dottedNames field := by
  simp only [Printer.dottedNames, echo.printEach]

/-- The index of an array access is printed from the node around its subject. -/
theorem subjectIndex (around : q.outward.print = p.outward.print) (grouped : Bool) :
    q.subjectIndex grouped = p.subjectIndex grouped := by
  have tree : q.outward.tree = p.outward.tree := echo.tree
  have current : q.outward.current = p.outward.current := by
    simp only [Printer.current, outward, Printer.tree, echo.path, echo.manuscript.tree]
  simp only [Printer.subjectIndex, Printer.arrayIndex, echo.parent?, echo.tree, echo.nameAt, tree, current, around]

theorem variableAccess (around : q.outward.print = p.outward.print) (id : NodeId) :
    q.variableAccess id = p.variableAccess id := by
  simp only [Printer.variableAccess, echo.receiver, echo.dottedNames, echo.subjectIndex around, echo.isReceiver,
    echo.hasQueryReceiver]

theorem methodCall (around : q.outward.print = p.outward.print) (id : NodeId) : q.methodCall id = p.methodCall id := by
  simp only [Printer.methodCall, echo.parent?, echo.isOperation, echo.receiver, echo.dottedNames, echo.arguments,
    echo.subjectIndex around, echo.isReceiver, echo.hasQueryReceiver, echo.hasSelfReceiver]

theorem isSizedList (id : NodeId) : q.isSizedList id = p.isSizedList id := by
  simp only [Printer.isSizedList, echo.tree]

theorem clauses (fields : List String) : q.clauses fields = p.clauses fields := by
  induction fields with
  | nil => rfl
  | cons field fields ih => simp only [Printer.clauses, clause, echo.print, ih]

theorem clauseLine (id : NodeId) : q.clauseLine id = p.clauseLine id := by
  simp only [Printer.clauseLine, echo.manuscript.isMultiline]

theorem spaced (fields : List String) : q.spaced fields = p.spaced fields := by
  cases fields with
  | nil => rfl
  | cons field fields => simp only [Printer.spaced, echo.print]

theorem isInCondition : q.isInCondition = p.isInCondition := by
  simp only [Printer.isInCondition, echo.parent?, echo.tree]

theorem isBlockAt : q.isBlockAt = p.isBlockAt := by
  funext id names
  simp only [Printer.isBlockAt, echo.tree]

theorem branches (nodes : List NodeId) (isBlock trailing : List Bool) (index : Nat) (docs : List Draft) :
    q.branches nodes isBlock trailing index docs = p.branches nodes isBlock trailing index docs := by
  induction docs generalizing index with
  | nil => cases index <;> rfl
  | cons doc docs ih =>
    cases index with
    | zero => simp only [Printer.branches, ih]
    | succ before => simp only [Printer.branches, branchBreaks, echo.manuscript.hasOwnLineLeadingComment, ih]

theorem handlers (nodes : List NodeId) (trailing : List Bool) (tryTrailing : Bool) (index : Nat) (docs : List Draft) :
    q.handlers nodes trailing tryTrailing index docs = p.handlers nodes trailing tryTrailing index docs := by
  induction docs generalizing index with
  | nil => rfl
  | cons doc docs ih => simp only [Printer.handlers, handlerBreaks, echo.manuscript.hasOwnLineLeadingComment, ih]

theorem loopBody (id : NodeId) : q.loopBody id = p.loopBody id := by
  simp only [Printer.loopBody, echo.tree, echo.print, echo.isBlockAt]

theorem runsOverQuery (id : NodeId) : q.runsOverQuery id = p.runsOverQuery id := by
  simp only [Printer.runsOverQuery, echo.tree]

/-- An annotation prints the comments behind it itself. -/
theorem annotated {id : NodeId} (behind : q.manuscript.trailingComments id = p.manuscript.trailingComments id) :
    q.annotated id = p.annotated id := by
  simp only [Printer.annotated, echo.print, echo.printEach, behind]

theorem bodyLines (id : NodeId) (members : List Draft) : q.bodyLines id members = p.bodyLines id members := by
  simp only [Printer.bodyLines, echo.manuscript.danglingDocs]

/-- Every kind is printed alike, if the comments that an annotation prints itself are the same, and what an array
    access is printed by from its subject. -/
theorem ofKind {id : NodeId} (kind : Kind)
    (behind : kind = .annotationMark → q.manuscript.trailingComments id = p.manuscript.trailingComments id)
    (around : kind = .variableExpr ∨ kind = .methodCallExpr → q.outward.print = p.outward.print) :
    q.ofKind id kind = p.ofKind id kind := by
  delta Printer.ofKind
  cases kind
  case annotationMark => exact echo.annotated (behind rfl)
  case variableExpr => exact echo.variableAccess (around (.inl rfl)) id
  case methodCallExpr => exact echo.methodCall (around (.inr rfl)) id
  -- Units, declarations and members
  case anonymousBlockUnit | triggerDeclUnit | classDecl | interfaceDecl | enumDecl | methodDecl | propertyDecl | propertyGetter
      | propertySetter | variableDecls | variableDecl | nameValueParameter | triggerUsage | staticStmntBlockMember
      | stmntBlockMember | annotationKeyValue | emptyModifierParameterRef | modifierParameterRef | arrayTypeRef | classTypeRef
      | structuredVersion =>
    simp only [anonymousUnit, triggerUnit, classDeclaration, interfaceDeclaration, typeDeclaration, typeArguments,
      enumDeclaration, methodDeclaration, propertyDeclaration, accessor, variableDeclarations, variableDeclaration,
      namedArgument, triggerUsage, blockMember, annotationKeyValue, parameter, arrayType, classType, structuredVersion,
      echo.print, echo.printEach, echo.tree, echo.current, echo.bodyLines, echo.isOperation, echo.manuscript.hasLeadingComment]
  -- Statements
  case blockStmnt | dmlDeleteStmnt | dmlInsertStmnt | dmlUndeleteStmnt | dmlUpdateStmnt | dmlUpsertStmnt | dmlMergeStmnt
      | doLoop | expressionStmnt | forLoop | ifElseBlock | returnStmnt | runAsBlock | switchStmnt | throwStmnt
      | tryCatchFinallyBlock | whileLoop | ifBlock | elseBlock | catchBlock | finallyBlock | cStyleForControl
      | enhancedForControl | forInits | forInit | valueWhen | elseWhen | typeWhen | enumCase =>
    simp only [block, dataChange, mergeStatement, accessMode, doLoop, expressionStatement, forLoop, echo.runsOverQuery, ifElse,
      returnStatement, runAsBlock, switchStatement, throwStatement, tryStatement, whileLoop, ifBlock, elseBlock, catchBlock,
      finallyBlock, countingForControl, enhancedForControl, forInits, forInit, forInitParts, valueWhen, elseWhen, typeWhen,
      echo.arguments, echo.dottedNames, echo.print, echo.printEach, echo.tree, echo.current, echo.branch, echo.isBlockAt,
      echo.isOperation, echo.branches, echo.handlers, echo.loopBody, echo.variableAt, echo.variablesAt,
      echo.manuscript.hasTrailingComment, echo.manuscript.hasOwnLineLeadingComment, echo.manuscript.hasOwnLineComment,
      echo.manuscript.danglingDocs]
  -- Expressions
  case arrayExpr | assignmentExpr | binaryExpr | booleanExpr | castExpr | classRefExpr | instanceOf | javaMethodCallExpr
      | javaVariableExpr | javaTypeRef | literalExpr | nestedExpr | newExpr | nullCoalescingExpr | packageVersionExpr | postfixExpr
      | prefixExpr | soqlExpr | soslExpr | superMethodCallExpr | ternaryExpr | thisMethodCallExpr | triggerVariableExpr
      | newKeyValue | newListInit | newListLiteral | newMapInit | newMapLiteral | newSetInit | newSetLiteral | newStandard
      | mapLiteralKeyValue | assignmentOp | binaryOp | booleanOp | postfixOp | prefixOp =>
    simp only [arrayAccess, assignment, operation, operandLine, castTo, classReference, instanceTest, javaCall, javaVariable,
      literal, parenthesized, newObject, nullCoalescing, packageVersion, behindOperator, beforeOperator, inlineQuery,
      constructorCall, ternary, triggerVariable, newKeyValue, newList, echo.isSizedList, collection, initializer, collectionValues,
      newStandard, mapEntry, operator, echo.arguments, echo.dottedNames, echo.print, echo.printEach, echo.tree, echo.tierOf,
      echo.parent?, echo.nameAt, echo.isOperation, echo.inParentheses, echo.arrayIndex, echo.manuscript.reportedSourceOf,
      echo.manuscript.hasLeadingComment, echo.manuscript.hasEndOfLineTrailingComment]
  -- Queries and searches
  case query | selectColumnClause | selectColumnExpr | selectDistanceExpr | selectInnerQuery | caseExpr | whenExpr | elseExpr
      | field | fieldIdentifier | fromClause | fromExpr | groupByClause | havingClause | whereClause | whereCalcExpr
      | whereCompoundExpr | whereDistanceExpr | whereInnerExpr | whereOpExpr | whereOpExprs | whereUnaryExpr
      | distanceFunctionExpr | geolocationLiteral | queryDateTime | queryTime | queryString | colonExpr | orderByClause
      | orderByDistance | orderByValue | orderAsc | orderDesc | orderNullFirst | orderNullLast | withValue | withDataCategories
      | withDataCategoryClause | withIdentifier | dataCategory | limitExpr | limitValue | offsetExpr | offsetValue
      | queryUsingClause | usingWord | usingEquals | usingId | updateStatsClause | bindClause | bindExpr | search | findClause
      | inClause | withDivisionClause | searchWithClause | searchWithStringValue | searchWithTargetValue | returningClause
      | returningExpr | returningSelectExpr | searchUsingClause | usingType =>
    simp only [query, wordAndLines, selectColumn, aliasDocs, selectDistance, innerQuery, typeCases, typeCase, elseCase, field,
      fieldIdentifier, fromClause, fromTable, groupBy, wordAndLine, echo.spaced, compoundCondition, conditionInQuery,
      conditionInList, negatedCondition, distance, geolocation, queryString, wordAndValue, orderBy, orderKey, orderWord,
      equation, dataCategories, dataCategory, limit, closedList, scopeName, scopeId, bindClause, search, inClause, searchWith,
      searchValues, searchTarget, returning, returningSelect, usingType, echo.print, echo.printEach, echo.tree, echo.parent?,
      echo.clauses, echo.clauseLine, echo.isInCondition, echo.manuscript.extents, echo.manuscript.reportedSourceOf]
  all_goals simp only [echo.print]

end Echoes
end Printer
end ApexLayout
