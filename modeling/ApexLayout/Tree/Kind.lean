/-!
The kinds and classes of syntax nodes. The serializer names the class of a node by a text such as
`apex.jorje.data.ast.Stmnt$BlockStmnt`: a family, and within it a variant. Every class name that
has a meaning of its own is a kind. Any other class keeps its name, and its family if a known class
has the same one.
-/
namespace ApexLayout

inductive Kind where
  -- The output of the parser, boxed values, comments and names
  | parserOutput | boxedInt | boxedString | blockComment | inlineComment | locationIdentifier | syntheticIdentifier
  -- Units and declarations
  | anonymousBlockUnit | classDeclUnit | enumDeclUnit | interfaceDeclUnit | triggerDeclUnit | classDecl | interfaceDecl
  | enumDecl | methodDecl | propertyDecl | propertyGetter | propertySetter | variableDecls | variableDecl
  | nameValueParameter | triggerUsage
  -- Members
  | fieldMember | innerClassMember | innerEnumMember | innerInterfaceMember | methodMember | propertyMember
  | staticStmntBlockMember | stmntBlockMember
  -- Modifiers
  | abstractModifier | annotationMark | finalModifier | globalModifier | hiddenModifier | inheritedSharingModifier
  | overrideModifier | privateModifier | protectedModifier | publicModifier | staticModifier | testMethodModifier
  | transientModifier | virtualModifier | webServiceModifier | withSharingModifier | withoutSharingModifier
  -- Annotations, parameters, types and versions
  | annotationKeyValue | annotationString | trueAnnotationValue | falseAnnotationValue | stringAnnotationValue
  | emptyModifierParameterRef | modifierParameterRef | arrayTypeRef | classTypeRef | javaTypeRef | requestVersion
  | structuredVersion
  -- Statements
  | blockStmnt | breakStmnt | continueStmnt | dmlDeleteStmnt | dmlInsertStmnt | dmlMergeStmnt | dmlUndeleteStmnt
  | dmlUpdateStmnt | dmlUpsertStmnt | doLoop | expressionStmnt | forLoop | ifElseBlock | returnStmnt | runAsBlock
  | switchStmnt | throwStmnt | tryCatchFinallyBlock | variableDeclStmnt | whileLoop | ifBlock | elseBlock | catchBlock
  | finallyBlock | cStyleForControl | enhancedForControl | forInits | forInit | valueWhen | elseWhen | typeWhen
  | enumCase | literalCase
  -- Expressions
  | arrayExpr | assignmentExpr | binaryExpr | booleanExpr | castExpr | classRefExpr | instanceOf | javaMethodCallExpr
  | javaVariableExpr | literalExpr | methodCallExpr | nestedExpr | newExpr | nullCoalescingExpr | packageVersionExpr
  | postfixExpr | prefixExpr | soqlExpr | soslExpr | superMethodCallExpr | superVariableExpr | ternaryExpr
  | thisMethodCallExpr | thisVariableExpr | triggerVariableExpr | variableExpr | newKeyValue | newListInit
  | newListLiteral | newMapInit | newMapLiteral | newSetInit | newSetLiteral | newStandard | mapLiteralKeyValue
  | assignmentOp | binaryOp | booleanOp | postfixOp | prefixOp
  -- Queries
  | query | selectColumnClause | selectCountClause | selectCaseExpr | selectColumnExpr | selectDistanceExpr
  | selectInnerQuery | caseExpr | caseOp | whenExpr | whenOp | elseExpr | field | fieldIdentifier | fromClause
  | fromExpr | groupByClause | groupByExpr | groupByCube | groupByRollUp | havingClause | whereClause | whereCalcExpr
  | whereCompoundExpr | whereDistanceExpr | whereInnerExpr | whereOpExpr | whereOpExprs | whereUnaryExpr | whereUnaryOp
  | whereCalcPlus | whereCalcMinus | queryAnd | queryOr | distanceFunctionExpr | geolocationExpr | geolocationLiteral
  | numberExpr | numberLiteral | apexExpr | queryLiteralExpr | queryDate | queryDateFormula | queryDateTime | queryFalse
  | queryMultiCurrency | queryNull | queryNumber | queryString | queryTime | queryTrue | colonExpr | orderByClause
  | orderByDistance | orderByValue | orderAsc | orderDesc | orderNullFirst | orderNullLast | withValue
  | withDataCategories | withIdentifier | dataCategory | dataCategoryAbove | dataCategoryAboveOrBelow | dataCategoryAt
  | dataCategoryBelow | limitExpr | limitValue | offsetExpr | offsetValue | queryDoubleEqual | queryEqual
  | queryExcludes | queryGreaterThan | queryGreaterThanEqual | queryIn | queryIncludes | queryLessThan
  | queryLessThanEqual | queryLike | queryNotEqual | queryNotIn | queryNotTripleEqual | queryTripleEqual | forReference
  | forView | includeDeleted | lockRows | queryUsingClause | usingWord | usingEquals | usingId | updateStatsClause
  | updateTracking | updateViewStat | bindClause | bindExpr
  -- Searches
  | search | findClause | findExpr | findString | inClause | withDivisionClause | divisionExpr | divisionLiteral
  | withDataCategoryClause | searchWithClause | searchWithFalseValue | searchWithStringValue | searchWithTargetValue
  | searchWithTrueValue | returningClause | returningExpr | returningSelectExpr | searchUsingClause | usingType
  deriving Repr, DecidableEq, Inhabited

namespace Kind

/-- The kinds in the order above. -/
def all : List Kind := (List.range (Kind.usingType.ctorIdx + 1)).map ofNat

/-- The packages of the syntax tree, of queries and of searches. -/
def ast : String := "apex.jorje.data.ast."
def soql : String := "apex.jorje.data.soql."
def sosl : String := "apex.jorje.data.sosl."

def classes (package : String) (names : List String) : List String := names.map (package ++ ·)
def variants (family : String) (names : List String) : List String := names.map (family ++ "$" ++ ·)

/-- The class names, in the order of the kinds. -/
def classNames : List String := List.flatten
  [["apex.jorje.semantic.compiler.parser.ParserOutput", "int", "string"],
   variants "apex.jorje.parser.impl.HiddenTokens" ["BlockComment", "InlineComment"],
   variants "apex.jorje.data.Identifiers" ["LocationIdentifier", "SyntheticIdentifier"],
   variants (ast ++ "CompilationUnit") ["AnonymousBlockUnit", "ClassDeclUnit", "EnumDeclUnit", "InterfaceDeclUnit",
     "TriggerDeclUnit"],
   classes ast ["ClassDecl", "InterfaceDecl", "EnumDecl", "MethodDecl", "PropertyDecl", "PropertyGetter",
     "PropertySetter", "VariableDecls", "VariableDecl", "NameValueParameter", "TriggerUsage"],
   variants (ast ++ "BlockMember") ["FieldMember", "InnerClassMember", "InnerEnumMember", "InnerInterfaceMember",
     "MethodMember", "PropertyMember", "StaticStmntBlockMember", "StmntBlockMember"],
   variants (ast ++ "Modifier") ["AbstractModifier", "Annotation", "FinalModifier", "GlobalModifier", "HiddenModifier",
     "InheritedSharingModifier", "OverrideModifier", "PrivateModifier", "ProtectedModifier", "PublicModifier",
     "StaticModifier", "TestMethodModifier", "TransientModifier", "VirtualModifier", "WebServiceModifier",
     "WithSharingModifier", "WithoutSharingModifier"],
   variants (ast ++ "AnnotationParameter") ["AnnotationKeyValue", "AnnotationString"],
   variants (ast ++ "AnnotationValue") ["TrueAnnotationValue", "FalseAnnotationValue", "StringAnnotationValue"],
   variants (ast ++ "ParameterRefs") ["EmptyModifierParameterRef", "ModifierParameterRef"],
   variants (ast ++ "TypeRefs") ["ArrayTypeRef", "ClassTypeRef", "JavaTypeRef"],
   variants (ast ++ "VersionRef") ["RequestVersion", "StructuredVersion"],
   variants (ast ++ "Stmnt") ["BlockStmnt", "BreakStmnt", "ContinueStmnt", "DmlDeleteStmnt", "DmlInsertStmnt",
     "DmlMergeStmnt", "DmlUndeleteStmnt", "DmlUpdateStmnt", "DmlUpsertStmnt", "DoLoop", "ExpressionStmnt", "ForLoop",
     "IfElseBlock", "ReturnStmnt", "RunAsBlock", "SwitchStmnt", "ThrowStmnt", "TryCatchFinallyBlock",
     "VariableDeclStmnt", "WhileLoop"],
   classes ast ["IfBlock", "ElseBlock", "CatchBlock", "FinallyBlock"],
   variants (ast ++ "ForControl") ["CStyleForControl", "EnhancedForControl"],
   classes ast ["ForInits", "ForInit"],
   variants (ast ++ "WhenBlock") ["ValueWhen", "ElseWhen", "TypeWhen"],
   variants (ast ++ "WhenCase") ["EnumCase", "LiteralCase"],
   variants (ast ++ "Expr") ["ArrayExpr", "AssignmentExpr", "BinaryExpr", "BooleanExpr", "CastExpr", "ClassRefExpr",
     "InstanceOf", "JavaMethodCallExpr", "JavaVariableExpr", "LiteralExpr", "MethodCallExpr", "NestedExpr", "NewExpr",
     "NullCoalescingExpr", "PackageVersionExpr", "PostfixExpr", "PrefixExpr", "SoqlExpr", "SoslExpr",
     "SuperMethodCallExpr", "SuperVariableExpr", "TernaryExpr", "ThisMethodCallExpr", "ThisVariableExpr",
     "TriggerVariableExpr", "VariableExpr"],
   variants (ast ++ "NewObject") ["NewKeyValue", "NewListInit", "NewListLiteral", "NewMapInit", "NewMapLiteral",
     "NewSetInit", "NewSetLiteral", "NewStandard"],
   classes ast ["MapLiteralKeyValue", "AssignmentOp", "BinaryOp", "BooleanOp", "PostfixOp", "PrefixOp"],
   classes soql ["Query"],
   variants (soql ++ "SelectClause") ["SelectColumnClause", "SelectCountClause"],
   variants (soql ++ "SelectExpr") ["SelectCaseExpr", "SelectColumnExpr", "SelectDistanceExpr", "SelectInnerQuery"],
   classes soql ["CaseExpr", "CaseOp", "WhenExpr", "WhenOp", "ElseExpr", "Field", "FieldIdentifier", "FromClause",
     "FromExpr", "GroupByClause", "GroupByExpr"],
   variants (soql ++ "GroupByType") ["GroupByCube", "GroupByRollUp"],
   classes soql ["HavingClause", "WhereClause"],
   variants (soql ++ "WhereExpr") ["WhereCalcExpr", "WhereCompoundExpr", "WhereDistanceExpr", "WhereInnerExpr",
     "WhereOpExpr", "WhereOpExprs", "WhereUnaryExpr"],
   classes soql ["WhereUnaryOp"],
   variants (soql ++ "WhereCalcOp") ["WhereCalcPlus", "WhereCalcMinus"],
   variants (soql ++ "WhereCompoundOp") ["QueryAnd", "QueryOr"],
   classes soql ["DistanceFunctionExpr"],
   variants (soql ++ "Geolocation") ["GeolocationExpr", "GeolocationLiteral"],
   variants (soql ++ "NumberClause") ["NumberExpr", "NumberLiteral"],
   variants (soql ++ "QueryExpr") ["ApexExpr", "LiteralExpr"],
   variants (soql ++ "QueryLiteral") ["QueryDate", "QueryDateFormula", "QueryDateTime", "QueryFalse",
     "QueryMultiCurrency", "QueryNull", "QueryNumber", "QueryString", "QueryTime", "QueryTrue"],
   classes soql ["ColonExpr", "OrderByClause"],
   variants (soql ++ "OrderByExpr") ["OrderByDistance", "OrderByValue"],
   variants (soql ++ "Order") ["OrderAsc", "OrderDesc"],
   variants (soql ++ "OrderNull") ["OrderNullFirst", "OrderNullLast"],
   variants (soql ++ "WithClause") ["WithValue", "WithDataCategories"],
   variants (soql ++ "WithIdentifierClause") ["WithIdentifier"],
   classes soql ["DataCategory"],
   variants (soql ++ "DataCategoryOperator") ["DataCategoryAbove", "DataCategoryAboveOrBelow", "DataCategoryAt",
     "DataCategoryBelow"],
   variants (soql ++ "LimitClause") ["LimitExpr", "LimitValue"],
   variants (soql ++ "OffsetClause") ["OffsetExpr", "OffsetValue"],
   variants (soql ++ "QueryOp") ["QueryDoubleEqual", "QueryEqual", "QueryExcludes", "QueryGreaterThan",
     "QueryGreaterThanEqual", "QueryIn", "QueryIncludes", "QueryLessThan", "QueryLessThanEqual", "QueryLike",
     "QueryNotEqual", "QueryNotIn", "QueryNotTripleEqual", "QueryTripleEqual"],
   variants (soql ++ "TrackingType") ["ForReference", "ForView"],
   variants (soql ++ "QueryOption") ["IncludeDeleted", "LockRows"],
   classes soql ["QueryUsingClause"],
   variants (soql ++ "UsingExpr") ["Using", "UsingEquals", "UsingId"],
   classes soql ["UpdateStatsClause"],
   variants (soql ++ "UpdateStatsOption") ["UpdateTracking", "UpdateViewStat"],
   classes soql ["BindClause", "BindExpr"],
   classes sosl ["Search", "FindClause"],
   variants (sosl ++ "FindValue") ["FindExpr", "FindString"],
   classes sosl ["InClause", "WithDivisionClause"],
   variants (sosl ++ "DivisionValue") ["DivisionExpr", "DivisionLiteral"],
   classes sosl ["WithDataCategoryClause", "SearchWithClause"],
   variants (sosl ++ "SearchWithClauseValue") ["SearchWithFalseValue", "SearchWithStringValue",
     "SearchWithTargetValue", "SearchWithTrueValue"],
   classes sosl ["ReturningClause", "ReturningExpr", "ReturningSelectExpr", "SearchUsingClause", "UsingType"]]

example : classNames.length = all.length := by decide +kernel

def className (kind : Kind) : String := classNames.getD kind.ctorIdx ""

def ofClassName? (name : String) : Option Kind := all.find? (·.className == name)

end Kind

/-- The part of a class name before its first dollar sign. -/
def familyPart (name : String) : String := String.ofList (name.toList.takeWhile (· != '$'))

def Kind.family (kind : Kind) : String := familyPart kind.className

def isFamily (name : String) : Bool := Kind.all.any (·.family == name)

inductive Class where
  | known (kind : Kind)
  | other (name : String)
  deriving Repr, DecidableEq

namespace Class

def ofName (name : String) : Class :=
  match Kind.ofClassName? name with
  | some kind => .known kind
  | none => .other name

def kind? : Class → Option Kind
  | .known kind => some kind
  | .other _ => none

def name : Class → String
  | .known kind => kind.className
  | .other name => name

def family? : Class → Option String
  | .known kind => some kind.family
  | .other name => if isFamily (familyPart name) then some (familyPart name) else none

end Class
end ApexLayout
