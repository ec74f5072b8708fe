import ApexLayout.Printer.Basic

/-!
The kinds that are always printed as the same words, and operators, by the names the parser gives
them, with how strongly they bind.
-/
namespace ApexLayout

namespace Kind

def modifierWord? : Kind → Option String
  | .publicModifier => some "public"
  | .privateModifier => some "private"
  | .virtualModifier => some "virtual"
  | .hiddenModifier => some "hidden"
  | .protectedModifier => some "protected"
  | .abstractModifier => some "abstract"
  | .staticModifier => some "static"
  | .testMethodModifier => some "testMethod"
  | .webServiceModifier => some "webService"
  | .finalModifier => some "final"
  | .transientModifier => some "transient"
  | .globalModifier => some "global"
  | .withoutSharingModifier => some "without sharing"
  | .withSharingModifier => some "with sharing"
  | .inheritedSharingModifier => some "inherited sharing"
  | .overrideModifier => some "override"
  | _ => none

def conditionOperator? : Kind → Option String
  | .queryIncludes => some "INCLUDES"
  | .queryExcludes => some "EXCLUDES"
  | .queryEqual => some "="
  | .queryDoubleEqual => some "=="
  | .queryTripleEqual => some "==="
  | .queryNotEqual => some "!="
  | .queryNotTripleEqual => some "!=="
  | .queryLike => some "LIKE"
  | .queryLessThanEqual => some "<="
  | .queryGreaterThanEqual => some ">="
  | .queryLessThan => some "<"
  | .queryGreaterThan => some ">"
  | .queryIn => some "IN"
  | .queryNotIn => some "NOT IN"
  | _ => none

def word? : Kind → Option String
  | .trueAnnotationValue => some "true"
  | .falseAnnotationValue => some "false"
  | .requestVersion => some "Request"
  | .breakStmnt => some "break;"
  | .continueStmnt => some "continue;"
  | .superVariableExpr => some "super"
  | .thisVariableExpr => some "this"
  | .selectCountClause => some "SELECT COUNT()"
  | .groupByCube => some "CUBE"
  | .groupByRollUp => some "ROLLUP"
  | .whereUnaryOp => some "NOT"
  | .whereCalcPlus => some "+"
  | .whereCalcMinus => some "-"
  | .queryAnd => some "AND"
  | .queryOr => some "OR"
  | .queryFalse => some "FALSE"
  | .queryNull => some "NULL"
  | .queryTrue => some "TRUE"
  | .dataCategoryAbove => some "ABOVE"
  | .dataCategoryAboveOrBelow => some "ABOVE_OR_BELOW"
  | .dataCategoryAt => some "AT"
  | .dataCategoryBelow => some "BELOW"
  | .forReference => some "FOR REFERENCE"
  | .forView => some "FOR VIEW"
  | .includeDeleted => some "ALL ROWS"
  | .lockRows => some "FOR UPDATE"
  | .updateTracking => some "TRACKING"
  | .updateViewStat => some "VIEWSTAT"
  | .searchWithFalseValue => some " = false"
  | .searchWithTrueValue => some " = true"
  | kind => kind.conditionOperator?

end Kind

/-- An operator between two operands. All comparisons bind with the same strength. -/
structure Operator where
  symbol : String
  /-- The strength, the weakest first. -/
  tier : Nat
  deriving Repr, DecidableEq

namespace Operator

def binary? : String → Option Operator
  | "ADDITION" => some ⟨"+", 7⟩
  | "SUBTRACTION" => some ⟨"-", 7⟩
  | "MULTIPLICATION" => some ⟨"*", 8⟩
  | "DIVISION" => some ⟨"/", 8⟩
  | "LEFT_SHIFT" => some ⟨"<<", 6⟩
  | "RIGHT_SHIFT" => some ⟨">>", 6⟩
  | "UNSIGNED_RIGHT_SHIFT" => some ⟨">>>", 6⟩
  | "XOR" => some ⟨"^", 3⟩
  | "AND" => some ⟨"&", 4⟩
  | "OR" => some ⟨"|", 2⟩
  | _ => none

def boolean? : String → Option Operator
  | "DOUBLE_EQUAL" => some ⟨"==", 5⟩
  | "TRIPLE_EQUAL" => some ⟨"===", 5⟩
  | "NOT_TRIPLE_EQUAL" => some ⟨"!==", 5⟩
  | "NOT_EQUAL" => some ⟨"!=", 5⟩
  | "ALT_NOT_EQUAL" => some ⟨"<>", 5⟩
  | "LESS_THAN" => some ⟨"<", 5⟩
  | "GREATER_THAN" => some ⟨">", 5⟩
  | "LESS_THAN_EQUAL" => some ⟨"<=", 5⟩
  | "GREATER_THAN_EQUAL" => some ⟨">=", 5⟩
  | "AND" => some ⟨"&&", 1⟩
  | "OR" => some ⟨"||", 0⟩
  | _ => none

def assignmentSymbol? : String → Option String
  | "EQUALS" => some "="
  | "AND_EQUALS" => some "&="
  | "OR_EQUALS" => some "|="
  | "XOR_EQUALS" => some "^="
  | "ADDITION_EQUALS" => some "+="
  | "SUBTRACTION_EQUALS" => some "-="
  | "MULTIPLICATION_EQUALS" => some "*="
  | "DIVISION_EQUALS" => some "/="
  | "LEFT_SHIFT_EQUALS" => some "<<="
  | "RIGHT_SHIFT_EQUALS" => some ">>="
  | "UNSIGNED_RIGHT_SHIFT_EQUALS" => some ">>>="
  | _ => none

def behindSymbol? : String → Option String
  | "INC" => some "++"
  | "DEC" => some "--"
  | _ => none

def beforeSymbol? : String → Option String
  | "POSITIVE" => some "+"
  | "NEGATIVE" => some "-"
  | "NOT" => some "!"
  | "BITWISE_COMPLEMENT" => some "~"
  | "INC" => some "++"
  | "DEC" => some "--"
  | _ => none

def symbol? (kind : Kind) (name : String) : Option String :=
  match kind with
  | .assignmentOp => assignmentSymbol? name
  | .binaryOp => (binary? name).map symbol
  | .booleanOp => (boolean? name).map symbol
  | .postfixOp => behindSymbol? name
  | .prefixOp => beforeSymbol? name
  | _ => none

def nameOf (tree : Tree) (id : NodeId) : String := (tree.string? id "$").getD ""

def unknown (tree : Tree) (id : NodeId) : FormatError :=
  .malformed ("unknown operator " ++ Text.quoted (nameOf tree id) ++ " in " ++ tree.className id)

def ofExpression (tree : Tree) (id : NodeId) : Outcome Operator :=
  match tree.child? id "op" with
  | none => .error (.malformed (tree.className id ++ " without op"))
  | some op =>
    let found := if tree.isKind op .booleanOp then boolean? (nameOf tree op) else binary? (nameOf tree op)
    match found with
    | some operator => .ok operator
    | none => .error (unknown tree op)

end Operator

namespace Printer

def operator (p : Printer) (id : NodeId) (kind : Kind) : Outcome Draft :=
  match Operator.symbol? kind (Operator.nameOf p.tree id) with
  | some symbol => .ok symbol
  | none => .error (Operator.unknown p.tree id)

def isOperation (p : Printer) (id : NodeId) : Bool := p.tree.isAmong id [.binaryExpr, .booleanExpr]

def tierOf (p : Printer) (id : NodeId) : Outcome Nat := Operator.tier <$> Operator.ofExpression p.tree id

end Printer
end ApexLayout
