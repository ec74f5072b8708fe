import ApexLayout.Proofs.Occurrence.Edges
import ApexLayout.Proofs.Printing.Moves
import ApexLayout.Proofs.Render.Typeset

/-!
Expressions apart from their layout. An expression is written by one rule for each of its forms
(`Expression.unparse`); its leaves say the same with the places where a line may break. A node denotes the expression
that its class and its fields give.
-/
namespace ApexLayout
open Doc (Leaf textLeaf joinLeaves)

/-- A type as it is written in casts and instance tests. -/
inductive TypeName where
  | named (names : List String) (arguments : List TypeName)
  | array (held : TypeName)
  | java (names : List String)
  deriving Repr

/-- The forms of expressions that have a rule for being written. -/
inductive Expression where
  | thisObject
  | superObject
  | literal (text : String)
  | variable (names : List String)
  /-- A variable behind a receiver; a safe dot has a question mark. -/
  | member (receiver : Expression) (safe : Bool) (names : List String)
  | call (names : List String) (arguments : List Expression)
  | memberCall (receiver : Expression) (safe : Bool) (names : List String) (arguments : List Expression)
  | element (subject index : Expression)
  | operation (left : Expression) (op : String) (right : Expression)
  | assignment (left : Expression) (op : String) (right : Expression)
  | nullCoalescing (left right : Expression)
  | ternary (condition whenTrue whenFalse : Expression)
  | cast (type : TypeName) (operand : Expression)
  | instanceTest (operand : Expression) (type : TypeName)
  | before (op : String) (operand : Expression)
  | behind (operand : Expression) (op : String)
  | nested (inner : Expression)
  deriving Repr

/-! ### In order -/

mutual
/-- The parts of a type, in order. -/
def TypeName.unparse : TypeName → List String
  | .named names arguments =>
    names.intersperse "." ++ if arguments.isEmpty then [] else "<" :: (TypeName.unparseAll arguments ++ [">"])
  | .array held => held.unparse ++ ["[", "]"]
  | .java names => "java:" :: names.intersperse "."
def TypeName.unparseAll : List TypeName → List String
  | [] => []
  | [type] => type.unparse
  | type :: next :: rest => type.unparse ++ "," :: TypeName.unparseAll (next :: rest)
end

namespace Expression

/-- The sign between a receiver and its member. -/
def dot (safe : Bool) : String := if safe then "?." else "."

mutual
/-- The parts of an expression, in order. -/
def unparse : Expression → List String
  | .thisObject => ["this"]
  | .superObject => ["super"]
  | .literal text => [text]
  | .variable names => names.intersperse "."
  | .member receiver safe names => receiver.unparse ++ dot safe :: names.intersperse "."
  | .call names arguments => names.intersperse "." ++ "(" :: (unparseAll arguments ++ [")"])
  | .memberCall receiver safe names arguments =>
    receiver.unparse ++ dot safe :: (names.intersperse "." ++ "(" :: (unparseAll arguments ++ [")"]))
  | .element subject index => subject.unparse ++ "[" :: (index.unparse ++ ["]"])
  | .operation left op right => left.unparse ++ op :: right.unparse
  | .assignment left op right => left.unparse ++ op :: right.unparse
  | .nullCoalescing left right => left.unparse ++ "??" :: right.unparse
  | .ternary condition whenTrue whenFalse =>
    condition.unparse ++ "?" :: (whenTrue.unparse ++ ":" :: whenFalse.unparse)
  | .cast type operand => "(" :: (type.unparse ++ ")" :: operand.unparse)
  | .instanceTest operand type => operand.unparse ++ "instanceof" :: type.unparse
  | .before op operand => op :: operand.unparse
  | .behind operand op => operand.unparse ++ [op]
  | .nested inner => "(" :: (inner.unparse ++ [")"])
/-- The parts of arguments, with commas between them. -/
def unparseAll : List Expression → List String
  | [] => []
  | [e] => e.unparse
  | e :: next :: rest => e.unparse ++ "," :: unparseAll (next :: rest)
end

end Expression

/-! ### With lines -/

/-- Names with dots between them. -/
def dottedLeaves (names : List String) : List Leaf := joinLeaves [.text "."] (names.map textLeaf)

mutual
/-- The leaves of a type; a line never breaks in one. -/
def TypeName.leaves : TypeName → List Leaf
  | .named names arguments =>
    dottedLeaves names ++
      if arguments.isEmpty then []
      else .text "<" :: (joinLeaves [.text ", "] (TypeName.leavesOfAll arguments) ++ [.text ">"])
  | .array held => held.leaves ++ [.text "[]"]
  | .java names => .text "java:" :: dottedLeaves names
def TypeName.leavesOfAll : List TypeName → List (List Leaf)
  | [] => []
  | type :: rest => type.leaves :: TypeName.leavesOfAll rest
end

namespace Expression

/-- The object itself, after which no blank may come. -/
def isSelf : Expression → Bool
  | .thisObject => true
  | .superObject => true
  | _ => false

def isLiteral : Expression → Bool
  | .literal _ => true
  | _ => false

/-- The expression is a literal without text. -/
def isBlank : Expression → Bool
  | .literal text => text.isEmpty
  | _ => false

def isOperation : Expression → Bool
  | .operation .. => true
  | _ => false

/-- The expression is a chain of members, which prints the index behind it. -/
def isChain : Expression → Bool
  | .variable _ => true
  | .member .. => true
  | .call .. => true
  | .memberCall .. => true
  | _ => false

theorem isBlank_of_isChain {e : Expression} (chain : e.isChain) : e.isBlank = false := by
  cases e with
  | literal => cases chain
  | _ => rfl

/-- A line may break before the dot. -/
def dotLeaves (receiver : Expression) (safe : Bool) : List Leaf :=
  (if receiver.isSelf then [] else [Leaf.softLine]) ++ (if safe then [Leaf.text "?"] else []) ++ [Leaf.text "."]

/-- Arguments in parentheses, one on a line if they do not fit. -/
def argumentLeaves (arguments : List (List Leaf)) : List Leaf :=
  .text "(" ::
    ((if arguments.isEmpty then [] else .softLine :: (joinLeaves [.text ",", .line] arguments ++ [Leaf.softLine])) ++
      [Leaf.text ")"])

/-- An index in brackets; a line never breaks around a literal. -/
def indexLeaves (isLiteral : Bool) (index : List Leaf) : List Leaf :=
  .text "[" :: ((if isLiteral then index else .softLine :: (index ++ [Leaf.softLine])) ++ [Leaf.text "]"])

mutual
/-- The leaves that are printed for an expression, wherever it stands. -/
def leaves : Expression → List Leaf
  | .thisObject => [.text "this"]
  | .superObject => [.text "super"]
  | .literal text => textLeaf text
  | .variable names => dottedLeaves names
  | .member receiver safe names => receiver.leaves ++ dotLeaves receiver safe ++ dottedLeaves names
  | .call names arguments => dottedLeaves names ++ argumentLeaves (leavesOfAll arguments)
  | .memberCall receiver safe names arguments =>
    receiver.leaves ++ dotLeaves receiver safe ++ dottedLeaves names ++ argumentLeaves (leavesOfAll arguments)
  | .element subject index => subject.leaves ++ indexLeaves index.isLiteral index.leaves
  | .operation left op right => left.leaves ++ [.text " "] ++ textLeaf op ++ [.line] ++ right.leaves
  | .assignment left op right =>
    left.leaves ++ [.text " "] ++ textLeaf op ++ [if right.isOperation then .line else .text " "] ++ right.leaves
  | .nullCoalescing left right => left.leaves ++ [.text " ??", .line] ++ right.leaves
  | .ternary condition whenTrue whenFalse =>
    condition.leaves ++ [.line, .text "? "] ++ whenTrue.leaves ++ [.line, .text ": "] ++ whenFalse.leaves
  | .cast type operand => [.text "("] ++ type.leaves ++ [.text ") "] ++ operand.leaves
  | .instanceTest operand type => operand.leaves ++ [.text " instanceof "] ++ type.leaves
  | .before op operand => textLeaf op ++ operand.leaves
  | .behind operand op => operand.leaves ++ textLeaf op
  | .nested inner => [.text "("] ++ inner.leaves ++ [.text ")"]
def leavesOfAll : List Expression → List (List Leaf)
  | [] => []
  | e :: rest => e.leaves :: leavesOfAll rest
end

end Expression

/-! ### The ink of both -/

/-- The characters of leaves other than white space. -/
def leafInk (leaves : List Leaf) : List Char := (leaves.filterMap Leaf.text?).flatMap Doc.inked

@[simp] theorem leafInk_nil : leafInk [] = [] := rfl
@[simp] theorem leafInk_line (rest : List Leaf) : leafInk (.line :: rest) = leafInk rest := rfl
@[simp] theorem leafInk_softLine (rest : List Leaf) : leafInk (.softLine :: rest) = leafInk rest := rfl
@[simp] theorem leafInk_text (value : String) (rest : List Leaf) :
    leafInk (.text value :: rest) = Doc.inked value ++ leafInk rest := rfl

@[simp] theorem leafInk_append (first rest : List Leaf) : leafInk (first ++ rest) = leafInk first ++ leafInk rest := by
  simp [leafInk]

@[simp] theorem leafInk_textLeaf (value : String) : leafInk (textLeaf value) = Doc.inked value := by
  unfold textLeaf
  split
  · next none_there =>
    subst none_there
    rfl
  · simp

theorem leafInk_dottedLeaves (names : List String) :
    leafInk (dottedLeaves names) = (names.intersperse ".").flatMap Doc.inked := by
  unfold dottedLeaves
  induction names with
  | nil => rfl
  | cons name names ih =>
    cases names with
    | nil => simp [joinLeaves]
    | cons next names =>
      simp only [List.map_cons, joinLeaves, leafInk_append, leafInk_textLeaf, leafInk_text, leafInk_nil,
        List.append_nil, List.intersperse_cons_cons, List.flatMap_cons] at ih ⊢
      rw [ih, List.append_assoc]

-- White space in the fixed texts does not count.
theorem inked_fixed :
    Doc.inked ", " = Doc.inked "," ∧ Doc.inked " " = [] ∧ Doc.inked " ??" = Doc.inked "??" ∧
      Doc.inked "? " = Doc.inked "?" ∧ Doc.inked ": " = Doc.inked ":" ∧ Doc.inked ") " = Doc.inked ")" ∧
        Doc.inked " instanceof " = Doc.inked "instanceof" := by decide

mutual
theorem TypeName.leafInk_leaves : ∀ type : TypeName, leafInk type.leaves = type.unparse.flatMap Doc.inked
  | .named names [] => by simp [TypeName.leaves, TypeName.unparse, leafInk_dottedLeaves]
  | .named names (type :: rest) => by
    simp [TypeName.leaves, TypeName.unparse, leafInk_dottedLeaves, TypeName.leafInk_join (type :: rest)]
  | .array held => by
    have brackets : Doc.inked "[]" = Doc.inked "[" ++ Doc.inked "]" := by decide
    simp [TypeName.leaves, TypeName.unparse, TypeName.leafInk_leaves held, brackets]
  | .java names => by simp [TypeName.leaves, TypeName.unparse, leafInk_dottedLeaves]
theorem TypeName.leafInk_join : ∀ types : List TypeName,
    leafInk (joinLeaves [.text ", "] (TypeName.leavesOfAll types)) = (TypeName.unparseAll types).flatMap Doc.inked
  | [] => rfl
  | [type] => TypeName.leafInk_leaves type
  | type :: next :: rest => by
    have later := TypeName.leafInk_join (next :: rest)
    simp only [TypeName.leavesOfAll] at later
    simp [TypeName.leavesOfAll, joinLeaves, TypeName.unparseAll, later, TypeName.leafInk_leaves type, inked_fixed]
end

namespace Expression

theorem leafInk_dotLeaves (receiver : Expression) (safe : Bool) :
    leafInk (dotLeaves receiver safe) = Doc.inked (dot safe) := by
  have safe_dot : Doc.inked "?." = Doc.inked "?" ++ Doc.inked "." := by decide
  cases same : receiver.isSelf <;> cases safe <;> simp [dotLeaves, dot, same, safe_dot]

theorem leafInk_argumentLeaves (arguments : List (List Leaf)) :
    leafInk (argumentLeaves arguments) =
      Doc.inked "(" ++ leafInk (joinLeaves [.text ",", .line] arguments) ++ Doc.inked ")" := by
  cases arguments <;> simp [argumentLeaves, joinLeaves]

theorem leafInk_indexLeaves (isLiteral : Bool) (index : List Leaf) :
    leafInk (indexLeaves isLiteral index) = Doc.inked "[" ++ leafInk index ++ Doc.inked "]" := by
  cases isLiteral <;> simp [indexLeaves]

mutual
/-- The leaves of an expression are its parts in order, but for white space. -/
theorem leafInk_leaves : ∀ e : Expression, leafInk e.leaves = e.unparse.flatMap Doc.inked
  | .thisObject => by simp [leaves, unparse]
  | .superObject => by simp [leaves, unparse]
  | .literal text => by simp [leaves, unparse]
  | .variable names => by simp [leaves, unparse, leafInk_dottedLeaves]
  | .member receiver safe names => by
    simp [leaves, unparse, leafInk_dottedLeaves, leafInk_dotLeaves, leafInk_leaves receiver]
  | .call names arguments => by
    simp [leaves, unparse, leafInk_dottedLeaves, leafInk_argumentLeaves, leafInk_join arguments]
  | .memberCall receiver safe names arguments => by
    simp [leaves, unparse, leafInk_dottedLeaves, leafInk_dotLeaves, leafInk_argumentLeaves, leafInk_leaves receiver,
      leafInk_join arguments]
  | .element subject index => by
    simp [leaves, unparse, leafInk_indexLeaves, leafInk_leaves subject, leafInk_leaves index]
  | .operation left op right => by
    simp [leaves, unparse, leafInk_leaves left, leafInk_leaves right, inked_fixed]
  | .assignment left op right => by
    cases is_operation : right.isOperation <;>
      simp [leaves, unparse, leafInk_leaves left, leafInk_leaves right, inked_fixed, is_operation]
  | .nullCoalescing left right => by
    simp [leaves, unparse, leafInk_leaves left, leafInk_leaves right, inked_fixed]
  | .ternary condition whenTrue whenFalse => by
    simp [leaves, unparse, leafInk_leaves condition, leafInk_leaves whenTrue, leafInk_leaves whenFalse, inked_fixed]
  | .cast type operand => by simp [leaves, unparse, type.leafInk_leaves, leafInk_leaves operand, inked_fixed]
  | .instanceTest operand type => by simp [leaves, unparse, type.leafInk_leaves, leafInk_leaves operand, inked_fixed]
  | .before op operand => by simp [leaves, unparse, leafInk_leaves operand]
  | .behind operand op => by simp [leaves, unparse, leafInk_leaves operand]
  | .nested inner => by simp [leaves, unparse, leafInk_leaves inner]
theorem leafInk_join : ∀ es : List Expression,
    leafInk (joinLeaves [.text ",", .line] (leavesOfAll es)) = (unparseAll es).flatMap Doc.inked
  | [] => rfl
  | [e] => leafInk_leaves e
  | e :: next :: rest => by
    have later := leafInk_join (next :: rest)
    simp only [leavesOfAll] at later
    simp [leavesOfAll, joinLeaves, unparseAll, later, leafInk_leaves e]
end

end Expression

/-! ### What a node denotes -/

namespace Manuscript

/-- The node is a name. -/
def NameIs (m : Manuscript) (id : NodeId) (name : String) : Prop :=
  (m.tree.kind? id = some .locationIdentifier ∨ m.tree.kind? id = some .syntheticIdentifier) ∧
    ∃ value, m.tree.field? id "value" = some (.string value) ∧ Printer.escapeString value = name

/-- The node lists names. -/
def HasNames (m : Manuscript) (id : NodeId) (names : List String) : Prop :=
  ∃ ids, m.tree.items id "names" = ids.map .node ∧ List.Forall₂ m.NameIs ids names

mutual
/-- The node stands for the type. -/
def TypeIs (m : Manuscript) : NodeId → TypeName → Prop
  | id, .named names arguments =>
    m.tree.kind? id = some .classTypeRef ∧ m.HasNames id names ∧
      ∃ ids, m.tree.items id "typeArguments" = ids.map .node ∧ m.TypesAre ids arguments
  | id, .array held =>
    m.tree.kind? id = some .arrayTypeRef ∧ ∃ inner, m.tree.child? id "heldType" = some inner ∧ m.TypeIs inner held
  | id, .java names => m.tree.kind? id = some .javaTypeRef ∧ m.HasNames id names
def TypesAre (m : Manuscript) : List NodeId → List TypeName → Prop
  | [], [] => True
  | id :: ids, type :: types => m.TypeIs id type ∧ m.TypesAre ids types
  | _, _ => False
end

/-- The text of the value that a literal holds, if it holds any. -/
def ValueIs (m : Manuscript) (id : NodeId) (text : String) : Prop :=
  match (m.tree.child? id "literal").bind (m.tree.field? · "$") with
  | some value => value.node? = none ∧ Printer.scalar value = .text text
  | none => text = ""

/-- The text of a literal: strings and numbers stand in the source, unless there is nothing. -/
def LiteralIs (m : Manuscript) (id : NodeId) (text : String) : Prop :=
  let type := (m.tree.constant? id "type").getD ""
  if type = "NULL" then text = "null"
  else if type = "STRING" then
    ∃ raw, m.reportedSourceOf id = .ok raw ∧ if raw.isEmpty then m.ValueIs id text else text = raw
  else if type = "LONG" ∨ type = "DECIMAL" ∨ type = "DOUBLE" then
    ∃ raw, m.reportedSourceOf id = .ok raw ∧
      (Printer.numberText? raw = some text ∨ Printer.numberText? raw = none ∧ m.ValueIs id text)
  else m.ValueIs id text

/-- The node has an operator with this symbol. -/
def OperatorIs (m : Manuscript) (id : NodeId) (kind : Kind) (symbol : String) : Prop :=
  ∃ op, m.tree.child? id "op" = some op ∧ m.tree.kind? op = some kind ∧
    Operator.symbol? kind (Operator.nameOf m.tree op) = some symbol

/-- The receiver of an access or a call, in its wrapper. -/
def ReceiverAt (m : Manuscript) (id receiver : NodeId) : Prop :=
  ∃ wrapper, m.tree.child? id "dottedExpr" = some wrapper ∧ m.tree.hasClass wrapper = false ∧
    m.tree.child? wrapper "value" = some receiver

mutual
/-- The node stands for the expression. A receiver writes something, and an access keeps so few fields that its subject
    is told from the others. -/
def Denotes (m : Manuscript) : NodeId → Expression → Prop
  | id, .thisObject => m.tree.kind? id = some .thisVariableExpr
  | id, .superObject => m.tree.kind? id = some .superVariableExpr
  | id, .literal text => m.tree.kind? id = some .literalExpr ∧ m.LiteralIs id text
  | id, .variable names =>
    m.tree.kind? id = some .variableExpr ∧ m.HasNames id names ∧ m.tree.optional? id "dottedExpr" = none
  | id, .member receiver safe names =>
    m.tree.kind? id = some .variableExpr ∧ m.HasNames id names ∧ m.tree.flag id "isSafeNav" = safe ∧
      receiver.isBlank = false ∧ ∃ inner, m.ReceiverAt id inner ∧ m.Denotes inner receiver
  | id, .call names arguments =>
    m.tree.kind? id = some .methodCallExpr ∧ m.HasNames id names ∧ m.tree.optional? id "dottedExpr" = none ∧
      ∃ ids, m.tree.items id "inputParameters" = ids.map .node ∧ m.DenoteAll ids arguments
  | id, .memberCall receiver safe names arguments =>
    m.tree.kind? id = some .methodCallExpr ∧ m.HasNames id names ∧ m.tree.flag id "isSafeNav" = safe ∧
      receiver.isBlank = false ∧ (∃ inner, m.ReceiverAt id inner ∧ m.Denotes inner receiver) ∧
        ∃ ids, m.tree.items id "inputParameters" = ids.map .node ∧ m.DenoteAll ids arguments
  | id, .element subject index =>
    m.tree.kind? id = some .arrayExpr ∧ (m.tree.node id).IsNarrow ∧
      (∃ inner, m.tree.child? id "expr" = some inner ∧ m.Denotes inner subject) ∧
      ∃ place, m.tree.child? id "index" = some place ∧ m.Denotes place index
  | id, .operation left op right =>
    (m.tree.kind? id = some .binaryExpr ∨ m.tree.kind? id = some .booleanExpr) ∧
      (m.OperatorIs id .binaryOp op ∨ m.OperatorIs id .booleanOp op) ∧
        (∃ first, m.tree.child? id "left" = some first ∧ m.Denotes first left) ∧
          ∃ second, m.tree.child? id "right" = some second ∧ m.Denotes second right
  | id, .assignment left op right =>
    m.tree.kind? id = some .assignmentExpr ∧ m.OperatorIs id .assignmentOp op ∧
      (∃ first, m.tree.child? id "left" = some first ∧ m.Denotes first left) ∧
        ∃ second, m.tree.child? id "right" = some second ∧ m.Denotes second right
  | id, .nullCoalescing left right =>
    m.tree.kind? id = some .nullCoalescingExpr ∧
      (∃ first, m.tree.child? id "left" = some first ∧ m.Denotes first left) ∧
        ∃ second, m.tree.child? id "right" = some second ∧ m.Denotes second right
  | id, .ternary condition whenTrue whenFalse =>
    m.tree.kind? id = some .ternaryExpr ∧
      (∃ first, m.tree.child? id "condition" = some first ∧ m.Denotes first condition) ∧
        (∃ second, m.tree.child? id "trueExpr" = some second ∧ m.Denotes second whenTrue) ∧
          ∃ third, m.tree.child? id "falseExpr" = some third ∧ m.Denotes third whenFalse
  | id, .cast type operand =>
    m.tree.kind? id = some .castExpr ∧ (∃ first, m.tree.child? id "type" = some first ∧ m.TypeIs first type) ∧
      ∃ second, m.tree.child? id "expr" = some second ∧ m.Denotes second operand
  | id, .instanceTest operand type =>
    m.tree.kind? id = some .instanceOf ∧ (∃ first, m.tree.child? id "expr" = some first ∧ m.Denotes first operand) ∧
      ∃ second, m.tree.child? id "type" = some second ∧ m.TypeIs second type
  | id, .before op operand =>
    m.tree.kind? id = some .prefixExpr ∧ m.OperatorIs id .prefixOp op ∧
      ∃ inner, m.tree.child? id "expr" = some inner ∧ m.Denotes inner operand
  | id, .behind operand op =>
    m.tree.kind? id = some .postfixExpr ∧ m.OperatorIs id .postfixOp op ∧
      ∃ inner, m.tree.child? id "expr" = some inner ∧ m.Denotes inner operand
  | id, .nested inner =>
    m.tree.kind? id = some .nestedExpr ∧ ∃ child, m.tree.child? id "expr" = some child ∧ m.Denotes child inner
def DenoteAll (m : Manuscript) : List NodeId → List Expression → Prop
  | [], [] => True
  | id :: ids, e :: es => m.Denotes id e ∧ m.DenoteAll ids es
  | _, _ => False
end

end Manuscript
end ApexLayout
