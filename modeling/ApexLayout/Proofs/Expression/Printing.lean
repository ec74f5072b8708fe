import ApexLayout.Proofs.Expression.Handlers

/-!
Printed expressions. A node that denotes an expression is printed as that expression, wherever it stands. The index of
an access is printed with the subject if that is a chain of members, and by the access itself otherwise.
-/
namespace ApexLayout
open Doc (Leaf textLeaf joinLeaves)

/-- Every node comes before the nodes below it, as without references. -/
def Tree.Ascends (t : Tree) : Prop := ∀ id child, t.Child id child → id < child

namespace Tree

variable {t : Tree} {id child : NodeId} {name : String} {slot : Nat}

theorem Ascends.lt_of_holds (ascends : t.Ascends) {value : Value} (there : (t.node id).fields[slot]? = some (name, value))
    (holds : Extents.Holds value child) : id < child :=
  ascends id child (Extents.child_iff.2 ⟨value, List.mem_map_of_mem (List.mem_of_getElem? there), holds⟩)

theorem Ascends.lt_child (ascends : t.Ascends) (held : t.child? id name = some child) : id < child := by
  obtain ⟨slot, -, there⟩ := Node.slot?_of_field? (Tree.field?_of_child? held)
  exact ascends.lt_of_holds there (.node child)

theorem ascends_of_all (all : ∀ id < t.size, ∀ occurrence ∈ t.children id, id < occurrence.2) : t.Ascends := by
  rintro id child ⟨edge, member⟩
  exact all id (Extents.child_size ⟨edge, member⟩) _ member

theorem lt_size_of_kind? {kind : Kind} (known : t.kind? id = some kind) : id < t.size := by
  by_contra outside
  have absent : t.nodes[id]? = none := Array.getElem?_eq_none (Nat.le_of_not_lt outside)
  simp [kind?, node, absent, Node.kind?] at known

end Tree

/-! ### Occurrences that can be printed -/

/-- The kinds of nodes that denote expressions of the form. -/
def Expression.kinds : Expression → List Kind
  | .thisObject => [.thisVariableExpr]
  | .superObject => [.superVariableExpr]
  | .literal _ => [.literalExpr]
  | .variable _ => [.variableExpr]
  | .member .. => [.variableExpr]
  | .call .. => [.methodCallExpr]
  | .memberCall .. => [.methodCallExpr]
  | .element .. => [.arrayExpr]
  | .operation .. => [.binaryExpr, .booleanExpr]
  | .assignment .. => [.assignmentExpr]
  | .nullCoalescing .. => [.nullCoalescingExpr]
  | .ternary .. => [.ternaryExpr]
  | .cast .. => [.castExpr]
  | .instanceTest .. => [.instanceOf]
  | .before .. => [.prefixExpr]
  | .behind .. => [.postfixExpr]
  | .nested _ => [.nestedExpr]

namespace Manuscript

variable {m : Manuscript} {fuel : Nat} {path : Path} {id child receiver : NodeId} {edge : Option Edge} {name : String}
  {slot : Nat} {kind : Kind} {e : Expression}

/-- The printer can go to the occurrence: the node is not on the path, an operation around it is known,
    there are steps left for it and for all below it, and no blank line is kept after it. -/
structure Reaches (m : Manuscript) (fuel : Nat) (path : Path) (id : NodeId) (edge : Option Edge) : Prop where
  ascending : ∀ frame ∈ path, frame.id < id
  known : ∀ frame ∈ path.head?, m.tree.isAmong frame.id [.binaryExpr, .booleanExpr] →
    ∃ operator, Operator.ofExpression m.tree frame.id = .ok operator
  enough : 2 * (m.tree.size - id) < fuel
  unspaced : m.Tight → ∀ e, edge = some e → (m.occurrences.get e).blankAfter = false

def Compact (m : Manuscript) (id : NodeId) : Prop := ∃ kind, m.tree.kind? id = some kind ∧ kind ∉ Occurrences.separable

theorem Compact.isAmong_eq (compact : m.Compact id) : m.tree.isAmong id Occurrences.separable = false := by
  obtain ⟨kind, known, other⟩ := compact
  simp [Tree.isAmong, known, other]

theorem Compact.unspaced (compact : m.Compact child) {e : Edge}
    (only : m.tree.Narrow → ∀ other, (e, other) ∈ m.tree.children e.parent → other = child) (tight : m.Tight) :
    (m.occurrences.get e).blankAfter = false := by
  rw [Bool.eq_false_iff]
  intro blank
  obtain ⟨other, member, among⟩ := tight.separable e blank
  rw [only tight.narrow other member, compact.isAmong_eq] at among
  cases among

section
variable (reaches : m.Reaches (fuel + 1) path id edge)
include reaches

theorem Reaches.ascending_cons (lower : id < child) : ∀ frame ∈ (⟨id, edge⟩ :: path : Path), frame.id < child := by
  intro frame member
  rcases List.mem_cons.1 member with rfl | above
  · exact lower
  · exact (reaches.ascending frame above).trans lower

theorem Reaches.enough_below (lower : id < child) (compact : m.Compact child) :
    2 * (m.tree.size - child) + 1 < fuel := by
  obtain ⟨kind, known, -⟩ := compact
  have fewer : m.tree.size - child < m.tree.size - id :=
    Nat.sub_lt_sub_left (lower.trans (Tree.lt_size_of_kind? known)) lower
  have enough := reaches.enough
  omega

variable (ascends : m.tree.Ascends)
include ascends

theorem Reaches.step {value : Value} {place : Option Nat}
    (own : m.tree.isAmong id [.binaryExpr, .booleanExpr] → ∃ operator, Operator.ofExpression m.tree id = .ok operator)
    (there : (m.tree.node id).fields[slot]? = some (name, value)) (holds : Extents.Holds value child)
    (only : m.tree.Narrow → ∀ other, (⟨id, slot.toUInt16, place⟩, other) ∈ m.tree.children id → other = child)
    (compact : m.Compact child) : m.Reaches fuel (⟨id, edge⟩ :: path) child (some ⟨id, slot.toUInt16, place⟩) := by
  have lower : id < child := ascends.lt_of_holds there holds
  have enough := reaches.enough_below lower compact
  refine ⟨reaches.ascending_cons lower, ?_, by omega, ?_⟩
  · intro frame head
    obtain rfl : ⟨id, edge⟩ = frame := by simpa using head
    exact own
  · intro tight e same
    obtain rfl := Option.some.inj same
    exact compact.unspaced only tight

theorem Reaches.wrapped {wrapper : NodeId} {place : Nat} (held : m.tree.child? id name = some wrapper)
    (unclassed : m.tree.hasClass wrapper = false)
    (there : (m.tree.node wrapper).fields[place]? = some ("value", .node child)) (compact : m.Compact child) (e : Edge) :
    m.Reaches fuel (⟨wrapper, some e⟩ :: ⟨id, edge⟩ :: path) child (some ⟨wrapper, place.toUInt16, none⟩) := by
  have between : id < wrapper := ascends.lt_child held
  have lower : wrapper < child := ascends.lt_of_holds there (.node child)
  have enough := reaches.enough_below (between.trans lower) compact
  refine ⟨?_, ?_, by omega, ?_⟩
  · intro frame member
    rcases List.mem_cons.1 member with rfl | above
    · exact lower
    · exact reaches.ascending_cons (between.trans lower) frame above
  · intro frame head
    obtain rfl : ⟨wrapper, some e⟩ = frame := by simpa using head
    have no_kind : m.tree.kind? wrapper = none := by
      have no_class : (m.tree.node wrapper).nodeClass = none := by simpa [Tree.hasClass] using unclassed
      simp [Tree.kind?, Node.kind?, no_class]
    simp [Tree.isAmong, no_kind]
  · intro tight e' same
    obtain rfl := Option.some.inj same
    exact compact.unspaced (fun narrow _ => narrow.eq_of_mem_children there) tight

end

/-! ### One occurrence -/

section
variable (bare : m.Bare) (reaches : m.Reaches (fuel + 1) path id edge) {kind : Kind}
  (known : m.tree.kind? id = some kind) {leaves : List Leaf}
include bare reaches known

theorem printAt_eq_withBlank :
    m.printAt (fuel + 1) path id edge =
      (m.printerAt fuel path id edge).withBlank <$> (m.printerAt fuel path id edge).ofKind id kind := by
  rw [printAt_succ fun frame member => Nat.ne_of_lt (reaches.ascending frame member)]
  exact Printer.occurrence_bare (p := m.printerAt fuel path id edge) bare known

omit bare known in
theorem shows_withBlank {doc : Draft} (shows : m.Shows doc leaves) :
    m.Shows ((m.printerAt fuel path id edge).withBlank doc) leaves := by
  unfold Printer.withBlank
  split
  · next blank =>
    refine ⟨by simp [shows.leaves_eq], ?_⟩
    intro tight
    have unspaced : (m.printerAt fuel path id edge).flags.blankAfter = false := by
      cases edge with
      | none => rfl
      | some e => exact reaches.unspaced tight e rfl
    rw [unspaced] at blank
    cases blank
  · exact shows

theorem renders_printAt (renders : m.Renders ((m.printerAt fuel path id edge).ofKind id kind) leaves) :
    m.Renders (m.printAt (fuel + 1) path id edge) leaves := by
  obtain ⟨doc, ok, shows⟩ := renders
  refine ⟨_, ?_, shows_withBlank reaches shows⟩
  rw [printAt_eq_withBlank bare reaches known, ok]
  rfl

theorem displays_printAt (displays : m.Displays ((m.printerAt fuel path id edge).ofKind id kind) leaves) :
    m.Displays (m.printAt (fuel + 1) path id edge) leaves := by
  obtain ⟨doc, ok, filled, shows⟩ := displays
  refine ⟨_, ?_, ?_, shows_withBlank reaches shows⟩
  · rw [printAt_eq_withBlank bare reaches known, ok]
    rfl
  · unfold Printer.withBlank
    split
    · rfl
    · exact filled

end

/-! ### Names, operators and types -/

theorem NameIs.compact {word : String} (named : m.NameIs id word) : m.Compact id := by
  rcases named.1 with known | known
  · exact ⟨_, known, by decide⟩
  · exact ⟨_, known, by decide⟩

theorem renders_name (bare : m.Bare) {word : String} (named : m.NameIs id word)
    (reaches : m.Reaches (fuel + 1) path id edge) : m.Renders (m.printAt (fuel + 1) path id edge) (textLeaf word) := by
  obtain ⟨known, value, held, rfl⟩ := named
  have printed : (m.printerAt fuel path id edge).print ["value"] = .ok (.text (Printer.escapeString value)) := by
    obtain ⟨slot, printed, -⟩ := Printer.print_field (p := m.printerAt fuel path id edge) held
    exact printed
  rcases known with known | known
  · exact renders_printAt bare reaches known ⟨_, printed, rfl, fun _ => rfl⟩
  · exact renders_printAt bare reaches known ⟨_, printed, rfl, fun _ => rfl⟩

def operatorKinds : List Kind := [.assignmentOp, .binaryOp, .booleanOp, .postfixOp, .prefixOp]

theorem renders_operator (bare : m.Bare) {symbol : String} (known : m.tree.kind? id = some kind)
    (is_operator : kind ∈ operatorKinds) (written : Operator.symbol? kind (Operator.nameOf m.tree id) = some symbol)
    (reaches : m.Reaches (fuel + 1) path id edge) : m.Renders (m.printAt (fuel + 1) path id edge) (textLeaf symbol) := by
  have printed : (m.printerAt fuel path id edge).operator id kind = .ok (.text symbol) := by
    unfold Printer.operator
    rw [show (m.printerAt fuel path id edge).tree = m.tree from rfl, written]
  refine renders_printAt bare reaches known ⟨.text symbol, ?_, rfl, fun _ => rfl⟩
  simp only [operatorKinds, List.mem_cons, List.not_mem_nil, or_false] at is_operator
  rcases is_operator with rfl | rfl | rfl | rfl | rfl
  all_goals exact printed

/-- The node shows the leaves wherever it stands in an array of the last node on the path. -/
def ShowsInArray (m : Manuscript) (fuel : Nat) (path : Path) (id : NodeId) (leaves : List Leaf) : Prop :=
  m.Compact id ∧ ∀ e : Edge, e.index.isSome → m.Reaches fuel path id (some e) →
    m.Renders (m.printAt fuel path id (some e)) leaves

section
variable (ascends : m.tree.Ascends) (reaches : m.Reaches (fuel + 1) path id edge)
include ascends reaches

theorem print_reaches
    (own : m.tree.isAmong id [.binaryExpr, .booleanExpr] → ∃ operator, Operator.ofExpression m.tree id = .ok operator)
    (held : m.tree.child? id name = some child) (compact : m.Compact child) :
    ∃ below : Edge, (∀ steps, (m.printerAt steps path id edge).print [name] =
        m.printAt steps (⟨id, edge⟩ :: path) child (some below)) ∧
      m.Reaches fuel (⟨id, edge⟩ :: path) child (some below) ∧ below.index = none ∧
      ((m.tree.node id).IsNarrow → m.tree.fieldName below = name) := by
  obtain ⟨slot, leads, there⟩ :=
    Printer.destination?_of_field? (p := m.printerAt fuel path id edge) (Tree.field?_of_child? held)
  refine ⟨⟨id, slot.toUInt16, none⟩, ?_, ?_, rfl, fun narrow => Tree.fieldName_of_slot narrow there none⟩
  · intro steps
    have led : (m.printerAt steps path id edge).destination? [name] = some ⟨[], id, slot.toUInt16, .node child⟩ := leads
    rw [Printer.print, led]
    rfl
  · exact reaches.step ascends own there (.node child) (fun narrow _ => narrow.eq_of_mem_children there) compact

omit ascends reaches in
theorem renders_items {ids : List NodeId} {leaves : List (List Leaf)}
    (each : List.Forall₂ (m.ShowsInArray fuel (⟨id, edge⟩ :: path)) ids leaves) (index : Nat)
    (inside : ∀ place child, ids[place]? = some child → m.Compact child →
      m.Reaches fuel (⟨id, edge⟩ :: path) child (some ⟨id, slot.toUInt16, some (index + place)⟩)) :
    ∃ docs, (m.printerAt fuel path id edge).printItems (⟨id, edge⟩ :: path) id slot.toUInt16 index (ids.map .node) = .ok docs ∧
      List.Forall₂ m.Shows docs leaves := by
  induction each generalizing index with
  | nil => exact ⟨[], rfl, .nil⟩
  | @cons child first ids leaves here _ ih =>
    obtain ⟨compact, renders⟩ := here
    obtain ⟨doc, ok, shows⟩ := renders _ rfl (inside 0 child rfl compact)
    obtain ⟨docs, rest_ok, rest_show⟩ := ih (index + 1) fun place child found compact => by
      have reached := inside (place + 1) child found compact
      rwa [show index + (place + 1) = index + 1 + place by omega] at reached
    refine ⟨doc :: docs, ?_, .cons shows rest_show⟩
    have first_ok : (m.printerAt fuel path id edge).printValue (⟨id, edge⟩ :: path) ⟨id, slot.toUInt16, some index⟩
        (.node child) = .ok doc := ok
    simp only [List.map_cons, Printer.printItems, first_ok, rest_ok]
    rfl

theorem givesEach_nodes {ids : List NodeId} {leaves : List (List Leaf)}
    (other : m.tree.isAmong id [.binaryExpr, .booleanExpr] = false) (held : m.tree.items id name = ids.map .node)
    (each : List.Forall₂ (m.ShowsInArray fuel (⟨id, edge⟩ :: path)) ids leaves) :
    (m.printerAt fuel path id edge).GivesEach name leaves := by
  obtain ⟨slot, printed, there⟩ := Printer.printEach_nodes (p := m.printerAt fuel path id edge) held
  obtain ⟨docs, ok, shows⟩ := renders_items each 0 fun place child found compact => by
    rcases there with rfl | there
    · cases found
    · rw [Nat.zero_add]
      refine reaches.step ascends (by simp [other]) there
        (.array (List.mem_map_of_mem (List.mem_of_getElem? found)) (.node child)) (fun narrow _ member => ?_) compact
      exact Option.some.inj ((narrow.getElem?_of_mem_children there member).symm.trans found)
  exact ⟨docs, printed.trans ok, shows⟩

end

theorem Reaches.fuel_pos (reaches : m.Reaches fuel path id edge) : ∃ less, fuel = less + 1 := by
  have enough := reaches.enough
  exact ⟨fuel - 1, by omega⟩

section
variable (bare : m.Bare) (ascends : m.tree.Ascends)
include bare ascends

theorem gives_names {words : List String} (reaches : m.Reaches (fuel + 1) path id edge)
    (other : m.tree.isAmong id [.binaryExpr, .booleanExpr] = false) (named : m.HasNames id words) :
    (m.printerAt fuel path id edge).GivesEach "names" (words.map textLeaf) := by
  obtain ⟨ids, held, each⟩ := named
  refine givesEach_nodes ascends reaches other held ?_
  rw [List.forall₂_map_right_iff]
  refine each.imp fun name word is_name => ⟨is_name.compact, fun e _ inner => ?_⟩
  obtain ⟨less, rfl⟩ := inner.fuel_pos
  exact renders_name bare is_name inner

theorem gives_operator {symbol : String} (reaches : m.Reaches (fuel + 1) path id edge)
    (is_operator : kind ∈ operatorKinds) (operator : m.OperatorIs id kind symbol)
    (own : m.tree.isAmong id [.binaryExpr, .booleanExpr] → ∃ operator, Operator.ofExpression m.tree id = .ok operator) :
    (m.printerAt fuel path id edge).Gives ["op"] (textLeaf symbol) := by
  obtain ⟨op, held, known, written⟩ := operator
  have compact : m.Compact op := by
    refine ⟨kind, known, ?_⟩
    simp only [operatorKinds, List.mem_cons, List.not_mem_nil, or_false] at is_operator
    rcases is_operator with rfl | rfl | rfl | rfl | rfl <;> decide
  obtain ⟨slot, printed, inner, -⟩ := print_reaches ascends reaches own held compact
  obtain ⟨less, rfl⟩ := inner.fuel_pos
  rw [Printer.Gives, printed (less + 1)]
  exact renders_operator bare known is_operator written inner

omit bare ascends in
theorem TypeIs.compact {type : TypeName} (typed : m.TypeIs id type) : m.Compact id := by
  cases type with
  | named names arguments | array held | java names => exact ⟨_, typed.1, by decide⟩

omit bare ascends in
theorem not_operation (known : m.tree.kind? id = some kind)
    (other : [Kind.binaryExpr, Kind.booleanExpr].contains kind = false) :
    m.tree.isAmong id [.binaryExpr, .booleanExpr] = false := by
  rw [Tree.isAmong, known]
  exact other

end

mutual
theorem displays_type (bare : m.Bare) (ascends : m.tree.Ascends) :
    ∀ (type : TypeName) {fuel : Nat} {path : Path} {id : NodeId} {edge : Option Edge}, m.TypeIs id type →
      m.Reaches fuel path id edge → m.Displays (m.printAt fuel path id edge) type.leaves
  | .named names arguments, fuel, path, id, edge, ⟨known, named, ids, held, typed⟩, reaches => by
    obtain ⟨fuel, rfl⟩ := reaches.fuel_pos
    have other := not_operation known rfl
    have each := givesEach_nodes ascends reaches other held (types_display bare ascends arguments typed)
    have shown := Printer.classType_displays (p := m.printerAt fuel path id edge)
      (gives_names bare ascends reaches other named) each
    have same : (TypeName.leavesOfAll arguments).isEmpty = arguments.isEmpty := by cases arguments <;> rfl
    rw [same] at shown
    exact displays_printAt bare reaches known shown
  | .array held, fuel, path, id, edge, ⟨known, inner, there, typed⟩, reaches => by
    obtain ⟨fuel, rfl⟩ := reaches.fuel_pos
    have other := not_operation known rfl
    obtain ⟨slot, printed, inside, -⟩ := print_reaches ascends reaches (by simp [other]) there typed.compact
    have shown := displays_type bare ascends held typed inside
    rw [← printed fuel] at shown
    exact displays_printAt bare reaches known (Printer.arrayType_displays shown.renders)
  | .java names, fuel, path, id, edge, ⟨known, named⟩, reaches => by
    obtain ⟨fuel, rfl⟩ := reaches.fuel_pos
    have at_names := gives_names bare ascends reaches (not_operation known rfl) named
    exact displays_printAt bare reaches known (Printer.javaVariable_displays at_names)
theorem types_display (bare : m.Bare) (ascends : m.tree.Ascends) :
    ∀ (types : List TypeName) {fuel : Nat} {path : Path} {ids : List NodeId}, m.TypesAre ids types →
      List.Forall₂ (m.ShowsInArray fuel path) ids (TypeName.leavesOfAll types)
  | [], _, _, [], _ => .nil
  | type :: types, _, _, _ :: _, ⟨first, rest⟩ =>
    .cons ⟨first.compact, fun _ _ reaches => (displays_type bare ascends type first reaches).renders⟩
      (types_display bare ascends types rest)
end

/-! ### What a denoting node is -/

section
variable (denotes : m.Denotes id e)
include denotes

theorem Denotes.kind_mem : ∃ kind ∈ e.kinds, m.tree.kind? id = some kind := by
  cases e with
  | thisObject | superObject => exact ⟨_, List.mem_singleton_self _, denotes⟩
  | operation left op right =>
    rcases denotes.1 with known | known
    · exact ⟨_, List.mem_cons_self, known⟩
    · exact ⟨_, List.mem_cons_of_mem _ List.mem_cons_self, known⟩
  | _ => exact ⟨_, List.mem_singleton_self _, denotes.1⟩

theorem Denotes.isAmong_eq {kinds : List Kind} {answer : Bool}
    (same : ∀ kind ∈ e.kinds, kinds.contains kind = answer) : m.tree.isAmong id kinds = answer := by
  obtain ⟨kind, member, known⟩ := denotes.kind_mem
  rw [Tree.isAmong, known]
  exact same kind member

theorem Denotes.isOperation_eq :
    m.tree.isAmong id [.binaryExpr, .booleanExpr] = e.isOperation := by
  refine denotes.isAmong_eq ?_
  cases e <;> simp [Expression.kinds, Expression.isOperation]

theorem Denotes.isChain_eq :
    m.tree.isAmong id [.variableExpr, .methodCallExpr] = e.isChain := by
  refine denotes.isAmong_eq ?_
  cases e <;> simp [Expression.kinds, Expression.isChain]

theorem Denotes.isSelf_eq :
    m.tree.isAmong id [.thisVariableExpr, .superVariableExpr] = e.isSelf := by
  refine denotes.isAmong_eq ?_
  cases e <;> simp [Expression.kinds, Expression.isSelf]

theorem Denotes.isLiteral_eq :
    m.tree.isKind id .literalExpr = e.isLiteral := by
  obtain ⟨kind, member, known⟩ := denotes.kind_mem
  rw [Tree.isKind, known]
  cases e <;> simp_all [Expression.kinds, Expression.isLiteral]
  rcases member with rfl | rfl <;> simp

theorem Denotes.compact : m.Compact id := by
  obtain ⟨kind, member, known⟩ := denotes.kind_mem
  refine ⟨kind, known, ?_⟩
  cases e <;> simp_all [Expression.kinds, Occurrences.separable]
  rcases member with rfl | rfl <;> simp

theorem Denotes.operator_known
    (among : m.tree.isAmong id [.binaryExpr, .booleanExpr]) :
    ∃ operator, Operator.ofExpression m.tree id = .ok operator := by
  rw [denotes.isOperation_eq] at among
  cases e with
  | operation left op right =>
    obtain ⟨-, ⟨node, held, known, written⟩ | ⟨node, held, known, written⟩, -⟩ := denotes
    · obtain ⟨operator, found, -⟩ := Option.map_eq_some_iff.1 written
      exact ⟨operator, by simp [Operator.ofExpression, held, Tree.isKind, known, found]⟩
    · obtain ⟨operator, found, -⟩ := Option.map_eq_some_iff.1 written
      exact ⟨operator, by simp [Operator.ofExpression, held, Tree.isKind, known, found]⟩
  | _ => cases among

end

/-! ### Subjects of accesses -/

def IsSubject (m : Manuscript) (path : Path) (edge : Option Edge) : Prop :=
  (∃ frame ∈ path.head?, m.tree.kind? frame.id = some .arrayExpr) ∧
    ∃ e ∈ edge, e.index = none ∧ m.tree.fieldName e = "expr"

theorem isSubject_iff :
    (((m.printerAt fuel path id edge).parent?.map ((m.printerAt fuel path id edge).tree.isKind · .arrayExpr)).getD false &&
      (m.printerAt fuel path id edge).nameAt 0 == "expr") = true ↔ m.IsSubject path edge := by
  rw [Bool.and_eq_true, beq_iff_eq]
  refine and_congr ?_ ?_
  · cases path <;> simp [Printer.parent?, Printer.tree, printerAt, Tree.isKind]
  · unfold Printer.nameAt
    cases edge with
    | none => simp [printerAt]
    | some e => by_cases alone : e.index = none <;> simp [printerAt, Printer.tree, alone]

theorem owes_nil (other : ¬ m.IsSubject path edge) : (m.printerAt fuel path id edge).Owes [] := by
  intro grouped
  refine ⟨Doc.empty, ?_, rfl, fun _ => rfl⟩
  rw [Printer.subjectIndex, if_neg fun subject => other (isSubject_iff.1 subject)]

/-- The subject of an access prints its index, at the access itself. -/
theorem owes_index {tail : List Leaf} (subject : m.IsSubject path edge)
    (renders : ∀ grouped, m.Renders (Printer.arrayIndex ⟨m, path, m.printAt fuel⟩ grouped) tail) :
    (m.printerAt fuel path id edge).Owes tail := by
  intro grouped
  rw [Printer.subjectIndex, if_pos (isSubject_iff.2 subject)]
  exact renders grouped

/-- What is printed behind the expression: the index, if it is a chain of members and the subject of an
    access, and otherwise nothing. -/
def Pending (m : Manuscript) (fuel : Nat) (path : Path) (id : NodeId) (edge : Option Edge) (e : Expression)
    (tail : List Leaf) : Prop :=
  if e.isChain then (m.printerAt (fuel - 1) path id edge).Owes tail else tail = []

theorem pending_nil (other : ¬ m.IsSubject path edge) : m.Pending fuel path id edge e [] := by
  unfold Pending
  split
  · exact owes_nil other
  · rfl

/-- The outcome shows the leaves, and stands for nothing only if the expression is blank. -/
def Writes (m : Manuscript) (e : Expression) (outcome : Outcome Draft) (leaves : List Leaf) : Prop :=
  m.Renders outcome leaves ∧ (e.isBlank = false → m.Displays outcome leaves)

/-- The expression is printed by every node that denotes it, with the index behind it if it is a chain of
    members and the subject of an access. -/
def Shown (m : Manuscript) (e : Expression) : Prop :=
  ∀ (fuel : Nat) (path : Path) (id : NodeId) (edge : Option Edge) (tail : List Leaf), m.Denotes id e →
    m.Reaches fuel path id edge → m.Pending fuel path id edge e tail → m.Writes e (m.printAt fuel path id edge) (e.leaves ++ tail)

theorem Shown.intro (shows : ∀ fuel path id edge tail, m.Denotes id e → m.Reaches (fuel + 1) path id edge →
    m.Pending (fuel + 1) path id edge e tail → m.Displays (m.printAt (fuel + 1) path id edge) (e.leaves ++ tail)) : m.Shown e := by
  intro fuel path id edge tail denotes reaches pending
  obtain ⟨less, rfl⟩ := reaches.fuel_pos
  have shown := shows less path id edge tail denotes reaches pending
  exact ⟨shown.renders, fun _ => shown⟩

theorem Shown.alone (shown : m.Shown e) (denotes : m.Denotes id e) (reaches : m.Reaches fuel path id edge)
    (other : ¬ m.IsSubject path edge) : m.Writes e (m.printAt fuel path id edge) e.leaves := by
  simpa using shown fuel path id edge [] denotes reaches (pending_nil other)

theorem not_isSubject (known : m.tree.kind? id = some kind) (other : kind ≠ .arrayExpr) (e : Option Edge) :
    ¬ m.IsSubject (⟨id, edge⟩ :: path) e := by
  rintro ⟨⟨frame, head, is_access⟩, -⟩
  obtain rfl : ⟨id, edge⟩ = frame := by simpa using head
  exact other (Option.some.inj (known.symm.trans is_access))

section
variable (ascends : m.tree.Ascends) (reaches : m.Reaches (fuel + 1) path id edge)
include ascends reaches

theorem print_receiver_reaches (held : m.ReceiverAt id receiver) (compact : m.Compact receiver) :
    ∃ longer e, (m.printerAt fuel path id edge).print ["dottedExpr", "value"] = m.printAt fuel longer receiver (some e) ∧
      m.Reaches fuel longer receiver (some e) ∧ ¬ m.IsSubject longer (some e) := by
  obtain ⟨wrapper, there, unclassed, inside⟩ := held
  have fresh : ∀ frame ∈ (m.printerAt fuel path id edge).path, frame.id ≠ wrapper := fun frame member =>
    Nat.ne_of_lt (reaches.ascending_cons (ascends.lt_child there) frame member)
  obtain ⟨slot, place, printed, found⟩ :=
    Printer.print_through (p := m.printerAt fuel path id edge) there fresh (Tree.field?_of_child? inside)
  refine ⟨_, _, printed, reaches.wrapped ascends there unclassed found compact _, ?_⟩
  rintro ⟨⟨frame, head, is_access⟩, -⟩
  obtain rfl : ⟨wrapper, _⟩ = frame := by simpa using head
  have no_class : (m.tree.node wrapper).nodeClass = none := by simpa [Tree.hasClass] using unclassed
  simp [Tree.kind?, Node.kind?, no_class] at is_access

theorem print_no_receiver (absent : m.tree.optional? id "dottedExpr" = none) :
    m.Renders ((m.printerAt fuel path id edge).receiver id) [] := by
  refine Printer.receiver_free (p := m.printerAt fuel path id edge) (Printer.print_optional_none absent ?_)
  intro wrapper held frame member
  exact Nat.ne_of_lt (reaches.ascending_cons (ascends.lt_child held) frame member)

theorem print_value {text : String} (valued : m.ValueIs id text) :
    (m.printerAt fuel path id edge).print ["literal", "$"] = .ok (.text text) := by
  cases there : (m.tree.child? id "literal").bind (m.tree.field? · "$") with
  | none =>
    obtain rfl : text = "" := by simpa [ValueIs, there] using valued
    exact Printer.print_nowhere (p := m.printerAt fuel path id edge) there
  | some value =>
    obtain ⟨no_node, written⟩ : value.node? = none ∧ Printer.scalar value = .text text := by
      simpa [ValueIs, there] using valued
    obtain ⟨holder, held, inside⟩ := Option.bind_eq_some_iff.mp there
    have fresh : ∀ frame ∈ (m.printerAt fuel path id edge).path, frame.id ≠ holder := fun frame member =>
      Nat.ne_of_lt (reaches.ascending_cons (ascends.lt_child held) frame member)
    obtain ⟨slot, place, printed, -⟩ := Printer.print_through (p := m.printerAt fuel path id edge) held fresh inside
    rw [printed]
    cases value with
    | node id => cases no_node
    | _ => exact congrArg Except.ok written

end

theorem ReceiverAt.optionalChild?_eq (held : m.ReceiverAt id receiver) :
    m.tree.optionalChild? id "dottedExpr" = some receiver := by
  obtain ⟨wrapper, there, unclassed, inside⟩ := held
  simp only [Tree.optionalChild?, Tree.optional?, there, unclassed, Tree.field?_of_child? inside]
  rfl

section
variable (ascends : m.tree.Ascends) (reaches : m.Reaches (fuel + 1) path id edge)
include ascends reaches

theorem renders_receiver {safe : Bool} (held : m.ReceiverAt id receiver) (written : e.isBlank = false)
    (denotes : m.Denotes receiver e) (is_safe : m.tree.flag id "isSafeNav" = safe) (inner : m.Shown e) :
    m.Renders ((m.printerAt fuel path id edge).receiver id) (e.leaves ++ e.dotLeaves safe) := by
  obtain ⟨longer, place, printed, inside, other⟩ := print_receiver_reaches ascends reaches held denotes.compact
  have shown := (inner.alone denotes inside other).2 written
  rw [← printed] at shown
  have self : (m.printerAt fuel path id edge).hasSelfReceiver id = e.isSelf := by
    rw [Printer.hasSelfReceiver, show (m.printerAt fuel path id edge).tree = m.tree from rfl, held.optionalChild?_eq]
    exact denotes.isSelf_eq
  exact (Printer.receiver_displays shown is_safe self (by
    rw [show (m.printerAt fuel path id edge).tree = m.tree from rfl, held.optionalChild?_eq]
    rfl)).renders

theorem gives_part {part : Expression} (known : m.tree.kind? id = some kind) (other : kind ≠ .arrayExpr)
    (own : m.tree.isAmong id [.binaryExpr, .booleanExpr] → ∃ operator, Operator.ofExpression m.tree id = .ok operator)
    (holds : ∃ child, m.tree.child? id name = some child ∧ m.Denotes child part) (shown : m.Shown part) :
    (m.printerAt fuel path id edge).Gives [name] part.leaves := by
  obtain ⟨child, held, denotes⟩ := holds
  obtain ⟨slot, printed, inside, -⟩ := print_reaches ascends reaches own held denotes.compact
  rw [Printer.Gives, printed fuel]
  exact (shown.alone denotes inside (not_isSubject known other _)).1

theorem gives_operand {part : Expression} (known : m.tree.kind? id = some kind)
    (plain : kind ∉ [Kind.arrayExpr, .binaryExpr, .booleanExpr])
    (holds : ∃ child, m.tree.child? id name = some child ∧ m.Denotes child part) (shown : m.Shown part) :
    (m.printerAt fuel path id edge).Gives [name] part.leaves := by
  simp only [List.mem_cons, List.not_mem_nil, or_false, not_or] at plain
  exact gives_part ascends reaches known plain.1 (by simp [Tree.isAmong, known, plain]) holds shown

theorem gives_type (bare : m.Bare) {type : TypeName} (other : m.tree.isAmong id [.binaryExpr, .booleanExpr] = false)
    (holds : ∃ child, m.tree.child? id name = some child ∧ m.TypeIs child type) :
    (m.printerAt fuel path id edge).Gives [name] type.leaves := by
  obtain ⟨child, held, typed⟩ := holds
  obtain ⟨slot, printed, inside, -⟩ := print_reaches ascends reaches (by simp [other]) held typed.compact
  have shown := displays_type bare ascends type typed inside
  rw [← printed fuel] at shown
  exact shown.renders

theorem index_displays {less : Nat} {index : Expression} (fuel_eq : fuel = less + 1) (narrow : (m.tree.node id).IsNarrow)
    (other : m.tree.isAmong id [.binaryExpr, .booleanExpr] = false) (held : m.tree.child? id "index" = some child)
    (denotes : m.Denotes child index) (inner : m.Shown index) (steps : Nat)
    (enough : steps = fuel ∨ steps = less) (grouped : Bool) :
    m.Displays ((m.printerAt steps path id edge).arrayIndex grouped)
      (Expression.indexLeaves index.isLiteral index.leaves) := by
  obtain ⟨below, printed, inside, -, named⟩ := print_reaches ascends reaches (by simp [other]) held denotes.compact
  have left := reaches.enough_below (ascends.lt_child held) denotes.compact
  have reached : m.Reaches steps (⟨id, edge⟩ :: path) child (some below) :=
    ⟨inside.ascending, inside.known, by omega, inside.unspaced⟩
  have apart : ¬ m.IsSubject (⟨id, edge⟩ :: path) (some below) := by
    rintro ⟨-, e, same, -, is_expr⟩
    obtain rfl : below = e := by simpa using same
    rw [named narrow] at is_expr
    exact absurd is_expr (by decide)
  have shown := inner.alone denotes reached apart
  rw [← printed steps] at shown
  refine Printer.arrayIndex_displays (p := m.printerAt steps path id edge) grouped ?_ shown.1
  rw [show (m.printerAt steps path id edge).tree = m.tree from rfl, show (m.printerAt steps path id edge).current = id from rfl,
    held]
  exact denotes.isLiteral_eq

end

/-- An operation whose parts are printed: its tier is known, and so is that of every operation around it. -/
theorem operation_at {left right : Expression} {op : String} {l o r : List Leaf} (bare : m.Bare)
    (reaches : m.Reaches (fuel + 1) path id edge) (denotes : m.Denotes id (.operation left op right))
    (at_left : (m.printerAt fuel path id edge).Gives ["left"] l)
    (at_op : (m.printerAt fuel path id edge).Gives ["op"] o)
    (at_right : (m.printerAt fuel path id edge).Gives ["right"] r) :
    m.Displays ((m.printerAt fuel path id edge).operation id) (l ++ [Leaf.text " "] ++ o ++ [Leaf.line] ++ r) := by
  have own := denotes.operator_known (by rw [denotes.isOperation_eq]; rfl)
  obtain ⟨-, -, ⟨first, left_held, left_denotes⟩, second, right_held, right_denotes⟩ := denotes
  refine Printer.operation_displays bare (Printer.hasTier_of_ofExpression own) ?_ ?_ ?_ at_left at_op at_right
  · intro parent above among
    rw [Printer.parent?_of_path rfl] at above
    obtain ⟨frame, head, rfl⟩ := Option.map_eq_some_iff.1 above
    exact Printer.hasTier_of_ofExpression (reaches.known frame head among)
  · intro child held among
    obtain rfl : first = child := Option.some.inj (left_held.symm.trans held)
    exact Printer.hasTier_of_ofExpression (left_denotes.operator_known among)
  · intro child held among
    obtain rfl : second = child := Option.some.inj (right_held.symm.trans held)
    exact Printer.hasTier_of_ofExpression (right_denotes.operator_known among)

theorem displays_alone (bare : m.Bare) (reaches : m.Reaches (fuel + 1) path id edge) {leaves tail : List Leaf}
    (known : m.tree.kind? id = some kind) (pending : tail = [])
    (displays : m.Displays ((m.printerAt fuel path id edge).ofKind id kind) leaves) :
    m.Displays (m.printAt (fuel + 1) path id edge) (leaves ++ tail) := by
  rw [pending, List.append_nil]
  exact displays_printAt bare reaches known displays

mutual
theorem displays_expression (bare : m.Bare) (ascends : m.tree.Ascends) : ∀ e : Expression, m.Shown e
  | .thisObject => .intro fun fuel path id edge tail denotes reaches pending =>
    displays_alone bare reaches denotes pending ⟨.text "this", rfl, rfl, rfl, fun _ => rfl⟩
  | .superObject => .intro fun fuel path id edge tail denotes reaches pending =>
    displays_alone bare reaches denotes pending ⟨.text "super", rfl, rfl, rfl, fun _ => rfl⟩
  | .literal text => by
    rintro fuel path id edge _ ⟨known, literal⟩ reaches rfl
    obtain ⟨less, rfl⟩ := reaches.fuel_pos
    have printed : (m.printerAt less path id edge).literal id = .ok (.text text) :=
      Printer.literal_eq literal fun valued => print_value ascends reaches valued
    rw [List.append_nil]
    refine ⟨renders_printAt bare reaches known ⟨_, printed, rfl, fun _ => rfl⟩, fun written => ?_⟩
    exact displays_printAt bare reaches known ⟨_, printed, written, rfl, fun _ => rfl⟩
  | .variable names => .intro <| by
    rintro fuel path id edge tail ⟨known, named, absent⟩ reaches pending
    have shown := Printer.variableAccess_displays (p := m.printerAt fuel path id edge)
      (print_no_receiver ascends reaches absent) (gives_names bare ascends reaches (not_operation known rfl) named) pending
    exact displays_printAt bare reaches known shown
  | .member receiver safe names => .intro <| by
    rintro fuel path id edge tail ⟨known, named, is_safe, written, inner, held, denotes⟩ reaches pending
    have at_receiver := renders_receiver ascends reaches held written denotes is_safe (displays_expression bare ascends receiver)
    have shown := Printer.variableAccess_displays (p := m.printerAt fuel path id edge) at_receiver
      (gives_names bare ascends reaches (not_operation known rfl) named) pending
    exact displays_printAt bare reaches known shown
  | .call names arguments => .intro <| by
    rintro fuel path id edge tail ⟨known, named, absent, ids, held, denote⟩ reaches pending
    have other := not_operation known rfl
    have each := givesEach_nodes ascends reaches other held
      (arguments_display bare ascends arguments denote (not_isSubject known (by decide)))
    have shown := Printer.methodCall_displays (p := m.printerAt fuel path id edge)
      (print_no_receiver ascends reaches absent) (gives_names bare ascends reaches other named) each pending
    exact displays_printAt bare reaches known shown
  | .memberCall receiver safe names arguments => .intro <| by
    rintro fuel path id edge tail ⟨known, named, is_safe, written, ⟨inner, held, denotes⟩, ids, listed, denote⟩ reaches pending
    have other := not_operation known rfl
    have at_receiver := renders_receiver ascends reaches held written denotes is_safe (displays_expression bare ascends receiver)
    have each := givesEach_nodes ascends reaches other listed
      (arguments_display bare ascends arguments denote (not_isSubject known (by decide)))
    have shown := Printer.methodCall_displays (p := m.printerAt fuel path id edge) at_receiver
      (gives_names bare ascends reaches other named) each pending
    exact displays_printAt bare reaches known shown
  | .element subject index => .intro <| by
    rintro fuel path id edge tail ⟨known, narrow, ⟨inner, held, denotes⟩, place, listed, denoted⟩ reaches pending
    have other := not_operation known rfl
    obtain ⟨below, printed, inside, alone, named⟩ := print_reaches ascends reaches (by simp [other]) held denotes.compact
    obtain ⟨less, rfl⟩ := inside.fuel_pos
    have at_index := index_displays ascends reaches rfl narrow other listed denoted (displays_expression bare ascends index)
    have at_subject := displays_expression bare ascends subject
    refine displays_alone bare reaches known pending ?_
    have chained : ((m.tree.child? id "expr").map (m.tree.isAmong · [.variableExpr, .methodCallExpr])).getD false =
        subject.isChain := by
      rw [held]
      exact denotes.isChain_eq
    cases is_chain : subject.isChain with
    | true =>
      have subject_of : m.IsSubject (⟨id, edge⟩ :: path) (some below) :=
        ⟨⟨⟨id, edge⟩, rfl, known⟩, _, rfl, alone, named narrow⟩
      have owed : m.Pending (less + 1) (⟨id, edge⟩ :: path) inner (some below) subject
          (Expression.indexLeaves index.isLiteral index.leaves) := by
        rw [Pending, if_pos is_chain]
        exact owes_index subject_of fun grouped => (at_index less (.inr rfl) grouped).renders
      have shown := (at_subject _ _ _ _ _ denotes inside owed).2 (Expression.isBlank_of_isChain is_chain)
      rw [← printed (less + 1)] at shown
      exact Printer.arrayAccess_of_chain shown (chained.trans is_chain)
    | false =>
      have nothing : m.Pending (less + 1) (⟨id, edge⟩ :: path) inner (some below) subject [] := by
        rw [Pending, if_neg (by simp [is_chain])]
      have shown := (at_subject _ _ _ _ _ denotes inside nothing).1
      rw [← printed (less + 1), List.append_nil] at shown
      exact Printer.arrayAccess_displays shown (at_index (less + 1) (.inl rfl) true) (chained.trans is_chain)
  | .operation left op right => .intro fun fuel path id edge tail denotes reaches pending => by
    have own := denotes.operator_known
    obtain ⟨kind, member, known⟩ := denotes.kind_mem
    have apart : kind ≠ .arrayExpr := by
      rintro rfl
      simp [Expression.kinds] at member
    have parts := denotes
    obtain ⟨kinds, operator, first, second⟩ := parts
    have at_left := gives_part ascends reaches known apart own first (displays_expression bare ascends left)
    have at_right := gives_part ascends reaches known apart own second (displays_expression bare ascends right)
    have at_op : (m.printerAt fuel path id edge).Gives ["op"] (textLeaf op) := by
      rcases operator with is_binary | is_boolean
      · exact gives_operator bare ascends reaches (by decide) is_binary own
      · exact gives_operator bare ascends reaches (by decide) is_boolean own
    have shown := operation_at bare reaches denotes at_left at_op at_right
    rcases kinds with binary | boolean
    · exact displays_alone bare reaches binary pending shown
    · exact displays_alone bare reaches boolean pending shown
  | .assignment left op right => .intro <| by
    rintro fuel path id edge tail ⟨known, operator, first, second⟩ reaches pending
    have at_left := gives_operand ascends reaches known (by decide) first (displays_expression bare ascends left)
    have at_right := gives_operand ascends reaches known (by decide) second (displays_expression bare ascends right)
    obtain ⟨second, right_held, right_denotes⟩ := second
    have at_op := gives_operator bare ascends reaches (by decide) operator (by simp [not_operation known rfl])
    have shown := Printer.assignment_displays (p := m.printerAt fuel path id edge) bare right_held at_left at_op at_right
    rw [show (m.printerAt fuel path id edge).isOperation second = _ from right_denotes.isOperation_eq] at shown
    exact displays_alone bare reaches known pending shown
  | .nullCoalescing left right => .intro <| by
    rintro fuel path id edge tail ⟨known, first, second⟩ reaches pending
    have at_left := gives_operand ascends reaches known (by decide) first (displays_expression bare ascends left)
    have at_right := gives_operand ascends reaches known (by decide) second (displays_expression bare ascends right)
    exact displays_alone bare reaches known pending (Printer.nullCoalescing_displays at_left at_right)
  | .ternary condition whenTrue whenFalse => .intro <| by
    rintro fuel path id edge tail ⟨known, first, second, third⟩ reaches pending
    have at_condition := gives_operand ascends reaches known (by decide) first (displays_expression bare ascends condition)
    have at_true := gives_operand ascends reaches known (by decide) second (displays_expression bare ascends whenTrue)
    have at_false := gives_operand ascends reaches known (by decide) third (displays_expression bare ascends whenFalse)
    exact displays_alone bare reaches known pending (Printer.ternary_displays at_condition at_true at_false)
  | .cast type operand => .intro <| by
    rintro fuel path id edge tail ⟨known, first, second⟩ reaches pending
    have at_type := gives_type ascends reaches bare (not_operation known rfl) first
    have at_operand := gives_operand ascends reaches known (by decide) second (displays_expression bare ascends operand)
    exact displays_alone bare reaches known pending (Printer.castTo_displays at_type at_operand)
  | .instanceTest operand type => .intro <| by
    rintro fuel path id edge tail ⟨known, first, second⟩ reaches pending
    have at_type := gives_type ascends reaches bare (not_operation known rfl) second
    have at_operand := gives_operand ascends reaches known (by decide) first (displays_expression bare ascends operand)
    exact displays_alone bare reaches known pending (Printer.instanceTest_displays at_operand at_type)
  | .before op operand => .intro <| by
    rintro fuel path id edge tail ⟨known, operator, inner⟩ reaches pending
    have at_op := gives_operator bare ascends reaches (by decide) operator (by simp [not_operation known rfl])
    have at_operand := gives_operand ascends reaches known (by decide) inner (displays_expression bare ascends operand)
    exact displays_alone bare reaches known pending (Printer.beforeOperator_displays at_op at_operand)
  | .behind operand op => .intro <| by
    rintro fuel path id edge tail ⟨known, operator, inner⟩ reaches pending
    have at_op := gives_operator bare ascends reaches (by decide) operator (by simp [not_operation known rfl])
    have at_operand := gives_operand ascends reaches known (by decide) inner (displays_expression bare ascends operand)
    exact displays_alone bare reaches known pending (Printer.behindOperator_displays at_operand at_op)
  | .nested inner => .intro <| by
    rintro fuel path id edge tail ⟨known, holds⟩ reaches pending
    have at_inner := gives_operand ascends reaches known (by decide) holds (displays_expression bare ascends inner)
    exact displays_alone bare reaches known pending (Printer.parenthesized_displays at_inner)
theorem arguments_display (bare : m.Bare) (ascends : m.tree.Ascends) :
    ∀ (es : List Expression) {fuel : Nat} {path : Path} {ids : List NodeId}, m.DenoteAll ids es →
      (∀ edge, ¬ m.IsSubject path edge) → List.Forall₂ (m.ShowsInArray fuel path) ids (Expression.leavesOfAll es)
  | [], _, _, [], _, _ => .nil
  | e :: es, _, _, _ :: _, ⟨first, rest⟩, other =>
    .cons ⟨first.compact, fun edge _ reaches => ((displays_expression bare ascends e).alone first reaches (other edge)).1⟩
      (arguments_display bare ascends es rest other)
end

/-! ### Faithful printing -/

/-- What a place has printed behind the expression there: the index behind a chain of members that is the
    subject of an access, and nothing behind any other. -/
inductive Follows (m : Manuscript) (fuel : Nat) : Path → Option Edge → Expression → List String → Prop
  | nothing {path : Path} {edge : Option Edge} {e : Expression} (other : e.isChain → ¬ m.IsSubject path edge) :
    Follows m fuel path edge e []
  | index {path : Path} {access place : NodeId} {around edge : Option Edge} {e i : Expression} (chain : e.isChain)
      (subject : m.IsSubject (⟨access, around⟩ :: path) edge) (reaches : m.Reaches (fuel + 1) path access around)
      (narrow : (m.tree.node access).IsNarrow)
      (held : m.tree.child? access "index" = some place) (denotes : m.Denotes place i) :
    Follows m fuel (⟨access, around⟩ :: path) edge e ("[" :: (i.unparse ++ ["]"]))

theorem Follows.pending {behind : List String} (follows : m.Follows fuel path edge e behind)
    (bare : m.Bare) (ascends : m.tree.Ascends) (positive : 0 < fuel) (id : NodeId) :
    ∃ tail, m.Pending fuel path id edge e tail ∧ leafInk tail = behind.flatMap Doc.inked := by
  cases follows with
  | nothing other =>
    refine ⟨[], ?_, rfl⟩
    by_cases chain : e.isChain
    · exact pending_nil (other chain)
    · rw [Pending, if_neg chain]
  | @index _ access _ around _ _ i chain subject reaches narrow held denotes =>
    obtain ⟨less, rfl⟩ : ∃ less, fuel = less + 1 := ⟨fuel - 1, by omega⟩
    have known : m.tree.kind? access = some .arrayExpr := by
      obtain ⟨⟨frame, head, is_access⟩, -⟩ := subject
      obtain rfl : ⟨access, around⟩ = frame := by simpa using head
      exact is_access
    refine ⟨Expression.indexLeaves i.isLiteral i.leaves, ?_, ?_⟩
    · rw [Pending, if_pos chain]
      refine owes_index subject fun grouped => ?_
      exact (index_displays ascends reaches rfl narrow (not_operation known rfl) held denotes
        (displays_expression bare ascends i) less (.inr rfl) grouped).renders
    · simp [Expression.leafInk_indexLeaves, Expression.leafInk_leaves]

/-- Expressions are printed faithfully. In a tree without comments and references, an expression is printed
    wherever it stands: its texts are those of its parts in order, but for white space. Behind a chain of
    members that is the subject of an access, and only there, the index follows, which the access itself then
    does not print again. -/
theorem printAt_unparses (bare : m.Bare) (ascends : m.tree.Ascends) {e : Expression} (denotes : m.Denotes id e)
    (reaches : m.Reaches fuel path id edge) {behind : List String} (follows : m.Follows fuel path edge e behind) :
    ∃ doc, m.printAt fuel path id edge = .ok doc ∧
      doc.texts.flatMap Doc.inked = (e.unparse ++ behind).flatMap Doc.inked := by
  obtain ⟨less, fuel_eq⟩ := reaches.fuel_pos
  obtain ⟨tail, pending, ink⟩ := follows.pending bare ascends (by omega) id
  obtain ⟨doc, printed, shows⟩ := (displays_expression bare ascends e _ _ _ _ _ denotes reaches pending).1
  refine ⟨doc, printed, ?_⟩
  calc doc.texts.flatMap Doc.inked
      = leafInk doc.leaves := (Doc.inked_leaves doc).symm
    _ = leafInk e.leaves ++ leafInk tail := by rw [shows.leaves_eq, leafInk_append]
    _ = (e.unparse ++ behind).flatMap Doc.inked := by rw [Expression.leafInk_leaves, ink, List.flatMap_append]

def elementAssignment : Manuscript where
  tree :=
    ⟨#[.of .assignmentExpr [("left", .node 1), ("op", .node 10), ("right", .node 11)],
      .of .arrayExpr [("expr", .node 2), ("index", .node 6)],
      .of .variableExpr [("dottedExpr", .node 3), ("names", .array [.node 4, .node 5])],
      {},
      .of .locationIdentifier [("value", .string "a")],
      .of .locationIdentifier [("value", .string "b")],
      .of .postfixExpr [("expr", .node 7), ("op", .node 9)],
      .of .variableExpr [("names", .array [.node 8])],
      .of .locationIdentifier [("value", .string "i")],
      .of .postfixOp [("$", .string "INC")],
      .of .assignmentOp [("$", .string "EQUALS")],
      .of .nestedExpr [("expr", .node 12)],
      .of .booleanExpr [("left", .node 13), ("op", .node 17), ("right", .node 18)],
      .of .prefixExpr [("expr", .node 14), ("op", .node 16)],
      .of .variableExpr [("names", .array [.node 15])],
      .of .locationIdentifier [("value", .string "x")],
      .of .prefixOp [("$", .string "NEGATIVE")],
      .of .booleanOp [("$", .string "LESS_THAN")],
      .of .variableExpr [("names", .array [.node 19])],
      .of .locationIdentifier [("value", .string "y")]]⟩

theorem NameIs.of_value {name : String} (known : m.tree.kind? id = some .locationIdentifier)
    (value : m.tree.field? id "value" = some (.string name)) (plain : Printer.escapeString name = name) : m.NameIs id name :=
  ⟨.inl known, name, value, plain⟩

theorem denotes_subject : elementAssignment.Denotes 2 (.variable ["a", "b"]) :=
  ⟨rfl, ⟨[4, 5], rfl, .cons (.of_value rfl rfl rfl) (.cons (.of_value rfl rfl rfl) .nil)⟩, rfl⟩

/-- What a node prints is not always that of the node alone: the subject `a.b` of an access has the index behind it. -/
theorem printAt_subject_ne_unparse : elementAssignment.Denotes 2 (.variable ["a", "b"]) ∧
    ∃ doc, elementAssignment.printAt 40 [⟨1, some ⟨0, 0, none⟩⟩, ⟨0, none⟩] 2 (some ⟨1, 0, none⟩) = .ok doc ∧
      doc.texts.flatMap Doc.inked ≠ (Expression.variable ["a", "b"]).unparse.flatMap Doc.inked :=
  ⟨denotes_subject, _, rfl, by decide⟩

theorem printAt_unparses_elementAssignment :
    (∃ doc, elementAssignment.printAt 42 [] 0 none = .ok doc ∧
      doc.texts.flatMap Doc.inked = "a.b[i++]=(-x<y)".toList) ∧
    ∃ doc, elementAssignment.printAt 40 [⟨1, some ⟨0, 0, none⟩⟩, ⟨0, none⟩] 2 (some ⟨1, 0, none⟩) = .ok doc ∧
      doc.texts.flatMap Doc.inked = "a.b[i++]".toList := by
  have bare : elementAssignment.Bare := fun _ => rfl
  have ascends : elementAssignment.tree.Ascends := Tree.ascends_of_all (by decide)
  have variable_is (id inner text) (known : elementAssignment.tree.kind? id = some .variableExpr)
      (names : elementAssignment.tree.items id "names" = [.node inner])
      (free : elementAssignment.tree.optional? id "dottedExpr" = none)
      (named : elementAssignment.NameIs inner text) : elementAssignment.Denotes id (.variable [text]) :=
    ⟨known, ⟨[inner], names, .cons named .nil⟩, free⟩
  have index : elementAssignment.Denotes 6 (.behind (.variable ["i"]) "++") :=
    ⟨rfl, ⟨9, rfl, rfl, rfl⟩, 7, rfl, variable_is 7 8 "i" rfl rfl rfl (.of_value rfl rfl rfl)⟩
  have value : elementAssignment.Denotes 11
      (.nested (.operation (.before "-" (.variable ["x"])) "<" (.variable ["y"]))) :=
    ⟨rfl, 12, rfl, .inr rfl, .inr ⟨17, rfl, rfl, rfl⟩,
      ⟨13, rfl, rfl, ⟨16, rfl, rfl, rfl⟩, 14, rfl, variable_is 14 15 "x" rfl rfl rfl (.of_value rfl rfl rfl)⟩,
      18, rfl, variable_is 18 19 "y" rfl rfl rfl (.of_value rfl rfl rfl)⟩
  have whole : elementAssignment.Denotes 0 (.assignment (.element (.variable ["a", "b"]) (.behind (.variable ["i"]) "++")) "="
      (.nested (.operation (.before "-" (.variable ["x"])) "<" (.variable ["y"])))) :=
    ⟨rfl, ⟨10, rfl, rfl, rfl⟩, ⟨1, rfl, rfl, by decide, ⟨2, rfl, denotes_subject⟩, 6, rfl, index⟩, 11, rfl, value⟩
  refine ⟨?_, ?_⟩
  · exact printAt_unparses bare ascends whole ⟨by simp, by simp, by decide, by simp⟩ (.nothing fun chain => by cases chain)
  · refine printAt_unparses bare ascends denotes_subject ⟨by decide, ?_, by decide, ?_⟩ (.index rfl ?_ ?_ (by decide) rfl index)
    · intro frame head among
      obtain rfl : ⟨1, some ⟨0, 0, none⟩⟩ = frame := by simpa using head
      cases among
    · intro _ e _
      rfl
    · exact ⟨⟨_, rfl, rfl⟩, _, rfl, rfl, rfl⟩
    · refine ⟨by decide, ?_, by decide, ?_⟩
      · intro frame head among
        obtain rfl : ⟨0, none⟩ = frame := by simpa using head
        cases among
      · intro _ e _
        rfl

end Manuscript
end ApexLayout
