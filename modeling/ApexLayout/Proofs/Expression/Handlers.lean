import ApexLayout.Proofs.Expression.Basic

/-!
What the printer shows for each form of an expression, given what it shows for the parts. All
layouts of a form have the same leaves.
-/
namespace ApexLayout
open Doc (Leaf textLeaf joinLeaves)

variable {m : Manuscript} {leaves : List Leaf}

/-- Only occurrences of nodes that may keep a blank line do, and edges tell the fields apart. -/
structure Manuscript.Tight (m : Manuscript) : Prop where
  narrow : m.tree.Narrow
  separable (edge : Edge) : (m.occurrences.get edge).blankAfter →
    ∃ id, (edge, id) ∈ m.tree.children edge.parent ∧ m.tree.isAmong id Occurrences.separable

/-- The document has the leaves, and no line end besides unless a blank line is kept out of place. -/
structure Manuscript.Shows (m : Manuscript) (doc : Draft) (leaves : List Leaf) : Prop where
  leaves_eq : doc.leaves = leaves
  level : m.Tight → doc.isLevel

theorem Manuscript.map_leaves_of_shows {docs : List Draft} {leaves : List (List Leaf)}
    (shows : List.Forall₂ m.Shows docs leaves) : docs.map Doc.leaves = leaves := by
  induction shows with
  | nil => rfl
  | cons here _ ih => rw [List.map_cons, here.leaves_eq, ih]

theorem Manuscript.isLevel_of_shows {docs : List Draft} {leaves : List (List Leaf)}
    (shows : List.Forall₂ m.Shows docs leaves) (tight : m.Tight) : ∀ doc ∈ docs, doc.isLevel := by
  induction shows with
  | nil => simp
  | cons here _ ih => simpa using ⟨here.level tight, ih⟩

def Manuscript.Renders (m : Manuscript) (outcome : Outcome Draft) (leaves : List Leaf) : Prop :=
  ∃ doc, outcome = .ok doc ∧ m.Shows doc leaves

/-- The outcome is a document that shows the leaves and does not stand for nothing. -/
def Manuscript.Displays (m : Manuscript) (outcome : Outcome Draft) (leaves : List Leaf) : Prop :=
  ∃ doc, outcome = .ok doc ∧ doc.isEmpty = false ∧ m.Shows doc leaves

theorem Manuscript.Displays.renders {outcome : Outcome Draft}
    (displays : m.Displays outcome leaves) : m.Renders outcome leaves := by
  obtain ⟨doc, ok, -, shows⟩ := displays
  exact ⟨doc, ok, shows⟩

theorem Manuscript.Displays.of_doc {doc : Draft} (filled : doc.isEmpty = false)
    (leaves_eq : doc.leaves = leaves) (level : m.Tight → doc.isLevel) : m.Displays (pure doc) leaves :=
  ⟨doc, rfl, filled, leaves_eq, level⟩

theorem Manuscript.Renders.andThen {outcome : Outcome Draft} {next : Draft → Outcome Draft} {part : List Leaf}
    (renders : m.Renders outcome part)
    (rest : ∀ doc, doc.leaves = part → (m.Tight → doc.isLevel) → m.Displays (next doc) leaves) :
    m.Displays (outcome >>= next) leaves := by
  obtain ⟨doc, rfl, shows⟩ := renders
  exact rest doc shows.leaves_eq shows.level

namespace Printer

variable {names : List String}

/-- The field names lead to something that shows the leaves. -/
def Gives (p : Printer) (names : List String) (leaves : List Leaf) : Prop := p.manuscript.Renders (p.print names) leaves

/-- The elements of an array show the leaves, in order. -/
def GivesEach (p : Printer) (name : String) (leaves : List (List Leaf)) : Prop :=
  ∃ docs, p.printEach [name] = .ok docs ∧ List.Forall₂ p.manuscript.Shows docs leaves

variable {p : Printer} {id : NodeId} {l o r : List Leaf}

/-! ### Names and types -/

theorem dottedNames_shows (at_names : p.GivesEach "names" (names.map textLeaf)) :
    p.manuscript.Renders (p.dottedNames "names") (dottedLeaves names) := by
  obtain ⟨docs, ok, shows⟩ := at_names
  refine ⟨Doc.join "." docs, by simp [dottedNames, ok, bind, Except.bind, pure, Except.pure], ?_, ?_⟩
  · rw [Doc.leaves_join, Manuscript.map_leaves_of_shows shows]
    rfl
  · intro tight
    exact Doc.areLevel_joinParts rfl (Manuscript.isLevel_of_shows shows tight)

theorem classType_displays {types : List (List Leaf)}
    (at_names : p.GivesEach "names" (names.map textLeaf)) (at_types : p.GivesEach "typeArguments" types) :
    p.manuscript.Displays p.classType
      (dottedLeaves names ++
        if types.isEmpty then [] else .text "<" :: (joinLeaves [.text ", "] types ++ [Leaf.text ">"])) := by
  obtain ⟨docs, ok, shows⟩ := at_names
  obtain ⟨typeDocs, types_ok, types_show⟩ := at_types
  refine ⟨_, by simp only [classType, ok, types_ok, bind, Except.bind, pure, Except.pure]; rfl, rfl, ?_, ?_⟩
  · have inner := Manuscript.map_leaves_of_shows types_show
    cases types_show with
    | nil => simp [Manuscript.map_leaves_of_shows shows, dottedLeaves, textLeaf]
    | cons => simp [Manuscript.map_leaves_of_shows shows, dottedLeaves, textLeaf, ← inner]
  · intro tight
    have level : Doc.areLevel (Doc.joinParts "." docs) :=
      Doc.areLevel_joinParts rfl (Manuscript.isLevel_of_shows shows tight)
    have types_level : Doc.areLevel (Doc.joinParts ", " typeDocs) :=
      Doc.areLevel_joinParts rfl (Manuscript.isLevel_of_shows types_show tight)
    cases typeDocs <;> simp_all [Doc.join]

theorem arrayType_displays (at_held : p.Gives ["heldType"] l) : p.manuscript.Displays p.arrayType (l ++ [Leaf.text "[]"]) :=
  at_held.andThen fun _ _ _ => .of_doc rfl (by simp [*, textLeaf]) fun _ => by simp [*]

theorem javaVariable_displays (at_names : p.GivesEach "names" (names.map textLeaf)) :
    p.manuscript.Displays p.javaVariable (.text "java:" :: dottedLeaves names) :=
  (dottedNames_shows at_names).andThen fun _ _ _ => .of_doc rfl (by simp [*, textLeaf]) fun _ => by simp [*]

/-! ### Operators -/

def HasTier (p : Printer) (id : NodeId) : Prop := ∃ tier, p.tierOf id = .ok tier

theorem hasTier_of_ofExpression (known : ∃ operator, Operator.ofExpression p.tree id = .ok operator) : p.HasTier id := by
  obtain ⟨operator, ok⟩ := known
  exact ⟨operator.tier, by rw [tierOf, ok]; rfl⟩

theorem mapM_tierOf {node : Option NodeId} (known : ∀ id ∈ node, p.HasTier id) :
    ∃ tier, node.mapM p.tierOf = .ok tier := by
  cases node with
  | none => exact ⟨none, rfl⟩
  | some id =>
    obtain ⟨tier, ok⟩ := known id rfl
    exact ⟨some tier, by simp [ok]⟩

theorem operation_displays (bare : p.manuscript.Bare) (known : p.HasTier id)
    (above : ∀ parent ∈ p.parent?, p.isOperation parent → p.HasTier parent)
    (left_known : ∀ child ∈ p.tree.child? id "left", p.isOperation child → p.HasTier child)
    (right_known : ∀ child ∈ p.tree.child? id "right", p.isOperation child → p.HasTier child)
    (at_left : p.Gives ["left"] l) (at_op : p.Gives ["op"] o) (at_right : p.Gives ["right"] r) :
    p.manuscript.Displays (p.operation id) (l ++ [Leaf.text " "] ++ o ++ [Leaf.line] ++ r) := by
  obtain ⟨own, own_ok⟩ := known
  have among {node : Option NodeId} (each : ∀ id ∈ node, p.isOperation id → p.HasTier id) :
      ∀ id ∈ node.filter p.isOperation, p.HasTier id := by
    intro id member
    obtain ⟨there, holds⟩ := Option.filter_eq_some_iff.1 member
    exact each id there holds
  obtain ⟨leftTier, left_tier⟩ := mapM_tierOf (among left_known)
  obtain ⟨parentTier, parent_tier⟩ := mapM_tierOf (among above)
  obtain ⟨rightTier, right_tier⟩ := mapM_tierOf (among right_known)
  have unbroken : p.operandLine (p.tree.child? id "left") = .line := by
    unfold operandLine
    cases p.tree.child? id "left" <;>
      simp [Manuscript.hasEndOfLineTrailingComment, Manuscript.trailingComments, bare _]
  delta operation
  simp only [own_ok, left_tier, parent_tier, right_tier, unbroken, ok_bind]
  refine at_left.andThen fun _ _ _ => at_op.andThen fun _ _ _ => at_right.andThen fun _ _ _ => ?_
  simp only [pure_bind]
  split_ifs
  all_goals exact .of_doc rfl (by simp [*, textLeaf]) fun _ => by simp [*]

theorem assignment_displays (bare : p.manuscript.Bare) {right : NodeId} (held : p.tree.child? id "right" = some right)
    (at_left : p.Gives ["left"] l) (at_op : p.Gives ["op"] o) (at_right : p.Gives ["right"] r) :
    p.manuscript.Displays (p.assignment id)
      (l ++ [Leaf.text " "] ++ o ++ [if p.isOperation right then Leaf.line else .text " "] ++ r) := by
  have quiet : p.manuscript.hasLeadingComment right = false := by
    simp [Manuscript.hasLeadingComment, Shelf.leading, bare right]
  refine at_left.andThen fun _ _ _ => at_op.andThen fun _ _ _ => at_right.andThen fun _ _ _ => ?_
  simp only [held, quiet, Bool.or_false]
  split_ifs
  all_goals exact .of_doc rfl (by simp [*, textLeaf]) fun _ => by simp [*]

theorem nullCoalescing_displays (at_left : p.Gives ["left"] l) (at_right : p.Gives ["right"] r) :
    p.manuscript.Displays p.nullCoalescing (l ++ [Leaf.text " ??", .line] ++ r) :=
  at_left.andThen fun _ _ _ => at_right.andThen fun _ _ _ => .of_doc rfl (by simp [*, textLeaf]) fun _ => by simp [*]

theorem ternary_displays (at_condition : p.Gives ["condition"] l) (at_true : p.Gives ["trueExpr"] o)
    (at_false : p.Gives ["falseExpr"] r) :
    p.manuscript.Displays p.ternary (l ++ [Leaf.line, .text "? "] ++ o ++ [Leaf.line, .text ": "] ++ r) :=
  at_condition.andThen fun _ _ _ => at_true.andThen fun _ _ _ => at_false.andThen fun _ _ _ =>
    .of_doc rfl (by simp [*, textLeaf]) fun _ => by simp [*]

theorem behindOperator_displays (at_operand : p.Gives ["expr"] l) (at_op : p.Gives ["op"] o) :
    p.manuscript.Displays p.behindOperator (l ++ o) :=
  at_operand.andThen fun _ _ _ => at_op.andThen fun _ _ _ => .of_doc rfl (by simp [*]) fun _ => by simp [*]

theorem beforeOperator_displays (at_op : p.Gives ["op"] o) (at_operand : p.Gives ["expr"] r) :
    p.manuscript.Displays p.beforeOperator (o ++ r) :=
  at_op.andThen fun _ _ _ => at_operand.andThen fun _ _ _ => .of_doc rfl (by simp [*]) fun _ => by simp [*]

theorem instanceTest_displays (at_operand : p.Gives ["expr"] l) (at_type : p.Gives ["type"] r) :
    p.manuscript.Displays p.instanceTest (l ++ [Leaf.text " instanceof "] ++ r) :=
  at_operand.andThen fun _ _ _ => at_type.andThen fun _ _ _ => .of_doc rfl (by simp [*, textLeaf]) fun _ => by simp [*]

theorem castTo_displays (at_type : p.Gives ["type"] l) (at_operand : p.Gives ["expr"] r) :
    p.manuscript.Displays p.castTo ([Leaf.text "("] ++ l ++ [Leaf.text ") "] ++ r) :=
  at_type.andThen fun _ _ _ => at_operand.andThen fun _ _ _ => .of_doc rfl (by simp [*, textLeaf]) fun _ => by simp [*]

theorem parenthesized_displays (at_inner : p.Gives ["expr"] l) :
    p.manuscript.Displays p.parenthesized ([Leaf.text "("] ++ l ++ [Leaf.text ")"]) :=
  at_inner.andThen fun _ _ _ => .of_doc rfl (by simp [*, textLeaf]) fun _ => by simp [*]

/-! ### Chains of members -/

theorem receiver_free (free : p.print ["dottedExpr", "value"] = .ok Doc.empty) :
    p.manuscript.Renders (p.receiver id) [] := by
  refine ⟨Doc.empty, ?_, rfl, fun _ => rfl⟩
  simp only [receiver, free, bind, Except.bind]
  rfl

theorem receiver_displays {safe self : Bool} (at_receiver : p.manuscript.Displays (p.print ["dottedExpr", "value"]) l)
    (is_safe : p.tree.flag id "isSafeNav" = safe) (is_self : p.hasSelfReceiver id = self)
    (there : (p.tree.optionalChild? id "dottedExpr").isSome) :
    p.manuscript.Displays (p.receiver id)
      (l ++ ((if self then [] else [Leaf.softLine]) ++ (if safe then [Leaf.text "?"] else []) ++ [Leaf.text "."])) := by
  obtain ⟨doc, ok, filled, shows⟩ := at_receiver
  have breaks : p.breaksAtDot id = !self := by cases self <;> simp [breaksAtDot, is_self, there]
  simp only [Manuscript.Displays, receiver, ok, filled, breaks, is_safe, bind, Except.bind, pure, Except.pure, Bool.false_eq_true,
    ↓reduceIte]
  refine ⟨_, rfl, rfl, ?_, ?_⟩
  · cases self <;> cases safe <;> simp [Doc.parts, shows.leaves_eq, textLeaf]
  · intro tight
    cases self <;> cases safe <;> simp [Doc.parts, shows.level tight]

theorem arrayIndex_displays {isLiteral : Bool} (grouped : Bool)
    (is_literal : ((p.tree.child? p.current "index").map (p.tree.isKind · .literalExpr)).getD false = isLiteral)
    (at_index : p.Gives ["index"] l) : p.manuscript.Displays (p.arrayIndex grouped) (Expression.indexLeaves isLiteral l) := by
  refine at_index.andThen fun doc _ _ => ?_
  rw [is_literal]
  cases grouped <;> cases isLiteral
  all_goals exact .of_doc rfl (by simp [*, Expression.indexLeaves, textLeaf]) fun _ => by simp [*]

def Owes (p : Printer) (tail : List Leaf) : Prop := ∀ grouped, p.manuscript.Renders (p.subjectIndex grouped) tail

theorem variableAccess_displays {tail : List Leaf} (at_receiver : p.manuscript.Renders (p.receiver id) l)
    (at_names : p.GivesEach "names" (names.map textLeaf)) (owes : p.Owes tail) :
    p.manuscript.Displays (p.variableAccess id) (l ++ dottedLeaves names ++ tail) :=
  at_receiver.andThen fun receiver _ _ => (dottedNames_shows at_names).andThen fun _ _ _ =>
    (owes (p.isReceiver || !receiver.isEmpty)).andThen fun _ _ _ => by
      split <;> exact .of_doc rfl (by simp [*]) fun _ => by simp [*]

theorem arguments_show {arguments : List (List Leaf)} (at_arguments : p.GivesEach "inputParameters" arguments) :
    ∃ docs, p.arguments = .ok docs ∧
      p.manuscript.Shows (if docs.isEmpty then Doc.empty else .concat [.softLine, commaLines docs, .dedent .softLine])
        (if arguments.isEmpty then [] else .softLine :: (joinLeaves [.text ",", .line] arguments ++ [Leaf.softLine])) := by
  obtain ⟨docs, docs_ok, docs_show⟩ := at_arguments
  have leaves_eq : docs.map (Doc.leaves ∘ Doc.fill) = arguments := Manuscript.map_leaves_of_shows docs_show
  refine ⟨docs.map Doc.fill, by simp [Printer.arguments, docs_ok, bind, Except.bind, pure, Except.pure], ?_, ?_⟩
  · cases docs with
    | nil =>
      subst leaves_eq
      rfl
    | cons doc docs => simp [← leaves_eq, Doc.commaLine, textLeaf]
  · intro tight
    have filled : ∀ doc ∈ docs.map Doc.fill, doc.isLevel := by
      intro doc member
      obtain ⟨inner, there, rfl⟩ := List.mem_map.1 member
      exact Manuscript.isLevel_of_shows docs_show tight inner there
    have level : Doc.areLevel (Doc.joinParts Doc.commaLine (docs.map Doc.fill)) := Doc.areLevel_joinParts rfl filled
    cases docs <;> simp_all [Doc.join, Doc.empty]

theorem methodCall_displays {arguments : List (List Leaf)} {tail : List Leaf}
    (at_receiver : p.manuscript.Renders (p.receiver id) l) (at_names : p.GivesEach "names" (names.map textLeaf))
    (at_arguments : p.GivesEach "inputParameters" arguments) (owes : p.Owes tail) :
    p.manuscript.Displays (p.methodCall id) (l ++ dottedLeaves names ++ Expression.argumentLeaves arguments ++ tail) := by
  obtain ⟨receiver, receiver_ok, receiver_shows⟩ := at_receiver
  obtain ⟨doc, names_ok, names_show⟩ := dottedNames_shows at_names
  obtain ⟨docs, docs_ok, docs_show⟩ := arguments_show at_arguments
  obtain ⟨index, index_ok, index_shows⟩ := owes (p.isReceiver || !receiver.isEmpty)
  simp only [Manuscript.Displays, methodCall, receiver_ok, names_ok, docs_ok, index_ok, bind, Except.bind, pure, Except.pure]
  set list : Draft := if docs.isEmpty then Doc.empty else .concat [.softLine, commaLines docs, .dedent .softLine]
  have leaves_eq := docs_show.leaves_eq
  split_ifs
  all_goals
    refine ⟨_, rfl, rfl, ?_, ?_⟩
    · simp [receiver_shows.leaves_eq, names_show.leaves_eq, index_shows.leaves_eq, leaves_eq, Expression.argumentLeaves,
        textLeaf]
    · intro tight
      simp [receiver_shows.level tight, names_show.level tight, index_shows.level tight, docs_show.level tight]

theorem arrayAccess_of_chain (at_subject : p.manuscript.Displays (p.print ["expr"]) l)
    (chained : ((p.tree.child? id "expr").map (p.tree.isAmong · [.variableExpr, .methodCallExpr])).getD false = true) :
    p.manuscript.Displays (p.arrayAccess id) l := by
  obtain ⟨subject, ok, filled, shows⟩ := at_subject
  refine ⟨subject, ?_, filled, shows⟩
  simp [arrayAccess, ok, chained, bind, Except.bind, pure, Except.pure]

theorem arrayAccess_displays (at_subject : p.Gives ["expr"] l) (at_index : p.manuscript.Displays (p.arrayIndex true) r)
    (chained : ((p.tree.child? id "expr").map (p.tree.isAmong · [.variableExpr, .methodCallExpr])).getD false = false) :
    p.manuscript.Displays (p.arrayAccess id) (l ++ r) :=
  at_subject.andThen fun _ _ _ => by
    rw [chained]
    exact at_index.renders.andThen fun _ _ _ => .of_doc rfl (by simp [*]) fun _ => by simp [*]

theorem literal_eq {text : String} (is_literal : p.manuscript.LiteralIs id text)
    (at_value : p.manuscript.ValueIs id text → p.print ["literal", "$"] = .ok (.text text)) :
    p.literal id = .ok (.text text) := by
  simp only [literal, Manuscript.LiteralIs, tree] at is_literal ⊢
  generalize (p.manuscript.tree.constant? id "type").getD "" = type at is_literal ⊢
  split
  · rw [if_pos rfl] at is_literal
    rw [is_literal]
  · rw [if_neg (by decide), if_pos rfl] at is_literal
    obtain ⟨raw, raw_ok, written⟩ := is_literal
    simp only [raw_ok, bind, Except.bind, pure, Except.pure]
    by_cases none_there : raw.isEmpty
    · rw [if_pos none_there] at written ⊢
      exact at_value written
    · rw [if_neg none_there] at written ⊢
      rw [written]
  -- The three kinds of numbers
  iterate 3
    · rw [if_neg (by decide), if_neg (by decide), if_pos (by simp)] at is_literal
      obtain ⟨raw, raw_ok, number | ⟨none_there, written⟩⟩ := is_literal
      · simp [raw_ok, number, bind, Except.bind, pure, Except.pure]
      · simp [raw_ok, none_there, at_value written, bind, Except.bind]
  · simp_all

end Printer
end ApexLayout
