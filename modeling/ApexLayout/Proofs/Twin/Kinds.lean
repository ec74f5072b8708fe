import ApexLayout.Proofs.Twin.Handlers

/-!
Twin printers print every kind of node alike, and comments around a node add no code. So the
documents of twin manuscripts have the same code (`Manuscript.Twin.doc`).
-/
namespace ApexLayout

open Doc

variable {r : NodeId → NodeId → Prop}

namespace Printer

variable {p p' : Printer} {id id' : NodeId}

namespace Twin

theorem ofKind (twin : p.Twin r p') (here : r id id') (at_node : p.current = id) (kind : Kind)
    (known : p.tree.kind? id = some kind) : Agree Alike (p.ofKind id kind) (p'.ofKind id' kind) := by
  cases kind with
  -- Documents of a few fields
  | staticStmntBlockMember | stmntBlockMember | arrayTypeRef | expressionStmnt | throwStmnt | elseBlock | finallyBlock
  | elseWhen | classRefExpr | nestedExpr | newExpr | packageVersionExpr | soqlExpr | soslExpr | triggerVariableExpr
  | havingClause | whereClause | colonExpr | withIdentifier | limitExpr | limitValue | offsetExpr | offsetValue
  | findClause | withDivisionClause | searchUsingClause | returnStmnt =>
    exact twin.one (by simp) fun _ _ _ _ => .pure ⟨by simp [*], by simp [*]⟩
  | propertyGetter | propertySetter | annotationKeyValue | structuredVersion | doLoop | catchBlock | castExpr
  | instanceOf | nullCoalescingExpr | postfixExpr | prefixExpr | mapLiteralKeyValue | selectDistanceExpr
  | geolocationLiteral | withValue | usingWord | usingEquals | bindExpr | searchWithClause | searchWithTargetValue
  | usingType | nameValueParameter | fieldIdentifier | returningExpr | emptyModifierParameterRef =>
    exact twin.one (by simp) fun _ _ _ _ => twin.one (by simp) fun _ _ _ _ => .pure ⟨by simp [*], by simp [*]⟩
  | ifBlock =>
    exact twin.one (by simp) fun _ _ _ _ => twin.one (by simp) fun _ _ _ _ => .pure ⟨by simp [*, twin.branch], by simp⟩
  | whereUnaryExpr =>
    exact twin.one (by simp) fun _ _ _ _ => twin.one (by simp) fun _ _ _ _ => .pure ⟨by simp [*, twin.isInCondition], by simp⟩
  | variableDecl => exact twin.variableDeclaration
  | cStyleForControl | typeWhen | ternaryExpr | whereInnerExpr | distanceFunctionExpr | usingId =>
    exact twin.one (by simp) fun _ _ _ _ => twin.one (by simp) fun _ _ _ _ =>
      twin.one (by simp) fun _ _ _ _ => .pure ⟨by simp [*], by simp [*]⟩
  | field => exact twin.field
  | orderByDistance | orderByValue => exact twin.orderKey _ (by simp)
  | assignmentExpr => exact twin.assignment
  | binaryExpr | booleanExpr => exact twin.operation
  | literalExpr => exact twin.literal here
  -- Documents of lists
  | anonymousBlockUnit | enumCase | selectColumnClause | elseExpr | fromClause | orderByClause | withDataCategories
  | withDataCategoryClause | queryUsingClause | updateStatsClause | bindClause | returningClause =>
    exact twin.each (by simp) fun _ _ _ _ => .pure ⟨by simp [*], by simp [*]⟩
  | searchWithStringValue => exact twin.searchValues
  | switchStmnt | valueWhen =>
    exact twin.each (by simp) fun _ _ _ _ => twin.one (by simp) fun _ _ _ _ => .pure ⟨by simp [*], by simp [*]⟩
  | newKeyValue | whenExpr =>
    exact twin.one (by simp) fun _ _ _ _ => twin.each (by simp) fun _ _ _ _ => .pure ⟨by simp [*], by simp [*]⟩
  | whereOpExprs =>
    exact twin.one (by simp) fun _ _ _ _ => twin.one (by simp) fun _ _ _ _ =>
      twin.each (by simp) fun _ _ _ _ => .pure ⟨by simp [*], by simp [*]⟩
  | whereCompoundExpr => exact twin.compoundCondition here
  | dataCategory => exact twin.dataCategory
  | caseExpr =>
    exact twin.one (by simp) fun _ _ _ _ => twin.each (by simp) fun _ _ _ _ =>
      twin.one (by simp) fun _ _ _ _ => .pure ⟨by simp [*], by simp [*]⟩
  | classTypeRef =>
    exact twin.each (by simp) fun _ _ _ _ => twin.each (by simp) fun _ _ _ _ => .pure ⟨by simp [*], by simp [*]⟩
  | groupByClause =>
    exact twin.each (by simp) fun _ _ _ _ => twin.one (by simp) fun _ _ _ _ =>
      twin.one (by simp) fun _ _ _ _ => .pure ⟨by simp [*], by simp [*]⟩
  | methodDecl =>
    exact twin.one (by simp) fun _ _ _ _ => twin.each (by simp) fun _ _ _ _ =>
      twin.each (by simp) fun _ _ _ _ => twin.one (by simp) fun _ _ _ _ =>
      twin.one (by simp) fun _ _ _ _ => .pure ⟨by simp [*], by simp [*]⟩
  | propertyDecl =>
    exact twin.each (by simp) fun _ _ _ _ => twin.one (by simp) fun _ _ _ _ =>
      twin.one (by simp) fun _ _ _ _ => twin.one (by simp) fun _ _ _ _ =>
      twin.one (by simp) fun _ _ _ _ => .pure ⟨by simp [*], by simp [*]⟩
  | modifierParameterRef => exact twin.parameter
  | variableDecls => exact twin.variableDeclarations
  -- Bodies and annotations
  | triggerDeclUnit => exact twin.triggerUnit at_node known
  | classDecl => exact twin.typeDeclaration here at_node known (by decide) _ _ true (by decide)
  | interfaceDecl => exact twin.typeDeclaration here at_node known (by decide) _ _ false (by decide)
  | enumDecl => exact twin.enumDeclaration at_node known
  | annotationMark => exact twin.annotated
  | blockStmnt => exact twin.block at_node known
  | ifElseBlock => exact twin.ifElse
  | tryCatchFinallyBlock => exact twin.tryStatement
  -- Documents of parts
  | dmlDeleteStmnt | dmlInsertStmnt | dmlUndeleteStmnt | dmlUpdateStmnt | dmlUpsertStmnt => exact twin.dataChange _
  | dmlMergeStmnt =>
    exact twin.accessMode.docs fun _ _ _ _ => twin.one (by simp) fun _ _ _ _ =>
      twin.one (by simp) fun _ _ _ _ => .pure ⟨by simp [*], by simp [*]⟩
  | forLoop | whileLoop =>
    exact twin.one (by simp) fun _ _ _ _ => (twin.loopBody here).doc fun _ _ _ _ => .pure ⟨by simp [*], by simp [*]⟩
  | runAsBlock =>
    exact twin.arguments.docs fun _ _ _ _ => twin.one (by simp) fun _ _ _ _ => .pure ⟨by simp [*], by simp [*]⟩
  | superMethodCallExpr | thisMethodCallExpr => exact twin.arguments.docs fun _ _ _ _ => .pure ⟨by simp [*], by simp [*]⟩
  | newStandard => exact twin.one (by simp) fun _ _ _ _ => twin.arguments.docs fun _ _ _ _ => .pure ⟨by simp [*], by simp [*]⟩
  | javaTypeRef | javaVariableExpr =>
    exact (twin.dottedNames _ (by simp)).doc fun _ _ _ _ => .pure ⟨by simp [*], by simp [*]⟩
  | javaMethodCallExpr =>
    exact (twin.dottedNames _ (by simp)).doc fun _ _ _ _ => twin.arguments.docs fun _ _ _ _ => .pure ⟨by simp [*], by simp [*]⟩
  | selectColumnExpr | selectInnerQuery =>
    exact twin.one (by simp) fun _ _ _ _ => twin.aliasDocs.docs fun _ _ _ _ => .pure ⟨by simp [*], by simp [*]⟩
  | fromExpr =>
    exact twin.one (by simp) fun _ _ _ _ => twin.aliasDocs.docs fun _ _ _ _ => twin.one (by simp) fun _ _ _ _ =>
      .pure ⟨by simp [*], by simp [*]⟩
  | whereCalcExpr => exact twin.spaced ["field1", "calc", "field2", "op", "expr"] (by simp)
  | whereDistanceExpr => exact twin.spaced ["distance", "op", "expr"] (by simp)
  | whereOpExpr => exact twin.spaced ["field", "op", "expr"] (by simp)
  | query =>
    exact twin.one (by simp) fun _ _ _ _ => twin.one (by simp) fun _ _ _ _ =>
      (twin.clauses _ (by simp)).docs fun _ _ _ _ => twin.each (by simp) fun _ _ _ _ =>
      (twin.clauses _ (by simp)).docs fun _ _ _ _ => .pure ⟨by simp [*], by simp [*]⟩
  | search =>
    exact twin.each (by simp) fun _ _ _ _ => twin.one (by simp) fun _ _ _ _ =>
      (twin.clauses _ (by simp)).docs fun _ _ _ _ => .pure ⟨by simp [*], by simp [*]⟩
  | returningSelectExpr =>
    exact twin.each (by simp) fun _ _ _ _ => (twin.clauses _ (by simp)).docs fun _ _ _ _ => .pure ⟨by simp [*], by simp [*]⟩
  | newListLiteral | newSetLiteral | newMapLiteral =>
    exact twin.collection _ _ (·.collectionValues _) (twin.collectionValues _ (by simp))
  | newMapInit | newSetInit => exact twin.collection _ _ (·.initializer _ _) (twin.initializer _ _)
  | newListInit => exact twin.newList here
  | enhancedForControl => exact twin.enhancedForControl
  | forInits => exact twin.forInits
  | forInit =>
    refine twin.forInitParts.bind fun ⟨names, value⟩ ⟨names', value'⟩ ⟨same, alike⟩ => ?_
    exact .pure ⟨by simp [same.code, alike.code, alike.isEmpty], by simp [same.isEmpty, alike.isEmpty]⟩
  | variableExpr =>
    exact (twin.receiver here).doc fun _ _ _ _ => (twin.dottedNames _ (by simp)).doc fun _ _ _ _ =>
      (twin.subjectIndex _ _).doc fun _ _ _ _ => .pure ⟨by simp [*], by simp [*]⟩
  | methodCallExpr => exact twin.methodCall here
  | arrayExpr => exact twin.arrayAccess here
  -- A field in quotes
  | boxedString | annotationString | stringAnnotationValue | findString | divisionLiteral =>
    exact (twin.print _ (by simp)).map fun _ _ doc => ⟨by simp [doc.code], rfl⟩
  -- What the source or a table gives
  | triggerUsage => exact twin.triggerUsage here
  | assignmentOp | binaryOp | booleanOp | postfixOp | prefixOp => exact twin.operator here _
  | queryDateTime | queryTime =>
    have source : Agree (· = ·) (p.manuscript.reportedSourceOf id) (p'.manuscript.reportedSourceOf id') :=
      twin.reportedSourceOf here ▸ .refl _
    exact source.map fun _ _ same => same ▸ .refl _
  | queryString => exact .ok (twin.queryString here ▸ .refl _)
  | inClause => exact .ok (twin.inClause here)
  | orderAsc | orderDesc | orderNullFirst | orderNullLast =>
    have order : p.tree.isAmong id orderKinds = true := by
      rw [Tree.isAmong, known]
      decide
    exact .ok (twin.orderWord here order _ ▸ .refl _)
  -- A field as it is, or a word
  | _ => first | exact twin.print _ (by simp) | exact .ok (.refl _)

theorem ofClass (twin : p.Twin r p') (here : r id id') (at_node : p.current = id) {nodeClass : Class}
    (known : (p.tree.node id).nodeClass = some nodeClass) :
    Agree Alike (p.ofClass id nodeClass) (p'.ofClass id' nodeClass) := by
  cases nodeClass with
  | known kind => exact twin.ofKind here at_node kind (by simp [Tree.kind?, Node.kind?, known, Class.kind?])
  | other name =>
    simp only [Printer.ofClass]
    split
    · exact .ok (.refl _)
    · exact .error

end Twin

/-- What is printed for an occurrence has the code of its class. It is that document itself where neither
    comments nor a blank line are put around it, and otherwise no less is printed. -/
theorem occurrence_code {edge : Option Edge} {nodeClass : Class} {doc : Draft}
    (ok : p.occurrence id edge = .ok doc) (known : (p.tree.node id).nodeClass = some nodeClass)
    (unignored : p.manuscript.shelf.isIgnored id = false) :
    ∃ base, p.ofClass id nodeClass = .ok base ∧ doc.code = base.code ∧ (base.isEmpty = false → doc.isEmpty = false) ∧
      (p.commentDocs? id = none → p.flags.blankAfter = false → doc = base) := by
  rw [occurrence_eq known (by simp [unignored])] at ok
  obtain ⟨base, printed, rfl⟩ := map_eq_ok.mp ok
  refine ⟨base, printed, ?_⟩
  unfold dressed
  cases beside : p.commentDocs? id with
  | none => exact ⟨by simp [withBlank], fun shown => by simp [withBlank, shown], fun _ no_blank => by simp [withBlank, no_blank]⟩
  | some docs =>
    obtain ⟨before, behind⟩ := code_commentDocs? beside
    exact ⟨by simp [withBlank, before, behind], fun _ => rfl, by rintro ⟨⟩⟩

end Printer

namespace Manuscript.Twin

variable {m m' : Manuscript} {path path' : Path} {id id' : NodeId} {edge edge' : Option Edge}

theorem occurrence (twin : m.Twin r m') {bound bound' : Nat} (here : r id id') (edges : Option.Rel (Edge.Twin r) edge edge')
    (printers : Printer.Twin r ⟨m, ⟨id, edge⟩ :: path, m.printAt bound⟩ ⟨m', ⟨id', edge'⟩ :: path', m'.printAt bound'⟩) :
    Agree (Printer.Same m.tree edge) (Printer.occurrence ⟨m, ⟨id, edge⟩ :: path, m.printAt bound⟩ id edge)
      (Printer.occurrence ⟨m', ⟨id', edge'⟩ :: path', m'.printAt bound'⟩ id' edge') := by
  have same_class := twin.tree.nodeClass here
  intro doc doc' ok ok'
  cases known : (m.tree.node id).nodeClass with
  | none =>
    have known' : (m'.tree.node id').nodeClass = none := by rw [← same_class, known]
    obtain rfl : Doc.empty = doc := by simpa [Printer.occurrence, Printer.tree, known] using ok
    obtain rfl : Doc.empty = doc' := by simpa [Printer.occurrence, Printer.tree, known'] using ok'
    exact ⟨rfl, fun _ => rfl⟩
  | some nodeClass =>
    have known' : (m'.tree.node id').nodeClass = some nodeClass := by rw [← same_class, known]
    have unignored' : m'.shelf.isIgnored id' = false := by simp [Shelf.isIgnored, Shelf.leading, twin.bare id']
    obtain ⟨base, printed, code, shown, alone⟩ := Printer.occurrence_code ok known (twin.unignored id)
    obtain ⟨base', printed', code', shown', alone'⟩ := Printer.occurrence_code ok' known' unignored'
    have alike := printers.ofClass here rfl known base base' printed printed'
    refine ⟨by rw [code, code', alike.code], fun open_place => ?_⟩
    have open_place' : m'.tree.isOrderPlace edge' = false := by
      rw [← open_place]
      cases edges with
      | none => rfl
      | some same => simp only [Tree.isOrderPlace, map_name_eq (twin.tree same.parent).fields, same.slot, Option.map_some]
    cases nothing : base.isEmpty with
    | false => rw [shown nothing, shown' (by rw [← alike.isEmpty, nothing])]
    | true =>
      obtain ⟨no_comments, no_blank⟩ := twin.heard _ _ _ _ _ _ known printed nothing open_place
      have nothing' : base'.isEmpty = true := by rw [← alike.isEmpty, nothing]
      obtain ⟨no_comments', no_blank'⟩ := twin.heard' _ _ _ _ _ _ known' printed' nothing' open_place'
      rw [alone no_comments no_blank, alone' no_comments' no_blank', alike.isEmpty]

theorem printers (twin : m.Twin r m') (bound bound' : Nat) (paths : Path.Twin r path path') :
    Printer.Twin r ⟨m, path, m.printAt bound⟩ ⟨m', path', m'.printAt bound'⟩ := by
  induction bound generalizing bound' path path' with
  | zero => exact ⟨twin, paths, fun _ _ _ _ _ ok => absurd ok Manuscript.printAt_zero_ne⟩
  | succ bound ih =>
    refine ⟨twin, paths, fun {path path' id id' edge edge'} paths here edges doc doc' ok ok' => ?_⟩
    obtain ⟨fuel, same, printed⟩ := Manuscript.printAt_eq_ok ok
    obtain ⟨fuel', rfl, printed'⟩ := Manuscript.printAt_eq_ok ok'
    obtain rfl := Nat.succ.inj same
    exact twin.occurrence here edges (ih fuel' (.cons ⟨here, edges⟩ paths)) doc doc' printed printed'

theorem unitPath (twin : m.Twin r m') (units : r m.unit m'.unit) : Path.Twin r m.unitPath m'.unitPath := by
  have origins := (twin.tree units).origin
  simp only [Manuscript.unitPath, Tree.origin] at origins ⊢
  generalize (m.tree.node m.unit).origin = origin, (m'.tree.node m'.unit).origin = origin' at origins
  cases origins with
  | none => exact .nil
  | some edges => exact .cons ⟨edges.parent, (twin.tree edges.parent).origin⟩ .nil

theorem doc (twin : m.Twin r m') (units : r m.unit m'.unit) :
    Agree (fun doc doc' => doc.code = doc'.code) m.doc m'.doc := by
  have printed := (twin.printers m.depthBound m'.depthBound .nil).printAt (twin.unitPath units) units
    (twin.tree units).origin
  refine printed.bind fun unit unit' same => .pure ?_
  simp [same.code]

end Manuscript.Twin
end ApexLayout
