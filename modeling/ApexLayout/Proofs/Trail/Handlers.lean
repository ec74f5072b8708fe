import ApexLayout.Proofs.Trail.Course

/-!
The course of every node. The kinds are grouped by the fields they print, since nothing else of a handler
matters here. Only the index of an array access is printed from the node around.
-/
namespace ApexLayout.Printer.Ready

variable {α : Type} {m : Manuscript} {bound : Nat} {path : Path} {id : NodeId} (ready : Ready m bound path)
include ready

omit ready in
theorem branches_eq (print : PrintsAt) : branches ⟨m, path, print⟩ = branches (idle m path) := by
  funext nodes isBlock trailing index docs
  induction docs generalizing index with
  | nil => cases index <;> rfl
  | cons doc docs ih => cases index <;> simp only [branches, branchBreaks, ih]

omit ready in
theorem handlers_eq (print : PrintsAt) : handlers ⟨m, path, print⟩ = handlers (idle m path) := by
  funext nodes trailing tryTrailing index docs
  induction docs generalizing index with
  | nil => rfl
  | cons doc docs ih => simp only [handlers, handlerBreaks, ih]

theorem one {names : List String} {next : Draft → Printer → Outcome α} (rest : ∀ doc, Charted m bound path (next doc)) :
    Charted m bound path fun p => p.print names >>= fun doc => next doc p := (ready.print names).bind rest

theorem each {names : List String} {next : List Draft → Printer → Outcome α}
    (rest : ∀ docs, Charted m bound path (next docs)) :
    Charted m bound path fun p => p.printEach names >>= fun docs => next docs p := (ready.printEach names).bind rest

/-! ### Parts of documents -/

theorem arguments : Charted m bound path (·.arguments) := ready.each fun _ => .still fun _ => rfl

theorem dottedNames (field : String) : Charted m bound path (·.dottedNames field) := ready.each fun _ => .still fun _ => rfl

theorem accessMode : Charted m bound path (·.accessMode) := ready.one fun _ => .still fun _ => rfl

theorem aliasDocs : Charted m bound path (·.aliasDocs) := ready.one fun _ => .still fun _ => rfl

theorem receiver : Charted m bound path (·.receiver id) := ready.one fun _ => .still fun _ => rfl

theorem loopBody : Charted m bound path (·.loopBody id) :=
  .ite (fun _ => rfl) (.still fun _ => rfl) (ready.one fun _ => .still fun _ => rfl)

theorem initializer (opening closing : String) : Charted m bound path (·.initializer opening closing) :=
  ready.one fun _ => .still fun _ => rfl

theorem collection (name separator : String) {contents : Printer → Outcome (List Draft)}
    (inner : Charted m bound path contents) : Charted m bound path (·.collection name separator contents) :=
  ready.each fun _ => inner.bind fun _ => .still fun _ => rfl

theorem clauses (fields : List String) : Charted m bound path (·.clauses fields) := by
  induction fields with
  | nil => exact .still fun _ => rfl
  | cons field fields ih =>
    have first : Charted m bound path (·.clause field) := ready.one fun _ => .still fun _ => rfl
    exact first.bind fun _ => ih.bind fun _ => .still fun _ => rfl

theorem spaced (fields : List String) : Charted m bound path (·.spaced fields) := by
  have all (rest : List String) : Charted m bound path fun p => rest.mapM fun field => p.print [field] := by
    induction rest with
    | nil => exact .still fun _ => rfl
    | cons field rest ih =>
      have both : Charted m bound path fun p => p.print [field] >>= fun doc =>
          (rest.mapM fun field => p.print [field]) >>= fun docs => pure (doc :: docs) :=
        ready.one fun _ => ih.bind fun _ => .still fun _ => rfl
      exact both.congr fun print => List.mapM_cons
  cases fields with
  | nil => exact .still fun _ => rfl
  | cons field rest => exact ready.one fun _ => (all rest).bind fun _ => .still fun _ => rfl

theorem forInitParts : Charted m bound path (·.forInitParts) :=
  (ready.dottedNames _).bind fun _ => ready.one fun _ => .still fun _ => rfl

theorem forInitWithComments : Charted m bound path forInitWithComments :=
  ready.forInitParts.bind fun _ => .still fun _ => rfl

/-- The value of a literal is printed if no text is taken from the source for it. -/
theorem literal : Charted m bound path (·.literal id) := by
  have written (f : String → Option String) : Charted m bound path fun p => p.manuscript.reportedSourceOf id >>= fun raw =>
      (f raw).elim (p.print ["literal", "$"]) fun text => pure (.text text) := by
    refine (Charted.still fun _ => rfl).bind fun raw => ?_
    cases f raw with
    | none => exact ready.print _
    | some text => exact .still fun _ => rfl
  by_cases isNull : (m.tree.constant? id "type").getD "" = "NULL"
  · exact .still fun print => by simp only [Printer.literal, Printer.tree, isNull]
  by_cases isString : (m.tree.constant? id "type").getD "" = "STRING"
  · refine (written fun raw => if raw.isEmpty then none else some raw).congr fun print => ?_
    simp only [Printer.literal, Printer.tree, isString]
    refine bind_congr fun raw => ?_
    split <;> rfl
  by_cases isNumber : (m.tree.constant? id "type").getD "" ∈ ["LONG", "DECIMAL", "DOUBLE"]
  · refine (written numberText?).congr fun print => ?_
    simp only [List.mem_cons, List.not_mem_nil, or_false] at isNumber
    rcases isNumber with isNumber | isNumber | isNumber
    all_goals
      simp only [Printer.literal, Printer.tree, isNumber]
      refine bind_congr fun raw => ?_
      cases numberText? raw <;> rfl
  · refine (ready.print ["literal", "$"]).congr fun print => ?_
    simp only [List.mem_cons, not_or] at isNumber
    unfold Printer.literal
    split
    · next same => exact absurd same isNull
    · next same => exact absurd same isString
    · next same => exact absurd same isNumber.1
    · next same => exact absurd same isNumber.2.1
    · next same => exact absurd same isNumber.2.2.1
    · rfl

theorem typeDeclaration (word superField : String) (implements : Bool) :
    Charted m bound path (·.typeDeclaration id word superField implements) := by
  have types : Charted m bound path (·.typeArguments id) :=
    .ite (fun _ => rfl) (.still fun _ => rfl) (ready.each fun _ => .still fun _ => rfl)
  refine ready.one fun _ => ready.each fun _ => ready.each fun _ => ready.one fun _ => types.bind fun _ => ?_
  exact .ite (fun _ => rfl) (ready.each fun _ => .still fun _ => rfl) (.still fun _ => rfl)

omit ready in
theorem arrayIndex (printed : Charted m bound path (·.print ["index"])) (grouped : Bool) :
    Charted m bound path (·.arrayIndex grouped) := printed.bind fun _ => .still fun _ => rfl

/-- An index is printed from the node around, where it ranks below the subject. -/
theorem subjectIndex {grouped : Printer → Bool} (same : ∀ print, grouped ⟨m, path, print⟩ = grouped (idle m path)) :
    Charted m bound path fun p => p.subjectIndex (grouped p) := by
  by_cases subject : ((idle m path).parent?.map ((idle m path).tree.isKind · .arrayExpr)).getD false &&
      (idle m path).nameAt 0 == "expr"
  · obtain ⟨frame, rest, rfl⟩ := List.exists_cons_of_ne_nil ready.standing.nonempty
    have access : m.tree.isKind (current (idle m rest)) .arrayExpr := by
      have around := (Bool.and_eq_true_iff.mp subject).1
      cases rest with
      | nil => simp [parent?] at around
      | cons above rest => simpa [parent?, current, Printer.tree, idle] using around
    have high : 2 * Path.free m.tree rest + 1 ≤ bound := by
      have named : Path.endsInSubject m.tree (frame :: rest) = true := by
        have expr : (nameAt (idle m (frame :: rest)) 0 == "expr") = true := (Bool.and_eq_true_iff.mp subject).2
        unfold Path.endsInSubject
        cases edge : frame.edge with
        | none => simp [nameAt, edge] at expr
        | some e =>
          cases place : e.index with
          | none => simpa [nameAt, Printer.tree, edge, place] using expr
          | some index => simp [nameAt, edge, place] at expr
      simpa [Path.rank, named] using ready.enough
    have printed : Charted m bound rest (·.print ["index"]) := by
      refine .print_of_rank fun told d longer child leads entered => ?_
      obtain ⟨slot, found, _, -, same⟩ : ∃ slot, (m.tree.node (current (idle m rest))).slot? "index" = some slot ∧
          ∃ field, (m.tree.node (current (idle m rest))).fields[slot]? = some field ∧
            ⟨[], current (idle m rest), slot.toUInt16, field.2⟩ = d := by
        simpa [destination?, follow?, Option.bind_eq_some_iff, Printer.tree, idle] using leads
      have named : Path.endsInSubject m.tree (⟨child, some ⟨d.owner, d.slot, none⟩⟩ :: longer) = false := by
        have other := told _ slot access found
        simpa [Path.endsInSubject, ← same] using other
      have fewer : Path.free m.tree longer ≤ Path.free m.tree rest := by
        rw [extend_eq entered]
        exact Path.free_append_le ..
      rw [Path.rank, named, List.tail_cons]
      exact Nat.lt_of_le_of_lt (Nat.mul_le_mul_left 2 fewer) high
    refine (Charted.outward (List.cons_ne_nil _ _) (arrayIndex printed (grouped (idle m (frame :: rest))))).congr fun print => ?_
    rw [Printer.subjectIndex, same, if_pos]
    exact subject
  · refine .still fun print => ?_
    rw [Printer.subjectIndex, Printer.subjectIndex, if_neg, if_neg]
    · exact subject
    · exact subject

set_option maxRecDepth 4000 in
theorem ofKind (kind : Kind) : Charted m bound path (·.ofKind id kind) := by
  delta Printer.ofKind
  cases kind
  case boxedString | annotationString | stringAnnotationValue | findString | divisionLiteral => exact (ready.print _).map _
  -- Documents of a few fields
  case staticStmntBlockMember | stmntBlockMember | arrayTypeRef | expressionStmnt | throwStmnt | elseBlock | finallyBlock
      | elseWhen | classRefExpr | nestedExpr | newExpr | packageVersionExpr | soqlExpr | soslExpr | triggerVariableExpr
      | havingClause | whereClause | colonExpr | withIdentifier | limitExpr | limitValue | offsetExpr | offsetValue | findClause
      | withDivisionClause | searchUsingClause | returnStmnt => exact ready.one fun _ => .still fun _ => rfl
  case propertyGetter | propertySetter | annotationKeyValue | structuredVersion | doLoop | catchBlock | castExpr | instanceOf
      | nullCoalescingExpr | postfixExpr | prefixExpr | mapLiteralKeyValue | selectDistanceExpr | geolocationLiteral | withValue
      | usingWord | usingEquals | bindExpr | searchWithClause | searchWithTargetValue | usingType | variableDecl
      | nameValueParameter | ifBlock | fieldIdentifier | whereUnaryExpr | returningExpr | emptyModifierParameterRef =>
    exact ready.one fun _ => ready.one fun _ => .still fun _ => rfl
  case cStyleForControl | typeWhen | ternaryExpr | whereInnerExpr | distanceFunctionExpr | orderByDistance | orderByValue
      | usingId | assignmentExpr | field => exact ready.one fun _ => ready.one fun _ => ready.one fun _ => .still fun _ => rfl
  -- Documents of lists
  case anonymousBlockUnit | enumCase | selectColumnClause | elseExpr | fromClause | orderByClause | withDataCategories
      | withDataCategoryClause | queryUsingClause | updateStatsClause | bindClause | searchWithStringValue | returningClause
      | blockStmnt => exact ready.each fun _ => .still fun _ => rfl
  case annotationMark | switchStmnt | valueWhen => exact ready.each fun _ => ready.one fun _ => .still fun _ => rfl
  case newKeyValue | whenExpr | whereCompoundExpr => exact ready.one fun _ => ready.each fun _ => .still fun _ => rfl
  case whereOpExprs | dataCategory => exact ready.one fun _ => ready.one fun _ => ready.each fun _ => .still fun _ => rfl
  case caseExpr => exact ready.one fun _ => ready.each fun _ => ready.one fun _ => .still fun _ => rfl
  case classTypeRef => exact ready.each fun _ => ready.each fun _ => .still fun _ => rfl
  case enumDecl => exact ready.each fun _ => ready.each fun _ => ready.one fun _ => .still fun _ => rfl
  case variableDecls => exact ready.each fun _ => ready.one fun _ => ready.each fun _ => .still fun _ => rfl
  case groupByClause => exact ready.each fun _ => ready.one fun _ => ready.one fun _ => .still fun _ => rfl
  case triggerDeclUnit =>
    exact ready.each fun _ => ready.each fun _ => ready.one fun _ => ready.each fun _ => .still fun _ => rfl
  case methodDecl =>
    exact ready.one fun _ => ready.each fun _ => ready.each fun _ => ready.one fun _ => ready.one fun _ => .still fun _ => rfl
  case propertyDecl =>
    exact ready.each fun _ => ready.one fun _ => ready.one fun _ => ready.one fun _ => ready.one fun _ => .still fun _ => rfl
  case modifierParameterRef =>
    exact ((ready.printEach _).map _).bind fun _ => ready.one fun _ => ready.one fun _ => .still fun _ => rfl
  -- Documents of parts
  case ifElseBlock =>
    exact ready.each fun _ => ready.one fun _ => .still fun print => by rw [branches_eq print]; rfl
  case tryCatchFinallyBlock =>
    exact ready.one fun _ => ready.each fun _ => ready.one fun _ => .still fun print => by rw [handlers_eq print]; rfl
  case classDecl | interfaceDecl => exact ready.typeDeclaration ..
  case dmlDeleteStmnt | dmlInsertStmnt | dmlUndeleteStmnt | dmlUpdateStmnt | dmlUpsertStmnt =>
    exact ready.accessMode.bind fun _ => ready.one fun _ =>
      .ite (fun _ => rfl) (ready.one fun _ => .still fun _ => rfl) (.still fun _ => rfl)
  case dmlMergeStmnt => exact ready.accessMode.bind fun _ => ready.one fun _ => ready.one fun _ => .still fun _ => rfl
  case forLoop | whileLoop => exact ready.one fun _ => ready.loopBody.bind fun _ => .still fun _ => rfl
  case runAsBlock => exact ready.arguments.bind fun _ => ready.one fun _ => .still fun _ => rfl
  case superMethodCallExpr | thisMethodCallExpr => exact ready.arguments.bind fun _ => .still fun _ => rfl
  case newStandard => exact ready.one fun _ => ready.arguments.bind fun _ => .still fun _ => rfl
  case javaTypeRef | javaVariableExpr => exact (ready.dottedNames _).bind fun _ => .still fun _ => rfl
  case javaMethodCallExpr =>
    exact (ready.dottedNames _).bind fun _ => ready.arguments.bind fun _ => .still fun _ => rfl
  case selectColumnExpr | selectInnerQuery => exact ready.one fun _ => ready.aliasDocs.bind fun _ => .still fun _ => rfl
  case fromExpr => exact ready.one fun _ => ready.aliasDocs.bind fun _ => ready.one fun _ => .still fun _ => rfl
  case whereCalcExpr | whereDistanceExpr | whereOpExpr => exact ready.spaced _
  case query =>
    exact ready.one fun _ => ready.one fun _ => (ready.clauses _).bind fun _ => ready.each fun _ =>
      (ready.clauses _).bind fun _ => .still fun _ => rfl
  case search => exact ready.each fun _ => ready.one fun _ => (ready.clauses _).bind fun _ => .still fun _ => rfl
  case returningSelectExpr => exact ready.each fun _ => (ready.clauses _).bind fun _ => .still fun _ => rfl
  case newListLiteral | newMapLiteral | newSetLiteral =>
    exact ready.collection _ _ (ready.each fun _ => .still fun _ => rfl)
  case newMapInit | newSetInit => exact ready.collection _ _ (ready.initializer ..)
  case newListInit =>
    exact .ite (fun _ => rfl) (ready.each fun _ => (ready.initializer ..).bind fun _ => .still fun _ => rfl)
      (ready.collection _ _ (ready.initializer ..))
  case enhancedForControl =>
    exact (ready.withNode _ fun _ deeper => deeper.forInitWithComments).bind fun _ => ready.one fun _ => .still fun _ => rfl
  case forInits =>
    exact ready.one fun _ => (ready.withNodes _ fun _ deeper => deeper.forInitWithComments).bind fun _ => .still fun _ => rfl
  case forInit => exact ready.forInitParts.bind fun _ => .still fun _ => rfl
  case literalExpr => exact ready.literal
  case binaryExpr | booleanExpr =>
    exact (Charted.still fun _ => rfl).bind fun _ => (Charted.still fun _ => rfl).bind fun _ =>
      (Charted.still fun _ => rfl).bind fun _ => ready.one fun _ => ready.one fun _ => ready.one fun _ => .still fun _ => rfl
  case variableExpr =>
    exact ready.receiver.bind fun _ => (ready.dottedNames _).bind fun _ =>
      (ready.subjectIndex fun _ => rfl).bind fun _ => .still fun _ => rfl
  case methodCallExpr =>
    exact ready.receiver.bind fun _ => (ready.dottedNames _).bind fun _ => ready.arguments.bind fun _ =>
      (ready.subjectIndex fun _ => rfl).bind fun _ => .still fun _ => rfl
  case arrayExpr =>
    exact ready.one fun _ => .ite (fun _ => rfl) (.still fun _ => rfl)
      ((arrayIndex (ready.print _) _).bind fun _ => .still fun _ => rfl)
  -- A field as it is, or a word
  all_goals first | exact .still fun _ => rfl | exact ready.print _

theorem ofClass (nodeClass : Class) : Charted m bound path (·.ofClass id nodeClass) := by
  cases nodeClass with
  | known kind => exact ready.ofKind kind
  | other name => exact .still fun _ => rfl

theorem occurrence (edge : Option Edge) : Charted m bound path (·.occurrence id edge) := by
  cases known : (m.tree.node id).nodeClass with
  | none => exact .still fun print => by simp only [Printer.occurrence, Printer.tree, known]
  | some nodeClass =>
    cases laid : m.tree.origin id == edge && m.shelf.isIgnored id with
    | true => exact .still fun print => by simp only [Printer.occurrence, Printer.tree, known, laid, if_true]; rfl
    | false =>
      have last (doc : Draft) : Charted m bound path fun p => pure (p.dressed id doc) := .still fun _ => rfl
      have own : Charted m bound path (·.ofClass id nodeClass) := ready.ofClass nodeClass
      refine (own.bind last).congr fun print => ?_
      have printed := @occurrence_eq ⟨m, path, print⟩ id nodeClass known edge laid
      rw [printed]
      cases Printer.ofClass ⟨m, path, print⟩ id nodeClass <;> rfl

end ApexLayout.Printer.Ready
