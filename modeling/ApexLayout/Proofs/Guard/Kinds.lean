import ApexLayout.Proofs.Guard.Handlers

/-!
Every kind of node keeps the guard, and so does the document of a manuscript: in it nothing but white
space and exposed comments can come behind an inline comment before the line ends (`heeds_doc`).
-/
namespace ApexLayout

open Doc

theorem Yields.text {guard : Guard Comment} (source : Outcome String) : Yields (Tame guard) (Doc.text <$> source) := by
  intro doc ok
  obtain ⟨text, -, rfl⟩ := map_eq_ok.mp ok
  exact tame_text text

namespace Printer

variable {p : Printer} (tames : p.Tames) {id : NodeId}
include tames

theorem ofKind_tame (kind : Kind) (marked : kind = .annotationMark → p.tree.isKind id .annotationMark) :
    Yields (Tame p.guard) (p.ofKind id kind) := by
  cases kind with
  -- Documents of a few fields
  | staticStmntBlockMember | stmntBlockMember | arrayTypeRef | expressionStmnt | throwStmnt | elseBlock | finallyBlock
  | elseWhen | classRefExpr | nestedExpr | newExpr | packageVersionExpr | soqlExpr | soslExpr | triggerVariableExpr
  | havingClause | whereClause | colonExpr | withIdentifier | limitExpr | limitValue | offsetExpr | offsetValue
  | findClause | withDivisionClause | searchUsingClause | returnStmnt => exact tames.one fun _ _ => .pure (by simp [*])
  | propertyGetter | propertySetter | annotationKeyValue | structuredVersion | doLoop | catchBlock | castExpr
  | instanceOf | nullCoalescingExpr | postfixExpr | prefixExpr | mapLiteralKeyValue | selectDistanceExpr
  | geolocationLiteral | withValue | usingWord | usingEquals | bindExpr | searchWithClause | searchWithTargetValue
  | usingType | nameValueParameter | ifBlock | fieldIdentifier | whereUnaryExpr | returningExpr
  | emptyModifierParameterRef => exact tames.one fun _ _ => tames.one fun _ _ => .pure (by simp [*])
  | cStyleForControl | typeWhen | ternaryExpr | whereInnerExpr | distanceFunctionExpr | usingId =>
    exact tames.one fun _ _ => tames.one fun _ _ => tames.one fun _ _ => .pure (by simp [*])
  | field =>
    exact tames.one fun _ _ => tames.one fun _ _ => tames.one fun _ tame => .ite (.pure tame) (.pure (by simp [*]))
  | variableDecl =>
    exact tames.one fun _ _ => tames.one fun _ _ =>
      .ite (.pure (by simp [*])) (.ite (.pure (by simp [*])) (.pure (by simp [*])))
  | orderByDistance | orderByValue => exact orderKey_tame tames _
  | assignmentExpr => exact assignment_tame tames
  | binaryExpr | booleanExpr => exact operation_tame tames
  | literalExpr => exact literal_tame tames
  -- Documents of lists
  | enumCase | selectColumnClause | elseExpr | fromClause | orderByClause | withDataCategories
  | withDataCategoryClause | queryUsingClause | updateStatsClause | bindClause | returningClause =>
    exact tames.each fun _ _ => .pure (by simp [*])
  | anonymousBlockUnit => exact tames.each fun _ tame => .pure (by simp [tameAll_separateMembers tame])
  | searchWithStringValue => exact searchValues_tame tames
  | switchStmnt | valueWhen => exact tames.each fun _ _ => tames.one fun _ _ => .pure (by simp [*])
  | newKeyValue | whenExpr | whereCompoundExpr => exact tames.one fun _ _ => tames.each fun _ _ => .pure (by simp [*])
  | whereOpExprs => exact tames.one fun _ _ => tames.one fun _ _ => tames.each fun _ _ => .pure (by simp [*])
  | dataCategory =>
    exact tames.one fun _ _ => tames.one fun _ _ => tames.each fun _ tame => .pure (by simp [*, tame.filter])
  | caseExpr => exact tames.one fun _ _ => tames.each fun _ _ => tames.one fun _ _ => .pure (by simp [*])
  | classTypeRef => exact tames.each fun _ _ => tames.each fun _ _ => .pure (by simp [*])
  | groupByClause => exact tames.each fun _ _ => tames.one fun _ _ => tames.one fun _ _ => .pure (by simp [*])
  | methodDecl =>
    exact tames.one fun _ _ => tames.each fun _ _ => tames.each fun _ _ => tames.one fun _ _ => tames.one fun _ _ =>
      .pure (by simp [*])
  | propertyDecl =>
    exact tames.each fun _ _ => tames.one fun _ _ => tames.one fun _ _ => tames.one fun _ _ => tames.one fun _ _ =>
      .pure (by simp [*])
  | modifierParameterRef => exact parameter_tame tames true
  | variableDecls => exact variableDeclarations_tame tames
  -- Bodies and annotations
  | triggerDeclUnit => exact triggerUnit_tame tames
  | classDecl => exact typeDeclaration_tame tames _ _ true
  | interfaceDecl => exact typeDeclaration_tame tames _ _ false
  | enumDecl => exact enumDeclaration_tame tames
  | annotationMark => exact annotated_tame tames (marked rfl)
  | blockStmnt => exact block_tame tames
  | ifElseBlock => exact ifElse_tame tames
  | tryCatchFinallyBlock => exact tryStatement_tame tames
  -- Documents of parts
  | dmlDeleteStmnt | dmlInsertStmnt | dmlUndeleteStmnt | dmlUpdateStmnt | dmlUpsertStmnt =>
    exact (accessMode_tame tames).bind fun _ _ => tames.one fun _ _ =>
      .ite (tames.one fun _ _ => .pure (by simp [*])) (.pure (by simp [*]))
  | dmlMergeStmnt =>
    exact (accessMode_tame tames).bind fun _ _ => tames.one fun _ _ => tames.one fun _ _ => .pure (by simp [*])
  | forLoop | whileLoop => exact tames.one fun _ _ => (loopBody_tame tames).bind fun _ _ => .pure (by simp [*])
  | runAsBlock => exact (arguments_tame tames).bind fun _ _ => tames.one fun _ _ => .pure (by simp [*])
  | superMethodCallExpr | thisMethodCallExpr => exact (arguments_tame tames).bind fun _ _ => .pure (by simp [*])
  | newStandard => exact tames.one fun _ _ => (arguments_tame tames).bind fun _ _ => .pure (by simp [*])
  | javaTypeRef | javaVariableExpr => exact (dottedNames_tame tames _).bind fun _ _ => .pure (by simp [*])
  | javaMethodCallExpr =>
    exact (dottedNames_tame tames _).bind fun _ _ => (arguments_tame tames).bind fun _ _ => .pure (by simp [*])
  | selectColumnExpr | selectInnerQuery =>
    exact tames.one fun _ _ => (aliasDocs_tame tames).bind fun _ _ => .pure (by simp [*])
  | fromExpr =>
    exact tames.one fun _ _ => (aliasDocs_tame tames).bind fun _ _ => tames.one fun _ _ => .pure (by simp [*])
  | whereCalcExpr | whereDistanceExpr | whereOpExpr => exact spaced_tame tames _ _
  | query =>
    exact tames.one fun _ _ => tames.one fun _ _ => (clauses_tame tames _).bind fun _ _ => tames.each fun _ _ =>
      (clauses_tame tames _).bind fun _ _ => .pure (by simp [*])
  | search =>
    exact tames.each fun _ _ => tames.one fun _ _ => (clauses_tame tames _).bind fun _ _ => .pure (by simp [*])
  | returningSelectExpr => exact tames.each fun _ _ => (clauses_tame tames _).bind fun _ _ => .pure (by simp [*])
  | newListLiteral | newSetLiteral | newMapLiteral =>
    exact collection_tame tames _ _ (·.collectionValues _) (tames.each fun _ _ => .pure (by simp [*]))
  | newMapInit | newSetInit => exact collection_tame tames _ _ (·.initializer _ _) (initializer_tame tames _ _)
  | newListInit =>
    exact .ite (tames.each fun _ _ => (initializer_tame tames _ _).bind fun _ _ => .pure (by simp [*]))
      (collection_tame tames _ _ (·.initializer _ _) (initializer_tame tames _ _))
  | enhancedForControl => exact enhancedForControl_tame tames
  | forInits => exact forInits_tame tames
  | forInit => exact (forInitParts_tame tames).bind fun _ tame => .pure (by simp [tame.1, tame.2])
  | variableExpr =>
    exact (receiver_tame tames).bind fun _ _ => (dottedNames_tame tames _).bind fun _ _ =>
      (subjectIndex_tame tames _).bind fun _ _ => .pure (by simp [*])
  | methodCallExpr => exact methodCall_tame tames
  | arrayExpr =>
    exact tames.one fun _ tame =>
      .ite (.pure tame) ((arrayIndex_tame tames _).bind fun _ _ => .pure (by simp [*]))
  -- A field in quotes
  | boxedString | annotationString | stringAnnotationValue | findString | divisionLiteral =>
    exact (tames.print _).map fun doc tame => by simp [tame]
  -- What the source or a table gives
  | blockComment | inlineComment => exact .ok tame_empty
  | triggerUsage => exact triggerUsage_tame
  | assignmentOp | binaryOp | booleanOp | postfixOp | prefixOp => exact operator_tame _
  | queryDateTime | queryTime => exact .text _
  | queryString => exact .ok (by simp [queryString])
  | orderAsc | orderDesc | orderNullFirst | orderNullLast => exact .ok (by simp)
  | inClause => exact .ok (tame_concat _ |>.mpr (by simp))
  -- A field as it is, or a word
  | _ => first | exact tames.print _ | exact .ok (by simp)

theorem ofClass_tame {nodeClass : Class} (known : (p.tree.node id).nodeClass = some nodeClass) :
    Yields (Tame p.guard) (p.ofClass id nodeClass) := by
  cases nodeClass with
  | known kind =>
    refine ofKind_tame tames kind ?_
    rintro rfl
    simp [Tree.isKind, Tree.kind?, Node.kind?, known, Class.kind?]
  | other name => exact .ite (.ok (by simp)) .error

omit tames in
theorem withComments_tame {doc : Draft} (tame : Tame p.guard doc) :
    Yields (Tame p.guard) (match p.commentDocs? id with
      | some (leading, trailing) => pure (Doc.parts [leading, [doc], trailing])
      | none => pure doc : Outcome Draft) := by
  split
  · next leading trailing found =>
    obtain ⟨before, behind⟩ := p.tameAll_commentDocs? found
    exact .pure (by simp [before, behind, tame])
  · exact .pure tame

theorem occurrence_tame (edge : Option Edge) : Yields (Tame p.guard) (p.occurrence id edge) := by
  unfold occurrence
  split
  · exact .ok tame_empty
  · next nodeClass known =>
    refine .ite ?_ ?_
    · exact (Yields.text _).bind fun doc tame => withComments_tame tame
    · refine (ofClass_tame tames known).bind fun doc tame => withComments_tame ?_
      simp [tame]

end Printer

namespace Manuscript

variable (m : Manuscript)

theorem tames_printAt (bound : Nat) (path : Path) : Printer.Tames ⟨m, path, m.printAt bound⟩ := by
  induction bound generalizing path with
  | zero => exact fun _ _ _ => .read fun _ => .error
  | succ bound ih => exact fun path id edge => .read fun longer => Printer.occurrence_tame (ih longer) edge

theorem strays_ending :
    Strays m.guard .fresh (Comment.danglingDocs m.source (m.shelf.loose.map (·.toComment)) ++
      if m.settings.finalNewline then [hardLine] else []) := by
  refine (heedsAll_append _ _).mpr ?_
  refine heedsAll_mono (Watch.le_rfl _) id (fun _ _ _ _ => ?_) _ m.strays_loose
  split <;> trivial

theorem heeds_doc : Yields (fun doc => doc.heeds m.guard .flat none .fresh fun _ => True) m.doc := by
  refine ((m.tames_printAt m.depthBound []) m.unitPath m.unit _).bind fun unit tame => .pure ?_
  have ending := m.strays_ending
  simp only [parts, List.flatten_cons, List.flatten_nil, List.append_nil, List.cons_append, List.nil_append]
  generalize Comment.danglingDocs m.source (m.shelf.loose.map (·.toComment)) = loose at ending ⊢
  cases loose with
  | nil =>
    -- Only the last line end may come behind the unit.
    refine heeds_mono (Watch.fresh_le _) id (fun _ _ _ _ => ?_) unit tame
    cases m.settings.finalNewline <;> trivial
  | cons first rest =>
    by_cases blank : unit.isEmpty
    · cases unit with
      | text value =>
        simp only [blank]
        exact ⟨nofun, nofun, ending⟩
      | _ => cases blank
    · refine heeds_mono (Watch.fresh_le _) id (fun _ _ _ _ => ?_) unit tame
      simp only [blank]
      exact ending

end Manuscript
end ApexLayout
