import ApexLayout.Proofs.Twin.Moves

/-!
Twin printers print nodes alike. How an operation, a call or an access is grouped and indented, where a line ends
between the parts of a statement and whether a condition stands in parentheses depends on comments and on the nodes
around, but what is printed does not. A body has the same members in both unless a comment stands in their place.
-/
namespace ApexLayout.Printer

open Doc

variable {r : NodeId → NodeId → Prop} {p p' : Printer} {id id' : NodeId} {name : String}

theorem Spaced.codes {docs chain : List Draft} (spaced : Spaced docs chain) :
    (chain.map code).flatten = (docs.map code).flatten := by
  induction spaced with
  | nil => rfl
  | next _ ih => simp [ih]
  | apart breaks _ ih => simp [ih]

/-- Documents that are alike have the same code, however they are set apart. -/
theorem agree_spaced {docs docs' : List Draft} (alike : AlikeAll docs docs') {chain chain' : Outcome (List Draft)}
    (spaced : ∀ list, chain = .ok list → Spaced docs list) (spaced' : ∀ list, chain' = .ok list → Spaced docs' list) :
    Agree (fun list list' => (list.map code).flatten = (list'.map code).flatten) chain chain' := by
  intro list list' ok ok'
  rw [(spaced list ok).codes, (spaced' list' ok').codes, alike.codes]

theorem code_commentDocs? {leading trailing : List Draft} (found : p.commentDocs? id = some (leading, trailing)) :
    (leading.map code).flatten = [] ∧ (trailing.map code).flatten = [] := by
  unfold commentDocs? at found
  split at found
  · cases found
  · split at found
    · simp only [Option.some.injEq, Prod.mk.injEq] at found
      obtain ⟨rfl, rfl⟩ := found
      refine ⟨by simp, ?_⟩
      split
      · rfl
      · simp
    · cases found

theorem commentDocs?_of_bare (bare : p.manuscript.Bare) (id : NodeId) : p.commentDocs? id = none := by
  unfold commentDocs?
  split
  · rfl
  · simp [Shelf.hasAny, bare id]

theorem danglingDocs_eq_nil {m : Manuscript} (none_there : m.shelf.dangling id = []) : m.danglingDocs id = [] := by
  simp [Manuscript.danglingDocs, none_there, Comment.danglingDocs]

@[simp] theorem code_separateMembers (members : List Draft) :
    ((separateMembers members).map code).flatten = (members.map code).flatten := by
  have separated : ∀ docs : List Draft, ((separateMembers.go docs).map code).flatten = (docs.map code).flatten := by
    intro docs
    induction docs with
    | nil => rfl
    | cons doc docs ih =>
      cases docs with
      | nil => rfl
      | cons next docs => simp [separateMembers.go, ih]
  rw [separateMembers, separated, flatten_filter_isEmpty]

/-- A body lists its members if no comment stands in their place. -/
theorem code_bodyLines {members : List Draft} (room : p.manuscript.danglingDocs id = [] ∨ (members.map code).flatten = []) :
    ((p.bodyLines id members).map code).flatten = (members.map code).flatten := by
  simp only [bodyLines]
  by_cases none_inside : p.manuscript.danglingDocs id = []
  · simp only [none_inside]
    cases members with
    | nil => rfl
    | cons => simp
  · have empty := room.resolve_left none_inside
    simp [empty, Manuscript.danglingDocs]

theorem code_spread (docs : List Draft) :
    ((docs.flatMap fun doc => [(Doc.text " " : Draft), doc]).map code).flatten = (docs.map code).flatten := by
  induction docs with
  | nil => rfl
  | cons doc docs ih => simpa using ih

namespace Twin

variable (twin : p.Twin r p')
include twin

/-! ### Expressions -/

theorem isParent (kind : Kind) :
    p.parent?.map (p.tree.isKind · kind) = p'.parent?.map (p'.tree.isKind · kind) :=
  map_eq_of_rel twin.parent? fun _ _ around => twin.tree.isKind around kind

theorem child?_isAmong (here : r id id') (kinds : List Kind) (shown : name ≠ hiddenField) :
    (p.tree.child? id name).map (p.tree.isAmong · kinds) = (p'.tree.child? id' name).map (p'.tree.isAmong · kinds) :=
  map_eq_of_rel (twin.tree.child? here shown) fun _ _ below => twin.tree.isAmong below kinds

theorem nameOf (here : r id id') : Operator.nameOf p.tree id = Operator.nameOf p'.tree id' := by
  rw [Operator.nameOf, Operator.nameOf, twin.tree.string? here (by simp [hiddenField])]

theorem operator (here : r id id') (kind : Kind) : Agree Alike (p.operator id kind) (p'.operator id' kind) := by
  simp only [Printer.operator, twin.nameOf here]
  split
  · exact .ok (.refl _)
  · exact .error

theorem arguments : Agree AlikeAll p.arguments p'.arguments :=
  (twin.printEach _ (by simp)).bind fun _ _ docs => .pure docs.map_fill

omit twin in
/-- An operation consists of its operands and the operator, however it is laid out. -/
theorem operation_code {doc : Draft} (ok : p.operation id = .ok doc) :
    ∃ left op right, p.print ["left"] = .ok left ∧ p.print ["op"] = .ok op ∧ p.print ["right"] = .ok right ∧
      doc.code = left.code ++ (op.code ++ right.code) ∧ doc.isEmpty = false := by
  unfold Printer.operation at ok
  simp only [bind_eq_ok] at ok
  obtain ⟨own, -, leftTier, -, parentTier, -, left, at_left, op, at_op, right, at_right, laid_out⟩ := ok
  refine ⟨left, op, right, at_left, at_op, at_right, ?_⟩
  split at laid_out
  all_goals
    obtain ⟨rightTier, -, laid_out⟩ := bind_eq_ok.mp laid_out
    repeat' split at laid_out
    all_goals
      obtain rfl := pure_eq_ok.mp laid_out
      exact ⟨by simp, rfl⟩

theorem operation : Agree Alike (p.operation id) (p'.operation id') := by
  intro doc doc' ok ok'
  obtain ⟨left, op, right, at_left, at_op, at_right, code, shown⟩ := operation_code ok
  obtain ⟨left', op', right', at_left', at_op', at_right', code', shown'⟩ := operation_code ok'
  have lefts := (twin.print _ (by simp)) left left' at_left at_left'
  have ops := (twin.print _ (by simp)) op op' at_op at_op'
  have rights := (twin.print _ (by simp)) right right' at_right at_right'
  exact ⟨by rw [code, code', lefts.code, ops.code, rights.code], by rw [shown, shown']⟩

theorem assignment : Agree Alike (p.assignment id) (p'.assignment id') := by
  refine (twin.print _ (by simp)).bind fun _ _ left => ?_
  refine (twin.print _ (by simp)).bind fun _ _ op => ?_
  refine (twin.print _ (by simp)).bind fun _ _ right => ?_
  repeat' split
  all_goals exact .pure ⟨by simp [left.code, op.code, right.code], by simp⟩

theorem receiver (here : r id id') : Agree Alike (p.receiver id) (p'.receiver id') := by
  refine (twin.print _ (by simp)).bind fun _ _ object => ?_
  rw [object.isEmpty]
  split
  · exact .pure (.refl _)
  · have safe := twin.tree.flag here (by simp [hiddenField] : "isSafeNav" ≠ hiddenField)
    exact .pure ⟨by simp [object.code, safe], by simp⟩

theorem arrayIndex (grouped grouped' : Bool) : Agree Alike (p.arrayIndex grouped) (p'.arrayIndex grouped') := by
  refine (twin.print _ (by simp)).bind fun _ _ index => ?_
  exact .pure ⟨by simp [index.code], by simp⟩

theorem subjectIndex (grouped grouped' : Bool) :
    Agree Alike (p.subjectIndex grouped) (p'.subjectIndex grouped') := by
  simp only [Printer.subjectIndex, twin.isParent, twin.nameAt]
  split
  · exact twin.outward.arrayIndex grouped grouped'
  · exact .ok (.refl _)

/-- The subject of an access prints the index if it is a name or a call. -/
theorem arrayAccess (here : r id id') : Agree Alike (p.arrayAccess id) (p'.arrayAccess id') := by
  refine (twin.print _ (by simp)).bind fun _ _ subject => ?_
  rw [twin.child?_isAmong here _ (by simp [hiddenField])]
  split
  · exact .pure subject
  · exact (twin.arrayIndex _ _).bind fun _ _ index => .pure ⟨by simp [subject.code, index.code], by simp⟩

theorem dottedNames (field : String) (shown : isOpen [field]) :
    Agree Alike (p.dottedNames field) (p'.dottedNames field) :=
  (twin.printEach _ shown).bind fun _ _ names => .pure ⟨by simp [names.codes], by simp⟩

theorem methodCall (here : r id id') : Agree Alike (p.methodCall id) (p'.methodCall id') := by
  refine (twin.receiver here).bind fun _ _ object => (twin.dottedNames _ (by simp)).bind fun _ _ names => ?_
  refine twin.arguments.bind fun _ _ arguments => (twin.subjectIndex _ _).bind fun _ _ index => ?_
  have codes := arguments.codes
  have none_there := arguments.isEmpty
  simp only [commaLines, none_there]
  repeat' split
  all_goals exact .pure ⟨by simp [object.code, names.code, index.code, codes], by simp⟩

theorem reportedSourceOf (here : r id id') :
    p.manuscript.reportedSourceOf id = p'.manuscript.reportedSourceOf id' := by
  have location := (twin.tree here).location
  have className := twin.tree.className here
  simp only [Printer.tree] at location className
  simp only [Manuscript.reportedSourceOf, Manuscript.slice, twin.manuscript.source, location, className]

theorem literal (here : r id id') : Agree Alike (p.literal id) (p'.literal id') := by
  have type := twin.tree.constant? here (by simp [hiddenField] : "type" ≠ hiddenField)
  simp only [Printer.literal, type, twin.reportedSourceOf here]
  split
  · exact .ok (.refl _)
  · refine (Agree.refl _).bind fun raw _ same => ?_
    subst same
    split
    · exact twin.print _ (by simp)
    · exact .pure (.refl _)
  iterate 3
    refine (Agree.refl _).bind fun raw _ same => ?_
    subst same
    split
    · exact .pure (.refl _)
    · exact twin.print _ (by simp)
  · exact twin.print _ (by simp)

theorem initializer (opening closing : String) :
    Agree AlikeAll (p.initializer opening closing) (p'.initializer opening closing) := by
  refine (twin.print _ (by simp)).bind fun _ _ argument => ?_
  rw [argument.isEmpty]
  split
  · exact .pure (.cons (.refl _) .nil)
  · exact .pure (.cons ⟨by simp [argument.code], rfl⟩ .nil)

theorem collectionValues (field : String) (shown : isOpen [field]) :
    Agree AlikeAll (p.collectionValues field) (p'.collectionValues field) := by
  refine (twin.printEach _ shown).bind fun _ _ values => ?_
  rw [values.isEmpty]
  split
  · exact .pure (.cons (.refl _) .nil)
  · exact .pure (.cons ⟨by simp [values.codes], rfl⟩ .nil)

theorem collection (title separator : String) (contents : Printer → Outcome (List Draft))
    (inner : Agree AlikeAll (contents p) (contents p')) :
    Agree Alike (p.collection title separator contents) (p'.collection title separator contents) := by
  refine (twin.printEach _ (by simp)).bind fun _ _ types => inner.bind fun _ _ contents => ?_
  exact .pure ⟨by simp [types.codes, contents.codes], by simp⟩

theorem isSizedList (here : r id id') : p.isSizedList id = p'.isSizedList id' := by
  have types := twin.tree.nodesIn here (by simp [hiddenField] : "types" ≠ hiddenField)
  have sizes := twin.tree.optionalChild? here (by simp [hiddenField] : "expr" ≠ hiddenField)
  have sized := map_eq_of_rel sizes fun _ _ size =>
    congrArg (· == some "INTEGER") (twin.tree.constant? size (by simp [hiddenField] : "type" ≠ hiddenField))
  have plain : ∀ {type type'}, r type type' →
      (!(p.tree.isKind type .classTypeRef && !(p.tree.items type "typeArguments").isEmpty)) =
        !(p'.tree.isKind type' .classTypeRef && !(p'.tree.items type' "typeArguments").isEmpty) := by
    intro type type' at_type
    have arguments := twin.tree.items at_type (by simp [hiddenField] : "typeArguments" ≠ hiddenField)
    rw [twin.tree.isKind at_type, isEmpty_eq_of_forall₂ arguments]
  simp only [Printer.isSizedList, sized]
  generalize p.tree.nodesIn id "types" = nodes, p'.tree.nodesIn id' "types" = nodes' at types
  cases types with
  | nil => rfl
  | cons first _ => simp only [plain first]

/-- A list of a given size has brackets in both. -/
theorem newList (here : r id id') : Agree Alike (p.newList id) (p'.newList id') := by
  simp only [Printer.newList, twin.isSizedList here]
  split
  · refine (twin.printEach _ (by simp)).bind fun _ _ types => (twin.initializer _ _).bind fun _ _ size => ?_
    exact .pure ⟨by simp [types.codes, size.codes], by simp⟩
  · exact twin.collection _ _ _ (twin.initializer _ _)

/-! ### Statements -/

theorem danglingDocs_twin : p'.manuscript.danglingDocs id' = [] :=
  danglingDocs_eq_nil (by simp [Shelf.dangling, twin.manuscript.bare id'])

/-- The members of a body are printed alike, and there are none if a comment stands in their place. -/
theorem printMembers (at_node : p.current = id) {field : String} (body : p.tree.isAmong id bodyKinds)
    (listed : p.tree.members id = p.tree.items id field) (shown : isOpen [field]) :
    Agree (fun docs docs' => AlikeAll docs docs' ∧ (p.manuscript.danglingDocs id = [] ∨ docs = []))
      (p.printEach [field]) (p'.printEach [field]) := by
  intro docs docs' ok ok'
  refine ⟨(twin.printEach [field] shown) docs docs' ok ok', ?_⟩
  by_cases none_there : p.tree.members id = []
  · right
    have held : p.tree.items p.current field = ([] : List NodeId).map .node := by
      rw [at_node, ← listed, none_there]
      rfl
    obtain ⟨slot, printed, -⟩ := printEach_nodes held
    rw [printed] at ok
    cases ok
    rfl
  · exact .inl (danglingDocs_eq_nil (twin.manuscript.body id body none_there))

theorem block (at_node : p.current = id) (known : p.tree.kind? id = some .blockStmnt) :
    Agree Alike (p.block id) (p'.block id') := by
  have is_block : p.tree.isKind id .blockStmnt = true := by simp [Tree.isKind, known]
  have body : p.tree.isAmong id bodyKinds = true := by
    rw [Tree.isAmong, known]
    decide
  refine (twin.printMembers at_node body (by rw [Tree.members, is_block]; rfl) (by simp)).bind fun docs docs' statements => ?_
  obtain ⟨alike, room⟩ := statements
  refine .pure ⟨?_, by simp⟩
  have codes := alike.codes
  rcases room with none_inside | rfl
  · simp only [none_inside, twin.danglingDocs_twin, alike.isEmpty]
    simp [codes]
  · obtain rfl : docs' = [] := by simpa using alike
    simp [Manuscript.danglingDocs]

theorem accessMode : Agree AlikeAll p.accessMode p'.accessMode := by
  refine (twin.print _ (by simp)).bind fun _ _ mode => ?_
  simp only [unlessEmpty, mode.isEmpty]
  split
  · exact .pure .nil
  · exact .pure (.cons ⟨by simp [mode.code], rfl⟩ .nil)

theorem dataChange (word : String) : Agree Alike (p.dataChange word) (p'.dataChange word) := by
  have keyed := isSome_eq_of_rel (twin.tree.child? twin.current (by simp [hiddenField] : "id" ≠ hiddenField))
  refine twin.accessMode.docs fun _ _ _ _ => twin.one (by simp) fun _ _ _ _ => ?_
  rw [keyed]
  split
  · exact twin.one (by simp) fun _ _ _ _ => .pure ⟨by simp [*], by simp⟩
  · exact .pure ⟨by simp [*], by simp⟩

theorem ifElse : Agree Alike (p.ifElse id) (p'.ifElse id') := by
  refine (twin.printEach _ (by simp)).bind fun _ _ docs => twin.one (by simp) fun _ _ _ _ => ?_
  refine (agree_spaced docs (fun _ => spaced_of_branches) fun _ => spaced_of_branches).bind fun _ _ _ => ?_
  exact .pure ⟨by simp [*], by simp⟩

theorem tryStatement : Agree Alike (p.tryStatement id) (p'.tryStatement id') := by
  refine twin.one (by simp) fun _ _ _ _ => (twin.printEach _ (by simp)).bind fun _ _ docs => ?_
  refine twin.one (by simp) fun _ _ _ _ => ?_
  refine (agree_spaced docs (fun _ => spaced_of_handlers) fun _ => spaced_of_handlers).bind fun _ _ _ => ?_
  exact .pure ⟨by simp [*], by simp⟩

theorem loopBody (here : r id id') : Agree Alike (p.loopBody id) (p'.loopBody id') := by
  have none_there : (p.tree.optionalChild? id "stmnt").isNone = (p'.tree.optionalChild? id' "stmnt").isNone := by
    have some_there := isSome_eq_of_rel (twin.tree.optionalChild? here (by simp [hiddenField] : "stmnt" ≠ hiddenField))
    rw [← Option.not_isSome, ← Option.not_isSome, some_there]
  simp only [Printer.loopBody, none_there]
  split
  · exact .ok (.refl _)
  · refine (twin.print _ (by simp)).bind fun _ _ statement => .pure ⟨by simp [statement.code], ?_⟩
    unfold body
    repeat' split
    all_goals rfl

theorem forInitParts :
    Agree (fun parts parts' => Alike parts.1 parts'.1 ∧ Alike parts.2 parts'.2) p.forInitParts p'.forInitParts :=
  (twin.dottedNames _ (by simp)).bind fun _ _ names => (twin.print _ (by simp)).bind fun _ _ value => .pure ⟨names, value⟩

/-- The comments of a loop variable stand around the two, and add no code. -/
theorem forInitWithComments :
    Agree (fun parts parts' => parts.1.code = parts'.1.code ∧ Alike parts.2 parts'.2) p.forInitWithComments
      p'.forInitWithComments := by
  refine twin.forInitParts.bind fun ⟨names, value⟩ ⟨names', value'⟩ ⟨same, alike⟩ => ?_
  have none_there := commentDocs?_of_bare twin.manuscript.bare p'.current
  simp only [none_there]
  split
  · exact .pure ⟨same.code, alike⟩
  · next leading trailing found =>
    obtain ⟨before, behind⟩ := code_commentDocs? found
    split
    · exact .pure ⟨by simp [before, behind, same.code], alike⟩
    · next shown =>
      have shown' : value'.isEmpty = false := by simpa [alike.isEmpty] using shown
      exact .pure ⟨by simp [before, same.code], by simp [alike.code, behind], by simp [shown']⟩

theorem enhancedForControl : Agree Alike p.enhancedForControl p'.enhancedForControl := by
  refine (twin.withNode _ (by simp) fun inner => inner.forInitWithComments).bind fun _ _ init => ?_
  refine (twin.print _ (by simp)).bind fun _ _ type => ?_
  cases init with
  | none => exact .pure ⟨by simp [type.code], by simp⟩
  | some parts => exact .pure ⟨by simp [type.code, parts.1, parts.2.code], by simp⟩

theorem forInits : Agree Alike p.forInits p'.forInits := by
  refine (twin.print _ (by simp)).bind fun _ _ type => ?_
  refine (twin.withNodes _ (by simp) fun inner => inner.forInitWithComments).bind fun inits inits' each => ?_
  have codes : (inits.map fun pair => if pair.2.isEmpty then pair.1 else Doc.join " = " [pair.1, pair.2]).map code =
      (inits'.map fun pair => if pair.2.isEmpty then pair.1 else Doc.join " = " [pair.1, pair.2]).map code := by
    induction each with
    | nil => rfl
    | cons parts _ ih => simp [parts.1, parts.2.code, parts.2.isEmpty, ih]
  exact .pure ⟨by simp [type.code, type.isEmpty, codes], by simp⟩

/-! ### Declarations -/

theorem annotated : Agree Alike (p.annotated id) (p'.annotated id') := by
  refine twin.each (by simp) fun _ _ _ _ => twin.one (by simp) fun _ _ _ _ => ?_
  have comments (comments : List BoundComment) :
      ((comments.flatMap fun c => [(Doc.text " " : Draft), c.toComment.doc]).map code).flatten = [] := by
    induction comments with
    | nil => rfl
    | cons c comments ih => simpa using ih
  exact .pure ⟨by simp [*], by simp⟩

theorem printListed (at_node : p.current = id) {kind : Kind} (known : p.tree.kind? id = some kind)
    (lists : kind ∈ [.triggerDeclUnit, .classDecl, .enumDecl, .interfaceDecl]) :
    Agree (fun docs docs' => AlikeAll docs docs' ∧ (p.manuscript.danglingDocs id = [] ∨ docs = []))
      (p.printEach ["members"]) (p'.printEach ["members"]) := by
  have body : p.tree.isAmong id bodyKinds = true := by
    rw [Tree.isAmong, known]
    revert lists
    cases kind <;> decide
  have no_block : p.tree.isKind id .blockStmnt = false := by
    rw [Tree.isKind, known]
    revert lists
    cases kind <;> decide
  exact twin.printMembers at_node body (by rw [Tree.members, no_block]; rfl) (by simp)

theorem bodyLines {members members' : List Draft} (codes : (members.map code).flatten = (members'.map code).flatten)
    (room : p.manuscript.danglingDocs id = [] ∨ (members.map code).flatten = []) :
    ((p.bodyLines id members).map code).flatten = ((p'.bodyLines id' members').map code).flatten := by
  rw [code_bodyLines room, code_bodyLines (.inl twin.danglingDocs_twin), codes]

theorem memberLines (id' : NodeId) {members members' : List Draft} (alike : AlikeAll members members')
    (room : p.manuscript.danglingDocs id = [] ∨ members = []) :
    ((p.bodyLines id (separateMembers members)).map code).flatten =
      ((p'.bodyLines id' (separateMembers members')).map code).flatten :=
  twin.bodyLines (by simp [alike.codes]) (room.imp_right fun none_there => by simp [none_there])

theorem triggerUnit (at_node : p.current = id) (known : p.tree.kind? id = some .triggerDeclUnit) :
    Agree Alike (p.triggerUnit id) (p'.triggerUnit id') := by
  refine twin.each (by simp) fun _ _ _ _ => twin.each (by simp) fun _ _ _ _ => twin.one (by simp) fun _ _ _ _ => ?_
  refine (twin.printListed at_node known (by decide)).bind fun members members' ⟨alike, room⟩ => ?_
  have lines := twin.memberLines id' alike room
  exact .pure ⟨by simp [*], by simp⟩

theorem triggerUsage (here : r id id') : Agree Alike (p.triggerUsage id) (p'.triggerUsage id') := by
  simp only [Printer.triggerUsage, twin.tree.string? here (by simp [hiddenField] : "$" ≠ hiddenField)]
  split
  · exact .ok (.refl _)
  · exact .error

theorem typeArguments (here : r id id') : Agree AlikeAll (p.typeArguments id) (p'.typeArguments id') := by
  have none_there : (p.tree.optional? id "typeArguments").isNone = (p'.tree.optional? id' "typeArguments").isNone := by
    have some_there := isSome_eq_of_rel (twin.tree.optional? here (by simp [hiddenField] : "typeArguments" ≠ hiddenField))
    rw [← Option.not_isSome, ← Option.not_isSome, some_there]
  simp only [Printer.typeArguments, none_there]
  split
  · exact .ok .nil
  · exact (twin.printEach _ (by simp)).bind fun _ _ types => .pure (.cons ⟨by simp [types.codes], rfl⟩ .nil)

theorem typeDeclaration (here : r id id') (at_node : p.current = id) {kind : Kind} (known : p.tree.kind? id = some kind)
    (lists : kind ∈ [.triggerDeclUnit, .classDecl, .enumDecl, .interfaceDecl]) (word superField : String)
    (implements : Bool) (shown : isOpen [superField, "value"]) :
    Agree Alike (p.typeDeclaration id word superField implements)
      (p'.typeDeclaration id' word superField implements) := by
  refine twin.one shown fun _ _ _ _ => twin.each (by simp) fun _ _ _ _ => ?_
  refine (twin.printListed at_node known lists).bind fun members members' ⟨alike, room⟩ => ?_
  refine twin.one (by simp) fun _ _ _ _ => (twin.typeArguments here).docs fun _ _ _ _ => ?_
  have lines := twin.memberLines id' alike room
  cases implements with
  | false => exact .pure ⟨by simp [*], by simp⟩
  | true => exact twin.each (by simp) fun _ _ _ _ => .pure ⟨by simp [*], by simp⟩

theorem enumDeclaration (at_node : p.current = id) (known : p.tree.kind? id = some .enumDecl) :
    Agree Alike (p.enumDeclaration id) (p'.enumDeclaration id') := by
  refine twin.each (by simp) fun _ _ _ _ => ?_
  refine (twin.printListed at_node known (by decide)).bind fun members members' ⟨alike, room⟩ => ?_
  refine twin.one (by simp) fun _ _ _ _ => .pure ⟨?_, by simp⟩
  have lines : ((p.bodyLines id (if members.isEmpty then [] else [Doc.join (.concat [",", hardLine]) members])).map
        code).flatten =
      ((p'.bodyLines id' (if members'.isEmpty then [] else [Doc.join (.concat [",", hardLine]) members'])).map
        code).flatten := by
    refine twin.bodyLines (by simp [alike.isEmpty, alike.codes]) ?_
    exact room.imp_right fun none_there => by simp [none_there]
  simpa [*] using lines

theorem parameter : Agree Alike (p.parameter true) (p'.parameter true) := by
  have listed : Agree AlikeAll ((fun docs => [Doc.join "" docs]) <$> p.printEach ["modifiers"])
      ((fun docs => [Doc.join "" docs]) <$> p'.printEach ["modifiers"]) :=
    (twin.printEach _ (by simp)).map fun _ _ docs => .cons ⟨by simp [docs.codes], rfl⟩ .nil
  refine listed.docs fun _ _ _ _ => twin.one (by simp) fun _ _ _ _ => twin.one (by simp) fun _ _ _ _ => ?_
  exact .pure ⟨by simp [*], by simp⟩

theorem variableDeclarations : Agree Alike p.variableDeclarations p'.variableDeclarations := by
  refine twin.each (by simp) fun _ _ _ _ => twin.one (by simp) fun _ _ _ _ => ?_
  refine (twin.printEach _ (by simp)).bind fun declared declared' alike => ?_
  have codes := alike.codes
  cases alike with
  | nil => exact .pure ⟨by simp [*], by simp⟩
  | cons first rest =>
    cases rest with
    | nil => exact .pure ⟨by simp [*, first.code], by simp⟩
    | cons second rest => exact .pure ⟨by simp [*], by simp⟩

theorem variableDeclaration : Agree Alike p.variableDeclaration p'.variableDeclaration := by
  refine twin.one (by simp) fun _ _ _ _ => twin.one (by simp) fun _ _ _ nothing => ?_
  simp only [nothing]
  have sign : textCode " =" = textCode " = " := by decide
  split
  · exact .pure ⟨by simp [*], by simp⟩
  · repeat' split
    all_goals exact .pure ⟨by simp [*], by simp⟩

/-! ### Queries and searches -/

theorem clause (field : String) (shown : isOpen [field, "value"]) :
    Agree AlikeAll (p.clause field) (p'.clause field) := by
  refine (twin.print _ shown).bind fun _ _ doc => ?_
  rw [doc.isEmpty]
  split
  · exact .pure .nil
  · exact .pure (.cons doc .nil)

theorem clauses (fields : List String) (shown : isOpen ("value" :: fields)) :
    Agree AlikeAll (p.clauses fields) (p'.clauses fields) := by
  induction fields with
  | nil => exact .ok .nil
  | cons field fields ih =>
    have parts : isOpen [field, "value"] = true ∧ isOpen ("value" :: fields) = true := by
      simp_all [isOpen]
    refine (twin.clause field parts.1).bind fun _ _ first => (ih parts.2).bind fun _ _ rest => ?_
    exact .pure (List.rel_append first rest)

theorem aliasDocs : Agree AlikeAll p.aliasDocs p'.aliasDocs := by
  refine (twin.print _ (by simp)).bind fun _ _ name => ?_
  rw [name.isEmpty]
  split
  · exact .pure .nil
  · exact .pure (.cons (.refl _) (.cons name .nil))

theorem field : Agree Alike p.field p'.field := by
  refine twin.one (by simp) fun _ _ _ outer => twin.one (by simp) fun _ _ _ _ => ?_
  refine (twin.print _ (by simp)).bind fun _ _ name => ?_
  rw [outer]
  split
  · exact .pure name
  · exact .pure ⟨by simp [*, name.code], by simp⟩

theorem spaced (fields : List String) (shown : fields.all (isOpen [·])) :
    Agree Alike (p.spaced fields) (p'.spaced fields) := by
  cases fields with
  | nil => exact .ok (.refl _)
  | cons first rest =>
    simp only [List.all_cons, Bool.and_eq_true, List.all_eq_true] at shown
    have each : List.Forall₂ (fun field field' => Agree Alike (p.print [field]) (p'.print [field'])) rest rest :=
      List.forall₂_same.mpr fun field member => twin.print _ (shown.2 field member)
    refine (twin.print _ shown.1).bind fun _ _ first => (Agree.mapM each).bind fun docs docs' rest => ?_
    have codes : AlikeAll docs docs' := rest
    exact .pure ⟨by simp [first.code, code_spread, codes.codes], by simp⟩

theorem isInCondition : p.isInCondition = p'.isInCondition := by
  rw [Printer.isInCondition, Printer.isInCondition,
    map_eq_of_rel twin.parent? fun _ _ around => twin.tree.isAmong around [.whereCompoundExpr, .whereUnaryExpr]]

theorem compoundCondition (here : r id id') : Agree Alike (p.compoundCondition id) (p'.compoundCondition id') := by
  have operatorOf {node node' : NodeId} (related : r node node') :
      (p.tree.child? node "op").bind p.tree.kind? = (p'.tree.child? node' "op").bind p'.tree.kind? :=
    bind_eq_of_rel (twin.tree.child? related (by simp [hiddenField])) fun _ _ op => twin.tree.kind? op
  have around := bind_eq_of_rel twin.parent? fun _ _ related => operatorOf related
  refine twin.one (by simp) fun _ _ _ _ => twin.each (by simp) fun _ _ _ _ => ?_
  exact .pure ⟨by simp [*, twin.isInCondition, operatorOf here], by simp⟩

theorem queryString (here : r id id') : p.queryString id = p'.queryString id' := by
  rw [Printer.queryString, Printer.queryString, twin.tree.string? here (by simp [hiddenField])]

/-- As many categories are listed in both. -/
theorem dataCategory : Agree Alike p.dataCategory p'.dataCategory := by
  refine twin.one (by simp) fun _ _ _ _ => twin.one (by simp) fun _ _ _ _ => ?_
  refine (twin.printEach _ (by simp)).bind fun categories categories' each => ?_
  have listed := Doc.AlikeAll.filter_isEmpty each
  have several := listed.length_eq
  exact .pure ⟨by simp [*, Doc.AlikeAll.codes listed], by simp⟩

/-- The words of an order are set off by spaces, so that it does not matter whether there are any. -/
theorem orderKey (field : String) (shown : isOpen [field]) :
    Agree Alike (p.orderKey field) (p'.orderKey field) := by
  refine (twin.print _ shown).bind fun _ _ key => (twin.print_code _ (by simp [hiddenField])).bind fun order order' orders => ?_
  refine (twin.print_code _ (by simp [hiddenField])).bind fun nulls nulls' nullOrders => ?_
  have words (docs : List Draft) :
      (((docs.filter (!·.isEmpty)).flatMap fun doc => [(Doc.text " " : Draft), doc]).map code).flatten =
        (docs.map code).flatten := by
    rw [code_spread, flatten_filter_isEmpty]
  have printed := words [order, nulls]
  have printed' := words [order', nulls']
  refine .pure ⟨?_, by simp⟩
  simp only [code_concat, List.map_cons, List.flatten_cons, printed, printed', key.code]
  simp [orders, nullOrders]

theorem orderWord (here : r id id') (known : p.tree.isAmong id orderKinds) (word : String) :
    p.orderWord id word = p'.orderWord id' word := by
  rw [Printer.orderWord, Printer.orderWord, twin.manuscript.order here known]

theorem inClause (here : r id id') : Alike (p.inClause id) (p'.inClause id') := by
  rw [Printer.inClause, Printer.inClause, twin.tree.string? here (by simp [hiddenField])]
  exact .refl _

theorem searchValues : Agree Alike p.searchValues p'.searchValues := by
  refine (twin.printEach _ (by simp)).bind fun values values' each => ?_
  cases each with
  | nil => exact .pure (.refl _)
  | cons first rest =>
    cases rest with
    | nil => exact .pure ⟨by simp [first.code], by simp⟩
    | cons second rest =>
      have codes := Doc.AlikeAll.codes rest
      exact .pure ⟨by simp [first.code, second.code, codes], by simp⟩

end Twin
end ApexLayout.Printer
