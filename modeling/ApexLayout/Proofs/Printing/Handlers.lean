import ApexLayout.Proofs.Printing.Moves
import ApexLayout.Proofs.Printing.Route

/-!
What nodes lay out. The layout of an expression depends on operators, receivers and the nodes around it, but what it
holds does not, except for the index of an array access, which is laid out by the subject if that is a name or a call.
Optional clauses that print nothing are left out. A block or a body lays out what it holds unless it has comments of
its own. An annotation lays out the comments behind it itself, whichever occurrence it is, but steps through its name
to the text there.
-/
namespace ApexLayout.Printer
open Doc

section
variable (c : Comment)

theorem Spaced.notedAll {docs chain : List Draft} (spaced : Spaced docs chain) : notedAll c chain = notedAll c docs := by
  induction spaced with
  | nil => rfl
  | next _ ih => simp [ih]
  | apart breaks _ ih => simp [ih]

@[simp] theorem notedAll_separateMembers (members : List Draft) :
    notedAll c (separateMembers members) = notedAll c members := by
  have separated : ∀ docs : List Draft, notedAll c (separateMembers.go docs) = notedAll c docs := by
    intro docs
    fun_induction separateMembers.go docs with
    | case1 => rfl
    | case2 last => rfl
    | case3 member rest several ih => simp [ih]
  simp [separateMembers, separated]

theorem notedAll_bodyLines (p : Printer) (id : NodeId) (members : List Draft) :
    notedAll c (p.bodyLines id members) = notedAll c (p.manuscript.danglingDocs id) +
      if (p.manuscript.danglingDocs id).isEmpty then notedAll c members else 0 := by
  unfold bodyLines
  by_cases none_inside : (p.manuscript.danglingDocs id).isEmpty
  · simp_all
  · simp_all

end

theorem numberText?_eq_none (raw : String) : numberText? raw = none ↔ raw.isEmpty := by
  unfold numberText?
  split
  · next nothing => simpa using nothing
  · next last rest some_there =>
    have filled : raw ≠ "" := by
      rintro rfl
      simp at some_there
    split
    · simpa using filled
    · split
      · simpa using filled
      · simpa using filled

theorem notedAll_spread (docs : List Draft) (c : Comment) :
    notedAll c (docs.flatMap fun doc => [Doc.text " ", doc]) = notedAll c docs :=
  notedAll_flatMap (fun doc => by simp) docs

@[simp] theorem noted_orderWord (p : Printer) (id : NodeId) (word : String) (c : Comment) :
    (p.orderWord id word).noted c = 0 := by
  unfold orderWord
  split
  · simp
  · simp

/-! ### Expressions -/

variable {p : Printer} {c : Comment} {plan : Plan} (tally : p.Tally c plan) {id : NodeId}

theorem operator_lays (kind : Kind) : p.Lays plan (noted c) 0 [] (p.operator id kind) := by
  unfold operator
  split
  · exact .ok (by simp)
  · exact .error

include tally

theorem arguments_lays : p.Lays plan (notedAll c) 0 [.each ["inputParameters"]] p.arguments :=
  tally.each fun docs => .pure (by simp)

theorem operation_lays :
    p.Lays plan (noted c) 0 [.one ["left"], .one ["op"], .one ["right"]] (p.operation id) := by
  unfold operation
  refine .read fun own => .read fun leftTier => .read fun parentTier => ?_
  refine tally.one fun left => tally.one fun op => tally.one fun right => ?_
  refine .ite (fun _ => .read fun rightTier => ?_) (fun _ => .read fun rightTier => ?_)
  all_goals
    refine .ite (fun _ => .pure ?_) fun _ => .ite (fun _ => .pure ?_) fun _ => .pure ?_
    · simp +arith
    · simp +arith
    · simp +arith

theorem assignment_lays :
    p.Lays plan (noted c) 0 [.one ["left"], .one ["op"], .one ["right"]] (p.assignment id) := by
  unfold assignment
  refine tally.one fun left => tally.one fun op => tally.one fun right => ?_
  split
  · exact .ite (fun _ => .pure (by simp +arith)) fun _ => .pure (by simp +arith)
  · exact .pure (by simp +arith)

theorem receiver_lays : p.Lays plan (noted c) 0 [.one ["dottedExpr", "value"]] (p.receiver id) :=
  tally.one fun doc => .ite (fun nothing => .pure (by simp [noted_of_isEmpty nothing])) fun _ =>
    .pure (by simp)

theorem dottedNames_lays (field : String) : p.Lays plan (noted c) 0 [.each [field]] (p.dottedNames field) :=
  tally.each fun names => .pure (by simp)

theorem arrayIndex_lays (grouped : Bool) : p.Lays plan (noted c) 0 [.one ["index"]] (p.arrayIndex grouped) :=
  tally.one fun index => .pure (by simp)

def isSubject (p : Printer) : Bool :=
  (p.parent?.map (p.tree.isKind · .arrayExpr)).getD false && p.nameAt 0 == "expr"

def indexRoutes (p : Printer) : List Route := if p.isSubject then [.around "index"] else []

theorem subjectIndex_lays (grouped : Bool) : p.Lays plan (noted c) 0 p.indexRoutes (p.subjectIndex grouped) :=
  .cond (fun _ => .outward (arrayIndex_lays (tally.moved _) grouped)) fun _ => .ok (by simp)

/-- The subject of an array access lays out the index itself. -/
def subjectTakesIndex (p : Printer) (id : NodeId) : Bool :=
  ((p.tree.child? id "expr").map (p.tree.isAmong · [.variableExpr, .methodCallExpr])).getD false

theorem methodCall_lays :
    p.Lays plan (noted c) 0 ([Route.one ["dottedExpr", "value"], .each ["names"], .each ["inputParameters"]] ++ p.indexRoutes)
      (p.methodCall id) := by
  refine (receiver_lays tally).seq fun receiver => (dottedNames_lays tally "names").seq fun names => ?_
  refine (arguments_lays tally).seq fun arguments => ?_
  refine (subjectIndex_lays tally _).last fun index => .ite (fun _ => .pure ?_) fun _ => ?_
  · simp +arith
  · by_cases nothing : receiver.isEmpty
    · simp only [nothing, Bool.not_true, Bool.false_eq_true, ↓reduceIte]
      exact .pure (by simp +arith)
    · simp only [nothing, Bool.not_false, ↓reduceIte]
      exact .pure (by simp +arith)

def isUnread (p : Printer) (id : NodeId) : Bool :=
  match p.manuscript.reportedSourceOf id with
  | .ok raw => raw.isEmpty
  | .error _ => false

/-- A literal is laid out by its value where no text of it is taken from the source. -/
def literalRoutes (p : Printer) (id : NodeId) : List Route :=
  let type := (p.tree.constant? id "type").getD ""
  if type = "NULL" then []
  else if type ∈ ["STRING", "LONG", "DECIMAL", "DOUBLE"] then if p.isUnread id then [.one ["literal", "$"]] else []
  else [.one ["literal", "$"]]

/-- A layout that takes the text of the source, and the value only where that is empty. -/
theorem source_lays {layout : String → Outcome Draft} (value : layout "" = p.print ["literal", "$"])
    (taken : ∀ raw, raw ≠ "" → ∃ text, layout raw = .ok (.text text)) :
    p.Lays plan (noted c) 0 (if p.isUnread id then [.one ["literal", "$"]] else [])
      (p.manuscript.reportedSourceOf id >>= layout) := by
  intro doc ok
  obtain ⟨raw, read, laid⟩ := bind_eq_ok.mp ok
  have unread : p.isUnread id = raw.isEmpty := by simp [isUnread, read]
  rw [unread]
  by_cases nothing : raw = ""
  · rw [nothing, value] at laid
    simpa [nothing] using tally.laysOne _ doc laid
  · obtain ⟨text, same⟩ := taken raw nothing
    rw [same] at laid
    cases laid
    simp [nothing]

theorem literal_lays : p.Lays plan (noted c) 0 (p.literalRoutes id) (p.literal id) := by
  have string : p.Lays plan (noted c) 0 (if p.isUnread id then [.one ["literal", "$"]] else [])
      (p.manuscript.reportedSourceOf id >>= fun raw =>
        if raw.isEmpty then p.print ["literal", "$"] else Pure.pure (.text raw)) :=
    source_lays tally rfl fun raw something => ⟨raw, by simp [something]⟩
  have number : ∀ raw, raw ≠ "" → ∃ shown, numberText? raw = some shown := by
    intro raw something
    cases found : numberText? raw with
    | none => simp [numberText?_eq_none, something] at found
    | some shown => exact ⟨shown, rfl⟩
  unfold literal literalRoutes
  generalize (p.tree.constant? id "type").getD "" = type
  dsimp only
  by_cases null : type = "NULL"
  · subst null
    exact .ok rfl
  by_cases among : type ∈ ["STRING", "LONG", "DECIMAL", "DOUBLE"]
  · rw [if_neg null, if_pos among]
    simp only [List.mem_cons, List.not_mem_nil, or_false] at among
    rcases among with rfl | rfl | rfl | rfl
    · exact string
    all_goals
      refine source_lays tally rfl fun raw something => ?_
      obtain ⟨shown, found⟩ := number raw something
      exact ⟨shown, by simp [found]⟩
  · rw [if_neg null, if_neg among]
    simp only [List.mem_cons, List.not_mem_nil, or_false, not_or] at among
    obtain ⟨no_string, no_long, no_decimal, no_double⟩ := among
    split
    case h_6 => exact tally.laysOne _
    all_goals contradiction

theorem initializer_lays (opening closing : String) :
    p.Lays plan (notedAll c) 0 [.one ["expr", "value"]] (p.initializer opening closing) := by
  refine tally.one fun argument => .pure ?_
  split
  · next nothing => simp [noted_of_isEmpty nothing]
  · simp

theorem collectionValues_lays (field : String) :
    p.Lays plan (notedAll c) 0 [.each [field]] (p.collectionValues field) := by
  refine tally.each fun values => .pure ?_
  split
  · next nothing => simp_all
  · simp

theorem collection_lays (name separator : String) (contents : Printer → Outcome (List Draft)) {routes : List Route}
    (inner : p.Lays plan (notedAll c) 0 routes (contents p)) :
    p.Lays plan (noted c) 0 (.each ["types"] :: routes) (p.collection name separator contents) :=
  tally.each fun types => inner.last fun contents => .pure (by simp)

/-! ### Queries and searches -/

theorem clause_lays (field : String) : p.Lays plan (notedAll c) 0 [.one [field, "value"]] (p.clause field) :=
  tally.one fun doc => .pure (by simp)

theorem clauses_lay (fields : List String) :
    p.Lays plan (notedAll c) 0 (fields.map fun field => .one [field, "value"]) (p.clauses fields) := by
  induction fields with
  | nil => exact .ok (by simp)
  | cons field fields ih => exact (clause_lays tally field).seq fun first => ih.last fun rest => .pure (by simp)

theorem aliasDocs_lays : p.Lays plan (notedAll c) 0 [.one ["alias", "value"]] p.aliasDocs :=
  tally.one fun name => .pure (by simp)

def printsNothing (p : Printer) (names : List String) : Bool :=
  match p.print names with
  | .ok doc => doc.isEmpty
  | .error _ => false

def fieldRoutes (p : Printer) : List Route :=
  .one ["function1", "value"] :: .one ["field"] ::
    if p.printsNothing ["function1", "value"] then [] else [.one ["function2", "value"]]

theorem field_lays : p.Lays plan (noted c) 0 p.fieldRoutes p.field := by
  intro doc ok
  simp only [field, bind_eq_ok] at ok
  obtain ⟨outer, outer_printed, inner, inner_printed, name, name_printed, laid⟩ := ok
  have nothing : p.printsNothing ["function1", "value"] = outer.isEmpty := by simp [printsNothing, outer_printed]
  have outer_noted := tally.print outer_printed
  have inner_noted := tally.print inner_printed
  have name_noted := tally.print name_printed
  split at laid
  · next empty =>
    cases laid
    simp [fieldRoutes, nothing, empty, ← outer_noted, ← name_noted, noted_of_isEmpty empty]
  · next full =>
    cases laid
    by_cases single : inner.isEmpty
    · simp [fieldRoutes, nothing, full, single, ← outer_noted, ← inner_noted, ← name_noted, noted_of_isEmpty single]
    · simp +arith [fieldRoutes, nothing, full, single, ← outer_noted, ← inner_noted, ← name_noted]

theorem fieldIdentifier_lays : p.Lays plan (noted c) 0 [.one ["entity", "value"], .one ["field"]] p.fieldIdentifier := by
  refine tally.one fun entity => tally.one fun name => .pure ?_
  split
  · next nothing => simp [noted_of_isEmpty nothing]
  · simp

theorem mapM_lays (fields : List String) :
    p.Lays plan (notedAll c) 0 (fields.map fun field => .one [field]) (fields.mapM fun field => p.print [field]) := by
  induction fields with
  | nil => exact .ok (by simp)
  | cons field fields ih =>
    rw [List.mapM_cons]
    exact tally.one fun first => ih.last fun rest => .pure (by simp)

theorem spaced_lays (first : String) (rest : List String) :
    p.Lays plan (noted c) 0 (.one [first] :: rest.map fun field => .one [field]) (p.spaced (first :: rest)) :=
  tally.one fun first => (mapM_lays tally rest).last fun rest => .pure (by simp [notedAll_spread])

/-- The operator is laid out once less often than there are conditions. -/
theorem compoundCondition_lays :
    p.Lays plan (noted c) 0 [.between "op" "expr", .each ["expr"]] (p.compoundCondition id) := by
  intro doc ok
  simp only [compoundCondition, bind_eq_ok, pure_eq_ok] at ok
  obtain ⟨op, op_printed, conditions, conditions_printed, rfl⟩ := ok
  obtain ⟨length, conditions_noted⟩ := tally.printEach_length conditions_printed
  have between : p.shown plan (.between "op" "expr") = (conditions.length - 1) * op.noted c := by
    rw [tally.print op_printed, length]
    simp [shown, spots, List.countP_flatten]
  simp [between, ← conditions_noted, Nat.add_comm]

theorem groupBy_lays :
    p.Lays plan (noted c) 0 [.each ["exprs"], .one ["type", "value"], .one ["having", "value"]] p.groupBy := by
  refine tally.each fun keys => tally.one fun type => tally.one fun having => .pure ?_
  by_cases plain : type.isEmpty
  · by_cases whole : having.isEmpty
    · simp [plain, whole, noted_of_isEmpty plain, noted_of_isEmpty whole]
    · simp [plain, whole, noted_of_isEmpty plain]
  · by_cases whole : having.isEmpty
    · simp +arith [plain, whole, noted_of_isEmpty whole]
    · simp +arith [plain, whole]

theorem searchValues_lays : p.Lays plan (noted c) 0 [.each ["values"]] p.searchValues := by
  refine tally.each fun values => ?_
  split
  · exact .pure (by simp)
  · exact .pure (by simp)

theorem returning_lays : p.Lays plan (noted c) 0 [.one ["name"], .one ["select", "value"]] p.returning := by
  refine tally.one fun name => tally.one fun select => .pure ?_
  by_cases nothing : select.isEmpty
  · simp [nothing, noted_of_isEmpty nothing]
  · simp [nothing]

/-! ### Statements -/

theorem block_lays :
    p.Lays plan (noted c) (notedAll c (p.manuscript.danglingDocs id))
      (if (p.manuscript.danglingDocs id).isEmpty then [.each ["stmnts"]] else []) (p.block id) := by
  unfold block
  by_cases none_inside : (p.manuscript.danglingDocs id).isEmpty
  · rw [if_pos none_inside]
    refine tally.each fun statements => .pure ?_
    simp_all
  · rw [if_neg none_inside]
    refine .read fun statements => .pure ?_
    simp_all

theorem accessMode_lays : p.Lays plan (notedAll c) 0 [.one ["runAsMode", "value"]] p.accessMode :=
  tally.one fun mode => .pure (by simp)

theorem dataChange_lays (word : String) :
    p.Lays plan (noted c) 0 [.one ["runAsMode", "value"], .one ["expr"], .one ["id", "value"]] (p.dataChange word) := by
  refine (accessMode_lays tally).seq fun mode => tally.one fun records => ?_
  by_cases key : (p.tree.child? p.current "id").isSome
  · simp only [key, ↓reduceIte]
    exact tally.one fun key => .pure (by simp +arith)
  · simp only [key]
    exact .skip (shown_without_child plan (by simpa using key) "value") (.pure (by simp))

theorem loopBody_lays (here : p.current = id) :
    p.Lays plan (noted c) 0 [.one ["stmnt", "value"]] (p.loopBody id) := by
  unfold loopBody
  refine .ite (fun none_there => ?_) fun _ => tally.one fun statement => .pure (by simp)
  exact .skip (shown_without_optionalChild plan (by simpa [here] using none_there)) (.ok (by simp))

omit tally in
def notedPair (c : Comment) (pair : Draft × Draft) : Nat := pair.1.noted c + pair.2.noted c

omit tally in
def notedPairs (c : Comment) : List (Draft × Draft) → Nat
  | [] => 0
  | pair :: pairs => notedPair c pair + notedPairs c pairs

theorem forInitParts_lays :
    p.Lays plan (notedPair c) 0 [.each ["name"], .one ["expr", "value"]] p.forInitParts :=
  (dottedNames_lays tally "name").seq fun names => tally.one fun value => .pure (by simp [notedPair])

theorem forInit_lays : p.Lays plan (noted c) 0 [.each ["name"], .one ["expr", "value"]] p.forInit := by
  refine (forInitParts_lays tally).last fun (names, value) => .pure ?_
  split
  · next nothing => simp [notedPair, noted_of_isEmpty nothing]
  · simp [notedPair]

theorem forInitWithComments_noted {v : Visit} {pair : Draft × Draft}
    (ok : (p.enter v).forInitWithComments = .ok pair) :
    notedPair c pair = (p.variableSpots plan.spotsAt v).countP plan.shows := by
  have inner : (p.enter v).Tally c plan := tally.moved _
  have beside : notedBeside c ((p.enter v).commentDocs? (p.enter v).current) =
      if plan.shows ⟨v.id, some v.edge, false⟩ then 1 else 0 := by
    rw [← inner.beside v.id (some v.edge)]
    exact notedBeside_commentDocs? (p.enter v) rfl c
  obtain ⟨⟨names, value⟩, parts, rest⟩ := bind_eq_ok.mp ok
  have whole : notedPair c pair =
      notedPair c (names, value) + notedBeside c ((p.enter v).commentDocs? (p.enter v).current) := by
    cases docs : (p.enter v).commentDocs? (p.enter v).current with
    | none =>
      simp only [docs] at rest
      obtain rfl := pure_eq_ok.mp rest
      rfl
    | some around =>
      simp only [docs] at rest
      obtain rfl := pure_eq_ok.mp rest
      split
      · simp +arith [notedPair, notedBeside]
      · simp +arith [notedPair, notedBeside]
  rw [whole, beside, forInitParts_lays inner _ parts]
  simp +arith [variableSpots, shown, spots, List.countP_cons]

theorem withNode_noted {field : String} {pair : Option (Draft × Draft)}
    (ok : p.withNode [field] forInitWithComments = .ok pair) :
    (pair.map (notedPair c)).getD 0 = p.shown plan (.variable field) := by
  simp only [shown, spots, visitOne]
  unfold withNode at ok
  cases found : p.destination? [field] with
  | none =>
    rw [found] at ok
    cases ok
    rfl
  | some d =>
    rw [found] at ok
    obtain ⟨frames, owner, slot, value⟩ := d
    cases value with
    | node id =>
      obtain ⟨path, longer, moved⟩ := bind_eq_ok.mp ok
      obtain ⟨pair, printed, rfl⟩ := map_eq_ok.mp moved
      rw [extend_eq longer, List.reverse_append] at printed
      have laid := forInitWithComments_noted (v := ⟨frames.reverse ++ p.path, id, ⟨owner, slot, none⟩⟩) tally printed
      simpa using laid
    | _ =>
      cases ok
      rfl

theorem withItems_noted {path : Path} {owner : NodeId} {slot : UInt16} (items : List Value) :
    ∀ {index : Nat} {pairs : List (Draft × Draft)},
      p.withItems path forInitWithComments owner slot index items = .ok pairs →
      notedPairs c pairs =
        ((visitItems path owner slot index items).flatMap (p.variableSpots plan.spotsAt)).countP plan.shows := by
  induction items with
  | nil =>
    intro index pairs ok
    cases ok
    rfl
  | cons item items ih =>
    intro index pairs ok
    cases item with
    | node id =>
      simp only [withItems, bind_eq_ok, pure_eq_ok] at ok
      obtain ⟨inner, longer, pair, printed, rest, later, rfl⟩ := ok
      rw [extend_eq longer] at printed
      have first := forInitWithComments_noted (v := ⟨path, id, ⟨owner, slot, some index⟩⟩) tally printed
      simp [visitItems, notedPairs, ih later, first]
    | _ => exact ih ok

theorem withNodes_noted {field : String} {pairs : List (Draft × Draft)}
    (ok : p.withNodes [field] forInitWithComments = .ok pairs) :
    notedPairs c pairs = p.shown plan (.variables field) := by
  simp only [shown, spots, visitEach]
  unfold withNodes at ok
  cases found : p.destination? [field] with
  | none =>
    rw [found] at ok
    cases ok
    rfl
  | some d =>
    rw [found] at ok
    obtain ⟨frames, owner, slot, value⟩ := d
    cases value with
    | array items =>
      obtain ⟨path, longer, moved⟩ := bind_eq_ok.mp ok
      rw [extend_eq longer] at moved
      exact withItems_noted tally items moved
    | _ =>
      cases ok
      rfl

theorem enhancedForControl_lays :
    p.Lays plan (noted c) 0 [.variable "init", .one ["type"]] p.enhancedForControl := by
  have variable_lays : p.Lays plan (fun pair => (pair.map (notedPair c)).getD 0) 0 [.variable "init"]
      (p.withNode ["init"] forInitWithComments) := fun pair ok => by simp [withNode_noted tally ok]
  refine variable_lays.seq fun pair => tally.one fun type => .pure ?_
  cases pair with
  | none => simp
  | some pair => simp +arith [notedPair]

theorem forInits_lays : p.Lays plan (noted c) 0 [.one ["type", "value"], .variables "inits"] p.forInits := by
  have variables_lay : p.Lays plan (notedPairs c) 0 [.variables "inits"]
      (p.withNodes ["inits"] forInitWithComments) := fun pairs ok => by simp [withNodes_noted tally ok]
  refine tally.one fun type => variables_lay.last fun pairs => .pure ?_
  have each : ∀ pair : Draft × Draft,
      (if pair.2.isEmpty then pair.1 else Doc.join " = " [pair.1, pair.2]).noted c = notedPair c pair := by
    intro pair
    split
    · next nothing => simp [notedPair, noted_of_isEmpty nothing]
    · simp [notedPair]
  have all : notedAll c (pairs.map fun pair => if pair.2.isEmpty then pair.1 else Doc.join " = " [pair.1, pair.2]) =
      notedPairs c pairs := by
    induction pairs with
    | nil => rfl
    | cons pair pairs ih => simp only [List.map_cons, notedAll, each, ih, notedPairs]
  simp [all]

/-! ### Declarations -/

/-- The route to members, which are laid out only if the body has no comments. -/
def memberRoutes (p : Printer) (id : NodeId) : List Route :=
  if (p.manuscript.danglingDocs id).isEmpty then [.each ["members"]] else []

theorem annotated_lays :
    p.Lays plan (noted c) (((p.manuscript.trailingComments id).map (·.toComment)).count c)
      [.each ["parameters"], .one ["name", "value"]] (p.annotated id) := by
  have behind : ∀ comments : List BoundComment,
      notedAll c (comments.flatMap fun d => [Doc.text " ", d.toComment.doc]) = (comments.map (·.toComment)).count c := by
    intro comments
    induction comments with
    | nil => rfl
    | cons d comments ih => simp [ih, List.count_cons, Nat.add_comm]
  exact tally.each fun parameters => tally.one fun name => .pure (by simp +arith [behind])

/-- Members are read for a body, and laid out if it has no comments. -/
theorem members_lay {α : Type} {measure : α → Nat} {held : Nat} {routes : List Route} {layout : List Draft → Outcome α}
    (rest : ∀ members : List Draft, p.Lays plan measure
      (held + if (p.manuscript.danglingDocs id).isEmpty then notedAll c members else 0) routes (layout members)) :
    p.Lays plan measure held (p.memberRoutes id ++ routes) (p.printEach ["members"] >>= layout) := by
  unfold memberRoutes
  by_cases none_inside : (p.manuscript.danglingDocs id).isEmpty
  · simp only [none_inside, ↓reduceIte] at *
    exact tally.each rest
  · simp only [none_inside] at *
    exact .read rest

theorem triggerUnit_lays :
    p.Lays plan (noted c) (notedAll c (p.manuscript.danglingDocs id))
      ([Route.each ["usages"], .each ["target"], .one ["name"]] ++ p.memberRoutes id) (p.triggerUnit id) := by
  rw [← List.append_nil (p.memberRoutes id)]
  refine tally.each fun usages => tally.each fun targets => tally.one fun name => members_lay tally fun members => ?_
  exact .pure (by simp +arith [notedAll_bodyLines])

omit tally in
theorem triggerUsage_lays : p.Lays plan (noted c) 0 [] (p.triggerUsage id) := by
  simp only [triggerUsage]
  split
  · exact .ok (by simp)
  · exact .error

theorem typeArguments_lays (here : p.current = id) :
    p.Lays plan (notedAll c) 0 [.each ["typeArguments", "value"]] (p.typeArguments id) := by
  refine .ite (fun none_there => ?_) fun _ => tally.each fun types => .pure (by simp)
  exact .skip (shown_without_optional plan (by simpa [here] using none_there)) (.ok (by simp))

theorem typeDeclaration_lays (here : p.current = id) (word superField : String) (implements : Bool) :
    p.Lays plan (noted c) (notedAll c (p.manuscript.danglingDocs id))
      ([Route.one [superField, "value"], .each ["modifiers"]] ++ (p.memberRoutes id ++
        ([Route.one ["name"], .each ["typeArguments", "value"]] ++ if implements then [Route.each ["interfaces"]] else [])))
      (p.typeDeclaration id word superField implements) := by
  refine tally.one fun extended => tally.each fun modifiers => members_lay tally fun members => ?_
  refine tally.one fun name => (typeArguments_lays tally here).seq fun types => ?_
  refine .cond (fun _ => tally.each fun interfaces => .pure ?_) fun _ => .pure ?_
  · simp +arith [notedAll_bodyLines]
  · simp +arith [notedAll_bodyLines]

theorem enumDeclaration_lays :
    p.Lays plan (noted c) (notedAll c (p.manuscript.danglingDocs id))
      ([Route.each ["modifiers"]] ++ (p.memberRoutes id ++ [Route.one ["name"]])) (p.enumDeclaration id) := by
  refine tally.each fun modifiers => members_lay tally fun members => tally.one fun name => .pure ?_
  simp +arith [notedAll_bodyLines]

theorem parameter_lays (withModifiers : Bool) :
    p.Lays plan (noted c) 0 ((if withModifiers then [Route.each ["modifiers"]] else []) ++ [Route.one ["typeRef"], .one ["name"]])
      (p.parameter withModifiers) := by
  cases withModifiers with
  | true =>
    have modifiers_lay : p.Lays plan (notedAll c) 0 [.each ["modifiers"]]
        ((fun docs => [Doc.join "" docs]) <$> p.printEach ["modifiers"]) :=
      (tally.laysEach _).map fun docs => by simp
    exact modifiers_lay.seq fun modifiers => tally.one fun type => tally.one fun name => .pure (by simp +arith)
  | false => exact tally.one fun type => tally.one fun name => .pure (by simp)

theorem variableDeclarations_lays :
    p.Lays plan (noted c) 0 [.each ["modifiers"], .one ["type"], .each ["decls"]] p.variableDeclarations := by
  refine tally.each fun modifiers => tally.one fun type => tally.each fun declared => .pure ?_
  match declared with
  | [] => simp
  | [single] => simp +arith
  | first :: second :: rest => simp +arith

theorem variableDeclaration_lays :
    p.Lays plan (noted c) 0 [.one ["name"], .one ["assignment", "value"]] p.variableDeclaration := by
  refine tally.one fun name => tally.one fun value => .ite (fun nothing => .pure ?_) fun _ => ?_
  · simp [noted_of_isEmpty nothing]
  · exact .ite (fun _ => .pure (by simp)) fun _ => .pure (by simp)

end ApexLayout.Printer
