import ApexLayout.Proofs.Guard.Comments
import ApexLayout.Proofs.Printing.Moves

/-!
Printers that keep the guard. What a printer gives for a node is tame if what it gives for the nodes
below is, and so are the comments beside a node.
What nodes are printed as is put together from tame documents. The comments in an empty block or body and those behind
an annotation are not tame in themselves, but a line end stands behind them.
-/
namespace ApexLayout
open Doc

def Yields {α : Type} (P : α → Prop) (outcome : Outcome α) : Prop := ∀ a, outcome = .ok a → P a

namespace Yields

variable {α β : Type} {P : α → Prop} {Q : β → Prop} {o : Outcome β}

theorem ok {a : α} (holds : P a) : Yields P (.ok a) := by
  rintro _ ⟨⟩
  exact holds

theorem pure {a : α} (holds : P a) : Yields P (Pure.pure a) := ok holds

theorem error {e : FormatError} : Yields P (.error e) := nofun

theorem bind {f : β → Outcome α} (first : Yields Q o) (rest : ∀ b, Q b → Yields P (f b)) :
    Yields P (o >>= f) := by
  intro a ok
  obtain ⟨b, here, later⟩ := bind_eq_ok.mp ok
  exact rest b (first b here) a later

theorem read {f : β → Outcome α} (rest : ∀ b, Yields P (f b)) : Yields P (o >>= f) := by
  intro a ok
  obtain ⟨b, -, later⟩ := bind_eq_ok.mp ok
  exact rest b a later

theorem map {f : β → α} (first : Yields Q o) (rest : ∀ b, Q b → P (f b)) : Yields P (f <$> o) := by
  intro a ok
  obtain ⟨b, here, rfl⟩ := map_eq_ok.mp ok
  exact rest b (first b here)

theorem ite {q : Prop} [Decidable q] {first second : Outcome α} (yes : Yields P first) (no : Yields P second) :
    Yields P (if q then first else second) := by
  split
  · exact yes
  · exact no

end Yields

namespace Manuscript

/-- The comments that may be printed behind an inline comment, on its line. -/
inductive Exposed (m : Manuscript) : Comment → Prop where
  /-- Held back behind a node, and not set off from what stands on the line then. -/
  | behindNode {id : NodeId} {first rest : List Comment} {c : Comment}
      (unmarked : m.tree.isKind id .annotationMark = false)
      (among : (m.trailingComments id).map (·.toComment) = first ++ c :: rest)
      (held : Comment.HeldBack m.source first c) : Exposed m c
  /-- Behind an inline comment at the same annotation. -/
  | behindMark {id : NodeId} {first rest : List Comment} {c : Comment} (marked : m.tree.isKind id .annotationMark)
      (among : (m.trailingComments id).map (·.toComment) = first ++ c :: rest)
      (inline : ∃ d ∈ first, d.isBlock = false) : Exposed m c
  /-- An inline comment in an empty body, or in no node, with no line feed between it and the one before. -/
  | inBody {comments : List BoundComment} {first rest : List Comment} {c : Comment}
      (body : comments = m.shelf.loose ∨ ∃ id, comments = m.shelf.dangling id)
      (among : comments.map (·.toComment) = first ++ c :: rest) (later : first ≠ []) (inline : c.isBlock = false)
      (sameLine : Text.lineFeedsBefore? m.source c.span.start = some 0) : Exposed m c

/-- Behind an inline comment there may be white space and exposed comments. -/
def guard (m : Manuscript) : Guard Comment := Comment.guard m.Exposed

variable (m : Manuscript)

theorem strays_danglingDocs (id : NodeId) : Strays m.guard .fresh (m.danglingDocs id) := by
  refine Comment.strays_danglingDocs _ fun first c rest among later inline sameLine => ?_
  exact .inBody (.inr ⟨id, rfl⟩) among later inline sameLine

theorem strays_loose :
    Strays m.guard .fresh (Comment.danglingDocs m.source (m.shelf.loose.map (·.toComment))) := by
  refine Comment.strays_danglingDocs _ fun first c rest among later inline sameLine => ?_
  exact .inBody (.inl rfl) among later inline sameLine

theorem strays_annotation {id : NodeId} (marked : m.tree.isKind id .annotationMark) :
    Strays m.guard .calm ((m.trailingComments id).flatMap fun c => [Doc.text " ", c.toComment.doc]) := by
  have strays : Strays m.guard .calm
      (((m.trailingComments id).map (·.toComment)).flatMap fun c => [Doc.text " ", c.doc]) := by
    refine Comment.strays_behind [] _ (by decide) nofun fun first c rest among inline => ?_
    exact .behindMark marked among inline
  rwa [List.flatMap_map] at strays

theorem tameAll_leadingDocs (comments : List BoundComment) :
    TameAll m.guard (comments.map (·.toComment.leadingDoc m.source)) := by
  intro doc member
  obtain ⟨c, -, rfl⟩ := List.mem_map.mp member
  exact c.toComment.tame_leadingDoc m.source

theorem tameAll_trailingDocs {id : NodeId} (unmarked : m.tree.isKind id .annotationMark = false) :
    TameAll m.guard (Comment.trailingDocs m.source none ((m.trailingComments id).map (·.toComment))) := by
  refine Comment.tameAll_trailingDocs _ ⟨fun _ => rfl, nofun, nofun⟩ fun first c rest among held => ?_
  exact .behindNode unmarked among held

end Manuscript

namespace Printer

def guard (p : Printer) : Guard Comment := p.manuscript.guard

def Tames (p : Printer) : Prop := ∀ path id edge, Yields (Tame p.guard) (p.printAt path id edge)

theorem tameAll_commentDocs? (p : Printer) {id : NodeId} {leading trailing : List Draft}
    (found : p.commentDocs? id = some (leading, trailing)) : TameAll p.guard leading ∧ TameAll p.guard trailing := by
  unfold commentDocs? at found
  split at found
  · cases found
  · split at found
    · simp only [Option.some.injEq, Prod.mk.injEq] at found
      obtain ⟨rfl, rfl⟩ := found
      refine ⟨p.manuscript.tameAll_leadingDocs _, ?_⟩
      split
      · exact tameAll_nil
      · next unmarked => exact p.manuscript.tameAll_trailingDocs (Bool.eq_false_iff.mpr unmarked)
    · cases found

@[simp] theorem tame_scalar {guard : Guard Comment} (value : Value) : Tame guard (scalar value) := by
  unfold scalar
  split <;> simp

section
variable {α : Type} {P : α → Prop} {p : Printer} (tames : p.Tames)
include tames

theorem Tames.printValue (path : Path) (edge : Edge) (value : Value) :
    Yields (Tame p.guard) (p.printValue path edge value) := by
  unfold Printer.printValue
  split
  · exact tames _ _ _
  · exact .ok (by simp)

theorem Tames.print (names : List String) : Yields (Tame p.guard) (p.print names) := by
  unfold Printer.print
  split
  · exact .ok tame_empty
  · exact .read fun path => tames.printValue _ _ _

theorem Tames.printItems (path : Path) (owner : NodeId) (slot : UInt16) (index : Nat) (items : List Value) :
    Yields (TameAll p.guard) (p.printItems path owner slot index items) := by
  induction items generalizing index with
  | nil => exact .ok tameAll_nil
  | cons item items ih =>
    exact (tames.printValue _ _ _).bind fun doc tame => (ih _).bind fun docs rest => .pure (by simp [tame, rest])

theorem Tames.printEach (names : List String) : Yields (TameAll p.guard) (p.printEach names) := by
  unfold Printer.printEach
  split
  · exact .read fun path => tames.printItems _ _ _ _ _
  · exact .ok tameAll_nil

theorem Tames.one {names : List String} {f : Draft → Outcome α} (rest : ∀ doc, Tame p.guard doc → Yields P (f doc)) :
    Yields P (p.print names >>= f) := (tames.print names).bind rest

theorem Tames.each {names : List String} {f : List Draft → Outcome α}
    (rest : ∀ docs, TameAll p.guard docs → Yields P (f docs)) : Yields P (p.printEach names >>= f) :=
  (tames.printEach names).bind rest

theorem Tames.moved (path : Path) : Tames { p with path } := tames

end

/-! ### Builders -/

section
variable {guard : Guard Comment} {members : List Draft}

@[simp] theorem tameAll_map_fill (docs : List Draft) : TameAll guard (docs.map fill) ↔ TameAll guard docs := by
  simp [TameAll]

@[simp] theorem tame_orderWord (p : Printer) (id : NodeId) (word : String) : Tame guard (p.orderWord id word) := by
  unfold orderWord
  split
  · simp
  · simp

theorem Spaced.tameAll {docs chain : List Draft} (spaced : Spaced docs chain) (tame : TameAll guard docs) :
    TameAll guard chain := by
  induction spaced with
  | nil => exact tame
  | next _ ih | apart breaks _ ih =>
    rw [tameAll_cons] at tame
    simp [tame.1, ih tame.2]

theorem strays_body {docs : List Draft} (strays : Strays guard .fresh docs) :
    Strays guard .calm [.concat (hardLine :: docs)] := strays

/-- What goes astray is tamed by what closes it, if that begins with a line end. -/
theorem tame_closed (before : List (List Draft)) {astray : List Draft} {ending : Draft} {after : List Draft}
    (tame : TameAll guard before.flatten) (strays : Strays guard .calm astray) (resets : Resets guard ending)
    (calm : TameAll guard after) : Tame guard (parts (before ++ [astray, ending :: after])) := by
  have settles := settles_reset tame strays resets calm
  simp only [tame_parts, List.flatten_append, List.flatten_cons, List.flatten_nil, List.append_nil]
  exact .inr settles

theorem tameAll_go (tame : TameAll guard members) :
    TameAll guard (separateMembers.go members) := by
  induction members with
  | nil => exact nofun
  | cons member members ih =>
    rw [tameAll_cons] at tame
    cases members with
    | nil => simp [separateMembers.go, tame.1]
    | cons next members => simp [separateMembers.go, tame.1, ih tame.2]

theorem tameAll_separateMembers (tame : TameAll guard members) :
    TameAll guard (separateMembers members) := tameAll_go (tame.filter _)

theorem resets_closing : Resets guard (.concat [hardLine, "\x7d"]) := resets_concat (by simp)

theorem strays_bodyLines (p : Printer) (id : NodeId) (tame : TameAll p.guard members) :
    Strays p.guard .calm (p.bodyLines id members) := by
  unfold bodyLines
  by_cases bare : (p.manuscript.danglingDocs id).isEmpty
  · refine TameAll.strays ?_
    simp [bare, tame]
  · simp only [bare]
    exact strays_body (p.manuscript.strays_danglingDocs id)

end

section
variable {p : Printer} {α : Type} {P : α → Prop} {f : Printer → Outcome α}
  (each : ∀ path, Yields P (f { p with path }))
include each

theorem withNode_yields (names : List String) :
    Yields (fun found => ∀ a, found = some a → P a) (p.withNode names f) := by
  unfold withNode
  split
  · refine .read fun path => (each path).map fun a holds => ?_
    rintro _ ⟨⟩
    exact holds
  · exact .ok nofun

theorem withItems_yields (path : Path) (owner : NodeId) (slot : UInt16) (index : Nat) (items : List Value) :
    Yields (∀ a ∈ ·, P a) (p.withItems path f owner slot index items) := by
  induction items generalizing index with
  | nil => exact .ok nofun
  | cons item items ih =>
    cases item with
    | node id =>
      refine .read fun inner => (each inner).bind fun a first => (ih (index + 1)).bind fun rest later => .pure ?_
      exact List.forall_mem_cons.mpr ⟨first, later⟩
    | _ => exact ih (index + 1)

theorem withNodes_yields (names : List String) : Yields (∀ a ∈ ·, P a) (p.withNodes names f) := by
  unfold withNodes
  split
  · exact .read fun path => withItems_yields each path _ _ _ _
  · exact .ok nofun

end

/-! ### Expressions, queries and searches -/

variable {p : Printer} {id : NodeId}

theorem operator_tame (kind : Kind) : Yields (Tame p.guard) (p.operator id kind) := by
  unfold operator
  split
  · exact .ok (by simp)
  · exact .error

variable (tames : p.Tames)
include tames

theorem arguments_tame : Yields (TameAll p.guard) p.arguments :=
  tames.each fun docs _ => .pure (by simp [*])

theorem operation_tame : Yields (Tame p.guard) (p.operation id) := by
  unfold operation
  refine .read fun own => .read fun leftTier => .read fun parentTier => ?_
  refine tames.one fun left _ => tames.one fun op _ => tames.one fun right _ => ?_
  refine .ite (.read fun rightTier => ?_) (.read fun rightTier => ?_)
  all_goals exact .ite (.pure (by simp [*])) (.ite (.pure (by simp [*])) (.pure (by simp [*])))

theorem assignment_tame : Yields (Tame p.guard) (p.assignment id) := by
  unfold assignment
  refine tames.one fun left _ => tames.one fun op _ => tames.one fun right _ => ?_
  split
  · exact .ite (.pure (by simp [*])) (.pure (by simp [*]))
  · exact .pure (by simp [*])

theorem receiver_tame : Yields (Tame p.guard) (p.receiver id) :=
  tames.one fun doc _ => .ite (.pure (by simp)) (.pure (by simp [*]))

theorem dottedNames_tame (field : String) : Yields (Tame p.guard) (p.dottedNames field) :=
  tames.each fun names _ => .pure (by simp [*])

theorem arrayIndex_tame (grouped : Bool) : Yields (Tame p.guard) (p.arrayIndex grouped) :=
  tames.one fun index _ => .pure (by simp [*])

theorem subjectIndex_tame (grouped : Bool) : Yields (Tame p.guard) (p.subjectIndex grouped) :=
  .ite (arrayIndex_tame (tames.moved _) grouped) (.ok (by simp))

theorem methodCall_tame : Yields (Tame p.guard) (p.methodCall id) := by
  refine (receiver_tame tames).bind fun receiver _ => (dottedNames_tame tames "names").bind fun names _ => ?_
  refine (arguments_tame tames).bind fun arguments _ => ?_
  refine (subjectIndex_tame tames _).bind fun index _ => .ite (.pure (by simp [*])) ?_
  by_cases nothing : receiver.isEmpty
  · simp only [nothing, Bool.not_true, Bool.false_eq_true, ↓reduceIte]
    exact .pure (by simp [*])
  · simp only [nothing, Bool.not_false, ↓reduceIte]
    exact .pure (by simp [*])

theorem literal_tame : Yields (Tame p.guard) (p.literal id) := by
  unfold literal
  dsimp only
  split
  · exact .ok (by simp)
  · exact .read fun raw => .ite (tames.print _) (.pure (by simp))
  iterate 3
    · refine .read fun raw => ?_
      split
      · exact .pure (by simp)
      · exact tames.print _
  · exact tames.print _

theorem initializer_tame (opening closing : String) : Yields (TameAll p.guard) (p.initializer opening closing) :=
  tames.one fun argument _ => .pure (by simp [*])

theorem collection_tame (name separator : String) (contents : Printer → Outcome (List Draft))
    (inner : Yields (TameAll p.guard) (contents p)) : Yields (Tame p.guard) (p.collection name separator contents) :=
  tames.each fun types _ => inner.bind fun contents _ => .pure (by simp [*])

theorem clause_tame (field : String) : Yields (TameAll p.guard) (p.clause field) :=
  tames.one fun doc _ => .pure (by simp [*])

theorem clauses_tame (fields : List String) : Yields (TameAll p.guard) (p.clauses fields) := by
  induction fields with
  | nil => exact .ok tameAll_nil
  | cons field fields ih =>
    exact (clause_tame tames field).bind fun first _ => ih.bind fun rest _ => .pure (by simp [*])

theorem aliasDocs_tame : Yields (TameAll p.guard) p.aliasDocs :=
  tames.one fun name _ => .pure (by simp [*])

theorem mapM_tame (fields : List String) : Yields (TameAll p.guard) (fields.mapM fun field => p.print [field]) := by
  induction fields with
  | nil => exact .pure tameAll_nil
  | cons field fields ih =>
    rw [List.mapM_cons]
    exact tames.one fun first _ => ih.bind fun rest _ => .pure (by simp [*])

theorem spaced_tame (field : String) (fields : List String) : Yields (Tame p.guard) (p.spaced (field :: fields)) :=
  tames.one fun first _ => (mapM_tame tames fields).bind fun rest tame => .pure (by simp [*, tame.spread])

theorem orderKey_tame (field : String) : Yields (Tame p.guard) (p.orderKey field) := by
  refine tames.one fun key _ => tames.one fun order first => tames.one fun nullOrder second => .pure ?_
  have words : TameAll p.guard [order, nullOrder] := by simp [first, second]
  simp [*, (words.filter _).spread]

theorem searchValues_tame : Yields (Tame p.guard) p.searchValues := by
  refine tames.each fun values _ => ?_
  split
  · exact .pure (by simp_all)
  · exact .pure (by simp [*])

/-! ### Statements -/

theorem block_tame : Yields (Tame p.guard) (p.block id) := by
  refine tames.each fun statements _ => .pure ?_
  by_cases bare : (p.manuscript.danglingDocs id).isEmpty
  · simp [*]
  · have strays := strays_body (p.manuscript.strays_danglingDocs id)
    simp only [bare]
    exact tame_closed [["\x7b"]] (by simp) strays resets_hardLine (by simp)

theorem accessMode_tame : Yields (TameAll p.guard) p.accessMode :=
  tames.one fun mode _ => .pure (by simp [*])

theorem ifElse_tame : Yields (Tame p.guard) (p.ifElse id) := by
  refine tames.each fun docs tame => tames.one fun otherwise _ => ?_
  have chain_tame : Yields (TameAll p.guard) (branches p (p.tree.nodesIn id "ifBlocks")
      ((p.tree.nodesIn id "ifBlocks").map (p.isBlockAt · ["stmnt"]))
      ((p.tree.nodesIn id "ifBlocks").map p.manuscript.hasTrailingComment) 0 docs) :=
    fun chain spaced => (spaced_of_branches spaced).tameAll tame
  exact chain_tame.bind fun chain _ => .pure (by simp [*])

theorem tryStatement_tame : Yields (Tame p.guard) (p.tryStatement id) := by
  refine tames.one fun guarded _ => tames.each fun docs tame => tames.one fun final _ => ?_
  refine Yields.bind (Q := TameAll p.guard) (fun catches spaced => (spaced_of_handlers spaced).tameAll tame) ?_
  exact fun catches _ => .pure (by simp [*])

theorem loopBody_tame : Yields (Tame p.guard) (p.loopBody id) :=
  .ite (.ok (by simp)) (tames.one fun statement tame => .pure (by simp [tame]))

def TamePair (guard : Guard Comment) (pair : Draft × Draft) : Prop := Tame guard pair.1 ∧ Tame guard pair.2

theorem forInitParts_tame : Yields (TamePair p.guard) p.forInitParts :=
  (dottedNames_tame tames "name").bind fun _ first => tames.one fun _ second => .pure ⟨first, second⟩

theorem forInitWithComments_tame : Yields (TamePair p.guard) p.forInitWithComments := by
  refine (forInitParts_tame tames).bind fun pair tame => ?_
  cases found : p.commentDocs? p.current with
  | none => exact .pure tame
  | some around =>
    obtain ⟨leading, trailing⟩ := p.tameAll_commentDocs? found
    refine .pure ?_
    by_cases bare : pair.2.isEmpty
    · simp [bare, TamePair, leading, trailing, tame.1, tame.2]
    · simp [bare, TamePair, leading, trailing, tame.1, tame.2]

theorem movedInit_tame (path : Path) :
    Yields (TamePair p.guard) (forInitWithComments { p with path }) := forInitWithComments_tame (tames.moved path)

theorem enhancedForControl_tame : Yields (Tame p.guard) p.enhancedForControl := by
  refine (withNode_yields (movedInit_tame tames) ["init"]).bind fun found pair => tames.one fun type _ => .pure ?_
  cases found with
  | none => simp [*]
  | some init => simp [*, (pair init rfl).1, (pair init rfl).2]

theorem forInits_tame : Yields (Tame p.guard) p.forInits := by
  refine tames.one fun type _ => (withNodes_yields (movedInit_tame tames) ["inits"]).bind fun inits pairs => .pure ?_
  have tame : TameAll p.guard
      (inits.map fun init => if init.2.isEmpty then init.1 else join " = " [init.1, init.2]) := by
    intro doc member
    obtain ⟨init, among, rfl⟩ := List.mem_map.mp member
    simp [(pairs init among).1, (pairs init among).2]
  simp [*]

/-! ### Declarations -/

theorem annotated_tame (marked : p.tree.isKind id .annotationMark) : Yields (Tame p.guard) (p.annotated id) := by
  refine tames.each fun parameters _ => tames.one fun name _ => .pure ?_
  have strays := p.manuscript.strays_annotation marked
  refine tame_closed [["@", name], _] ?_ strays resets_hardLine tameAll_nil
  simp [*]

theorem triggerUnit_tame : Yields (Tame p.guard) (p.triggerUnit id) := by
  refine tames.each fun usages _ => tames.each fun targets _ => tames.one fun name _ => ?_
  refine tames.each fun members tame => .pure ?_
  have strays := strays_bodyLines p id (tameAll_separateMembers tame)
  refine tame_closed [_] ?_ strays resets_closing tameAll_nil
  simp [*]

omit tames in
theorem triggerUsage_tame : Yields (Tame p.guard) (p.triggerUsage id) := by
  simp only [triggerUsage]
  split
  · exact .ok (tame_text _)
  · exact .error

theorem typeArguments_tame : Yields (TameAll p.guard) (p.typeArguments id) :=
  .ite (.ok tameAll_nil) (tames.each fun types _ => .pure (by simp [*]))

theorem typeDeclaration_tame (word superField : String) (implements : Bool) :
    Yields (Tame p.guard) (p.typeDeclaration id word superField implements) := by
  refine tames.one fun extended _ => tames.each fun modifiers _ => tames.each fun members tame => ?_
  refine tames.one fun name _ => (typeArguments_tame tames).bind fun types _ => ?_
  have strays := strays_bodyLines p id (tameAll_separateMembers tame)
  have declared : ∀ interfaces : List Draft, TameAll p.guard interfaces → Tame p.guard (parts
      [modifierList modifiers, [.text word, name], types, unlessEmpty extended [.concat [" extends ", extended]],
        (if interfaces.isEmpty then [] else [.concat [" implements ", join ", " interfaces]]), [" \x7b"],
        p.bodyLines id (separateMembers members), [.concat [hardLine, "\x7d"]]]) := by
    intro interfaces _
    refine tame_closed [_, _, _, _, _, _] ?_ strays resets_closing tameAll_nil
    simp [*]
  cases implements with
  | true => exact tames.each fun interfaces tame => .pure (declared interfaces tame)
  | false => exact .pure (declared [] tameAll_nil)

theorem enumDeclaration_tame : Yields (Tame p.guard) (p.enumDeclaration id) := by
  refine tames.each fun modifiers _ => tames.each fun members tame => tames.one fun name _ => .pure ?_
  refine tame_closed [_] ?_ (strays_bodyLines p id ?_) resets_closing tameAll_nil
  · simp [*]
  · simp [*]

theorem parameter_tame (withModifiers : Bool) : Yields (Tame p.guard) (p.parameter withModifiers) := by
  have rest : ∀ modifiers : List Draft, TameAll p.guard modifiers → Yields (Tame p.guard) (do
      let type ← p.print ["typeRef"]
      let name ← p.print ["name"]
      return Doc.parts [modifiers, [type, " ", name]]) :=
    fun modifiers _ => tames.one fun type _ => tames.one fun name _ => .pure (by simp [*])
  cases withModifiers with
  | true => exact ((tames.printEach ["modifiers"]).map fun docs tame => by simp [tame]).bind rest
  | false => exact rest [] tameAll_nil

theorem variableDeclarations_tame : Yields (Tame p.guard) p.variableDeclarations := by
  refine tames.each fun modifiers _ => tames.one fun type _ => tames.each fun declared tame => .pure ?_
  match declared, tame with
  | [], _ => simp [*]
  | [single], tame => simp [*, tame single List.mem_cons_self]
  | first :: second :: rest, tame => simp [*]

end Printer
end ApexLayout
