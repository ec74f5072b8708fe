import ApexLayout.Proofs.Condition.Grammar
import ApexLayout.Proofs.Printing.Moves

/-!
Printed conditions. What is printed for a condition is a sentence of the grammar, and what the
sentence is read as differs from the condition only in chains merged into one. So parentheses are
printed wherever the meaning needs them.
-/
namespace ApexLayout
namespace Condition

variable {α β : Type}

/-! ### Conditions as they are written -/

/-- What a condition is part of. -/
inductive Around where
  | outside
  | negation
  | chain (op : Connective)
  deriving Repr, DecidableEq

/-- Whether the condition is written in parentheses there. -/
def isEnclosed (around : Around) : Condition α → Bool
  | .atom _ => false
  | .not _ => around != .outside
  | .chain op _ => around != .outside && around != .chain op

/-- Tokens in parentheses, if need be. -/
def enclose (enclosed : Bool) (ts : List (Token α)) : List (Token α) :=
  if enclosed then .opening :: (ts ++ [.closing]) else ts

mutual
/-- The tokens that are printed for a condition. -/
def written : Condition α → List (Token α)
  | .atom a => [.atom a]
  | .not c => .not :: enclose (c.isEnclosed .negation) c.written
  | .chain op cs => writtenAll op cs
/-- The tokens of a chain. -/
def writtenAll (op : Connective) : List (Condition α) → List (Token α)
  | [] => []
  | [c] => enclose (c.isEnclosed (.chain op)) c.written
  | c :: d :: cs => enclose (c.isEnclosed (.chain op)) c.written ++ .link op :: writtenAll op (d :: cs)
end

mutual
/-- No chain is empty. -/
def Proper : Condition α → Prop
  | .atom _ => True
  | .not c => c.Proper
  | .chain _ cs => cs ≠ [] ∧ AllProper cs
def AllProper : List (Condition α) → Prop
  | [] => True
  | c :: cs => c.Proper ∧ AllProper cs
end

mutual
/-- What the printed tokens are read as: a chain in a chain of the same kind is merged into it. -/
def reading : Condition α → Condition α
  | .atom a => .atom a
  | .not c => .not c.reading
  | .chain op cs => build op (spreadAll op cs)
/-- The operands that a condition is read as within a chain. -/
def spread (op : Connective) : Condition α → List (Condition α)
  | .atom a => [.atom a]
  | .not c => [.not c.reading]
  | .chain inner cs => if inner = op then spreadAll op cs else [build inner (spreadAll inner cs)]
def spreadAll (op : Connective) : List (Condition α) → List (Condition α)
  | [] => []
  | c :: cs => spread op c ++ spreadAll op cs
end

theorem Sentence.enclosed {ts : List (Token α)} {c : Condition α} (sentence : Sentence ts c) :
    Operand (enclose true ts) c := .parentheses sentence

mutual
theorem sentence_written : ∀ c : Condition α, c.Proper → Sentence c.written c.reading
  | .atom a, _ => .chain .and (.one (.atom a))
  | .not c, proper => .not (operand_written c proper)
  | .chain op cs, proper => .chain op (operands_writtenAll op cs proper.1 proper.2)
/-- Behind NOT everything but an atom is in parentheses. -/
theorem operand_written : ∀ c : Condition α, c.Proper → Operand (enclose (c.isEnclosed .negation) c.written) c.reading
  | .atom a, _ => .atom a
  | .not c, proper => (Sentence.not (operand_written c proper)).enclosed
  | .chain op cs, proper => (Sentence.chain op (operands_writtenAll op cs proper.1 proper.2)).enclosed
/-- Within a chain only chains with the same operator are not in parentheses. -/
theorem operands_written (op : Connective) :
    ∀ c : Condition α, c.Proper → Operands op (enclose (c.isEnclosed (.chain op)) c.written) (spread op c)
  | .atom a, _ => .one (.atom a)
  | .not c, proper => .one (Sentence.not (operand_written c proper)).enclosed
  | .chain inner cs, proper => by
    have operands := operands_writtenAll inner cs proper.1 proper.2
    by_cases same : inner = op
    · subst same
      simpa [isEnclosed, enclose, written, spread] using operands
    · have enclosed : (Condition.chain inner cs).isEnclosed (.chain op) = true := by simp [isEnclosed, Ne.symm same]
      rw [enclosed, spread, if_neg same]
      exact .one (Sentence.chain inner operands).enclosed
theorem operands_writtenAll (op : Connective) :
    ∀ cs : List (Condition α), cs ≠ [] → AllProper cs → Operands op (writtenAll op cs) (spreadAll op cs)
  | [c], _, proper => by
    have operands := operands_written op c proper.1
    simpa [writtenAll, spreadAll] using operands
  | c :: d :: cs, _, proper => by
    have left := operands_written op c proper.1
    have right := operands_writtenAll op (d :: cs) (List.cons_ne_nil d cs) proper.2
    exact left.append right
end

/-! ### What is read is the same condition -/

theorem alike_build (op : Connective) (cs : List (Condition α)) : Alike (build op cs) (.chain op cs) := by
  match cs with
  | [] => exact .refl _
  | [c] => exact (Alike.single op c).symm
  | _ :: _ :: _ => exact .refl _

mutual
/-- What is read is the condition itself, up to chains merged into one. -/
theorem alike_reading : ∀ c : Condition α, Alike c.reading c
  | .atom a => .refl _
  | .not c => .not (alike_reading c)
  | .chain op cs => by
    have merged := alike_spreadAll op [] [] cs
    rw [List.append_nil, List.append_nil] at merged
    exact (alike_build op _).trans merged
theorem alike_spread (op : Connective) (before after : List (Condition α)) :
    ∀ c : Condition α, Alike (.chain op (before ++ spread op c ++ after)) (.chain op (before ++ c :: after))
  | .atom a => by simpa [spread] using Alike.refl _
  | .not c => by simpa [spread] using Alike.operand op before after (alike_reading c).not
  | .chain inner cs => by
    by_cases same : inner = op
    · subst same
      have merged := alike_spreadAll inner before after cs
      rw [spread, if_pos rfl]
      exact merged.trans (Alike.merge inner before cs after).symm
    · have inside := alike_spreadAll inner [] [] cs
      rw [List.append_nil, List.append_nil] at inside
      rw [spread, if_neg same, List.append_assoc, List.singleton_append]
      exact .operand op before after ((alike_build inner _).trans inside)
theorem alike_spreadAll (op : Connective) (before after : List (Condition α)) :
    ∀ cs : List (Condition α), Alike (.chain op (before ++ spreadAll op cs ++ after)) (.chain op (before ++ cs ++ after))
  | [] => .refl _
  | c :: cs => by
    have first := alike_spread op before (spreadAll op cs ++ after) c
    have rest := alike_spreadAll op (before ++ [c]) after cs
    simp only [List.append_assoc, List.cons_append, List.nil_append, spreadAll] at first rest ⊢
    exact first.trans rest
end

/-! ### The same condition over other atoms -/

mutual
/-- The conditions differ in their atoms only. -/
def Lifts (related : α → β → Prop) : Condition α → Condition β → Prop
  | .atom a, .atom b => related a b
  | .not c, .not d => Lifts related c d
  | .chain op cs, .chain other ds => op = other ∧ LiftAll related cs ds
  | _, _ => False
def LiftAll (related : α → β → Prop) : List (Condition α) → List (Condition β) → Prop
  | [], [] => True
  | c :: cs, d :: ds => Lifts related c d ∧ LiftAll related cs ds
  | _, _ => False
end

variable {related : α → β → Prop}

mutual
theorem Lifts.proper : ∀ (c : Condition α) (d : Condition β), c.Lifts related d → c.Proper → d.Proper
  | .atom _, .atom _, _, _ => trivial
  | .not c, .not d, lifts, proper => Lifts.proper c d lifts proper
  | .chain _ cs, .chain _ ds, lifts, proper => by
    refine ⟨?_, LiftAll.proper cs ds lifts.2 proper.2⟩
    rintro rfl
    cases cs with
    | nil => exact proper.1 rfl
    | cons c cs => exact lifts.2.elim
theorem LiftAll.proper : ∀ (cs : List (Condition α)) (ds : List (Condition β)),
    LiftAll related cs ds → AllProper cs → AllProper ds
  | [], [], _, _ => trivial
  | c :: cs, d :: ds, lifts, proper => ⟨Lifts.proper c d lifts.1 proper.1, LiftAll.proper cs ds lifts.2 proper.2⟩
end

/-- Related atoms are true together. -/
def Agree (related : α → β → Prop) (truth : α → Bool) (reading : β → Bool) : Prop :=
  ∀ a b, related a b → reading b = truth a

mutual
theorem Lifts.holds_eq {truth : α → Bool} {reading : β → Bool} (agree : Agree related truth reading) :
    ∀ (c : Condition α) (d : Condition β), c.Lifts related d → d.holds reading = c.holds truth
  | .atom a, .atom b, lifts => agree a b lifts
  | .not c, .not d, lifts => by
    have same := Lifts.holds_eq agree c d lifts
    simp only [holds, same]
  | .chain .and cs, .chain _ ds, ⟨rfl, lifts⟩ => LiftAll.holdAll_eq agree cs ds lifts
  | .chain .or cs, .chain _ ds, ⟨rfl, lifts⟩ => LiftAll.holdAny_eq agree cs ds lifts
theorem LiftAll.holdAll_eq {truth : α → Bool} {reading : β → Bool} (agree : Agree related truth reading) :
    ∀ (cs : List (Condition α)) (ds : List (Condition β)),
      LiftAll related cs ds → holdAll reading ds = holdAll truth cs
  | [], [], _ => rfl
  | c :: cs, d :: ds, lifts => by
    rw [holdAll, holdAll, Lifts.holds_eq agree c d lifts.1, LiftAll.holdAll_eq agree cs ds lifts.2]
theorem LiftAll.holdAny_eq {truth : α → Bool} {reading : β → Bool} (agree : Agree related truth reading) :
    ∀ (cs : List (Condition α)) (ds : List (Condition β)),
      LiftAll related cs ds → holdAny reading ds = holdAny truth cs
  | [], [], _ => rfl
  | c :: cs, d :: ds, lifts => by
    rw [holdAny, holdAny, Lifts.holds_eq agree c d lifts.1, LiftAll.holdAny_eq agree cs ds lifts.2]
end

end Condition

/-! ### Conditions in a tree, and the tokens of a document -/

open Condition (Token)

/-- The node of a connective. -/
def Connective.kind : Connective → Kind
  | .and => .queryAnd
  | .or => .queryOr

namespace Tree

/-- The nodes of conditions that have no conditions in them. -/
def plainConditions : List Kind := [.whereCalcExpr, .whereDistanceExpr, .whereInnerExpr, .whereOpExpr, .whereOpExprs]

/-- The operator of a node is of this kind. -/
def HasSign (t : Tree) (id : NodeId) (kind : Kind) : Prop := ∃ sign, t.child? id "op" = some sign ∧ t.kind? sign = some kind

mutual
/-- The node is a condition, with nodes for atoms. -/
def StandsFor (t : Tree) : NodeId → Condition NodeId → Prop
  | id, .atom leaf => id = leaf ∧ ∃ kind ∈ plainConditions, t.kind? id = some kind
  | id, .not c =>
    t.kind? id = some .whereUnaryExpr ∧ t.HasSign id .whereUnaryOp ∧
      ∃ operand, t.child? id "expr" = some operand ∧ t.StandsFor operand c
  | id, .chain op cs =>
    t.kind? id = some .whereCompoundExpr ∧ t.HasSign id op.kind ∧ cs ≠ [] ∧
      ∃ operands, t.items id "expr" = operands.map .node ∧ t.StandForAll operands cs
def StandForAll (t : Tree) : List NodeId → List (Condition NodeId) → Prop
  | [], [] => True
  | id :: ids, c :: cs => t.StandsFor id c ∧ t.StandForAll ids cs
  | _, _ => False
end

mutual
theorem StandsFor.proper {t : Tree} : ∀ (id : NodeId) (c : Condition NodeId), t.StandsFor id c → c.Proper
  | _, .atom _, _ => trivial
  | _, .not c, ⟨_, _, operand, _, stands⟩ => StandsFor.proper operand c stands
  | _, .chain _ cs, ⟨_, _, nonempty, operands, _, stand⟩ => ⟨nonempty, StandForAll.proper operands cs stand⟩
theorem StandForAll.proper {t : Tree} :
    ∀ (ids : List NodeId) (cs : List (Condition NodeId)), t.StandForAll ids cs → Condition.AllProper cs
  | [], [], _ => trivial
  | id :: ids, c :: cs, ⟨first, rest⟩ => ⟨StandsFor.proper id c first, StandForAll.proper ids cs rest⟩
end

end Tree

namespace Doc

/-- The token of a text; a space is none. -/
def wordTokens (word : String) : List (Token Draft) :=
  if word = "(" then [.opening]
  else if word = ")" then [.closing]
  else if word = "AND" then [.link .and]
  else if word = "OR" then [.link .or]
  else if word = "NOT" then [.not]
  else if word = " " then []
  else [.atom (.text word)]

mutual
/-- The tokens of a document that is a condition. A group is one atom, lines and spaces are none. -/
def conditionTokens : Draft → List (Token Draft)
  | .text word => wordTokens word
  | .concat parts => conditionTokensOf parts
  | .group contents broken => [.atom (.group contents broken)]
  | .indent contents => contents.conditionTokens
  | .dedent contents => contents.conditionTokens
  | .align _ contents => contents.conditionTokens
  | .lineSuffix contents => contents.conditionTokens
  | .note _ contents => contents.conditionTokens
  | .line => []
  | .softLine => []
  | .lineEnd => []
  | .breakParent => []
  | .trim => []
def conditionTokensOf : List Draft → List (Token Draft)
  | [] => []
  | doc :: docs => doc.conditionTokens ++ conditionTokensOf docs
end

@[simp] theorem conditionTokens_hardLine : conditionTokens hardLine = [] := rfl

theorem conditionTokens_withBlank (p : Printer) (doc : Draft) :
    (p.withBlank doc).conditionTokens = doc.conditionTokens := by
  unfold Printer.withBlank
  split <;> simp [conditionTokens, conditionTokensOf]

end Doc

namespace Printer

variable {p : Printer} {doc : Draft}

theorem spaced_eq_fill {first : String} {rest : List String} (ok : p.spaced (first :: rest) = .ok doc) :
    ∃ contents, doc = Doc.fill contents := by
  simp only [spaced, bind_eq_ok, pure_eq_ok] at ok
  obtain ⟨_, _, _, _, rfl⟩ := ok
  exact ⟨_, rfl⟩

theorem conditionInQuery_eq_fill (ok : p.conditionInQuery = .ok doc) : ∃ contents, doc = Doc.fill contents := by
  simp only [conditionInQuery, bind_eq_ok, pure_eq_ok] at ok
  obtain ⟨_, _, _, _, _, _, rfl⟩ := ok
  exact ⟨_, rfl⟩

theorem conditionInList_eq_fill (ok : p.conditionInList = .ok doc) : ∃ contents, doc = Doc.fill contents := by
  simp only [conditionInList, bind_eq_ok, pure_eq_ok] at ok
  obtain ⟨_, _, _, _, _, _, rfl⟩ := ok
  exact ⟨_, rfl⟩

end Printer

namespace Manuscript

variable {m : Manuscript}

theorem ofKind_of_printAt (bare : m.Bare) {bound : Nat} {path : Path} {id : NodeId} {edge : Option Edge} {doc : Draft}
    {kind : Kind} (known : m.tree.kind? id = some kind) (ok : m.printAt bound path id edge = .ok doc) :
    ∃ fuel inner, bound = fuel + 1 ∧ Printer.ofKind ⟨m, ⟨id, edge⟩ :: path, m.printAt fuel⟩ id kind = .ok inner ∧
      doc = Printer.withBlank ⟨m, ⟨id, edge⟩ :: path, m.printAt fuel⟩ inner := by
  obtain ⟨fuel, rfl, printed⟩ := printAt_eq_ok ok
  rw [Printer.occurrence_bare (p := ⟨m, ⟨id, edge⟩ :: path, m.printAt fuel⟩) bare known, map_eq_ok] at printed
  obtain ⟨inner, by_kind, rfl⟩ := printed
  exact ⟨fuel, inner, rfl, by_kind, rfl⟩

/-- The node is printed as this atom somewhere. -/
def Prints (m : Manuscript) (leaf : NodeId) (atom : Draft) : Prop :=
  ∃ bound path edge doc, m.printAt bound path leaf edge = .ok doc ∧ doc.conditionTokens = [.atom atom]

section
variable (bare : m.Bare) {bound : Nat} {path : Path} {id : NodeId} {edge : Option Edge} {doc : Draft}
include bare

theorem conditionTokens_sign (op : Connective) (known : m.tree.kind? id = some op.kind)
    (ok : m.printAt bound path id edge = .ok doc) : doc.conditionTokens = [.link op] := by
  obtain ⟨fuel, inner, rfl, by_kind, rfl⟩ := ofKind_of_printAt bare known ok
  rw [Doc.conditionTokens_withBlank]
  cases op <;> cases by_kind <;> rfl

theorem conditionTokens_negation (known : m.tree.kind? id = some .whereUnaryOp)
    (ok : m.printAt bound path id edge = .ok doc) : doc.conditionTokens = [.not] := by
  obtain ⟨fuel, inner, rfl, by_kind, rfl⟩ := ofKind_of_printAt bare known ok
  rw [Doc.conditionTokens_withBlank]
  cases by_kind
  rfl

theorem conditionTokens_plain {kind : Kind} (plain : kind ∈ Tree.plainConditions) (known : m.tree.kind? id = some kind)
    (ok : m.printAt bound path id edge = .ok doc) : ∃ atom, doc.conditionTokens = [.atom atom] := by
  obtain ⟨fuel, inner, rfl, by_kind, rfl⟩ := ofKind_of_printAt bare known ok
  rw [Doc.conditionTokens_withBlank]
  obtain ⟨contents, rfl⟩ : ∃ contents, inner = Doc.fill contents := by
    simp only [Tree.plainConditions, List.mem_cons, List.not_mem_nil, or_false] at plain
    rcases plain with rfl | rfl | rfl | rfl | rfl
    · exact Printer.spaced_eq_fill by_kind
    · exact Printer.spaced_eq_fill by_kind
    · exact Printer.conditionInQuery_eq_fill by_kind
    · exact Printer.spaced_eq_fill by_kind
    · exact Printer.conditionInList_eq_fill by_kind
  exact ⟨_, rfl⟩

end

/-- The end of the path is a negation or a chain. -/
def Within (m : Manuscript) (path : Path) : Condition.Around → Prop
  | .outside => False
  | .negation => ∃ frame ∈ path.head?, m.tree.kind? frame.id = some .whereUnaryExpr ∧ m.tree.HasSign frame.id .whereUnaryOp
  | .chain op => ∃ frame ∈ path.head?, m.tree.kind? frame.id = some .whereCompoundExpr ∧ m.tree.HasSign frame.id op.kind

end Manuscript

namespace Printer

variable {p : Printer} {id : NodeId} {edge : Option Edge} {path : Path}

theorem isInCondition_of_within {around : Condition.Around} (at_node : p.path = ⟨id, edge⟩ :: path)
    (within : p.manuscript.Within path around) : p.isInCondition = true := by
  rw [isInCondition, parent?_of_path at_node]
  cases around with
  | outside => exact within.elim
  | negation | chain op =>
    obtain ⟨frame, head, kind, -⟩ := within
    rw [Option.mem_def] at head
    simp [head, Tree.isAmong, tree, kind]

theorem sign_eq {kind : Kind} (sign : p.tree.HasSign id kind) : (p.tree.child? id "op").bind p.tree.kind? = some kind := by
  obtain ⟨node, held, known⟩ := sign
  rw [held, Option.bind_some, known]

/-- A negation that is part of another condition is in parentheses. -/
theorem negatedCondition_eq_ok {doc : Draft} (at_node : p.path = ⟨id, edge⟩ :: path) (ok : p.negatedCondition = .ok doc) :
    ∃ op operand enclosed, p.print ["op"] = .ok op ∧ p.print ["expr"] = .ok operand ∧
      doc.conditionTokens = Condition.enclose enclosed (op.conditionTokens ++ operand.conditionTokens) ∧
        ∀ around, p.manuscript.Within path around → enclosed = true := by
  simp only [negatedCondition, bind_eq_ok, pure_eq_ok] at ok
  obtain ⟨op, op_ok, operand, operand_ok, rfl⟩ := ok
  refine ⟨op, operand, p.isInCondition, op_ok, operand_ok, ?_, fun _ within => isInCondition_of_within at_node within⟩
  cases p.isInCondition <;> simp [Doc.conditionTokens, Doc.conditionTokensOf, Doc.wordTokens, Condition.enclose]

/-- A chain that is part of another condition is in parentheses, unless that one is a chain with the same
    operator. -/
theorem compoundCondition_eq_ok {doc : Draft} {op : Connective} (at_node : p.path = ⟨id, edge⟩ :: path)
    (sign : p.tree.HasSign id op.kind) (ok : p.compoundCondition id = .ok doc) :
    ∃ link operands enclosed, p.print ["op"] = .ok link ∧ p.printEach ["expr"] = .ok operands ∧
      doc.conditionTokens =
        Condition.enclose enclosed (Doc.conditionTokensOf (Doc.joinParts (.concat [.line, link, " "]) operands)) ∧
        ∀ around, p.manuscript.Within path around → enclosed = (around != .chain op) := by
  simp only [compoundCondition, bind_eq_ok, pure_eq_ok, sign_eq sign] at ok
  obtain ⟨link, link_ok, operands, operands_ok, rfl⟩ := ok
  set outer := p.parent?.bind fun node => (p.tree.child? node "op").bind p.tree.kind? with outer_eq
  refine ⟨link, operands, p.isInCondition && (outer.isNone || some op.kind != outer), link_ok, operands_ok, ?_, ?_⟩
  · cases p.isInCondition && (outer.isNone || some op.kind != outer) <;>
      simp [Doc.conditionTokens, Doc.conditionTokensOf, Doc.wordTokens, Condition.enclose, Doc.join]
  · intro around within
    rw [isInCondition_of_within at_node within, Bool.true_and]
    rw [parent?_of_path at_node] at outer_eq
    cases around with
    | outside => exact within.elim
    | negation =>
      obtain ⟨frame, head, -, outer_sign⟩ := within
      rw [Option.mem_def] at head
      rw [head, Option.map_some, Option.bind_some, sign_eq outer_sign] at outer_eq
      rw [outer_eq]
      cases op <;> rfl
    | chain other =>
      obtain ⟨frame, head, -, outer_sign⟩ := within
      rw [Option.mem_def] at head
      rw [head, Option.map_some, Option.bind_some, sign_eq outer_sign] at outer_eq
      rw [outer_eq]
      cases op <;> cases other <;> rfl

end Printer

namespace Manuscript

variable {m : Manuscript}

mutual
/-- What is printed for a condition are its tokens, in parentheses if what it is part of asks for them. -/
theorem conditionTokens_printAt (bare : m.Bare) : ∀ (c : Condition NodeId) {bound : Nat} {path : Path} {id : NodeId}
    {edge : Option Edge} {doc : Draft}, m.tree.StandsFor id c → m.printAt bound path id edge = .ok doc →
      ∃ shown enclosed, c.Lifts m.Prints shown ∧ doc.conditionTokens = Condition.enclose enclosed shown.written ∧
        ∀ around, m.Within path around → enclosed = shown.isEnclosed around
  | .atom leaf, bound, path, id, edge, doc, ⟨same, kind, plain, known⟩, ok => by
    subst same
    obtain ⟨atom, tokens⟩ := conditionTokens_plain bare plain known ok
    exact ⟨.atom atom, false, ⟨bound, path, edge, doc, ok, tokens⟩, tokens, fun _ _ => rfl⟩
  | .not c, bound, path, id, edge, doc, ⟨known, sign, operand, held, stands⟩, ok => by
    obtain ⟨fuel, inner, rfl, by_kind, rfl⟩ := ofKind_of_printAt bare known ok
    set p : Printer := ⟨m, ⟨id, edge⟩ :: path, m.printAt fuel⟩
    obtain ⟨opDoc, operandDoc, enclosed, op_ok, operand_ok, tokens, asked⟩ := Printer.negatedCondition_eq_ok rfl by_kind
    obtain ⟨node, op_held, op_known⟩ := sign
    obtain ⟨slot, op_at, -⟩ := Printer.print_child (p := p) op_held
    obtain ⟨place, operand_at, -⟩ := Printer.print_child (p := p) held
    have op_tokens := conditionTokens_negation bare op_known (op_at.symm.trans op_ok)
    obtain ⟨shown, inside, lifts, within, inside_asked⟩ :=
      conditionTokens_printAt bare c stands (operand_at.symm.trans operand_ok)
    have negated := inside_asked .negation ⟨⟨id, edge⟩, rfl, known, node, op_held, op_known⟩
    refine ⟨.not shown, enclosed, lifts, ?_, ?_⟩
    · rw [Doc.conditionTokens_withBlank, tokens, op_tokens, within, negated]
      rfl
    · intro around at_around
      rw [asked around at_around]
      cases around with
      | outside => exact at_around.elim
      | _ => rfl
  | .chain op cs, bound, path, id, edge, doc, ⟨known, sign, nonempty, operands, held, stand⟩, ok => by
    obtain ⟨fuel, inner, rfl, by_kind, rfl⟩ := ofKind_of_printAt bare known ok
    set p : Printer := ⟨m, ⟨id, edge⟩ :: path, m.printAt fuel⟩
    obtain ⟨link, docs, enclosed, link_ok, docs_ok, tokens, asked⟩ := Printer.compoundCondition_eq_ok (p := p) rfl sign by_kind
    obtain ⟨node, op_held, op_known⟩ := sign
    obtain ⟨slot, op_at, -⟩ := Printer.print_child (p := p) op_held
    obtain ⟨place, each_at, -⟩ := Printer.printEach_nodes (p := p) held
    have link_tokens := conditionTokens_sign bare op op_known (op_at.symm.trans link_ok)
    have separator : Doc.conditionTokens (.concat [.line, link, " "]) = [.link op] := by
      simp [Doc.conditionTokens, Doc.conditionTokensOf, Doc.wordTokens, link_tokens]
    obtain ⟨shown, lifts, within⟩ := conditionTokens_printItems bare cs (p := p) rfl
      ⟨⟨id, edge⟩, rfl, known, node, op_held, op_known⟩ stand separator (each_at.symm.trans docs_ok)
    refine ⟨.chain op shown, enclosed, ⟨rfl, lifts⟩, ?_, ?_⟩
    · rw [Doc.conditionTokens_withBlank, tokens, within]
      rfl
    · intro around at_around
      rw [asked around at_around]
      cases around with
      | outside => exact at_around.elim
      | _ => rfl
theorem conditionTokens_printItems (bare : m.Bare) : ∀ (cs : List (Condition NodeId)) {fuel : Nat} {p : Printer}
    {op : Connective} {ids : List NodeId} {path : Path} {owner : NodeId} {slot : UInt16} {index : Nat}
    {separator : Draft} {docs : List Draft},
      p.printAt = m.printAt fuel → m.Within path (.chain op) → m.tree.StandForAll ids cs →
        separator.conditionTokens = [.link op] → p.printItems path owner slot index (ids.map .node) = .ok docs →
          ∃ shown, Condition.LiftAll m.Prints cs shown ∧
            Doc.conditionTokensOf (Doc.joinParts separator docs) = Condition.writtenAll op shown
  | [], _, _, _, [], _, _, _, _, _, _, _, _, _, _, ok => by
    cases ok
    exact ⟨[], trivial, rfl⟩
  | c :: cs, fuel, p, op, id :: ids, path, owner, slot, index, separator, docs, prints, within, ⟨stands, stand⟩, link, ok => by
    simp only [List.map_cons, Printer.printItems, Printer.printValue, prints, bind_eq_ok, pure_eq_ok] at ok
    obtain ⟨doc, here, rest, later, rfl⟩ := ok
    obtain ⟨shown, enclosed, lifts, tokens, asked⟩ := conditionTokens_printAt bare c stands here
    obtain ⟨others, lift, more⟩ := conditionTokens_printItems bare cs prints within stand link later
    refine ⟨shown :: others, ⟨lifts, lift⟩, ?_⟩
    rw [asked _ within] at tokens
    -- One operand is followed by nothing, and any other by the operator.
    cases cs with
    | nil =>
      obtain rfl : ids = [] := by cases ids with | nil => rfl | cons => exact stand.elim
      obtain rfl : others = [] := by cases others with | nil => rfl | cons => exact lift.elim
      cases later
      simpa [Doc.joinParts, Doc.conditionTokensOf, Condition.writtenAll] using tokens
    | cons d cs =>
      obtain ⟨next, ids, rfl⟩ : ∃ next tail, ids = next :: tail := by
        cases ids with | nil => exact stand.elim | cons next tail => exact ⟨next, tail, rfl⟩
      obtain ⟨second, others, rfl⟩ : ∃ second tail, others = second :: tail := by
        cases others with | nil => exact lift.elim | cons second tail => exact ⟨second, tail, rfl⟩
      simp only [List.map_cons, Printer.printItems, bind_eq_ok, pure_eq_ok] at later
      obtain ⟨nextDoc, -, docs, -, rfl⟩ := later
      rw [Doc.joinParts, Doc.conditionTokensOf, Doc.conditionTokensOf, more, tokens, link, Condition.writtenAll]
      · rfl
      · exact List.cons_ne_nil nextDoc docs
end

/-- Printing a condition keeps its meaning. Without comments, wherever the condition stands, what is
    printed can be parsed, and is read as the printed condition up to chains merged into chains with the
    same operator and up to chains of one operand. So it is true whenever the condition is. -/
theorem printAt_keeps_condition (bare : m.Bare) {id : NodeId} {c : Condition NodeId} (stands : m.tree.StandsFor id c)
    {bound : Nat} {path : Path} {edge : Option Edge} {doc : Draft} (ok : m.printAt bound path id edge = .ok doc) :
    ∃ shown parsed, c.Lifts m.Prints shown ∧ Condition.parse? doc.conditionTokens = some parsed ∧ parsed.Alike shown ∧
      ∀ truth reading, Condition.Agree m.Prints truth reading → parsed.holds reading = c.holds truth := by
  obtain ⟨shown, enclosed, lifts, tokens, -⟩ := conditionTokens_printAt bare c stands ok
  have sentence := Condition.sentence_written shown (lifts.proper c shown (stands.proper id c))
  have alike := Condition.alike_reading shown
  refine ⟨shown, shown.reading, lifts, ?_, alike, ?_⟩
  · rw [tokens, Condition.parse?_eq_some_iff]
    cases enclosed with
    | false => exact sentence
    | true => exact .chain .and (.one sentence.enclosed)
  · intro truth reading agree
    exact (alike.holds_eq reading).trans (lifts.holds_eq agree c shown)

/-- The conditions of `(NOT (a = TRUE OR b = TRUE)) AND c = TRUE`. -/
def mixedConditions : Manuscript where
  tree :=
    ⟨#[.of .whereCompoundExpr [("expr", .array [.node 2, .node 8]), ("op", .node 1)],
      .of .queryAnd,
      .of .whereUnaryExpr [("op", .node 3), ("expr", .node 4)],
      .of .whereUnaryOp,
      .of .whereCompoundExpr [("expr", .array [.node 6, .node 7]), ("op", .node 5)],
      .of .queryOr,
      .of .whereOpExpr [("field", .node 9), ("op", .node 12), ("expr", .node 13)],
      .of .whereOpExpr [("field", .node 10), ("op", .node 12), ("expr", .node 13)],
      .of .whereOpExpr [("field", .node 11), ("op", .node 12), ("expr", .node 13)],
      .of .locationIdentifier [("value", .string "a")],
      .of .locationIdentifier [("value", .string "b")],
      .of .locationIdentifier [("value", .string "c")],
      .of .queryEqual,
      .of .queryTrue]⟩

/-- The document of one condition. -/
def mixedCondition (name : String) : Draft := Doc.fill (.concat [.text name, " ", "=", " ", "TRUE"])

/-- The document of the condition above. -/
def mixedDoc : Draft :=
  Doc.join (.concat [.line, "AND", " "])
    [.concat ["(", .concat ["NOT", " ", .concat
        ["(", Doc.join (.concat [.line, "OR", " "]) [mixedCondition "a", mixedCondition "b"], ")"]], ")"],
      mixedCondition "c"]

theorem printAt_keeps_condition_mixed :
    mixedConditions.printAt 6 [] 0 none = .ok mixedDoc ∧
      ∃ shown parsed,
        (Condition.chain .and [.not (.chain .or [.atom 6, .atom 7]), .atom 8]).Lifts mixedConditions.Prints shown ∧
        Condition.parse? mixedDoc.conditionTokens = some parsed ∧ parsed.Alike shown ∧
        ∀ truth reading, Condition.Agree mixedConditions.Prints truth reading →
          parsed.holds reading = (!(truth 6 || truth 7) && truth 8) := by
  have bare : mixedConditions.Bare := fun _ => rfl
  have stands : mixedConditions.tree.StandsFor 0 (.chain .and [.not (.chain .or [.atom 6, .atom 7]), .atom 8]) := by
    have leaf : ∀ id, mixedConditions.tree.kind? id = some .whereOpExpr → mixedConditions.tree.StandsFor id (.atom id) :=
      fun id known => ⟨rfl, _, by simp [Tree.plainConditions], known⟩
    refine ⟨rfl, ⟨1, rfl, rfl⟩, by simp, [2, 8], rfl, ⟨rfl, ⟨3, rfl, rfl⟩, 4, rfl, ?_⟩, leaf 8 rfl, trivial⟩
    exact ⟨rfl, ⟨5, rfl, rfl⟩, by simp, [6, 7], rfl, leaf 6 rfl, leaf 7 rfl, trivial⟩
  have printed : mixedConditions.printAt 6 [] 0 none = .ok mixedDoc := rfl
  obtain ⟨shown, parsed, lifts, parses, alike, same⟩ := printAt_keeps_condition bare stands printed
  refine ⟨printed, shown, parsed, lifts, parses, alike, ?_⟩
  intro truth reading agree
  rw [same truth reading agree]
  simp [Condition.holds, Condition.holdAll, Condition.holdAny]

end Manuscript
end ApexLayout
