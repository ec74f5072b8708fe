import ApexLayout.Proofs.Printing.Moves
import Mathlib.Data.List.ReduceOption

/-!
The flags of branches and handlers. A document is printed for every element of the array, but flags are kept for the
nodes only. One element that is no node moves the flags behind it, and with two of them the last flag is missing.
-/
namespace ApexLayout.Printer

def elements (p : Printer) (field : String) : List (Option NodeId) := (p.tree.items p.current field).map Value.node?

variable {p : Printer} {docs : List Draft} {nodes : List NodeId}

theorem length_of_printEach {field : String} (printed : p.printEach [field] = .ok docs) :
    docs.length = (p.elements field).length := by
  obtain ⟨slot, same, -⟩ := p.printEach_items field
  rw [elements, List.length_map, printItems_length (same ▸ printed)]

theorem nodesIn_eq (p : Printer) (field : String) : p.tree.nodesIn p.current field = (p.elements field).reduceOption := by
  rw [Tree.nodesIn, elements, List.reduceOption, List.filterMap_map]
  rfl

/-! ### Documents set apart -/

/-- Documents with a line end or a space before each, decided by the element before and the element itself. -/
def apartFrom (apart : Option NodeId → Option NodeId → Bool) :
    Option NodeId → List (Option NodeId) → List Draft → List Draft
  | before, this :: elements, doc :: docs => breakOrSpace (apart before this) :: doc :: apartFrom apart this elements docs
  | _, _, _ => []

/-- The same by lists of those before and of those after, which may come to an end too early. -/
def setApart (apart : Option NodeId → Option NodeId → Bool) :
    List (Option NodeId) → List NodeId → List Draft → Outcome (List Draft)
  | _, _, [] => .ok []
  | [], _, _ :: _ => .error .outOfBounds
  | node :: before, after, doc :: docs => do
    let rest ← setApart apart before after.tail docs
    return breakOrSpace (apart node after.head?) :: doc :: rest

section
variable (apart : Option NodeId → Option NodeId → Bool)

theorem setApart_outOfBounds {before : List (Option NodeId)} (short : before.length < docs.length) (after : List NodeId) :
    setApart apart before after docs = .error .outOfBounds := by
  induction docs generalizing before after with
  | nil => simp at short
  | cons doc docs ih =>
    cases before with
    | nil => rfl
    | cons node before => simp only [setApart, ih (by simpa using short), bind, Except.bind]

theorem exists_setApart {before : List (Option NodeId)} (enough : docs.length ≤ before.length) (after : List NodeId) :
    ∃ chain, setApart apart before after docs = .ok chain := by
  induction docs generalizing before after with
  | nil => exact ⟨[], by cases before <;> rfl⟩
  | cons doc docs ih =>
    cases before with
    | nil => simp at enough
    | cons node before =>
      obtain ⟨chain, ok⟩ := ih (by simpa using enough) after.tail
      exact ⟨_, by simp only [setApart, ok]; rfl⟩

theorem setApart_aligned {elements : List (Option NodeId)} (aligned : none ∉ elements.dropLast)
    (before : Option NodeId) (same : docs.length = elements.length) :
    setApart apart (before :: elements.reduceOption.map some) elements.reduceOption docs =
      .ok (apartFrom apart before elements docs) := by
  induction elements generalizing before docs with
  | nil =>
    obtain rfl := List.length_eq_zero_iff.mp same
    rfl
  | cons this elements ih =>
    cases docs with
    | nil => simp at same
    | cons doc docs =>
      cases elements with
      | nil =>
        obtain rfl : docs = [] := by simpa using same
        cases this <;> rfl
      | cons next elements =>
        simp only [List.dropLast_cons_cons, List.mem_cons, not_or] at aligned
        obtain ⟨node, rfl⟩ := Option.ne_none_iff_exists'.mp (Ne.symm aligned.1)
        have later := ih aligned.2 (some node) (by simpa using same)
        simp only [List.reduceOption_cons_of_some, List.map_cons, setApart, List.tail_cons, List.head?_cons, later, apartFrom]
        rfl

theorem setApart_tail_aligned {elements : List (Option NodeId)} (aligned : none ∉ elements.dropLast)
    (same : docs.length = elements.length) :
    setApart apart (elements.reduceOption.map some) elements.reduceOption.tail docs.tail =
      .ok (apartFrom apart elements.head?.join elements.tail docs.tail) := by
  cases elements with
  | nil =>
    obtain rfl := List.length_eq_zero_iff.mp same
    rfl
  | cons first elements =>
    cases elements with
    | nil =>
      obtain ⟨doc, rfl⟩ := List.length_eq_one_iff.mp same
      cases first <;> rfl
    | cons next elements =>
      simp only [List.dropLast_cons_cons, List.mem_cons, not_or] at aligned
      obtain ⟨node, rfl⟩ := Option.ne_none_iff_exists'.mp (Ne.symm aligned.1)
      rw [List.reduceOption_cons_of_some]
      exact setApart_aligned apart aligned.2 (some node) (by simp [same])

end

/-! ### What stands before a branch -/

/-- A branch starts on a new line unless the one before it ends with a block and no comment is between them. -/
def branchApart (p : Printer) (before this : Option NodeId) : Bool :=
  !before.any (p.isBlockAt · ["stmnt"]) || this.any p.manuscript.hasOwnLineLeadingComment ||
    before.any p.manuscript.hasTrailingComment

/-- A handler starts on a new line if a comment is between it and the one before. -/
def handlerApart (p : Printer) (before this : Option NodeId) : Bool :=
  this.any p.manuscript.hasOwnLineLeadingComment || before.any p.manuscript.hasTrailingComment

theorem getD_map_eq_any (node : Option NodeId) (flag : NodeId → Bool) : (node.map flag).getD false = node.any flag := by
  cases node <;> rfl

theorem drop_eq_cons {index : Nat} {node : NodeId} (there : nodes[index]? = some node) :
    nodes.drop index = node :: nodes.drop (index + 1) := by
  obtain ⟨inside, rfl⟩ := List.getElem?_eq_some_iff.mp there
  exact List.drop_eq_getElem_cons inside

theorem branches_eq_setApart (index : Nat) :
    branches p nodes (nodes.map (p.isBlockAt · ["stmnt"])) (nodes.map p.manuscript.hasTrailingComment) (index + 1) docs =
      setApart p.branchApart ((nodes.drop index).map some) (nodes.drop (index + 1)) docs := by
  induction docs generalizing index with
  | nil => cases nodes.drop index <;> rfl
  | cons doc docs ih =>
    simp only [branches, branchBreaks, flagAt, List.getElem?_map, getD_map_eq_any, ih]
    cases there : nodes[index]? with
    | none =>
      have short : nodes.drop index = [] := by simpa using there
      simp [short, setApart, bind, Except.bind]
    | some node =>
      rw [drop_eq_cons there, List.map_cons, setApart, List.tail_drop, List.head?_drop]
      simp only [branchApart, Option.map_some, Option.any_some]
      cases p.isBlockAt node ["stmnt"] <;> cases (nodes[index + 1]?).any p.manuscript.hasOwnLineLeadingComment <;> rfl

theorem handlers_eq_setApart (guarded : Option NodeId) (index : Nat) :
    handlers p nodes (nodes.map p.manuscript.hasTrailingComment) (guarded.any p.manuscript.hasTrailingComment) index docs =
      setApart p.handlerApart ((guarded :: nodes.map some).drop index) (nodes.drop index) docs := by
  induction docs generalizing index with
  | nil => cases (guarded :: nodes.map some).drop index <;> rfl
  | cons doc docs ih =>
    simp only [handlers, handlerBreaks, flagAt, List.getElem?_map, getD_map_eq_any, ih]
    cases index with
    | zero => simp [setApart, handlerApart, bind, Except.bind, pure, Except.pure, List.head?_eq_getElem?]
    | succ index =>
      simp only [Nat.add_eq_zero_iff, Nat.one_ne_zero, and_false, if_false, Nat.add_sub_cancel, List.drop_succ_cons]
      cases there : nodes[index]? with
      | none =>
        have short : nodes.drop index = [] := by simpa using there
        simp [← List.map_drop, short, setApart, bind, Except.bind]
      | some node =>
        have first : (nodes.map some).drop index = some node :: (nodes.map some).drop (index + 1) := by
          rw [← List.map_drop, drop_eq_cons there, List.map_cons, List.map_drop]
        rw [first, setApart, List.tail_drop, List.head?_drop]
        rfl

/-! ### Statements -/

/-- What is printed for a condition if every branch is set apart by the branch before it. -/
def ifElseOf (p : Printer) (elements : List (Option NodeId)) (docs : List Draft) (otherwise : Draft) : Draft :=
  let ownLine := (p.tree.optionalChild? p.current "elseBlock").any p.manuscript.hasOwnLineLeadingComment
  let chain := docs.take 1 ++ apartFrom p.branchApart elements.head?.join elements.tail docs.tail
  let before : List Draft := (elements.getLast?).elim (if ownLine then [Doc.hardLine] else []) fun last =>
    if last.any (p.isBlockAt · ["stmnt"]) then
      " " :: if ownLine || last.any p.manuscript.hasTrailingComment then [Doc.hardLine] else []
    else [Doc.hardLine]
  Doc.fill (Doc.parts [chain, unlessEmpty otherwise (before ++ [otherwise])])

/-- What is printed for a guarded block if every handler is set apart by the handler or the block before it. -/
def tryOf (p : Printer) (elements : List (Option NodeId)) (guarded : Draft) (docs : List Draft) (final : Draft) : Draft :=
  let block := p.tree.child? p.current "tryBlock"
  let breaks := (p.tree.optionalChild? p.current "finallyBlock").any p.manuscript.hasOwnLineLeadingComment ||
    ((elements.getLast?).getD block).any p.manuscript.hasTrailingComment
  Doc.parts [["try "], unlessEmpty guarded [guarded], apartFrom p.handlerApart block elements docs,
    unlessEmpty final [breakOrSpace breaks, final]]

/-- How a statement with branches in an array comes out. A flag is missing if two elements are no nodes, and only
    then; where the elements and the flags are in step, all flags are those of the branch before. -/
structure Flagged (elements : List (Option NodeId)) (statement : Outcome Draft) (inStep : Prop) (doc : Draft) : Prop where
  outOfBounds : statement = .error .outOfBounds ↔ 2 ≤ elements.count none
  inBounds : elements.count none ≤ 1 → ∃ doc, statement = .ok doc
  aligned : inStep → statement = .ok doc

theorem length_reduceOption_add_count (elements : List (Option NodeId)) :
    elements.reduceOption.length + elements.count none = elements.length := by
  induction elements with
  | nil => rfl
  | cons element elements ih =>
    cases element with
    | none => simp [List.reduceOption_cons_of_none, ← ih, Nat.add_assoc]
    | some node => simp [List.reduceOption_cons_of_some, ← ih, Nat.add_right_comm]

theorem reduceOption_of_aligned {elements : List (Option NodeId)} (aligned : none ∉ elements.dropLast)
    {last : Option NodeId}
    (is_last : elements.getLast? = some last) :
    ∃ before : List NodeId, elements.length = before.length + 1 ∧ elements.reduceOption = before ++ last.toList := by
  obtain ⟨init, rfl⟩ := List.getLast?_eq_some_iff.mp is_last
  rw [List.dropLast_concat] at aligned
  have counted := length_reduceOption_add_count init
  rw [List.count_eq_zero.mpr aligned, Nat.add_zero] at counted
  refine ⟨init.reduceOption, by simp [counted], ?_⟩
  rw [List.reduceOption_append]
  cases last <;> rfl

theorem flagged_of_setApart {apart : Option NodeId → Option NodeId → Bool} {elements before : List (Option NodeId)}
    {after : List NodeId} {statement : Outcome Draft} {f : List Draft → Draft} {inStep : Prop} {doc : Draft}
    (laid : statement = f <$> setApart apart before after docs) (short : before.length < docs.length ↔ 2 ≤ elements.count none)
    (aligned : inStep → statement = .ok doc) : Flagged elements statement inStep doc := by
  subst laid
  by_cases missing : before.length < docs.length
  · have failed := setApart_outOfBounds apart missing after
    refine ⟨⟨fun _ => short.mp missing, fun _ => by rw [failed]; rfl⟩, fun few => ?_, aligned⟩
    exact absurd (short.mp missing) (by omega)
  · obtain ⟨chain, ok⟩ := exists_setApart apart (Nat.le_of_not_lt missing) after
    refine ⟨⟨fun failed => ?_, fun many => absurd (short.mpr many) missing⟩, fun _ => ⟨f chain, by rw [ok]; rfl⟩, aligned⟩
    rw [ok] at failed
    cases failed

theorem ifElse_flagged {otherwise : Draft} (printed : p.printEach ["ifBlocks"] = .ok docs)
    (behind : p.print ["elseBlock", "value"] = .ok otherwise) :
    Flagged (p.elements "ifBlocks") (p.ifElse p.current) (none ∉ (p.elements "ifBlocks").dropLast)
      (p.ifElseOf (p.elements "ifBlocks") docs otherwise) := by
  have length := length_of_printEach printed
  have nodesIn := p.nodesIn_eq "ifBlocks"
  generalize p.elements "ifBlocks" = elements at length nodesIn ⊢
  have counted := length_reduceOption_add_count elements
  set nodes := elements.reduceOption
  have chain : branches p nodes (nodes.map (p.isBlockAt · ["stmnt"])) (nodes.map p.manuscript.hasTrailingComment) 0 docs =
      (docs.take 1 ++ ·) <$> setApart p.branchApart (nodes.map some) nodes.tail docs.tail := by
    cases docs with
    | nil => cases nodes <;> rfl
    | cons doc docs =>
      rw [branches, branches_eq_setApart, List.drop_zero, List.drop_one]
      rfl
  have laid : p.ifElse p.current = (fun rest =>
      let lastIsBlock := ((nodes.map (p.isBlockAt · ["stmnt"]))[docs.length - 1]?).getD false
      let ownLine := (p.tree.optionalChild? p.current "elseBlock").any p.manuscript.hasOwnLineLeadingComment
      Doc.fill (Doc.parts [docs.take 1 ++ rest, unlessEmpty otherwise
        ((if docs.isEmpty then [] else [breakOrSpace (!lastIsBlock)]) ++
          (if (docs.isEmpty || lastIsBlock) && (ownLine || ((nodes.map p.manuscript.hasTrailingComment).getLast?).getD false)
            then [Doc.hardLine] else []) ++ [otherwise])])) <$>
        setApart p.branchApart (nodes.map some) nodes.tail docs.tail := by
    simp only [ifElse, printed, behind, nodesIn, getD_map_eq_any, bind, Except.bind]
    rw [chain]
    cases setApart p.branchApart (nodes.map some) nodes.tail docs.tail <;> rfl
  refine flagged_of_setApart laid (by simp only [List.length_map, List.length_tail]; omega) fun aligned => ?_
  rw [laid, setApart_tail_aligned p.branchApart aligned length]
  cases is_last : elements.getLast? with
  | none =>
    obtain rfl := List.getLast?_eq_none_iff.mp is_last
    obtain rfl := List.length_eq_zero_iff.mp length
    simp [ifElseOf, nodes, Functor.map, Except.map]
  | some last =>
    obtain ⟨before, places, split⟩ := reduceOption_of_aligned aligned is_last
    have filled : docs.isEmpty = false := by
      cases docs with
      | nil =>
        rw [List.length_nil] at length
        omega
      | cons => rfl
    have place : docs.length - 1 = before.length := by omega
    simp only [ifElseOf, is_last, Option.elim_some, nodes, split, filled, place, Functor.map, Except.map]
    cases last with
    | none => simp
    | some node => by_cases block : p.isBlockAt node ["stmnt"] <;> simp [block]

theorem tryStatement_flagged {guarded final : Draft} (first : p.print ["tryBlock"] = .ok guarded)
    (printed : p.printEach ["catchBlocks"] = .ok docs) (behind : p.print ["finallyBlock", "value"] = .ok final) :
    Flagged (p.elements "catchBlocks") (p.tryStatement p.current)
      (none ∉ (p.elements "catchBlocks").dropLast ∧ (none ∈ p.elements "catchBlocks" → final.isEmpty))
      (p.tryOf (p.elements "catchBlocks") guarded docs final) := by
  have length := length_of_printEach printed
  have nodesIn := p.nodesIn_eq "catchBlocks"
  generalize p.elements "catchBlocks" = elements at length nodesIn ⊢
  have counted := length_reduceOption_add_count elements
  set nodes := elements.reduceOption
  set block := p.tree.child? p.current "tryBlock" with is_block
  have laid : p.tryStatement p.current = (fun rest =>
      let breaks := (p.tree.optionalChild? p.current "finallyBlock").any p.manuscript.hasOwnLineLeadingComment ||
        ((nodes.map p.manuscript.hasTrailingComment).getLast?).getD (block.any p.manuscript.hasTrailingComment)
      Doc.parts [["try "], unlessEmpty guarded [guarded], rest, unlessEmpty final [breakOrSpace breaks, final]]) <$>
        setApart p.handlerApart (block :: nodes.map some) nodes docs := by
    have chain := @handlers_eq_setApart p docs nodes block 0
    simp only [tryStatement, first, printed, behind, nodesIn, getD_map_eq_any, ← is_block, chain, bind, Except.bind, List.drop_zero]
    cases setApart p.handlerApart (block :: nodes.map some) nodes docs <;> rfl
  refine flagged_of_setApart laid (by simp only [List.length_cons, List.length_map]; omega) fun inStep => ?_
  obtain ⟨aligned, closed⟩ := inStep
  rw [laid, setApart_aligned p.handlerApart aligned block length]
  by_cases shown : final.isEmpty
  · simp [tryOf, shown, Functor.map, Except.map, ← is_block]
  cases is_last : elements.getLast? with
  | none =>
    obtain rfl := List.getLast?_eq_none_iff.mp is_last
    simp [tryOf, nodes, Functor.map, Except.map, ← is_block]
  | some last =>
    obtain ⟨node, rfl⟩ : ∃ node, last = some node :=
      Option.ne_none_iff_exists'.mp fun none_there => shown (closed (none_there ▸ List.mem_of_getLast? is_last))
    obtain ⟨before, -, split⟩ := reduceOption_of_aligned aligned is_last
    simp [tryOf, is_last, nodes, split, Functor.map, Except.map, ← is_block]

/-- The flags of branches and handlers, whatever the array holds: a flag is read beyond the end if and only if two
    elements are no nodes, and the flags are those of the branch before if all but the last element are nodes. What is
    before `finally` reads the last flag, which is that of the last handler only if this is a node. -/
theorem flags_of_branches (p : Printer) (docs : List Draft) :
    (∀ otherwise, p.printEach ["ifBlocks"] = .ok docs → p.print ["elseBlock", "value"] = .ok otherwise →
      Flagged (p.elements "ifBlocks") (p.ifElse p.current) (none ∉ (p.elements "ifBlocks").dropLast)
        (p.ifElseOf (p.elements "ifBlocks") docs otherwise)) ∧
    ∀ guarded final, p.print ["tryBlock"] = .ok guarded → p.printEach ["catchBlocks"] = .ok docs →
      p.print ["finallyBlock", "value"] = .ok final →
      Flagged (p.elements "catchBlocks") (p.tryStatement p.current)
        (none ∉ (p.elements "catchBlocks").dropLast ∧ (none ∈ p.elements "catchBlocks" → final.isEmpty))
        (p.tryOf (p.elements "catchBlocks") guarded docs final) :=
  ⟨fun _ printed behind => ifElse_flagged printed behind,
    fun _ _ first printed behind => tryStatement_flagged first printed behind⟩

/-- A condition in an array with something before the two branches that is no node, and a block guarded by two
    handlers that are none. -/
def misplaced : Manuscript where
  tree :=
    ⟨#[.of .ifElseBlock [("ifBlocks", .array [.null, .node 1, .node 2])],
      .of .ifBlock,
      .of .ifBlock [("stmnt", .node 3)],
      .of .blockStmnt,
      .of .tryCatchFinallyBlock [("catchBlocks", .array [.null, .null])]]⟩

theorem flags_of_branches_misplaced :
    (∃ doc, Printer.ifElse ⟨misplaced, [], fun _ _ _ => .ok "b"⟩ 0 = .ok doc) ∧
      Printer.tryStatement ⟨misplaced, [⟨4, none⟩], fun _ _ _ => .ok "b"⟩ 4 = .error .outOfBounds :=
  ⟨((flags_of_branches ⟨misplaced, [], fun _ _ _ => .ok "b"⟩ [Doc.empty, "b", "b"]).1 Doc.empty rfl rfl).inBounds (by decide),
    ((flags_of_branches ⟨misplaced, [⟨4, none⟩], fun _ _ _ => .ok "b"⟩ [Doc.empty, Doc.empty]).2 Doc.empty Doc.empty rfl rfl
      rfl).outOfBounds.mpr (by decide)⟩

/-- Out of step, a branch is set apart by its own block, and not by the branch before. -/
theorem ifElse_misplaced :
    Printer.ifElse ⟨misplaced, [], fun _ _ _ => .ok "b"⟩ 0 ≠
      .ok (Printer.ifElseOf ⟨misplaced, [], fun _ _ _ => .ok "b"⟩ [none, some 1, some 2] [Doc.empty, "b", "b"] Doc.empty) := by
  intro same
  have parts : (Doc.concat [Doc.empty, Doc.hardLine, "b", " ", "b"] : Draft).fill =
      (Doc.concat [Doc.empty, Doc.hardLine, "b", Doc.hardLine, "b"]).fill := Except.ok.inj same
  simp [Doc.fill, Doc.hardLine] at parts

end ApexLayout.Printer
