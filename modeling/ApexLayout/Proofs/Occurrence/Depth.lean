import ApexLayout.Proofs.Occurrence.Walk
import ApexLayout.Proofs.Tree.Level

/-!
How deep the walk over a tree goes: as deep as the longest path (`ofTree_eq_walk`). Where there are no references, the
limit on the nesting of texts is a limit on the walk, and each reference on a path may add that limit once more
(`ofTree_depth`). The limit turns away the texts of the grammar with deeper values and no others (`readOutput_limit`).
-/
namespace ApexLayout

namespace Occurrences

variable {g : Ground} {o : Occurrences}

/-- The walk enters nodes along paths only, so that a bound that all of them keep makes no difference. -/
theorem walk_eq_walk {most : Nat} (limit : ∀ path refs, g.tree.Path path refs → path.length ≤ most) (bound other : Nat)
    (path : List NodeId) (around : Around) (id : NodeId) (edge : Option Edge) (isLast : Bool)
    (enters : id ∉ path → ∃ refs, g.tree.Path (id :: path) refs) (enough : most ≤ bound + path.length)
    (also : most ≤ other + path.length) :
    walk g bound path around id edge isLast o = walk g other path around id edge isLast o := by
  induction bound generalizing other path around id edge isLast o with
  | zero =>
    have met : id ∈ path := by
      by_contra fresh
      obtain ⟨refs, longer⟩ := enters fresh
      have length := limit _ _ longer
      simp only [List.length_cons] at length
      omega
    rw [walk_of_mem met, walk_of_mem met]
  | succ bound ih =>
    by_cases met : id ∈ path
    · rw [walk_of_mem met, walk_of_mem met]
    · obtain ⟨refs, here⟩ := enters met
      have length := limit _ _ here
      simp only [List.length_cons] at length
      obtain ⟨other, rfl⟩ : ∃ n, other = n + 1 := Nat.exists_eq_add_one_of_ne_zero (by omega)
      rw [walk_fresh met, walk_fresh met]
      refine congrArg (mark g id edge around isLast) (List.foldl_ext _ _ _ fun o act member => ?_)
      cases act with
      | visit child e isLast =>
        apply ih
        · intro further
          exact ⟨_, here.step (mem_children_of_visit member) further⟩
        · simp only [List.length_cons]
          omega
        · simp only [List.length_cons]
          omega
      | join e => rfl

/-- What is found does not depend on the bound, if it is that of some limit on all paths. -/
theorem ofTree_eq_walk {t : Tree} {most : Nat} (limit : ∀ path refs, t.Path path refs → path.length ≤ most)
    (extents : Extents) (lines : Text.Lines) :
    ofTree t extents lines = walk ⟨t, extents, lines⟩ most [] {} t.root none false {} := by
  -- No path has more nodes than the tree and one more, which is the bound of the walk.
  have fits (path : List NodeId) (refs : Nat) (along : t.Path path refs) : path.length ≤ min most (t.size + 1) := by
    obtain ⟨distinct, inside⟩ := along.nodup
    have tail := length_le_of_inside (distinct.sublist (List.tail_sublist path)) inside
    have all := limit path refs along
    rw [List.length_tail] at tail
    omega
  rw [ofTree]
  apply walk_eq_walk fits
  · intro _
    exact ⟨0, .root⟩
  · exact Nat.min_le_right _ _
  · exact Nat.min_le_left _ _

/-- A path of a tree has at most as many nodes as texts may have levels, and as many again for each of its
    references. The walk over the tree goes no deeper either. So without references there are no more
    nested calls than levels. -/
theorem ofTree_depth {text : String} {t : Tree} (read : Tree.ofText text = .ok t) :
    (∀ path refs, t.Path path refs → path.length ≤ Json.maxDepth * (refs + 1)) ∧
    (∀ refs, (∀ path further, t.Path path further → further ≤ refs) → ∀ extents lines,
      ofTree t extents lines = walk ⟨t, extents, lines⟩ (Json.maxDepth * (refs + 1)) [] {} t.root none false {}) ∧
    ((∀ id edge child, (edge, child) ∈ t.children id → t.origin child = some edge) →
      (∀ path refs, t.Path path refs → path.length ≤ Json.maxDepth) ∧ ∀ extents lines,
        ofTree t extents lines = walk ⟨t, extents, lines⟩ Json.maxDepth [] {} t.root none false {}) := by
  refine ⟨fun path refs along => along.length_le read, ?_, ?_⟩
  · intro refs most
    apply ofTree_eq_walk
    intro path further along
    have length := along.length_le read
    have fewer := Nat.mul_le_mul_left Json.maxDepth (Nat.succ_le_succ (most path further along))
    exact Nat.le_trans length fewer
  · intro defined
    have limit (path : List NodeId) (refs : Nat) (along : t.Path path refs) : path.length ≤ Json.maxDepth := by
      have length := along.length_le read
      rwa [along.refs_eq_zero defined] at length
    exact ⟨limit, ofTree_eq_walk limit⟩

def referring : Tree :=
  ⟨#[{ fields := [("a", .node 1), ("b", .node 2)] }, { origin := some ⟨0, 0, none⟩ },
    { fields := [("c", .node 1)], origin := some ⟨0, 1, none⟩ }]⟩

/-- The path through the reference is limited by two times the limit on texts. -/
theorem ofTree_depth_referring :
    Tree.ofText "\x7b\"a\":\x7b\"@id\":\"1\"\x7d,\"b\":\x7b\"c\":\x7b\"@reference\":\"1\"\x7d\x7d\x7d" = .ok referring ∧
    referring.Path [1, 2, 0] 1 ∧ [1, 2, 0].length ≤ Json.maxDepth * (1 + 1) := by
  have read : Tree.ofText "\x7b\"a\":\x7b\"@id\":\"1\"\x7d,\"b\":\x7b\"c\":\x7b\"@reference\":\"1\"\x7d\x7d\x7d" =
      .ok referring := by
    rw [Tree.ofText, readOutput, Json.nestingDepth, Json.read?, String.toList_ofList]
    rfl
  have defined : (⟨0, 1, none⟩, 2) ∈ referring.children 0 := by decide
  have referred : (⟨2, 0, none⟩, 1) ∈ referring.children 2 := by decide
  have first : referring.Path [2, 0] 0 := Tree.Path.root.step defined (by decide)
  have path : referring.Path [1, 2, 0] 1 := first.step referred (by decide)
  exact ⟨read, path, (ofTree_depth read).1 _ _ path⟩

/-- References lead a path beyond the limit, although the value has four levels. -/
theorem path_beyond_maxDepth : (Json.shallow 513).depth ≤ 4 ∧
    ∃ t path refs, Tree.ofJson (Json.shallow 513) = .ok t ∧ t.Path path refs ∧ Json.maxDepth + 1 < path.length := by
  obtain ⟨levels, t, path, refs, read, along, length⟩ := Tree.exists_path_shallow 512
  refine ⟨levels, t, path, refs, read, along, ?_⟩
  rw [length, Json.maxDepth]
  omega

end Occurrences

open Json

variable {text : String}

def depthError (levels : Nat) : FormatError :=
  .malformed ("AST nests " ++ toString levels ++ " levels deep, the limit is " ++ toString maxDepth)

theorem readOutput_of_deep (deep : maxDepth < nestingDepth text) :
    readOutput text = .error (depthError (nestingDepth text)) := by
  rw [readOutput, if_pos deep, depthError]

theorem readOutput_of_shallow (shallow : nestingDepth text ≤ maxDepth) :
    readOutput text = (read? text).elim (.error .json) .ok := by
  rw [readOutput, if_neg (Nat.not_lt.mpr shallow)]
  cases read? text <;> rfl

/-- A text is turned away for its depth only beyond the limit. -/
theorem readOutput_eq_depthError_iff :
    readOutput text = .error (depthError (nestingDepth text)) ↔ maxDepth < nestingDepth text := by
  refine ⟨fun rejected => ?_, readOutput_of_deep⟩
  by_contra shallow
  rw [readOutput_of_shallow (Nat.not_lt.mp shallow)] at rejected
  cases found : read? text with
  | none => simp [found, depthError] at rejected
  | some v => simp [found] at rejected

/-- An accepted value is nested at most to the limit, and only texts of documents have values. The text of
    a document has as many levels as are written in it, and it is turned away for its depth if and only if
    these are more than the limit. Otherwise it is read. If no key comes twice, the levels are those of
    the value. -/
theorem readOutput_limit :
    (∀ text v, readOutput text = .ok v → v.depth ≤ maxDepth) ∧
    (∀ text v, read? text = some v ↔ ∃ d : Document, text = String.ofList d.text ∧ d.inner.value? = some v) ∧
    ∀ (d : Document) (text : String), text = String.ofList d.text →
      nestingDepth text = d.inner.depth ∧ read? text = d.inner.value? ∧
      (readOutput text = .error (depthError d.inner.depth) ↔ maxDepth < d.inner.depth) ∧
      (d.inner.depth ≤ maxDepth → readOutput text = d.inner.value?.elim (.error .json) .ok) ∧
      (d.inner.KeysDistinct → ∀ v, d.inner.value? = some v →
        nestingDepth text = v.depth ∧ (readOutput text = .error (depthError v.depth) ↔ maxDepth < v.depth) ∧
        (readOutput text = .ok v ↔ v.depth ≤ maxDepth)) := by
  refine ⟨fun text v => Tree.depth_le_of_readOutput, fun text v => read?_eq_some_iff, ?_⟩
  rintro d text rfl
  have levels := nestingDepth_text d
  have read := read?_text d
  generalize String.ofList d.text = text at levels read
  have rejected : readOutput text = .error (depthError d.inner.depth) ↔ maxDepth < d.inner.depth := by
    rw [← levels]
    exact readOutput_eq_depthError_iff
  have accepted (shallow : d.inner.depth ≤ maxDepth) : readOutput text = d.inner.value?.elim (.error .json) .ok := by
    rw [← levels] at shallow
    rw [readOutput_of_shallow shallow, read]
  refine ⟨levels, read, rejected, accepted, ?_⟩
  intro distinct v value
  have same := (Written.depth_value value).2 distinct
  rw [← same] at levels rejected accepted
  refine ⟨levels, rejected, Tree.depth_le_of_readOutput, fun shallow => ?_⟩
  rw [accepted shallow, value, Option.elim_some]

/-- An object whose key has a bracket, a quote and a bracket. It holds an array with a string of
    a backslash and an opening brace, a number and an empty array. -/
def bracketsInStrings : Document :=
  let tight : Blanks := ⟨[], List.forall_mem_nil _⟩
  let space : Blanks := ⟨[' '], List.forall_mem_singleton.mpr (.inl rfl)⟩
  let bracket (c : Char) (ok : 0x20 ≤ c.toNat ∧ c ≠ '"' ∧ c ≠ '\\') : Piece := .plain c ok.1 ok.2.1 ok.2.2
  let seven : Numeral := ⟨false, ⟨⟨['7'], List.cons_ne_nil _ _, List.forall_mem_singleton.mpr rfl⟩, by decide⟩, none, none⟩
  let items : List Document :=
    [⟨tight, .string [.escape .backslash, bracket '\x7b' (by decide)], tight⟩, ⟨space, .number seven, tight⟩,
      ⟨space, .array tight [], tight⟩]
  let key : List Piece := [bracket ']' (by decide), .escape .quote, bracket '[' (by decide)]
  ⟨tight, .object tight [(⟨space, key, tight⟩, ⟨space, .array tight items, space⟩)], space⟩

/-- Brackets, quotes and backslashes in strings count for nothing. -/
theorem readOutput_limit_brackets :
    String.ofList bracketsInStrings.text = "\x7b \"]\\\"[\": [\"\\\\\x7b\", 7, []] \x7d " ∧
    bracketsInStrings.inner.KeysDistinct ∧
    ∃ v, bracketsInStrings.inner.value? = some v ∧ v.depth = 3 ∧ nestingDepth (String.ofList bracketsInStrings.text) = 3 ∧
      readOutput (String.ofList bracketsInStrings.text) = .ok v := by
  have distinct : bracketsInStrings.inner.KeysDistinct := ⟨List.nodup_singleton _, ⟨trivial, trivial, trivial, trivial⟩, trivial⟩
  have value : bracketsInStrings.inner.value? =
      some (.object [("]\"[", .array [.string "\\\x7b", .number (.int 7), .array []])]) := by rfl
  obtain ⟨-, -, -, -, levels⟩ := readOutput_limit.2.2 bracketsInStrings _ rfl
  obtain ⟨depth, -, accepted⟩ := levels distinct _ value
  exact ⟨by rfl, distinct, _, value, rfl, depth, accepted.mpr (by decide)⟩

end ApexLayout
