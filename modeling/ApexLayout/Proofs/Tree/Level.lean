import ApexLayout.Proofs.Json.Accepted
import ApexLayout.Proofs.Tree.Order

/-!
How deep a tree goes. The limit on nesting limits the level at which a node is defined (`Level.lt_maxDepth`). Each
reference lets a path go on for as many nodes again (`Path.length_le`), without limit (`exists_path_shallow`).
-/
namespace ApexLayout

namespace Tree

variable {t : Tree} {id : NodeId} {level : Nat}

/-! ### Levels -/

/-- How many nodes there are above a node, where it is defined. -/
inductive Level (t : Tree) : NodeId → Nat → Prop where
  | top {id : NodeId} (first : t.origin id = none) : Level t id 0
  | inner {id : NodeId} {edge : Edge} {level : Nat} (origin : t.origin id = some edge) (above : Level t edge.parent level) :
    Level t id (level + 1)

theorem Level.unique {other : Nat} (here : t.Level id level) (also : t.Level id other) : level = other := by
  induction here generalizing other with
  | top first =>
    cases also with
    | top _ => rfl
    | inner origin _ =>
      rw [first] at origin
      cases origin
  | inner origin _ ih =>
    cases also with
    | top first =>
      rw [first] at origin
      cases origin
    | inner same above =>
      rw [origin] at same
      cases same
      rw [ih above]

end Tree

namespace Builder

variable {t : Tree} {b c d : Builder} {level levels more : Nat}

/-- The nodes added are defined at most so many levels below a given one. -/
def Within (t : Tree) (b c : Builder) (level levels : Nat) : Prop :=
  ∀ id, b.tree.size ≤ id → id < c.tree.size → ∃ further ≤ levels, t.Level id (level + further)

theorem Within.refl (t : Tree) (b : Builder) (level levels : Nat) : Within t b b level levels :=
  fun _ from_here inside => absurd inside (Nat.not_lt.2 from_here)

theorem Within.mono (within : Within t b c level levels) (enough : levels ≤ more) : Within t b c level more := by
  intro id from_here inside
  obtain ⟨further, le, here⟩ := within id from_here inside
  exact ⟨further, Nat.le_trans le enough, here⟩

theorem Within.trans (first : Within t b c level levels) (second : Within t c d level more) :
    Within t b d level (max levels more) := by
  intro id from_here inside
  by_cases early : id < c.tree.size
  · exact first.mono (Nat.le_max_left _ _) id from_here early
  · exact second.mono (Nat.le_max_right _ _) id (Nat.not_lt.1 early) inside

/-- A node is one level below the node it occurs in, and what its fields hold is further below. -/
theorem Within.node {edge : Edge} {fields : List (String × Json)} {node : Node} (keeps : Keeps (b.start edge fields).2 c)
    (covers : Covers t b (c.finish b.tree.size node)) (defines : node.origin = some edge)
    (above : t.Level edge.parent level)
    (within : t.Level b.tree.size (level + 1) → Within t (b.start edge fields).2 c (level + 1) levels) :
    Within t b (c.finish b.tree.size node) level (1 + levels) := by
  have origin : t.origin b.tree.size = some edge := by rw [Tree.origin, covers.self keeps.room, defines]
  have here : t.Level b.tree.size (level + 1) := .inner origin above
  intro id from_here inside
  rw [size_finish] at inside
  rcases Nat.eq_or_lt_of_le from_here with rfl | later
  · exact ⟨1, Nat.le_add_right 1 levels, here⟩
  · obtain ⟨further, le, deeper⟩ := within here id (by rw [size_start]; exact later) inside
    exact ⟨1 + further, Nat.add_le_add_left le 1, by rwa [← Nat.add_assoc]⟩

mutual
theorem within_readValue (json : Json) {b c : Builder} {edge : Edge} {v : Value} {level : Nat}
    (read : readValue (some edge) b json = .ok (v, c)) (covers : Covers t b c) (above : t.Level edge.parent level) :
    Within t b c level json.depth := by
  cases json with
  | array items =>
    obtain ⟨values, inner, rfl⟩ := readValue_array.mp read
    exact (within_readItems items inner covers above).mono (Nat.le_add_left _ 1)
  | object fields =>
    cases refers : fields.lookup "@reference" with
    | some reference =>
      obtain ⟨rfl, -⟩ := (readValue_reference refers).mp read
      exact .refl t c level _
    | none =>
      obtain ⟨kept, location, d, inner, rfl, rfl⟩ := (readValue_object refers).mp read
      have keeps := (grows_readFields fields inner).toKeeps
      exact .node keeps covers rfl above fun here => within_readFields fields inner (covers.start _ fields) here
  | _ =>
    cases read
    exact .refl t b level _
theorem within_readItems (items : List Json) {b c : Builder} {edge : Edge} {index level : Nat} {values : List Value}
    (read : readItems (some edge) index b items = .ok (values, c)) (covers : Covers t b c)
    (above : t.Level edge.parent level) : Within t b c level (Json.depths items) := by
  cases items with
  | nil =>
    cases read
    exact .refl t b level _
  | cons item items =>
    obtain ⟨v, d, rest, first, later, rfl⟩ := readItems_cons.mp read
    have before := (grows_readValue item first).toKeeps
    have after := (grows_readItems items later).toKeeps
    rw [Json.depths]
    have here := within_readValue item first (covers.first after) above
    exact here.trans (within_readItems items later (covers.rest before) above)
theorem within_readFields (fields : List (String × Json)) {b c : Builder} {id : NodeId} {slot : UInt16} {level : Nat}
    {location last : Option Span} {kept : List (String × Value)}
    (read : readFields id slot location b fields = .ok (kept, last, c)) (covers : Covers t b c)
    (above : t.Level id level) : Within t b c level (Json.fieldDepths fields) := by
  cases fields with
  | nil =>
    cases read
    exact .refl t b level _
  | cons field fields =>
    obtain ⟨name, json⟩ := field
    rw [readFields] at read
    rw [Json.fieldDepths]
    split at read
    · exact (within_readFields fields read covers above).mono (Nat.le_max_right _ _)
    · split at read
      · have onward : Within t (b.readLocation json).2 c level (Json.fieldDepths fields) :=
          within_readFields fields read (covers.readLocation json) above
        intro id from_here inside
        exact onward.mono (Nat.le_max_right _ _) id (by rwa [tree_readLocation]) inside
      · simp only [bind_eq_ok, pure_eq_ok, Prod.exists, Prod.mk.injEq] at read
        obtain ⟨v, d, first, rest, _, _, later, rfl, rfl, rfl⟩ := read
        have before := (grows_readValue json first).toKeeps
        have after := (grows_readFields fields later).toKeeps
        have here := within_readValue json first (covers.first after) above
        exact here.trans (within_readFields fields later (covers.rest before) above)
end

end Builder

/-! ### Trees -/

namespace Tree

variable {t : Tree} {id : NodeId} {level : Nat} {text : String} {json : Json}

theorem level_zero_of_size_le (outside : t.size ≤ id) : t.Level id 0 := by
  apply Level.top
  simp only [Tree.size] at outside
  simp [Tree.origin, Tree.node, outside]

theorem exists_level_ofJson (read : Tree.ofJson json = .ok t) (id : NodeId) : ∃ level < json.depth, t.Level id level := by
  obtain ⟨b, inner, rfl⟩ := Tree.ofJson_eq_ok read
  have covers : Builder.Covers b.tree {} b := ⟨Nat.le_refl _, fun _ _ => rfl⟩
  cases json with
  | object fields =>
    cases refers : fields.lookup "@reference" with
    | some reference =>
      obtain ⟨-, _, there, -⟩ := (Builder.readValue_reference refers).mp inner
      cases there
    | none =>
      obtain ⟨kept, location, c, below, -, rfl⟩ := (Builder.readValue_object refers).mp inner
      have keeps := (Builder.grows_readFields fields below).toKeeps
      have root : (c.finish 0 ⟨Builder.classOf fields, kept, location, none⟩).tree.Level 0 0 := by
        apply Level.top
        rw [Tree.origin]
        exact congrArg Node.origin (covers.self keeps.room)
      have within := Builder.within_readFields fields below (covers.start none fields) root
      have levels : (Json.object fields).depth = 1 + Json.fieldDepths fields := by rw [Json.depth]
      rw [levels]
      by_cases inside : id < c.tree.size
      · rcases Nat.eq_zero_or_pos id with rfl | later
        · exact ⟨0, by omega, root⟩
        · obtain ⟨further, le, here⟩ := within id (by rw [Builder.size_start]; exact later) inside
          exact ⟨0 + further, by omega, here⟩
      · refine ⟨0, by omega, level_zero_of_size_le ?_⟩
        rw [Builder.size_finish]
        exact Nat.not_lt.1 inside
  | _ => cases read

theorem depth_le_of_readOutput (read : readOutput text = .ok json) : json.depth ≤ Json.maxDepth := by
  rw [readOutput] at read
  split at read
  · cases read
  · next shallow =>
    split at read
    · next found =>
      cases read
      exact Nat.le_trans (Json.depth_le_nestingDepth found) (Nat.not_lt.1 shallow)
    · cases read

theorem exists_level_lt (read : Tree.ofText text = .ok t) (id : NodeId) : ∃ level < Json.maxDepth, t.Level id level := by
  obtain ⟨json, output, tree⟩ := bind_eq_ok.mp read
  obtain ⟨level, lt, here⟩ := exists_level_ofJson tree id
  exact ⟨level, Nat.lt_of_lt_of_le lt (depth_le_of_readOutput output), here⟩

theorem Level.lt_maxDepth (here : t.Level id level) (read : Tree.ofText text = .ok t) : level < Json.maxDepth := by
  obtain ⟨other, lt, also⟩ := exists_level_lt read id
  rwa [here.unique also]

/-! ### Paths -/

/-- A path down from the root that comes to no node twice, its last node first, and how many of its
    steps are references: they come to a node at another edge than the one where it is defined. -/
inductive Path (t : Tree) : List NodeId → Nat → Prop where
  | root : Path t [t.root] 0
  | step {id child : NodeId} {above : List NodeId} {refs : Nat} {edge : Edge} (path : Path t (id :: above) refs)
      (below : (edge, child) ∈ t.children id) (fresh : child ∉ id :: above) :
    Path t (child :: id :: above) (refs + if t.origin child = some edge then 0 else 1)

variable {path : List NodeId} {refs : Nat}

/-- A step to where a node is defined is a step to the next level. -/
theorem Level.child {child : NodeId} {edge : Edge} (here : t.Level id level) (below : (edge, child) ∈ t.children id)
    (origin : t.origin child = some edge) : t.Level child (level + 1) := by
  exact .inner origin (by rwa [parent_of_mem_children below])

/-- The levels that a path has passed since its last reference are counted by the level of its last node. -/
theorem Path.length_le_level (along : t.Path path refs) (read : Tree.ofText text = .ok t) :
    ∃ id ∈ path.head?, ∃ level, t.Level id level ∧ path.length ≤ Json.maxDepth * refs + level + 1 := by
  induction along with
  | root =>
    obtain ⟨level, -, here⟩ := exists_level_lt read t.root
    exact ⟨t.root, rfl, level, here, by simp⟩
  | @step id child above refs edge path below fresh ih =>
    obtain ⟨_, ⟨⟩, level, here, le⟩ := ih
    refine ⟨child, rfl, ?_⟩
    by_cases origin : t.origin child = some edge
    · refine ⟨level + 1, here.child below origin, ?_⟩
      simp only [List.length_cons, if_pos origin, Nat.add_zero] at le ⊢
      omega
    · obtain ⟨other, -, there⟩ := exists_level_lt read child
      refine ⟨other, there, ?_⟩
      have lt := here.lt_maxDepth read
      simp only [List.length_cons, if_neg origin, Nat.mul_add, Nat.mul_one] at le ⊢
      omega

theorem Path.length_le (along : t.Path path refs) (read : Tree.ofText text = .ok t) :
    path.length ≤ Json.maxDepth * (refs + 1) := by
  obtain ⟨_, -, level, here, le⟩ := along.length_le_level read
  have lt := here.lt_maxDepth read
  simp only [Nat.mul_add, Nat.mul_one]
  omega

/-- A path has no references if nothing occurs but where it is defined. -/
theorem Path.refs_eq_zero (along : t.Path path refs)
    (defined : ∀ id edge child, (edge, child) ∈ t.children id → t.origin child = some edge) : refs = 0 := by
  induction along with
  | root => rfl
  | step _ below _ ih => rw [ih, if_pos (defined _ _ _ below)]

/-- A path comes to each node once, and only its last node may be none of the tree. -/
theorem Path.nodup (along : t.Path path refs) : path.Nodup ∧ ∀ a ∈ path.tail, a < t.size := by
  induction along with
  | root => exact ⟨List.nodup_singleton _, fun a member => absurd member List.not_mem_nil⟩
  | @step id child above refs edge path below fresh ih =>
    refine ⟨List.nodup_cons.2 ⟨fresh, ih.1⟩, ?_⟩
    intro a member
    rcases List.mem_cons.1 member with rfl | further
    · exact Extents.child_size ⟨edge, below⟩
    · exact ih.2 a further

end Tree

/-! ### Long paths -/

/-- An object with a name, which refers to another one. -/
def Json.link (name other : String) : Json :=
  .object [("@id", .string name), ("next", .object [("@reference", .string other)])]

/-- Objects of which each refers to the one before it. Two names are enough, since a name stands for the
    last object that has it. -/
def Json.chain : Nat → String → String → List Json
  | 0, _, _ => []
  | n + 1, name, other => link name other :: chain n other name

def Json.shallow (n : Nat) : Json := .object [("@id", .string "a"), ("links", .array (chain n "b" "a"))]

theorem Json.depths_chain (n : Nat) (name other : String) : depths (chain n name other) ≤ 2 := by
  induction n generalizing name other with
  | zero => simp [chain, depths]
  | succ n ih =>
    have later := ih other name
    simp only [chain, depths, link, depth, fieldDepths]
    omega

theorem Json.depth_shallow (n : Nat) : (shallow n).depth ≤ 4 := by
  have levels := depths_chain n "b" "a"
  simp only [shallow, depth, fieldDepths]
  omega

namespace Builder

variable {b c : Builder} {edge : Edge} {k : Nat} {name other : String}

theorem readValue_link (differ : name ≠ other) (known : b.target? other = some (.node k)) (edge : Edge) :
    ∃ c, readValue (some edge) b (Json.link name other) = .ok (.node b.tree.size, c) ∧
      c.target? name = some (.node b.tree.size) ∧ c.tree.size = b.tree.size + 1 ∧ c.tree.Child b.tree.size k := by
  let fields := [("@id", Json.string name), ("next", .object [("@reference", .string other)])]
  let s := (b.start (some edge) fields).2
  have refers : s.target? other = some (.node k) := by
    rw [target?_start, if_neg (by simpa [fields, idText] using differ)]
    exact known
  have named : [("@reference", Json.string other)].lookup "@reference" = some (.string other) := rfl
  have inner : readValue (some ⟨b.tree.size, 0, none⟩) s (.object [("@reference", .string other)]) = .ok (.node k, s) :=
    (readValue_reference named).mpr ⟨rfl, k, refers, rfl⟩
  have read : readFields b.tree.size 0 none s fields = .ok ([("next", .node k)], none, s) := by
    simp [fields, readFields, isLocationName, inner, bind, Except.bind, pure, Except.pure]
  have room : b.tree.size < s.tree.size := by
    rw [size_start]
    exact Nat.lt_succ_self _
  refine ⟨_, (readValue_object rfl).mpr ⟨_, _, s, read, rfl, rfl⟩, ?_, ?_, ?_⟩
  · have own : s.target? name = some (.node b.tree.size) := by
      rw [target?_start, if_pos (by simp [fields, idText])]
    exact own
  · rw [size_finish, size_start]
  · rw [Extents.child_iff, node_finish_self _ room]
    exact ⟨.node k, by simp, .node k⟩

theorem readItems_chain (n : Nat) (differ : name ≠ other) (known : b.target? other = some (.node k))
    (size : b.tree.size = k + 1) (edge : Edge) (index : Nat) :
    ∃ values c, readItems (some edge) index b (Json.chain n name other) = .ok (values, c) ∧
      c.tree.size = k + n + 1 ∧ (∀ j < n, c.tree.Child (k + j + 1) (k + j)) ∧ (0 < n → .node (k + n) ∈ values) := by
  induction n generalizing b k name other index with
  | zero => exact ⟨[], b, rfl, size, by simp, by simp⟩
  | succ n ih =>
    obtain ⟨d, first, own, grown, below⟩ := readValue_link differ known { edge with index := some index }
    rw [size] at first own below
    rw [size] at grown
    obtain ⟨values, c, later, total, children, last⟩ := ih differ.symm own grown (index + 1)
    have keeps := (grows_readItems _ later).toKeeps
    refine ⟨.node (k + 1) :: values, c, readItems_cons.mpr ⟨_, d, values, first, later, rfl⟩, by omega, ?_, ?_⟩
    · intro j lt
      rcases Nat.eq_zero_or_pos j with rfl | pos
      · have there : k + 1 < d.tree.size := by omega
        exact child_congr (keeps.node there) below
      · obtain ⟨j, rfl⟩ := Nat.exists_eq_add_one_of_ne_zero (Nat.ne_of_gt pos)
        have next := children j (by omega)
        have same : k + 1 + j = k + (j + 1) := by omega
        rwa [same] at next
    · intro _
      rcases Nat.eq_zero_or_pos n with rfl | pos
      · exact List.mem_cons_self
      · have same : k + 1 + n = k + (n + 1) := by omega
        have member := last pos
        rw [same] at member
        exact List.mem_cons_of_mem _ member

end Builder

namespace Tree

variable {t : Tree}

theorem path_of_chain {last k m : Nat} (first : t.Child t.root last) (chained : ∀ j, 0 < j → j < last → t.Child (j + 1) j)
    (sum : k + m = last) (pos : 0 < k) : ∃ refs, t.Path (List.range' k (m + 1) ++ [t.root]) refs := by
  induction m generalizing k with
  | zero =>
    obtain rfl : k = last := sum
    obtain ⟨edge, below⟩ := first
    have fresh : k ∉ [t.root] := by simpa [Tree.root] using Nat.ne_of_gt pos
    exact ⟨_, Path.root.step below fresh⟩
  | succ m ih =>
    obtain ⟨refs, path⟩ := ih (by omega) (Nat.succ_pos k)
    obtain ⟨edge, below⟩ := chained k pos (by omega)
    have fresh : k ∉ (k + 1) :: (List.range' (k + 2) m ++ [t.root]) := by
      simp [Tree.root]
      omega
    rw [List.range'_succ] at path ⊢
    rw [List.range'_succ]
    exact ⟨_, path.step below fresh⟩

/-- The first object of a shallow value holds the whole chain. -/
theorem ofJson_shallow (n : Nat) : ∃ t, Tree.ofJson (Json.shallow (n + 1)) = .ok t ∧ t.Child t.root (n + 1) ∧
    ∀ j, 0 < j → j < n + 1 → t.Child (j + 1) j := by
  let fields := [("@id", Json.string "a"), ("links", .array (Json.chain (n + 1) "b" "a"))]
  let s := (Builder.start {} none fields).2
  have known : s.target? "a" = some (.node 0) := by rfl
  obtain ⟨values, c, items, size, children, last⟩ :=
    Builder.readItems_chain (n + 1) (by decide : "b" ≠ "a") known rfl ⟨0, 0, none⟩ 0
  let root : Node := ⟨Builder.classOf fields, [("links", .array values)], none, none⟩
  have room : 0 < c.tree.size := by
    rw [size]
    exact Nat.succ_pos _
  have array := Builder.readValue_array.mpr ⟨values, items, rfl⟩
  have read : Builder.readFields 0 0 none s fields = .ok ([("links", .array values)], none, c) := by
    simp [fields, Builder.readFields, Builder.isLocationName, array, bind, Except.bind, pure, Except.pure]
  have object : Builder.readValue none {} (.object fields) = .ok (.node 0, c.finish 0 root) :=
    (Builder.readValue_object rfl).mpr ⟨_, _, c, read, rfl, rfl⟩
  refine ⟨(c.finish 0 root).tree, ?_, ?_, ?_⟩
  · show Tree.ofJson (.object fields) = _
    simp only [Tree.ofJson, object, bind, Except.bind]
    rfl
  · have member := last (Nat.succ_pos n)
    rw [Nat.zero_add] at member
    rw [Extents.child_iff, Tree.root, Builder.node_finish_self _ room]
    exact ⟨.array values, by simp [root], .array member (.node _)⟩
  · intro j _ lt
    have below := children j lt
    rw [Nat.zero_add] at below
    exact Builder.child_congr (Builder.node_finish_of_ne _ (Nat.succ_ne_zero j)) below

/-- With no more than four levels, paths may be of any length. -/
theorem exists_path_shallow (n : Nat) : (Json.shallow (n + 1)).depth ≤ 4 ∧
    ∃ t path refs, Tree.ofJson (Json.shallow (n + 1)) = .ok t ∧ t.Path path refs ∧ path.length = n + 2 := by
  obtain ⟨t, read, first, chained⟩ := ofJson_shallow n
  obtain ⟨refs, path⟩ := path_of_chain first chained (Nat.add_comm 1 n) Nat.one_pos
  exact ⟨Json.depth_shallow (n + 1), t, _, refs, read, path, by simp⟩

end Tree
end ApexLayout
