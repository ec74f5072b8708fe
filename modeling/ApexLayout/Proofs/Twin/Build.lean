import ApexLayout.Proofs.Tree.Growth
import ApexLayout.Proofs.Twin.Tree

/-!
Twin trees are what is read from two outputs that differ in their hidden tokens only. As long as no id of a token that
is left out is used again, references lead to related nodes (`twins_ofJson`).
-/
namespace ApexLayout

variable {r s : NodeId → NodeId → Prop} {gone : List String}

/-- Entries of hidden tokens without some of them, whose ids are gone. An entry is an array of a place and
    a token. -/
inductive Json.EntriesLack (gone : List String) : List Json → List Json → Prop where
  | nil : EntriesLack gone [] []
  | keep (parts : List Json) {entries kept : List Json} (rest : EntriesLack gone entries kept) :
      EntriesLack gone (.array parts :: entries) (.array parts :: kept)
  | drop {entry : Json} {entries kept : List Json} (ids : ∀ id ∈ entry.ids, id ∈ gone)
      (rest : EntriesLack gone entries kept) : EntriesLack gone (entry :: entries) kept

/-- An output without some of its hidden tokens, whose ids are gone. -/
inductive Json.Lacks (gone : List String) : Json → Json → Prop where
  | here (front rest : List (String × Json)) {entries kept : List Json} (lack : EntriesLack gone entries kept) :
      Lacks gone (.object (front ++ (hiddenField, .array entries) :: rest))
        (.object (front ++ (hiddenField, .array kept) :: rest))
  | output (front rest : List (String × Json)) {json json' : Json} (lack : Lacks gone json json') :
      Lacks gone (.object (front ++ (Kind.parserOutput.className, json) :: rest))
        (.object (front ++ (Kind.parserOutput.className, json') :: rest))

/-! ### More nodes that are related -/

mutual
theorem Value.Twin.mono (sub : ∀ id id', r id id' → s id id') (v : Value) {v' : Value} (twin : v.Twin r v') :
    v.Twin s v' := by
  cases twin with
  | null => exact .null
  | bool value => exact .bool value
  | number value => exact .number value
  | string value => exact .string value
  | node here => exact .node (sub _ _ here)
  | @array items items' each => exact .array (Value.Twin.mono_all sub items each)
theorem Value.Twin.mono_all (sub : ∀ id id', r id id' → s id id') (items : List Value) {items' : List Value}
    (each : List.Forall₂ (Value.Twin r) items items') : List.Forall₂ (Value.Twin s) items items' := by
  cases each with
  | nil => exact .nil
  | cons first rest => exact .cons (Value.Twin.mono sub _ first) (Value.Twin.mono_all sub _ rest)
end

section
variable (sub : ∀ id id', r id id' → s id id')
include sub

theorem Edge.Twin.mono {e e' : Edge} (twin : e.Twin r e') : e.Twin s e' :=
  ⟨sub _ _ twin.parent, twin.slot, twin.index⟩

theorem rel_edge_mono {e e' : Option Edge} (rel : Option.Rel (Edge.Twin r) e e') :
    Option.Rel (Edge.Twin s) e e' := by
  cases rel with
  | none => exact .none
  | some twin => exact .some (twin.mono sub)

theorem fieldTwin.mono {field field' : String × Value}
    (twin : fieldTwin r field field') : fieldTwin s field field' :=
  ⟨twin.1, twin.2.imp_right (Value.Twin.mono sub _)⟩

theorem Node.Twin.mono {n n' : Node} (twin : n.Twin r n') : n.Twin s n' where
  nodeClass := twin.nodeClass
  fields := twin.fields.imp fun _ _ => fieldTwin.mono sub
  location := twin.location
  origin := rel_edge_mono sub twin.origin

end

/-- Ids stand for the same: nodes that are related, or one location. -/
inductive Target.Twin (r : NodeId → NodeId → Prop) : Target → Target → Prop where
  | node {id id' : NodeId} (here : r id id') : Twin r (.node id) (.node id')
  | location (span : Span) : Twin r (.location span) (.location span)

theorem Target.Twin.mono (sub : ∀ id id', r id id' → s id id') {target target' : Target}
    (twin : target.Twin r target') : target.Twin s target' := by
  cases twin with
  | node here => exact .node (sub _ _ here)
  | location span => exact .location span

namespace Builder

variable {b b' c c' d d' : Builder} {fields fields' : List (String × Json)} {edge edge' : Option Edge} {json : Json}

/-- What ids stand for in the second builder they stand for in the first, and none of them is gone. -/
structure Twin (gone : List String) (r : NodeId → NodeId → Prop) (b b' : Builder) : Prop where
  inside {id id' : NodeId} : r id id' → id < b.tree.size ∧ id' < b'.tree.size
  target {id : String} {target' : Target} : b'.target? id = some target' →
    id ∉ gone ∧ ∃ target, b.target? id = some target ∧ target.Twin r target'

/-- Twins have grown to twins, and the nodes that were added and are related are twins. -/
structure Onward (gone : List String) (r s : NodeId → NodeId → Prop) (b b' c c' : Builder) : Prop where
  twin : c.Twin gone s c'
  keeps : b.Keeps c
  keeps' : b'.Keeps c'
  sub (id id' : NodeId) : r id id' → s id id'
  added {id id' : NodeId} : s id id' →
    r id id' ∨ b.tree.size ≤ id ∧ b'.tree.size ≤ id' ∧ (c.tree.node id).Twin s (c'.tree.node id')

theorem Onward.refl (twin : b.Twin gone r b') : Onward gone r r b b' b b' :=
  ⟨twin, .refl b, .refl b', fun _ _ here => here, .inl⟩

theorem Onward.trans {u : NodeId → NodeId → Prop} (first : Onward gone r s b b' c c')
    (second : Onward gone s u c c' d d') : Onward gone r u b b' d d' where
  twin := second.twin
  keeps := first.keeps.trans second.keeps
  keeps' := first.keeps'.trans second.keeps'
  sub id id' here := second.sub id id' (first.sub id id' here)
  added {id id'} here := by
    rcases second.added here with early | ⟨late, late', twin⟩
    · refine (first.added early).imp_right fun ⟨late, late', twin⟩ => ⟨late, late', ?_⟩
      obtain ⟨inside, inside'⟩ := first.twin.inside early
      rw [second.keeps.node inside, second.keeps'.node inside']
      exact twin.mono second.sub
    · exact .inr ⟨Nat.le_trans first.keeps.size late, Nat.le_trans first.keeps'.size late', twin⟩

/-! ### Steps of reading -/

/-- What only the first builder reads, with ids that are gone, leaves twins. -/
theorem Twin.skip {ids : List String} {held : NodeId → Prop} (twin : b.Twin gone r b') (grows : Grows b c ids held)
    (among : ∀ id ∈ ids, id ∈ gone) : Onward gone r r b b' c b' where
  twin.inside here := ⟨Nat.lt_of_lt_of_le (twin.inside here).1 grows.size, (twin.inside here).2⟩
  twin.target found := by
    obtain ⟨remains, target, there, related⟩ := twin.target found
    exact ⟨remains, target, (grows.target fun member => remains (among _ member)).trans there, related⟩
  keeps := grows.toKeeps
  keeps' := .refl b'
  sub _ _ here := here
  added := .inl

/-- The id of an object stands for targets that are related. -/
theorem Twin.register {target target' : Target} (twin : b.Twin gone r b')
    (same : fields.lookup "@id" = fields'.lookup "@id")
    (remains : ∀ id, (fields.lookup "@id").map idText = some id → id ∉ gone) (related : target.Twin r target') :
    (b.register fields target).Twin gone r (b'.register fields' target') where
  inside here := by simpa using twin.inside here
  target {id _} found := by
    rw [target?_register, ← same] at found
    rw [target?_register]
    by_cases own : (fields.lookup "@id").map idText = some id
    · rw [if_pos own] at found ⊢
      obtain rfl := Option.some.inj found
      exact ⟨remains id own, target, rfl, related⟩
    · rw [if_neg own] at found ⊢
      exact twin.target found

def withNext (r : NodeId → NodeId → Prop) (b b' : Builder) (id id' : NodeId) : Prop :=
  r id id' ∨ id = b.tree.size ∧ id' = b'.tree.size

theorem Twin.start (twin : b.Twin gone r b')
    (same : fields.lookup "@id" = fields'.lookup "@id")
    (remains : ∀ id, (fields.lookup "@id").map idText = some id → id ∉ gone) (edge edge' : Option Edge) :
    (b.start edge fields).2.Twin gone (withNext r b b') (b'.start edge' fields').2 := by
  have pushed : Twin gone (withNext r b b') { b with nodes := b.nodes.push { origin := edge } }
      { b' with nodes := b'.nodes.push { origin := edge' } } := by
    refine ⟨fun here => ?_, fun found => ?_⟩
    · simp only [tree, Tree.size, Array.size_push]
      rcases here with early | ⟨rfl, rfl⟩
      · obtain ⟨inside, inside'⟩ := twin.inside early
        exact ⟨Nat.lt_succ_of_lt inside, Nat.lt_succ_of_lt inside'⟩
      · exact ⟨Nat.lt_succ_self _, Nat.lt_succ_self _⟩
    · obtain ⟨remains, target, there, related⟩ := twin.target found
      exact ⟨remains, target, there, related.mono fun _ _ => .inl⟩
  exact pushed.register same remains (.node (.inr ⟨rfl, rfl⟩))

theorem Onward.finish {node node' : Node}
    (onward : Onward gone (withNext r b b') s (b.start edge fields).2 (b'.start edge' fields').2 c c')
    (twin : node.Twin s node') :
    Onward gone r s b b' (c.finish b.tree.size node) (c'.finish b'.tree.size node') where
  twin.inside here := by
    rw [size_finish, size_finish]
    exact onward.twin.inside here
  twin.target found := onward.twin.target found
  keeps := onward.keeps.finish node
  keeps' := onward.keeps'.finish node'
  sub id id' here := onward.sub id id' (.inl here)
  added {id id'} here := by
    rcases onward.added here with (early | ⟨rfl, rfl⟩) | ⟨late, late', related⟩
    · exact .inl early
    · refine .inr ⟨Nat.le_refl _, Nat.le_refl _, ?_⟩
      rw [node_finish_self _ onward.keeps.room, node_finish_self _ onward.keeps'.room]
      exact twin
    · rw [size_start] at late late'
      refine .inr ⟨Nat.le_of_succ_le late, Nat.le_of_succ_le late', ?_⟩
      rw [node_finish_of_ne _ (Nat.ne_of_gt late), node_finish_of_ne _ (Nat.ne_of_gt late')]
      exact related

/-- A reference that stands for a location stands for the same one with the tokens that are left out. -/
theorem Twin.location (twin : b.Twin gone r b') {fields : List (String × Json)} {reference : Json}
    (refers : fields.lookup "@reference" = some reference) (found : b'.isLocation (.object fields)) :
    ∃ span, b.target? (idText reference) = some (.location span) ∧ b'.target? (idText reference) = some (.location span) := by
  simp only [Builder.isLocation, refers] at found
  split at found
  · next span there =>
    obtain ⟨-, target, there_too, related⟩ := twin.target there
    cases related with
    | location span => exact ⟨span, there_too, there⟩
  · cases found

theorem Twin.isLocation (twin : b.Twin gone r b') (found : b'.isLocation json) : b.isLocation json := by
  cases json with
  | object fields =>
    cases refers : fields.lookup "@reference" with
    | none => simpa [Builder.isLocation, refers] using found
    | some reference =>
      obtain ⟨span, here, -⟩ := twin.location refers found
      simp [Builder.isLocation, refers, here]
  | _ => cases found

/-- A reference to a location is none to a node. -/
theorem Twin.isLocation_of_read (twin : b.Twin gone r b') (found : b.isLocation json)
    {v : Value} (read : readValue edge b' json = .ok (v, c')) : b'.isLocation json := by
  cases json with
  | object fields =>
    simp only [Builder.isLocation] at found ⊢
    cases refers : fields.lookup "@reference" with
    | none => simpa [refers] using found
    | some reference =>
      obtain ⟨-, id, there, -⟩ := (readValue_reference refers).mp read
      obtain ⟨-, target, there_too, related⟩ := twin.target there
      cases related with
      | node here => simp [refers, there_too] at found
  | _ => cases found

theorem Twin.readLocation (twin : b.Twin gone r b') (found : b'.isLocation json)
    (remains : ∀ id ∈ json.ids, id ∉ gone) :
    (b.readLocation json).1 = (b'.readLocation json).1 ∧
      Onward gone r r b b' (b.readLocation json).2 (b'.readLocation json).2 := by
  have grows (b : Builder) : Grows b (b.readLocation json).2 json.ids fun _ => True := grows_readLocation b json
  suffices same : (b.readLocation json).1 = (b'.readLocation json).1 ∧
      (b.readLocation json).2.Twin gone r (b'.readLocation json).2 from
    ⟨same.1, same.2, (grows b).toKeeps, (grows b').toKeeps, fun _ _ here => here, .inl⟩
  cases json with
  | object fields =>
    simp only [Builder.readLocation]
    cases refers : fields.lookup "@reference" with
    | some reference =>
      obtain ⟨span, here, there⟩ := twin.location refers found
      simp only [here, there, true_and]
      exact twin
    | none =>
      cases spanOf fields with
      | none => exact ⟨rfl, twin⟩
      | some span =>
        refine ⟨rfl, twin.register rfl (fun id own => remains id ?_) (.location span)⟩
        simp [Json.ids, own]
  | _ => cases found

/-! ### Values, elements and fields -/

/-- Reading both values leads from twins to twins and gives values that are related. -/
def Matches (gone : List String) (related : (NodeId → NodeId → Prop) → Value → Value → Prop) (json json' : Json) :
    Prop :=
  ∀ ⦃r : NodeId → NodeId → Prop⦄ ⦃b b' c c' : Builder⦄ ⦃edge edge' : Option Edge⦄ ⦃v v' : Value⦄,
    b.Twin gone r b' → Option.Rel (Edge.Twin r) edge edge' → readValue edge b json = .ok (v, c) →
    readValue edge' b' json' = .ok (v', c') → ∃ s, Onward gone r s b b' c c' ∧ related s v v'

/-- Fields of one name with values that match. Locations are the same. -/
structure FieldMatches (gone : List String) (field field' : String × Json) : Prop where
  name : field.1 = field'.1
  value : Matches gone (fun r v v' => fieldTwin r (field.1, v) (field.1, v')) field.2 field'.2
  location : isLocationName field.1 → field.2 = field'.2 ∧ ∀ id ∈ field.2.ids, id ∉ gone

theorem Twin.readItems (twin : b.Twin gone r b') {items items' : List Json}
    (each : List.Forall₂ (Matches gone Value.Twin) items items')
    (edges : ∀ index, Option.Rel (Edge.Twin r) (edge.map fun e => { e with index := some index })
      (edge'.map fun e => { e with index := some index }))
    {index : Nat} {values values' : List Value} (read : readItems edge index b items = .ok (values, c))
    (read' : readItems edge' index b' items' = .ok (values', c')) :
    ∃ s, Onward gone r s b b' c c' ∧ List.Forall₂ (Value.Twin s) values values' := by
  induction each generalizing r b b' index values values' with
  | nil =>
    cases read
    cases read'
    exact ⟨r, .refl twin, .nil⟩
  | cons first _ ih =>
    obtain ⟨v, d, rest, here, later, rfl⟩ := readItems_cons.mp read
    obtain ⟨v', d', rest', here', later', rfl⟩ := readItems_cons.mp read'
    obtain ⟨s, onward, related⟩ := first twin (edges index) here here'
    obtain ⟨u, further, others⟩ :=
      ih onward.twin (fun index => rel_edge_mono onward.sub (edges index)) later later'
    exact ⟨u, onward.trans further, .cons (related.mono further.sub) others⟩

theorem Twin.readFields (twin : b.Twin gone r b')
    (each : List.Forall₂ (FieldMatches gone) fields fields') {id id' : NodeId} (here : r id id') {slot : UInt16}
    {location last last' : Option Span} {kept kept' : List (String × Value)}
    (read : readFields id slot location b fields = .ok (kept, last, c))
    (read' : readFields id' slot location b' fields' = .ok (kept', last', c')) :
    ∃ s, Onward gone r s b b' c c' ∧ List.Forall₂ (fieldTwin s) kept kept' ∧ last = last' := by
  induction each generalizing r b b' slot location kept kept' with
  | nil =>
    cases read
    cases read'
    exact ⟨r, .refl twin, .nil, rfl⟩
  | @cons field field' fields fields' first _ ih =>
    obtain ⟨name, json⟩ := field
    obtain ⟨name', json'⟩ := field'
    obtain ⟨same, value, locations⟩ := first
    simp only at same value locations
    subst same
    rw [Builder.readFields] at read read'
    by_cases apart : (name == "@id" || name == "@class") = true
    · rw [if_pos apart] at read read'
      exact ih twin here read read'
    · rw [if_neg apart] at read read'
      by_cases located : (isLocationName name && b'.isLocation json') = true
      · obtain ⟨named, found⟩ := Bool.and_eq_true_iff.mp located
        obtain ⟨rfl, remains⟩ := locations named
        rw [if_pos (by simp [named, twin.isLocation found])] at read
        rw [if_pos located] at read'
        obtain ⟨same, onward⟩ := twin.readLocation found remains
        have later : Builder.readFields id slot (b.readLocation json).1 (b.readLocation json).2 fields = _ := read
        rw [same] at later
        obtain ⟨s, further, related⟩ := ih onward.twin here later read'
        exact ⟨s, onward.trans further, related⟩
      · rw [if_neg located] at read'
        simp only [bind_eq_ok, pure_eq_ok, Prod.exists, Prod.mk.injEq] at read'
        obtain ⟨v', d', this', rest', _, _, later', rfl, rfl, rfl⟩ := read'
        have free : ¬ (isLocationName name && b.isLocation json) = true := by
          intro both
          obtain ⟨named, found⟩ := Bool.and_eq_true_iff.mp both
          obtain ⟨rfl, -⟩ := locations named
          exact located (by simp [named, twin.isLocation_of_read found this'])
        rw [if_neg free] at read
        simp only [bind_eq_ok, pure_eq_ok, Prod.exists, Prod.mk.injEq] at read
        obtain ⟨v, d, this, rest, _, _, later, rfl, rfl, rfl⟩ := read
        have edges : Edge.Twin r ⟨id, slot, none⟩ ⟨id', slot, none⟩ := ⟨here, rfl, rfl⟩
        obtain ⟨s, onward, related⟩ := value twin (.some edges) this this'
        obtain ⟨u, further, others, same⟩ := ih onward.twin (onward.sub _ _ here) later later'
        exact ⟨u, onward.trans further, .cons (related.mono further.sub) others, same⟩

theorem matches_object (each : List.Forall₂ (FieldMatches gone) fields fields')
    (same : ∀ key ∈ ["@id", "@class", "@reference"], fields.lookup key = fields'.lookup key)
    (remains : ∀ id, (fields.lookup "@id").map idText = some id → id ∉ gone) :
    Matches gone Value.Twin (.object fields) (.object fields') := by
  intro r b b' c c' edge edge' v v' twin edges read read'
  have same_reference := same "@reference" (by decide)
  cases refers : fields.lookup "@reference" with
  | some reference =>
    obtain ⟨rfl, id, there, rfl⟩ := (readValue_reference refers).mp read
    obtain ⟨rfl, id', there', rfl⟩ := (readValue_reference (same_reference.symm.trans refers)).mp read'
    obtain ⟨-, target, found, related⟩ := twin.target there'
    obtain rfl := Option.some.inj (there.symm.trans found)
    cases related with
    | node here => exact ⟨r, .refl twin, .node here⟩
  | none =>
    obtain ⟨kept, location, d, inner, rfl, rfl⟩ := (readValue_object refers).mp read
    obtain ⟨kept', location', d', inner', rfl, rfl⟩ := (readValue_object (same_reference.symm.trans refers)).mp read'
    have started := twin.start (same "@id" (by decide)) remains edge edge'
    have here : withNext r b b' b.tree.size b'.tree.size := .inr ⟨rfl, rfl⟩
    obtain ⟨s, onward, related, rfl⟩ := started.readFields each here inner inner'
    have same_class : classOf fields = classOf fields' := by rw [classOf, same "@class" (by decide), classOf]
    have origins := rel_edge_mono (fun _ _ found => onward.sub _ _ (.inl found)) edges
    exact ⟨s, onward.finish ⟨same_class, related, rfl, origins⟩, .node (onward.sub _ _ here)⟩

theorem places_of_edges (edges : Option.Rel (Edge.Twin r) edge edge') (index : Nat) :
    Option.Rel (Edge.Twin r) (edge.map fun e => { e with index := some index })
      (edge'.map fun e => { e with index := some index }) := by
  cases edges with
  | none => exact .none
  | some same => exact .some ⟨same.parent, same.slot, rfl⟩

theorem matches_array {items items' : List Json} (each : List.Forall₂ (Matches gone Value.Twin) items items') :
    Matches gone Value.Twin (.array items) (.array items') := by
  intro r b b' c c' edge edge' v v' twin edges read read'
  obtain ⟨values, inner, rfl⟩ := readValue_array.mp read
  obtain ⟨values', inner', rfl⟩ := readValue_array.mp read'
  obtain ⟨s, onward, related⟩ := twin.readItems each (places_of_edges edges) inner inner'
  exact ⟨s, onward, .array related⟩

theorem matches_plain {value : Value} (plain : ∀ edge b, readValue edge b json = .ok (value, b))
    (same : ∀ r, value.Twin r value) : Matches gone Value.Twin json json := by
  intro r b b' c c' edge edge' v v' twin _ read read'
  cases (plain edge b).symm.trans read
  cases (plain edge' b').symm.trans read'
  exact ⟨r, .refl twin, same r⟩

mutual
theorem matches_self (json : Json) (remains : ∀ id ∈ json.ids, id ∉ gone) : Matches gone Value.Twin json json := by
  cases json with
  | null => exact matches_plain (fun _ _ => rfl) fun _ => .null
  | bool value => exact matches_plain (fun _ _ => rfl) fun _ => .bool value
  | number value => exact matches_plain (fun _ _ => rfl) fun _ => .number value
  | string value => exact matches_plain (fun _ _ => rfl) fun _ => .string value
  | array items => exact matches_array (items_match_self items remains)
  | object fields =>
    simp only [Json.ids, List.mem_append, Option.mem_toList] at remains
    exact matches_object (fields_match_self fields fun id member => remains id (.inr member)) (fun _ _ => rfl)
      fun id own => remains id (.inl own)
theorem items_match_self (items : List Json) (remains : ∀ id ∈ Json.idsIn items, id ∉ gone) :
    List.Forall₂ (Matches gone Value.Twin) items items := by
  cases items with
  | nil => exact .nil
  | cons item items =>
    simp only [Json.idsIn, List.mem_append] at remains
    exact .cons (matches_self item fun id member => remains id (.inl member))
      (items_match_self items fun id member => remains id (.inr member))
theorem fields_match_self (fields : List (String × Json)) (remains : ∀ id ∈ Json.idsBelow fields, id ∉ gone) :
    List.Forall₂ (FieldMatches gone) fields fields := by
  cases fields with
  | nil => exact .nil
  | cons field fields =>
    obtain ⟨name, json⟩ := field
    simp only [Json.idsBelow, List.mem_append] at remains
    have here := fun id member => remains id (.inl member)
    refine .cons ⟨rfl, ?_, fun _ => ⟨rfl, here⟩⟩ (fields_match_self fields fun id member => remains id (.inr member))
    intro r b b' c c' edge edge' v v' twin edges read read'
    obtain ⟨s, onward, related⟩ := matches_self json here twin edges read read'
    exact ⟨s, onward, rfl, .inr related⟩
end

/-! ### Hidden tokens -/

/-- Entries that are left out are read by the first builder only. A token is at its place within its entry,
    so that those kept have the same places. -/
theorem Twin.readEntries (twin : b.Twin gone r b') {entries kept : List Json}
    (lack : Json.EntriesLack gone entries kept) (remains : ∀ id ∈ Json.idsIn kept, id ∉ gone)
    (edges : ∀ index, Option.Rel (Edge.Twin r) (edge.map fun e => { e with index := some index })
      (edge'.map fun e => { e with index := some index }))
    {index index' : Nat} {values values' : List Value} (read : Builder.readItems edge index b entries = .ok (values, c))
    (read' : Builder.readItems edge' index' b' kept = .ok (values', c')) : ∃ s, Onward gone r s b b' c c' := by
  induction lack generalizing r b b' index index' values values' with
  | nil =>
    cases read
    cases read'
    exact ⟨r, .refl twin⟩
  | keep parts _ ih =>
    simp only [Json.idsIn, List.mem_append] at remains
    obtain ⟨v, d, rest, here, later, rfl⟩ := readItems_cons.mp read
    obtain ⟨v', d', rest', here', later', rfl⟩ := readItems_cons.mp read'
    obtain ⟨_, inner, rfl⟩ := readValue_array.mp here
    obtain ⟨_, inner', rfl⟩ := readValue_array.mp here'
    have each := items_match_self parts fun id member => remains id (.inl member)
    obtain ⟨s, onward, -⟩ :=
      twin.readItems each (fun place => by simpa [Function.comp_def] using edges place) inner inner'
    obtain ⟨u, further⟩ := ih onward.twin (fun id member => remains id (.inr member))
      (fun index => rel_edge_mono onward.sub (edges index)) later later'
    exact ⟨u, onward.trans further⟩
  | drop ids _ ih =>
    obtain ⟨v, d, rest, here, later, rfl⟩ := readItems_cons.mp read
    have onward := twin.skip (grows_readValue _ here) ids
    obtain ⟨u, further⟩ := ih onward.twin remains edges later read'
    exact ⟨u, onward.trans further⟩

theorem matches_entries {entries kept : List Json} (lack : Json.EntriesLack gone entries kept)
    (remains : ∀ id ∈ Json.idsIn kept, id ∉ gone) :
    Matches gone (fun r v v' => fieldTwin r (hiddenField, v) (hiddenField, v')) (.array entries) (.array kept) := by
  intro r b b' c c' edge edge' v v' twin edges read read'
  obtain ⟨_, inner, rfl⟩ := readValue_array.mp read
  obtain ⟨_, inner', rfl⟩ := readValue_array.mp read'
  obtain ⟨s, onward⟩ := twin.readEntries lack remains (places_of_edges edges) inner inner'
  exact ⟨s, onward, rfl, .inl rfl⟩

theorem lookup_change (front rest : List (String × Json)) {name key : String} (other : key ≠ name) (json json' : Json) :
    (front ++ (name, json) :: rest).lookup key = (front ++ (name, json') :: rest).lookup key := by
  have differs : (key == name) = false := by simpa using other
  simp [List.lookup_append, List.lookup_cons, differs]

theorem idsBelow_append (front rest : List (String × Json)) :
    Json.idsBelow (front ++ rest) = Json.idsBelow front ++ Json.idsBelow rest := by
  induction front with
  | nil => rfl
  | cons field front ih => simp [Json.idsBelow, ih]

/-- The names of the fields that say what an object is and where it stands. -/
def ownNames : List String := ["@id", "@class", "@reference", "loc", "location"]

/-- Objects that differ in one field. -/
theorem matches_change (front rest : List (String × Json)) {name : String} {json' : Json} (apart : name ∉ ownNames)
    (remains : ∀ id ∈ (Json.object (front ++ (name, json') :: rest)).ids, id ∉ gone)
    (inner : Matches gone (fun r v v' => fieldTwin r (name, v) (name, v')) json json') :
    Matches gone Value.Twin (.object (front ++ (name, json) :: rest)) (.object (front ++ (name, json') :: rest)) := by
  simp only [ownNames, List.mem_cons, not_or, List.not_mem_nil, not_false_eq_true, and_true] at apart
  obtain ⟨not_id, not_class, not_reference, not_loc, not_location⟩ := apart
  have same : ∀ key ∈ ["@id", "@class", "@reference"],
      (front ++ (name, json) :: rest).lookup key = (front ++ (name, json') :: rest).lookup key := by
    intro key member
    refine lookup_change front rest ?_ json json'
    rintro rfl
    simp only [List.mem_cons, List.not_mem_nil, or_false] at member
    tauto
  simp only [Json.ids, idsBelow_append, Json.idsBelow, List.mem_append, Option.mem_toList] at remains
  refine matches_object (List.rel_append ?_ (.cons ⟨rfl, inner, fun named => ?_⟩ ?_)) same fun id own => ?_
  · exact fields_match_self front fun id member => remains id (.inr (.inl member))
  · simp [isLocationName, not_loc, not_location] at named
  · exact fields_match_self rest fun id member => remains id (.inr (.inr (.inr member)))
  · exact remains id (.inl (same "@id" (by decide) ▸ own))

theorem matches_of_lacks {json' : Json} (lack : json.Lacks gone json') (remains : ∀ id ∈ json'.ids, id ∉ gone) :
    Matches gone Value.Twin json json' := by
  induction lack with
  | @here front rest entries kept lack =>
    refine matches_change front rest (by decide) remains (matches_entries lack fun id member => remains id ?_)
    simp [Json.ids, idsBelow_append, Json.idsBelow, member]
  | @output front rest json json' _ ih =>
    refine matches_change front rest (by decide) remains fun r b b' c c' edge edge' v v' twin edges read read' => ?_
    have inner := ih fun id member => remains id (by simp [Json.ids, idsBelow_append, Json.idsBelow, member])
    obtain ⟨s, onward, related⟩ := inner twin edges read read'
    exact ⟨s, onward, rfl, .inr related⟩

end Builder

/-- Outputs that differ in hidden tokens only, of which no id is used again, have twin trees. -/
theorem Tree.twins_ofJson {json json' : Json} {t t' : Tree} (lack : json.Lacks gone json')
    (remains : ∀ id ∈ json'.ids, id ∉ gone) (read : Tree.ofJson json = .ok t) (read' : Tree.ofJson json' = .ok t') :
    ∃ r, t.Twins r t' ∧ r t.root t'.root ∧ ∀ id id', r id id' → id < t.size ∧ id' < t'.size := by
  obtain ⟨b, inner, rfl⟩ := Tree.ofJson_eq_ok read
  obtain ⟨b', inner', rfl⟩ := Tree.ofJson_eq_ok read'
  have empty : Builder.Twin gone (fun _ _ => False) {} {} := ⟨nofun, nofun⟩
  obtain ⟨r, onward, root⟩ := Builder.matches_of_lacks lack remains empty .none inner inner'
  refine ⟨r, fun id id' here => ?_, ?_, fun id id' here => onward.twin.inside here⟩
  · exact ((onward.added here).resolve_left not_false).2.2
  · cases root with
    | node here => exact here

end ApexLayout
