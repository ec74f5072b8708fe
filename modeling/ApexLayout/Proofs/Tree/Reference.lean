import ApexLayout.Proofs.Tree.Order

/-!
What references stand for. Nodes register their ids when they start, and locations when they are read; a later
registration of a key replaces the earlier ones. A reference stands for what its key has been registered for last
(`ofJson_references`).
-/
namespace ApexLayout

/-- What happens on the way through a document. -/
inductive Event where
  /-- An object that is a node starts. -/
  | node (key : Option String)
  /-- A location is read, which has a span if its offsets are whole numbers. -/
  | location (key : Option String) (span : Option Span)
  /-- A reference is met in the place of a location. -/
  | locationReference (key : String)
  /-- A reference is met in the place of a node. -/
  | nodeReference (key : String)
  deriving Repr, DecidableEq

/-- What has happened so far, the latest first. -/
abbrev Log := List Event

namespace Event

def isNode : Event → Bool
  | .node _ => true
  | _ => false

def registers (number : NodeId) : Event → Option (String × Target)
  | .node key => key.map fun key => (key, .node number)
  | .location key span => key.bind fun key => span.map fun span => (key, .location span)
  | _ => none

end Event

namespace Log

def nodes (log : Log) : Nat := log.countP Event.isNode

def registrations : Log → List (String × Target)
  | [] => []
  | event :: earlier => (event.registers (nodes earlier)).toList ++ registrations earlier

/-- What a key has been registered for last. -/
def latest (log : Log) (key : String) : Option Target := log.registrations.lookup key

/-- The event of a location: of an object with both offsets, or of a reference to what is registered
    as a location. -/
def locationEvent? (log : Log) : Json → Option Event
  | .object fields =>
    match fields.lookup "@reference" with
    | some reference =>
      match log.latest (Builder.idText reference) with
      | some (.location _) => some (.locationReference (Builder.idText reference))
      | _ => none
    | none =>
      if (fields.lookup "startIndex").isSome && (fields.lookup "endIndex").isSome then
        some (.location ((fields.lookup "@id").map Builder.idText) (Builder.spanOf fields))
      else none
  | _ => none

/-- The event of a field that is taken out of the fields as a location. -/
def lifted? (log : Log) (name : String) (json : Json) : Option Event :=
  if Builder.isLocationName name then log.locationEvent? json else none

mutual
/-- Goes on with a log through a value. -/
def record (log : Log) : Json → Log
  | .array items => recordItems log items
  | .object fields =>
    match fields.lookup "@reference" with
    | some reference => .nodeReference (Builder.idText reference) :: log
    | none => recordFields (.node ((fields.lookup "@id").map Builder.idText) :: log) fields
  | _ => log
def recordItems (log : Log) : List Json → Log
  | [] => log
  | item :: items => recordItems (record log item) items
def recordFields (log : Log) : List (String × Json) → Log
  | [] => log
  | (name, json) :: fields =>
    if name == "@id" || name == "@class" then recordFields log fields
    else
      match log.lifted? name json with
      | some event => recordFields (event :: log) fields
      | none => recordFields (record log json) fields
end

/-- The span of a location that is read next. -/
def spanOf (log : Log) : Event → Option Span
  | .location _ span => span
  | .locationReference key =>
    match log.latest key with
    | some (.location span) => some span
    | _ => none
  | _ => none

/-- What is wrong with an event that comes next: a reference in the place of a node needs one. -/
def fault? (log : Log) : Event → Option FormatError
  | .nodeReference key =>
    match log.latest key with
    | some (.node _) => none
    | some (.location _) =>
      some (.malformed ("@reference '" ++ key ++ "' points at a location outside a location field"))
    | none => some (.reference key)
  | _ => none

/-- Every reference in the place of a node has a key that has been registered for a node last. -/
def Resolved (log : Log) : Prop :=
  ∀ later key earlier, log = later ++ .nodeReference key :: earlier → ∃ id, latest earlier key = some (.node id)

/-- The first event with which something is wrong is one with this error. -/
def FirstFault (log : Log) (error : FormatError) : Prop :=
  ∃ later event earlier, log = later ++ event :: earlier ∧ Resolved earlier ∧ fault? earlier event = some error

end Log

namespace Tree

mutual
/-- The value stands for a value of the document that is read next: what is no object for itself, an
    object for the node with the next number, and a reference for the node that its key has been
    registered for last. -/
def Stands (t : Tree) (log : Log) : Json → Value → Prop
  | .null, value => value = .null
  | .bool truth, value => value = .bool truth
  | .number number, value => value = .number number
  | .string text, value => value = .string text
  | .array items, value => ∃ values, value = .array values ∧ t.StandFor log items values
  | .object fields, value =>
    match fields.lookup "@reference" with
    | some reference => ∃ id, log.latest (Builder.idText reference) = some (.node id) ∧ value = .node id
    | none =>
      value = .node log.nodes ∧ (t.node log.nodes).nodeClass = Builder.classOf fields ∧
        t.StandIn (.node ((fields.lookup "@id").map Builder.idText) :: log) none fields (t.node log.nodes).fields
          (t.node log.nodes).location
def StandFor (t : Tree) (log : Log) : List Json → List Value → Prop
  | [], values => values = []
  | item :: items, values =>
    ∃ value rest, values = value :: rest ∧ t.Stands log item value ∧ t.StandFor (log.record item) items rest
/-- The fields stand for those of an object without its locations, and the span is that of the last of
    these. -/
def StandIn (t : Tree) (log : Log) (location : Option Span) :
    List (String × Json) → List (String × Value) → Option Span → Prop
  | [], kept, last => kept = [] ∧ last = location
  | (name, json) :: fields, kept, last =>
    if name == "@id" || name == "@class" then t.StandIn log location fields kept last
    else
      match log.lifted? name json with
      | some event => t.StandIn (event :: log) (log.spanOf event) fields kept last
      | none =>
        ∃ value rest, kept = (name, value) :: rest ∧ t.Stands log json value ∧
          t.StandIn (log.record json) location fields rest last
end

end Tree

/-! ### Faults -/

namespace Log

variable {log longer earlier : Log} {event : Event} {error other : FormatError}

theorem resolved_nil : Resolved [] := by
  intro later key earlier split
  simp at split

theorem resolved_cons : Resolved (event :: earlier) ↔ Resolved earlier ∧ fault? earlier event = none := by
  constructor
  · intro resolved
    refine ⟨fun later key first split => resolved (event :: later) key first (by rw [split]; rfl), ?_⟩
    cases event with
    | nodeReference key =>
      obtain ⟨id, found⟩ := resolved [] key earlier rfl
      simp [fault?, found]
    | _ => rfl
  · rintro ⟨resolved, faultless⟩ later key first split
    rcases List.cons_eq_append_iff.mp split with ⟨rfl, here⟩ | ⟨rest, rfl, there⟩
    · obtain ⟨rfl, rfl⟩ : .nodeReference key = event ∧ first = earlier := by simpa using here
      simp only [fault?] at faultless
      split at faultless
      · next id found => exact ⟨id, found⟩
      · cases faultless
      · cases faultless
    · exact resolved rest key first there

theorem firstFault_cons : FirstFault (event :: earlier) error ↔
    FirstFault earlier error ∨ Resolved earlier ∧ fault? earlier event = some error := by
  constructor
  · rintro ⟨later, found, first, split, resolved, fault⟩
    rcases List.cons_eq_append_iff.mp split with ⟨rfl, here⟩ | ⟨rest, rfl, there⟩
    · obtain ⟨rfl, rfl⟩ : found = event ∧ first = earlier := by simpa using here
      exact .inr ⟨resolved, fault⟩
    · exact .inl ⟨rest, found, first, there, resolved, fault⟩
  · rintro (⟨later, found, first, rfl, resolved, fault⟩ | ⟨resolved, fault⟩)
    · exact ⟨event :: later, found, first, rfl, resolved, fault⟩
    · exact ⟨[], event, earlier, rfl, resolved, fault⟩

theorem FirstFault.suffix (fault : FirstFault log error) (onward : log <:+ longer) : FirstFault longer error := by
  obtain ⟨more, rfl⟩ := onward
  obtain ⟨later, event, earlier, rfl, resolved, found⟩ := fault
  exact ⟨more ++ later, event, earlier, by rw [List.append_assoc], resolved, found⟩

theorem FirstFault.not_resolved (fault : FirstFault log error) : ¬Resolved log := by
  induction log with
  | nil =>
    obtain ⟨later, event, earlier, split, -⟩ := fault
    simp at split
  | cons event earlier ih =>
    intro resolved
    obtain ⟨before, faultless⟩ := resolved_cons.mp resolved
    rcases firstFault_cons.mp fault with fault | ⟨-, found⟩
    · exact ih fault before
    · rw [faultless] at found
      cases found

theorem FirstFault.unique (fault : FirstFault log error) (fault' : FirstFault log other) : error = other := by
  induction log with
  | nil =>
    obtain ⟨later, event, earlier, split, -⟩ := fault
    simp at split
  | cons event earlier ih =>
    rcases firstFault_cons.mp fault with early | ⟨resolved, found⟩
    · rcases firstFault_cons.mp fault' with early' | ⟨resolved, -⟩
      · exact ih early early'
      · exact absurd resolved early.not_resolved
    · rcases firstFault_cons.mp fault' with early | ⟨-, found'⟩
      · exact absurd resolved early.not_resolved
      · exact Option.some.inj (found.symm.trans found')

/-! ### Logs grow -/

mutual
theorem suffix_record (json : Json) (log : Log) : log <:+ log.record json := by
  cases json with
  | array items => exact suffix_recordItems items log
  | object fields =>
    rw [record]
    split
    · exact List.suffix_cons _ _
    · exact (List.suffix_cons _ _).trans (suffix_recordFields fields _)
  | _ => exact List.suffix_rfl
theorem suffix_recordItems (items : List Json) (log : Log) : log <:+ log.recordItems items := by
  cases items with
  | nil => exact List.suffix_rfl
  | cons item items => exact (suffix_record item log).trans (suffix_recordItems items _)
theorem suffix_recordFields (fields : List (String × Json)) (log : Log) : log <:+ log.recordFields fields := by
  cases fields with
  | nil => exact List.suffix_rfl
  | cons field fields =>
    obtain ⟨name, json⟩ := field
    rw [recordFields]
    split
    · exact suffix_recordFields fields log
    · split
      · exact (List.suffix_cons _ _).trans (suffix_recordFields fields _)
      · exact (suffix_record json log).trans (suffix_recordFields fields _)
end

end Log

namespace Builder

variable {t : Tree} {b c : Builder} {log longer : Log} {edge : Option Edge} {α β : Type}

/-- The log tells of the nodes so far and of their ids. -/
structure Follows (b : Builder) (log : Log) : Prop where
  size : b.tree.size = log.nodes
  targets : b.targets = log.registrations

theorem follows_empty : Follows {} [] := ⟨rfl, rfl⟩

theorem Follows.target? (follows : b.Follows log) (key : String) : b.target? key = log.latest key := by
  rw [Builder.target?, follows.targets, Log.latest]

/-! ### Nodes and locations -/

theorem targets_register (b : Builder) (fields : List (String × Json)) (target : Target) :
    (b.register fields target).targets =
      (((fields.lookup "@id").map idText).map fun key => (key, target)).toList ++ b.targets := by
  unfold register
  cases fields.lookup "@id" with
  | none => rfl
  | some id => rfl

theorem Follows.start (follows : b.Follows log) (fields : List (String × Json)) :
    (b.start edge fields).2.Follows (.node ((fields.lookup "@id").map idText) :: log) := by
  constructor
  · rw [size_start, follows.size]
    exact (List.countP_cons_of_pos rfl).symm
  · have number : b.nodes.size = log.nodes := follows.size
    rw [Builder.start, targets_register, follows.targets, number]
    rfl

theorem Follows.finish (follows : c.Follows log) (id : NodeId) (node : Node) : (c.finish id node).Follows log :=
  ⟨(size_finish id node).trans follows.size, follows.targets⟩

theorem Follows.isLocation (follows : b.Follows log) (json : Json) :
    b.isLocation json = (log.locationEvent? json).isSome := by
  cases json with
  | object fields =>
    simp only [Builder.isLocation, Log.locationEvent?]
    cases fields.lookup "@reference" with
    | some reference =>
      simp only [follows.target?]
      rcases log.latest (idText reference) with _ | target
      · rfl
      · cases target <;> rfl
    | none =>
      simp only
      split
      · next both => exact both
      · next without => exact Bool.eq_false_iff.mpr without
  | _ => rfl

theorem Follows.location (follows : b.Follows log) {json : Json} {event : Event}
    (lifted : log.locationEvent? json = some event) :
    (b.readLocation json).1 = log.spanOf event ∧ (b.readLocation json).2.Follows (event :: log) ∧
      log.fault? event = none := by
  cases json with
  | object fields =>
    simp only [Log.locationEvent?] at lifted
    simp only [readLocation]
    cases refers : fields.lookup "@reference" with
    | some reference =>
      simp only [refers] at lifted ⊢
      split at lifted
      · next span found =>
        cases lifted
        simp only [follows.target?, found, Log.spanOf]
        exact ⟨trivial, ⟨follows.size, follows.targets⟩, rfl⟩
      · cases lifted
    | none =>
      simp only [refers] at lifted ⊢
      split at lifted
      · cases lifted
        cases span : spanOf fields with
        | some span =>
          refine ⟨rfl, ⟨?_, ?_⟩, rfl⟩
          · rw [tree_register, follows.size]
            rfl
          · rw [targets_register, follows.targets]
            cases (fields.lookup "@id").map idText <;> rfl
        | none =>
          refine ⟨rfl, ⟨follows.size, ?_⟩, rfl⟩
          rw [follows.targets]
          cases (fields.lookup "@id").map idText <;> rfl
      · cases lifted
  | _ => cases lifted

theorem Follows.lifted? (follows : b.Follows log) (name : String) (json : Json) :
    (isLocationName name && b.isLocation json) = (log.lifted? name json).isSome := by
  rw [follows.isLocation, Log.lifted?]
  cases isLocationName name <;> rfl

theorem locationEvent?_of_lifted? {name : String} {json : Json} {event : Event}
    (lifted : log.lifted? name json = some event) : log.locationEvent? json = some event := by
  rw [Log.lifted?] at lifted
  split at lifted
  · exact lifted
  · cases lifted

/-! ### Reading -/

/-- The log tells how reading ends: with a builder that it tells of, if nothing is wrong, and otherwise
    with the first fault. -/
def Tells (log : Log) (state : α → Builder) : Outcome α → Prop
  | .ok a => (state a).Follows log ∧ log.Resolved
  | .error error => log.FirstFault error

theorem Tells.of_ok {state : α → Builder} {o : Outcome α} {a : α} (tells : Tells log state o) (ok : o = .ok a) :
    (state a).Follows log ∧ log.Resolved := by
  subst ok
  exact tells

theorem Tells.bind {state : α → Builder} {state' : β → Builder} {o : Outcome α} {f : α → Outcome β}
    (first : Tells log state o) (onward : log <:+ longer)
    (rest : ∀ a, (state a).Follows log → log.Resolved → Tells longer state' (f a)) : Tells longer state' (o >>= f) := by
  cases o with
  | ok a => exact rest a first.1 first.2
  | error error => exact Log.FirstFault.suffix first onward

mutual
theorem tells_readValue (json : Json) {b : Builder} {log : Log} {edge : Option Edge} (follows : b.Follows log)
    (resolved : log.Resolved) : Tells (log.record json) (·.2) (readValue edge b json) := by
  cases json with
  | array items =>
    rw [readValue, Log.record]
    exact (tells_readItems items follows resolved).bind List.suffix_rfl fun _ follows resolved => ⟨follows, resolved⟩
  | object fields =>
    rw [readValue, Log.record]
    cases refers : fields.lookup "@reference" with
    | some reference =>
      simp only [resolve, follows.target?]
      split
      · next id found => exact ⟨⟨follows.size, follows.targets⟩, Log.resolved_cons.mpr ⟨resolved, by simp [Log.fault?, found]⟩⟩
      · next span found => exact Log.firstFault_cons.mpr (.inr ⟨resolved, by simp [Log.fault?, found]⟩)
      · next found => exact Log.firstFault_cons.mpr (.inr ⟨resolved, by simp [Log.fault?, found]⟩)
    | none =>
      have started : Log.Resolved (.node ((fields.lookup "@id").map idText) :: log) := Log.resolved_cons.mpr ⟨resolved, rfl⟩
      exact (tells_readFields fields (follows.start fields) started).bind List.suffix_rfl
        fun _ follows resolved => ⟨follows.finish _ _, resolved⟩
  | _ => exact ⟨follows, resolved⟩
theorem tells_readItems (items : List Json) {b : Builder} {log : Log} {edge : Option Edge} {index : Nat}
    (follows : b.Follows log) (resolved : log.Resolved) :
    Tells (log.recordItems items) (·.2) (readItems edge index b items) := by
  cases items with
  | nil => exact ⟨follows, resolved⟩
  | cons item items =>
    rw [readItems, Log.recordItems]
    refine (tells_readValue item follows resolved).bind (Log.suffix_recordItems items _) fun _ follows resolved => ?_
    exact (tells_readItems items follows resolved).bind List.suffix_rfl fun _ follows resolved => ⟨follows, resolved⟩
theorem tells_readFields (fields : List (String × Json)) {b : Builder} {log : Log} {id : NodeId} {slot : UInt16}
    {location : Option Span} (follows : b.Follows log) (resolved : log.Resolved) :
    Tells (log.recordFields fields) (·.2.2) (readFields id slot location b fields) := by
  cases fields with
  | nil => exact ⟨follows, resolved⟩
  | cons field fields =>
    obtain ⟨name, json⟩ := field
    rw [readFields, Log.recordFields]
    by_cases own : name == "@id" || name == "@class"
    · rw [if_pos own, if_pos own]
      exact tells_readFields fields follows resolved
    · rw [if_neg own, if_neg own]
      rw [follows.lifted? name json]
      cases lifted : log.lifted? name json with
      | some event =>
        obtain ⟨-, follows, faultless⟩ := follows.location (locationEvent?_of_lifted? lifted)
        exact tells_readFields fields follows (Log.resolved_cons.mpr ⟨resolved, faultless⟩)
      | none =>
        refine (tells_readValue json follows resolved).bind (Log.suffix_recordFields fields _) fun _ follows resolved => ?_
        exact (tells_readFields fields follows resolved).bind List.suffix_rfl fun _ follows resolved => ⟨follows, resolved⟩
end

mutual
theorem stands_readValue (json : Json) {b c : Builder} {log : Log} {edge : Option Edge} {v : Value}
    (read : readValue edge b json = .ok (v, c)) (follows : b.Follows log) (resolved : log.Resolved)
    (covers : Covers t b c) : t.Stands log json v := by
  cases json with
  | array items =>
    obtain ⟨values, inner, rfl⟩ := readValue_array.mp read
    rw [Tree.Stands]
    exact ⟨values, rfl, stands_readItems items inner follows resolved covers⟩
  | object fields =>
    rw [Tree.Stands]
    cases refers : fields.lookup "@reference" with
    | some reference =>
      obtain ⟨-, id, found, rfl⟩ := (readValue_reference refers).mp read
      exact ⟨id, by rw [← follows.target?, found], rfl⟩
    | none =>
      obtain ⟨kept, location, d, inner, rfl, rfl⟩ := (readValue_object refers).mp read
      have started : Log.Resolved (.node ((fields.lookup "@id").map idText) :: log) := Log.resolved_cons.mpr ⟨resolved, rfl⟩
      have own := covers.self (grows_readFields fields inner).toKeeps.room
      have below := stands_readFields fields inner (follows.start fields) started (covers.start _ fields)
      rw [follows.size] at own
      refine ⟨by rw [follows.size], ?_⟩
      rw [own]
      exact ⟨rfl, below⟩
  | _ =>
    cases read
    rw [Tree.Stands]
theorem stands_readItems (items : List Json) {b c : Builder} {log : Log} {edge : Option Edge} {index : Nat}
    {values : List Value} (read : readItems edge index b items = .ok (values, c)) (follows : b.Follows log)
    (resolved : log.Resolved) (covers : Covers t b c) : t.StandFor log items values := by
  cases items with
  | nil =>
    cases read
    rw [Tree.StandFor]
  | cons item items =>
    obtain ⟨v, d, rest, first, later, rfl⟩ := readItems_cons.mp read
    have before := (grows_readValue item first).toKeeps
    have after := (grows_readItems items later).toKeeps
    obtain ⟨follows', resolved'⟩ := (tells_readValue item follows resolved).of_ok first
    rw [Tree.StandFor]
    exact ⟨v, rest, rfl, stands_readValue item first follows resolved (covers.first after),
      stands_readItems items later follows' resolved' (covers.rest before)⟩
theorem stands_readFields (fields : List (String × Json)) {b c : Builder} {log : Log} {id : NodeId} {slot : UInt16}
    {location last : Option Span} {kept : List (String × Value)}
    (read : readFields id slot location b fields = .ok (kept, last, c)) (follows : b.Follows log)
    (resolved : log.Resolved) (covers : Covers t b c) : t.StandIn log location fields kept last := by
  cases fields with
  | nil =>
    cases read
    rw [Tree.StandIn]
    exact ⟨rfl, rfl⟩
  | cons field fields =>
    obtain ⟨name, json⟩ := field
    rw [readFields, follows.lifted? name json] at read
    rw [Tree.StandIn]
    by_cases own : name == "@id" || name == "@class"
    · rw [if_pos own] at read ⊢
      exact stands_readFields fields read follows resolved covers
    · rw [if_neg own] at read ⊢
      cases lifted : log.lifted? name json with
      | some event =>
        obtain ⟨span, follows, faultless⟩ := follows.location (locationEvent?_of_lifted? lifted)
        simp only [lifted, Option.isSome_some, ↓reduceIte] at read
        have resolved : Log.Resolved (event :: log) := Log.resolved_cons.mpr ⟨resolved, faultless⟩
        rw [span] at read
        exact stands_readFields fields read follows resolved (covers.readLocation json)
      | none =>
        simp only [lifted, Option.isSome_none, Bool.false_eq_true, ↓reduceIte, bind_eq_ok, pure_eq_ok, Prod.exists,
          Prod.mk.injEq] at read
        obtain ⟨v, d, first, rest, _, _, later, rfl, rfl, rfl⟩ := read
        have before := (grows_readValue json first).toKeeps
        have after := (grows_readFields fields later).toKeeps
        obtain ⟨follows', resolved'⟩ := (tells_readValue json follows resolved).of_ok first
        exact ⟨v, rest, rfl, stands_readValue json first follows resolved (covers.first after),
          stands_readFields fields later follows' resolved' (covers.rest before)⟩
end

/-- The log of an object tells how reading it ends. -/
theorem tells_ofJson (fields : List (String × Json)) :
    Tells (Log.record [] (.object fields)) (·.2) (readValue none {} (.object fields)) :=
  tells_readValue _ follows_empty Log.resolved_nil

end Builder

/-- What references stand for, in any object that is read. There is a tree if and only if every reference in
    the place of a node has a key that has been registered for a node last. In the tree it is that node, and
    a reference in the place of a location is the span that its key has been registered for last. Otherwise
    the error is that of the first reference for which this fails. -/
theorem Tree.ofJson_references (fields : List (String × Json)) :
    ((∃ t, Tree.ofJson (.object fields) = .ok t) ↔ (Log.record [] (.object fields)).Resolved) ∧
      (∀ t, Tree.ofJson (.object fields) = .ok t →
        t.size = (Log.record [] (.object fields)).nodes ∧ t.Stands [] (.object fields) (.node t.root)) ∧
      ∀ error, Tree.ofJson (.object fields) = .error error ↔ (Log.record [] (.object fields)).FirstFault error := by
  have tells := Builder.tells_ofJson fields
  have read : Tree.ofJson (.object fields) =
      (Builder.readValue none {} (.object fields)).map fun result => result.2.tree := by
    rw [Tree.ofJson]
    cases Builder.readValue none {} (.object fields) <;> rfl
  rw [read]
  cases outcome : Builder.readValue none {} (.object fields) with
  | ok result =>
    obtain ⟨v, b⟩ := result
    rw [outcome] at tells
    obtain ⟨follows, resolved⟩ := tells
    obtain rfl := Builder.node_of_readValue_empty outcome
    refine ⟨⟨fun _ => resolved, fun _ => ⟨b.tree, rfl⟩⟩, ?_, fun error => ⟨by rintro ⟨⟩, ?_⟩⟩
    · rintro _ ⟨⟩
      exact ⟨follows.size, Builder.stands_readValue _ outcome Builder.follows_empty Log.resolved_nil
        ⟨Nat.le_refl _, fun _ _ => rfl⟩⟩
    · intro fault
      exact absurd resolved fault.not_resolved
  | error error =>
    rw [outcome] at tells
    have fault : (Log.record [] (.object fields)).FirstFault error := tells
    refine ⟨⟨by rintro ⟨_, ⟨⟩⟩, fun resolved => absurd resolved fault.not_resolved⟩, by rintro _ ⟨⟩, fun other => ⟨?_, ?_⟩⟩
    · rintro ⟨⟩
      exact fault
    · intro fault'
      rw [fault.unique fault']
      rfl

/-- The id of an object is used again by a location. -/
def reused : List (String × Json) :=
  [("first", .object [("@id", .number (.int 7))]), ("again", .object [("@reference", .string "7")]),
    ("loc", .object [("@id", .string "7"), ("startIndex", .number (.int 2)), ("endIndex", .number (.int 5))]),
    ("body", .object [("location", .object [("@reference", .number (.int 7))])])]

/-- Before the location the reference is the object, and behind it the span of the location. Behind it, none
    may stand for a node. -/
theorem Tree.ofJson_references_reused :
    (∃ t, Tree.ofJson (.object reused) = .ok t ∧ t.Stands [] (.object reused) (.node 0) ∧
      (t.children 0).map (·.2) = [1, 1, 2] ∧ (t.node 2).location = some ⟨2, 5⟩) ∧
    Tree.ofJson (.object (reused ++ [("late", .object [("@reference", .string "7")])])) =
      .error (.malformed "@reference '7' points at a location outside a location field") := by
  constructor
  · obtain ⟨t, read, shape⟩ : ∃ t, Tree.ofJson (.object reused) = .ok t ∧ (t.children 0).map (·.2) = [1, 1, 2] ∧
        (t.node 2).location = some ⟨2, 5⟩ := ⟨_, by rfl, by decide, by rfl⟩
    exact ⟨t, read, ((Tree.ofJson_references reused).2.1 t read).2, shape⟩
  · rw [(Tree.ofJson_references _).2.2]
    refine ⟨[], .nodeReference "7", Log.record [] (.object reused), by rfl, ?_, by rfl⟩
    exact (Tree.ofJson_references reused).1.mp ⟨_, by rfl⟩

end ApexLayout
