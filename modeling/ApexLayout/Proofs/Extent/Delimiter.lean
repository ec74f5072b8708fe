import ApexLayout.Extent.Basic
import ApexLayout.Proofs.Text.Offset
import Mathlib.Order.Bounds.Basic

/-!
The nearest delimiter outside comments. A round of a search that goes on leaves out nothing that could be found, so the
search ends at the nearest open occurrence (`settles_forward`, `settles_backward`).
-/
namespace ApexLayout
namespace Delimiter

/-- The character stands at the offset, outside every comment. -/
def Free (source : String) (comments : List Span) (target : Char) (offset : Nat) : Prop :=
  Text.StandsAt source target offset ∧ ∀ comment ∈ comments, comment.holds offset = false

instance (source : String) (comments : List Span) (target : Char) (offset : Nat) :
    Decidable (Free source comments target offset) :=
  decidable_of_iff (offset ∈ Text.offsetsOf target source ∧ ∀ comment ∈ comments, comment.holds offset = false)
    (and_congr_left fun _ => Text.mem_offsetsOf)

/-- The first free occurrence at an offset or behind it. -/
structure IsNext (source : String) (comments : List Span) (target : Char) (start offset : Nat) : Prop where
  le : start ≤ offset
  free : Free source comments target offset
  first (other : Nat) : start ≤ other → Free source comments target other → offset ≤ other

/-- The last free occurrence at an offset or before it. -/
structure IsPrevious (source : String) (comments : List Span) (target : Char) (start offset : Nat) : Prop where
  le : offset ≤ start
  free : Free source comments target offset
  last (other : Nat) : other ≤ start → Free source comments target other → other ≤ offset

/-- The byte stands at the offset, outside every comment. -/
def Open (bytes : List UInt8) (comments : List Span) (target : UInt8) (offset : Nat) : Prop :=
  bytes[offset]? = some target ∧ ∀ comment ∈ comments, ¬(comment.start ≤ offset ∧ offset < comment.stop)

variable {bytes : List UInt8} {comments : List Span} {target : UInt8} {start offset : Nat}

theorem next?_eq_some (found : next? bytes target start = some offset) :
    start ≤ offset ∧ bytes[offset]? = some target ∧ ∀ i, start ≤ i → i < offset → bytes[i]? ≠ some target := by
  obtain ⟨i, first, rfl⟩ := Option.map_eq_some_iff.mp found
  obtain ⟨inside, here, least⟩ := List.findIdx?_eq_some_iff_getElem.mp first
  simp only [List.getElem_drop, beq_iff_eq] at here least
  rw [Nat.add_comm]
  refine ⟨Nat.le_add_right .., List.getElem?_eq_some_iff.mpr ⟨_, here⟩, fun j behind before there => ?_⟩
  obtain ⟨k, rfl⟩ := Nat.exists_eq_add_of_le behind
  obtain ⟨_, same⟩ := List.getElem?_eq_some_iff.mp there
  exact least k (by omega) same

theorem next?_eq_none (missing : next? bytes target start = none) (i : Nat) (behind : start ≤ i) :
    bytes[i]? ≠ some target := by
  intro there
  obtain ⟨k, rfl⟩ := Nat.exists_eq_add_of_le behind
  rw [← List.getElem?_drop] at there
  simpa using List.findIdx?_eq_none_iff.mp (Option.map_eq_none_iff.mp missing) _ (List.mem_of_getElem? there)

theorem previous?_eq_some (found : previous? bytes target start = some offset) :
    offset ≤ start ∧ bytes[offset]? = some target ∧ ∀ i, i ≤ start → offset < i → bytes[i]? ≠ some target := by
  obtain ⟨k, first, rfl⟩ := Option.map_eq_some_iff.mp found
  obtain ⟨inside, here, least⟩ := List.findIdx?_eq_some_iff_getElem.mp first
  rw [List.length_reverse] at inside
  simp only [List.getElem_reverse, List.getElem_take, beq_iff_eq] at here least
  have length := List.length_take (i := start + 1) (l := bytes)
  refine ⟨by omega, List.getElem?_eq_some_iff.mpr ⟨_, here⟩, fun i before behind there => ?_⟩
  obtain ⟨lt, same⟩ := List.getElem?_eq_some_iff.mp there
  refine least ((bytes.take (start + 1)).length - 1 - i) (by omega) ?_
  rw [← same]
  congr 1
  omega

theorem previous?_eq_none (missing : previous? bytes target start = none) (i : Nat) (before : i ≤ start) :
    bytes[i]? ≠ some target := by
  intro there
  have front : (bytes.take (start + 1))[i]? = some target := by
    rw [List.getElem?_take_of_lt (by omega)]
    exact there
  simpa using List.findIdx?_eq_none_iff.mp (Option.map_eq_none_iff.mp missing) _
    (List.mem_reverse.mpr (List.mem_of_getElem? front))

theorem open_iff : Open bytes comments target offset ↔ bytes[offset]? = some target ∧ isCommented comments offset = false := by
  simp [Open, isCommented, Span.holds]

theorem open_bytes_iff {source : String} {c : Char} (ascii : c.toNat < 128) :
    Open (Text.bytes source) comments c.toUInt8 offset ↔ Free source comments c offset := by
  rw [Open, Free, Text.getElem?_bytes_iff ascii]
  simp [Span.holds]

/-- A search that fails has nothing to find, and its result is the nearest of what there is. -/
def Settles (nearest : Set Nat → Nat → Prop) (region : Set Nat) : Except String Nat → Prop
  | .ok offset => nearest region offset
  | .error _ => region = ∅

theorem Search.settles_run (search : Search) {nearest : Set Nat → Nat → Prop} {region : Nat → Set Nat}
    (rounds : ∀ start, (search.round start).elim (fun further => region further = region start) (Settles nearest (region start)))
    (start : Nat) : Settles nearest (region start) (search.run start) := by
  fun_induction Search.run search start with
  | case1 start further went ih =>
    have same := rounds start
    rw [went] at same
    exact same ▸ ih
  | case2 start result went =>
    have ends := rounds start
    rwa [went] at ends

/-- The result of a search, if it comes within `n` rounds. -/
def Search.answer (search : Search) : Nat → Nat → Option (Except String Nat)
  | 0, _ => none
  | n + 1, start => (search.round start).elim (search.answer n) some

theorem Search.answer_eq (search : Search) {n start : Nat} (enough : search.left start < n) :
    search.answer n start = some (search.run start) := by
  induction n generalizing start with
  | zero => omega
  | succ n ih =>
    rw [answer, run]
    cases went : search.round start with
    | inl further => exact ih (by have := search.falls went; omega)
    | inr result => rfl

def ahead (bytes : List UInt8) (comments : List Span) (target : UInt8) (start : Nat) : Set Nat :=
  {i | start ≤ i ∧ Open bytes comments target i}

def behind (bytes : List UInt8) (comments : List Span) (target : UInt8) (start : Nat) : Set Nat :=
  {i | i ≤ start ∧ Open bytes comments target i}

theorem settles_forward : Settles IsLeast (ahead bytes comments target start)
    ((forward bytes comments target).run start) := by
  refine Search.settles_run _ (fun start => ?_) start
  simp only [forward]
  cases found : next? bytes target start with
  | none =>
    refine Set.eq_empty_iff_forall_notMem.mpr ?_
    rintro i ⟨further, free⟩
    exact next?_eq_none found i further free.1
  | some offset =>
    obtain ⟨le, here, least⟩ := next?_eq_some found
    have first {i : Nat} (further : start ≤ i) (free : Open bytes comments target i) : offset ≤ i :=
      Nat.le_of_not_lt fun before => least i further before free.1
    cases commented : isCommented comments offset with
    | false =>
      simp only [commented, Bool.false_eq_true, if_false]
      exact ⟨⟨le, open_iff.mpr ⟨here, commented⟩⟩, fun i member => first member.1 member.2⟩
    | true =>
      simp only [commented, if_true]
      refine Set.ext fun i => and_congr_left fun free => ⟨fun past => by omega, fun further => ?_⟩
      refine Nat.lt_of_le_of_ne (first further free) ?_
      rintro rfl
      simp [(open_iff.mp free).2] at commented

theorem settles_backward :
    Settles IsGreatest (behind bytes comments target start) ((backward bytes comments target).run start) := by
  refine Search.settles_run _ (fun start => ?_) start
  simp only [backward]
  cases found : previous? bytes target start with
  | none =>
    refine Set.eq_empty_iff_forall_notMem.mpr ?_
    rintro i ⟨earlier, free⟩
    exact previous?_eq_none found i earlier free.1
  | some offset =>
    obtain ⟨le, here, greatest⟩ := previous?_eq_some found
    have last {i : Nat} (earlier : i ≤ start) (free : Open bytes comments target i) : i ≤ offset :=
      Nat.le_of_not_lt fun beyond => greatest i earlier beyond free.1
    cases commented : isCommented comments offset with
    | false =>
      simp only [commented, Bool.false_eq_true, if_false]
      exact ⟨⟨le, open_iff.mpr ⟨here, commented⟩⟩, fun i member => last member.1 member.2⟩
    | true =>
      simp only [commented, if_true]
      have before {i : Nat} (earlier : i ≤ start) (free : Open bytes comments target i) : i < offset := by
        refine Nat.lt_of_le_of_ne (last earlier free) ?_
        rintro rfl
        simp [(open_iff.mp free).2] at commented
      cases offset with
      | zero =>
        refine Set.eq_empty_iff_forall_notMem.mpr ?_
        rintro i ⟨earlier, free⟩
        exact Nat.not_lt_zero i (before earlier free)
      | succ earlier =>
        refine Set.ext fun i => and_congr_left fun free => ⟨fun past => ?_, fun inside => ?_⟩
        · exact Nat.le_trans past (Nat.le_of_succ_le le)
        · exact Nat.le_of_lt_succ (before inside free)

theorem Settles.iff {nearest : Set Nat → Nat → Prop} {region : Set Nat} {result : Except String Nat}
    (settles : Settles nearest region result) (unique : ∀ {a b}, nearest region a → nearest region b → a = b)
    (inside : ∀ {a}, nearest region a → a ∈ region) :
    (∀ offset, result = .ok offset ↔ nearest region offset) ∧ ((∃ detail, result = .error detail) ↔ region = ∅) := by
  cases result with
  | ok found =>
    have some_there : region ≠ ∅ := Set.nonempty_iff_ne_empty.mp ⟨found, inside settles⟩
    exact ⟨fun offset => ⟨fun same => Except.ok.inj same ▸ settles, fun near => congrArg _ (unique settles near)⟩,
      by simp, fun nothing => absurd nothing some_there⟩
  | error detail =>
    have nothing : region = ∅ := settles
    refine ⟨fun offset => ⟨by rintro ⟨⟩, fun near => ?_⟩, fun _ => nothing, fun _ => ⟨detail, rfl⟩⟩
    have member := inside near
    rw [nothing] at member
    exact member.elim

theorem forward_iff : (∀ offset, (forward bytes comments target).run start = .ok offset ↔
      IsLeast {i | start ≤ i ∧ Open bytes comments target i} offset) ∧
    ((∃ detail, (forward bytes comments target).run start = .error detail) ↔
      {i | start ≤ i ∧ Open bytes comments target i} = ∅) :=
  settles_forward.iff IsLeast.unique And.left

theorem backward_iff : (∀ offset, (backward bytes comments target).run start = .ok offset ↔
      IsGreatest {i | i ≤ start ∧ Open bytes comments target i} offset) ∧
    ((∃ detail, (backward bytes comments target).run start = .error detail) ↔
      {i | i ≤ start ∧ Open bytes comments target i} = ∅) :=
  settles_backward.iff IsGreatest.unique And.left

end Delimiter

namespace Extents.Ground

open Delimiter

variable {g : Ground} {id : NodeId} {start offset : Nat} {c : Char}

theorem expect_eq_ok {search : Except String Nat} : g.expect id search = .ok offset ↔ search = .ok offset := by
  cases search with
  | ok found | error detail => simp [expect]

theorem expect_eq_error {search : Except String Nat} {detail : String} :
    g.expect id search = .error (.location (g.tree.className id) detail) ↔ search = .error detail := by
  cases search with
  | ok found | error detail => simp [expect]

theorem after_eq_ok (ascii : c.toNat < 128) :
    g.after id c.toUInt8 start = .ok offset ↔ IsNext g.source g.comments c start offset := by
  rw [after, expect_eq_ok, forward_iff.1]
  simp only [open_bytes_iff ascii]
  constructor
  · rintro ⟨⟨le, free⟩, least⟩
    exact ⟨le, free, fun other further also => least ⟨further, also⟩⟩
  · intro next
    exact ⟨⟨next.le, next.free⟩, fun other also => next.first other also.1 also.2⟩

theorem before_eq_ok (ascii : c.toNat < 128) :
    g.before id c.toUInt8 start = .ok offset ↔ IsPrevious g.source g.comments c start offset := by
  rw [before, expect_eq_ok, backward_iff.1]
  simp only [open_bytes_iff ascii]
  constructor
  · rintro ⟨⟨le, free⟩, greatest⟩
    exact ⟨le, free, fun other earlier also => greatest ⟨earlier, also⟩⟩
  · intro previous
    exact ⟨⟨previous.le, previous.free⟩, fun other also => previous.last other also.1 also.2⟩

/-- A search for a byte from any offset gives the nearest open occurrence, and fails if and only if there is none. It
    ends in no more rounds than there are bytes, and one, or than the offset it starts from, and one. -/
theorem finds_nearest (g : Ground) (id : NodeId) (target : UInt8) (start : Nat) :
    (∀ offset, g.after id target start = .ok offset ↔
      IsLeast {i | start ≤ i ∧ Open (Text.bytes g.source) g.comments target i} offset) ∧
    (∀ offset, g.before id target start = .ok offset ↔
      IsGreatest {i | i ≤ start ∧ Open (Text.bytes g.source) g.comments target i} offset) ∧
    ((∃ detail, g.after id target start = .error (.location (g.tree.className id) detail)) ↔
      ¬∃ i, start ≤ i ∧ Open (Text.bytes g.source) g.comments target i) ∧
    ((∃ detail, g.before id target start = .error (.location (g.tree.className id) detail)) ↔
      ¬∃ i, i ≤ start ∧ Open (Text.bytes g.source) g.comments target i) ∧
    (∃ result, (forward (Text.bytes g.source) g.comments target).answer ((Text.bytes g.source).length + 1) start = some result ∧
      g.after id target start = g.expect id result) ∧
    ∃ result, (backward (Text.bytes g.source) g.comments target).answer (start + 1) start = some result ∧
      g.before id target start = g.expect id result := by
  have none_iff {p : Nat → Prop} : {i | p i} = ∅ ↔ ¬∃ i, p i := by simp [Set.eq_empty_iff_forall_notMem]
  simp only [after, before, expect_eq_ok, expect_eq_error, ← none_iff]
  refine ⟨forward_iff.1, backward_iff.1, forward_iff.2, backward_iff.2, ?_, ?_⟩
  · exact ⟨_, Search.answer_eq _ (Nat.lt_succ_of_le (Nat.sub_le _ _)), rfl⟩
  · exact ⟨_, Search.answer_eq _ (Nat.lt_succ_self _), rfl⟩

end Extents.Ground
end ApexLayout
