import ApexLayout.Files.Basic
import ApexLayout.Proofs.Outcome
import ApexLayout.Proofs.Text.Blank
import Mathlib.Data.List.Basic

/-!
Files that are written to. A path that leads to a file ends with the name of that file (`IsTree.extension?`). Writing
to a file changes what stands at its place and nothing else, and every path still leads where it led before.
-/
namespace ApexLayout

theorem Text.toList_of_dropPrefix? {start s rest : String} (dropped : dropPrefix? start s = some rest) :
    s.toList = start.toList ++ rest.toList := by
  unfold dropPrefix? at dropped
  split at dropped
  · next starts =>
    obtain ⟨tail, whole⟩ := List.isPrefixOf_iff_prefix.mp starts
    cases dropped
    rw [← whole, ← String.length_toList, List.drop_left, String.toList_ofList]
  · cases dropped

namespace Path

theorem pieces_ne_nil (path : String) : pieces path ≠ [] := by
  simp [pieces, Text.pieces_ne_nil]

theorem pieces_of_dropPrefix? {top path rest : String} (below : Text.dropPrefix? (top ++ "/") path = some rest) :
    pieces path = pieces top ++ pieces rest := by
  have chars := Text.toList_of_dropPrefix? below
  rw [String.toList_append, List.append_assoc] at chars
  rw [pieces, chars, show "/".toList = ['/'] from rfl, List.singleton_append, Text.pieces_append, List.map_append]
  rfl

theorem fileName_of_getLast? {path piece : String} (last : (pieces path).getLast? = some piece) (named : ¬ isIdle piece) :
    fileName path = piece := by
  have first : (pieces path).reverse.head? = some piece := by rw [List.head?_reverse, last]
  obtain ⟨rest, reversed⟩ := List.head?_eq_some_iff.mp first
  have kept : dropIdle (pieces path) = pieces path := by
    rw [dropIdle, reversed, List.dropWhile_cons_of_neg named, ← reversed, List.reverse_reverse]
  rw [fileName, kept, last, Option.getD_some]

theorem extension?_congr {path other : String} (same : fileName path = fileName other) :
    extension? path = extension? other := by
  rw [extension?, extension?, same]

end Path

namespace Files

variable {f g : Files} {path content : String} {place : Place}

/-- No file is the top, and nothing else stands at or below a file. -/
def IsTree (f : Files) : Prop :=
  ∀ entry ∈ f.entries, entry.2 ≠ .directory →
    entry.1 ≠ [] ∧ ∀ other ∈ f.entries, entry.1 <+: other.1 → other.1 = entry.1

instance (f : Files) : Decidable f.IsTree := inferInstanceAs (Decidable (∀ entry ∈ f.entries, _))

theorem lookup_of_entry? (file : f.entry? place = some (.file content)) :
    f.entries.lookup place = some (.file content) := by
  unfold entry? at file
  split at file
  · next found => rwa [← found] at file
  · split at file
    · cases file
    · cases file

theorem IsTree.above (tree : f.IsTree) (file : f.entry? place = some (.file content)) :
    place ≠ [] ∧ ∀ inner, f.entry? inner = some .directory → ¬ place <+: inner := by
  have found := lookup_of_entry? file
  obtain ⟨before, after, split, -⟩ := List.lookup_eq_some_iff.mp found
  have listed : (place, Entry.file content) ∈ f.entries := by simp [split]
  obtain ⟨below_top, alone⟩ := tree _ listed (by simp)
  refine ⟨below_top, fun inner directory start => ?_⟩
  -- Whatever makes the inner place a directory stands below the file, and so at the file itself.
  have same : inner = place := by
    unfold entry? at directory
    split at directory
    · next entry there =>
      obtain ⟨before, after, split, -⟩ := List.lookup_eq_some_iff.mp there
      exact alone (inner, entry) (by simp [split]) start
    · split at directory
      · next held =>
        simp only [Bool.or_eq_true, List.isEmpty_iff, List.any_eq_true, List.isPrefixOf_iff_prefix] at held
        rcases held with rfl | ⟨other, member, longer⟩
        · exact (List.prefix_nil.mp start).symm
        · have here := alone other member (start.trans longer)
          rw [here] at longer
          exact longer.eq_of_length_le start.length_le
      · cases directory
  rw [same, file] at directory
  cases directory

theorem IsTree.step (tree : f.IsTree) {start : Destination} {piece : String}
    (leads : f.step start piece = .ok (.below place)) (file : f.entry? place = some (.file content)) :
    place.getLast? = some piece ∧ ¬ Path.isIdle piece := by
  unfold Files.step at leads
  split at leads
  · cases leads
  · cases leads
  · next directory =>
    split at leads
    · cases leads
      simp only [file, destinationEntry?] at directory
      cases directory
    · next named =>
      split at leads
      · next outer =>
        split at leads
        · split at leads
          · cases leads
          · cases leads
            exact absurd (List.dropLast_prefix outer) ((tree.above file).2 outer directory)
        · split at leads
          · cases leads
          · split at leads
            · cases leads
            · cases leads
              exact ⟨by simp, named⟩
      · split at leads
        · cases leads
        · split at leads
          · cases leads
          · cases leads

theorem IsTree.foldlM_step (tree : f.IsTree) {start : Destination} {pieces : List String} (some_piece : pieces ≠ [])
    (leads : pieces.foldlM f.step start = .ok (.below place)) (file : f.entry? place = some (.file content)) :
    ∃ piece, pieces.getLast? = some piece ∧ place.getLast? = some piece ∧ ¬ Path.isIdle piece := by
  rcases List.eq_nil_or_concat pieces with rfl | ⟨front, piece, rfl⟩
  · exact absurd rfl some_piece
  · rw [List.concat_eq_append, List.foldlM_append, bind_eq_ok] at leads
    obtain ⟨between, -, leads⟩ := leads
    rw [List.foldlM_cons, bind_eq_ok] at leads
    obtain ⟨last, leads, done⟩ := leads
    cases done
    obtain ⟨ends, named⟩ := tree.step leads file
    exact ⟨piece, by simp, ends, named⟩

theorem IsTree.fileName (tree : f.IsTree) (leads : f.destination path = .ok (.below place))
    (file : f.entry? place = some (.file content)) : place.getLast? = some (Path.fileName path) := by
  unfold destination at leads
  split at leads
  · cases leads
  split at leads
  · cases leads
  split at leads
  · cases leads
  split at leads
  · cases leads
    exact absurd rfl (tree.above file).1
  split at leads
  · next rest below =>
    obtain ⟨piece, last, ends, named⟩ := tree.foldlM_step (Path.pieces_ne_nil rest) leads file
    rw [ends, Path.fileName_of_getLast? _ named]
    rw [Path.pieces_of_dropPrefix? below, List.getLast?_append, last]
    rfl
  · obtain ⟨piece, last, ends, named⟩ := tree.foldlM_step (Path.pieces_ne_nil path) leads file
    rw [ends, Path.fileName_of_getLast? last named]

theorem IsTree.extension? (tree : f.IsTree) {other : String} (leads : f.destination path = .ok (.below place))
    (also : f.destination other = .ok (.below place)) (file : f.entry? place = some (.file content)) :
    Path.extension? path = Path.extension? other := by
  apply Path.extension?_congr
  have same := (tree.fileName leads file).symm.trans (tree.fileName also file)
  exact Option.some.inj same

theorem read_eq_ok : f.read path = .ok content ↔
    ∃ place, f.destination path = .ok (.below place) ∧ f.entry? place = some (.file content) := by
  simp only [read, bind_eq_ok]
  constructor
  · rintro ⟨destination, leads, found⟩
    split at found
    · next there =>
      cases found
      cases destination with
      | below place => exact ⟨place, leads, there⟩
      | outside => cases there
    · cases found
    · cases found
  · rintro ⟨place, leads, file⟩
    refine ⟨.below place, leads, ?_⟩
    simp only [file, destinationEntry?]
    rfl

/-- The same paths lead to the same places, and what is a file in one is a file in the other. -/
structure Like (f g : Files) : Prop where
  top : g.top = f.top
  here : g.here = f.here
  kind (place : Place) : (g.entry? place).map (· == .directory) = (f.entry? place).map (· == .directory)

theorem Like.refl (f : Files) : f.Like f := ⟨rfl, rfl, fun _ => rfl⟩

theorem Like.trans {h : Files} (first : f.Like g) (second : g.Like h) : f.Like h :=
  ⟨second.top.trans first.top, second.here.trans first.here, fun place => (second.kind place).trans (first.kind place)⟩

theorem Like.isNone (like : f.Like g) (place : Place) : (g.entry? place).isNone = (f.entry? place).isNone := by
  have same := congrArg Option.isNone (like.kind place)
  simpa using same

theorem Like.step (like : f.Like g) (start : Destination) (piece : String) : g.step start piece = f.step start piece := by
  unfold Files.step
  cases start with
  | outside => rfl
  | below place =>
    have same := like.kind place
    simp only [like.isNone, destinationEntry?]
    rcases there : f.entry? place with _ | ⟨_ | _⟩ <;> rcases now : g.entry? place with _ | ⟨_ | _⟩ <;>
      simp_all

theorem Like.destination (like : f.Like g) (path : String) : g.destination path = f.destination path := by
  have steps : g.step = f.step := funext₂ like.step
  unfold Files.destination
  rw [like.top, like.here, steps]

def written (place : Place) (content : String) (entries : List (Place × Entry)) : List (Place × Entry) :=
  entries.map fun entry => if entry.1 = place then (entry.1, .file content) else entry

theorem entries_write (leads : f.destination path = .ok (.below place)) (content : String) :
    f.write path content = { f with entries := written place content f.entries } := by
  rw [write, leads]
  rfl

theorem lookup_written (place : Place) (content : String) (entries : List (Place × Entry)) (other : Place) :
    (written place content entries).lookup other =
      (entries.lookup other).map fun entry => if other = place then .file content else entry := by
  induction entries with
  | nil => rfl
  | cons entry entries ih =>
    obtain ⟨key, entry⟩ := entry
    rw [written, List.map_cons, ← written]
    by_cases here : other = key
    · subst here
      by_cases target : other = place
      · simp [target]
      · simp [target]
    · have apart : (other == key) = false := by simpa using here
      by_cases target : key = place
      · simp only [if_pos target, List.lookup_cons, apart, ih]
      · simp only [if_neg target, List.lookup_cons, apart, ih]

theorem entry?_write (leads : f.destination path = .ok (.below place)) {old : String}
    (file : f.entry? place = some (.file old)) (content : String) (other : Place) :
    Files.entry? (f.write path content) other = if other = place then some (.file content) else f.entry? other := by
  have places : (written place content f.entries).any (fun entry => other.isPrefixOf entry.1) =
      f.entries.any fun entry => other.isPrefixOf entry.1 := by
    rw [written, List.any_map]
    congr 1
    funext entry
    by_cases target : entry.1 = place
    · simp [target]
    · simp [target]
  rw [entries_write leads]
  by_cases target : other = place
  · subst target
    simp [lookup_written, entry?, lookup_of_entry? file]
  · rw [if_neg target]
    simp only [lookup_written, entry?, target, ↓reduceIte, Option.map_id_fun', id_eq, places]

theorem like_write (leads : f.destination path = .ok (.below place)) {old : String}
    (file : f.entry? place = some (.file old)) (content : String) : f.Like (f.write path content) := by
  refine ⟨by rw [entries_write leads], by rw [entries_write leads], fun other => ?_⟩
  rw [entry?_write leads file]
  split
  · next target =>
    rw [target, file]
    rfl
  · rfl

end Files
end ApexLayout
