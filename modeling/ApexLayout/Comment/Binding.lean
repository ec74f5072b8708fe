import ApexLayout.Comment.Rules
import ApexLayout.Occurrence

/-!
Binding comments to nodes. Every comment goes to exactly one node: to the one a rule of the
language names, or to a neighbour by where it stands on its line. Comments with code on both sides
are tied between their neighbours; a tie is broken once the next tie has another follower, or at the
end, by what stands between the comments and the follower.
-/
namespace ApexLayout

namespace Site

/-! ### Placement -/

/-- Where the run of comments before a comment starts, on the same line and behind the same node. The
    comments before it are given nearest first. -/
def runStart (site : Site) (preceding : Option NodeId) (start : Nat) : List Comment → Nat
  | [] => start
  | other :: rest =>
    if other.near.preceding == preceding && Text.isBlankBetween site.source other.span.stop start then
      site.runStart preceding other.span.start rest
    else start

def runStop (site : Site) (following : Option NodeId) (stop : Nat) : List Comment → Nat
  | [] => stop
  | other :: rest =>
    if other.near.following == following && Text.isBlankBetween site.source stop other.span.start then
      site.runStop following other.span.stop rest
    else stop

/-- The placement of a comment, with the comments before it, nearest first, and those after it. -/
def placement (site : Site) (before : List Comment) (c : Comment) (after : List Comment) : Placement :=
  let start := if c.near.preceding.isSome then site.runStart c.near.preceding c.span.start before else c.span.start
  let stop := if c.near.following.isSome then site.runStop c.near.following c.span.stop after else c.span.stop
  if Text.startsLine site.source start then .ownLine
  else if Text.endsLine site.source stop then .endOfLine
  else .remaining

/-! ### Ties -/

structure Tie where
  comment : Comment
  preceding : NodeId
  following : NodeId

/-- How many of the ties, last first, are apart from the follower only by blanks and by each other. -/
def leadingTies (site : Site) (stop : Nat) : List Tie → Nat
  | [] => 0
  | tie :: rest =>
    if Text.isBlankBetween site.source tie.comment.span.stop stop then
      1 + site.leadingTies tie.comment.span.start rest
    else 0

/-- Breaks the ties: the last ones that touch the follower go before it, the others behind the node
    before them. All go by the two nodes of the first tie. -/
def breakTies (site : Site) (ties : List Tie) (shelf : Shelf) : Shelf :=
  match ties with
  | [] => shelf
  | ⟨_, preceding, following⟩ :: _ =>
    let stop := ((site.extents.get? following).map Span.start).getD 0
    let trailing := ties.length - site.leadingTies stop ties.reverse
    let bindTo (owner : NodeId) (anchor : Anchor) (tie : Tie) : BoundComment :=
      { tie.comment with placement := .remaining, owner := some owner, anchor }
    let bound := (ties.take trailing).map (bindTo preceding .trailing) ++
      (ties.drop trailing).map (bindTo following .leading)
    ((bound.foldl Shelf.add shelf).sort preceding).sort following

/-! ### Binding -/

inductive Decision where
  | bind (owner : Option NodeId) (anchor : Anchor)
  | tie (preceding following : NodeId)

def byPlacement (placement : Placement) (near : Neighbours) : Decision :=
  match placement, near.preceding, near.following with
  | .ownLine, _, some following => .bind (some following) .leading
  | .ownLine, some preceding, none => .bind (some preceding) .trailing
  | .endOfLine, some preceding, _ => .bind (some preceding) .trailing
  | .endOfLine, none, some following => .bind (some following) .leading
  | .remaining, some preceding, some following => .tie preceding following
  | .remaining, some preceding, none => .bind (some preceding) .trailing
  | .remaining, none, some following => .bind (some following) .leading
  | _, none, none => .bind near.enclosing .dangling

def decision (site : Site) (placement : Placement) (c : Comment) : Decision :=
  match site.verdict placement c with
  | some (owner, anchor) => .bind (some owner) anchor
  | none => byPlacement placement c.near

/-- A further tie joins those that wait if its follower is that of the last one; otherwise they are
    broken first. -/
def joinTies (site : Site) (tie : Tie) (ties : List Tie) (shelf : Shelf) : List Tie × Shelf :=
  match ties.getLast? with
  | some last => if last.following = tie.following then (ties ++ [tie], shelf) else ([tie], site.breakTies ties shelf)
  | none => ([tie], shelf)

/-- Binds the comments that are left, with those before them, nearest first, and the ties that wait. -/
def bindAll (site : Site) (before : List Comment) (ties : List Tie) (shelf : Shelf) : List Comment → Shelf
  | [] => site.breakTies ties shelf
  | c :: rest =>
    let placement := site.placement before c rest
    match site.decision placement c with
    | .bind owner anchor => site.bindAll (c :: before) ties (shelf.add { c with placement, owner, anchor }) rest
    | .tie preceding following =>
      let (ties, shelf) := site.joinTies ⟨c, preceding, following⟩ ties shelf
      site.bindAll (c :: before) ties shelf rest

def comment (site : Site) (id : NodeId) : Outcome Comment :=
  match site.extents.get? id with
  | none => .error (.malformed ("comment " ++ site.tree.className id ++ " has no location"))
  | some span =>
    .ok
      { node := id
        kind := if site.tree.isKind id .blockComment then .block else .inline
        text := (site.tree.string? id "value").getD ""
        span }

/-- The comments in the order of the source. The last one never owes a blank line. -/
def inOrder (comments : List Comment) : List Comment :=
  let sorted := comments.mergeSort fun a b =>
    a.span.start < b.span.start || (a.span.start == b.span.start && a.span.stop ≤ b.span.stop)
  sorted.zipIdx.map fun (c, index) =>
    { c with index, blankAfter := if index + 1 = sorted.length then some false else none }

def bind (site : Site) (ids : List NodeId) : Outcome Shelf := do
  let comments ← ids.mapM site.comment
  let comments ← site.neighbours (inOrder comments) []
  return site.bindAll [] [] {} comments

end Site

namespace Shelf

/-- Makes the last trailing comment owe a blank line, unless it never does. -/
def owe : List BoundComment → List BoundComment
  | [] => []
  | c :: rest =>
    if rest.any (·.anchor == .trailing) then c :: owe rest
    else if c.anchor == .trailing && c.blankAfter != some false then { c with blankAfter := some true } :: rest
    else c :: rest

def oweAt (s : Shelf) (owes : NodeId → Bool) : Shelf :=
  { s with owned := s.owned.map fun entry => (entry.1, if owes entry.1 then owe entry.2 else entry.2) }

/-- Moves the blank line owed after the node that an occurrence defines behind its trailing comments. -/
def deferBlank (tree : Tree) (s : Shelf) (edge : Edge) : Shelf :=
  s.oweAt fun id => tree.target? edge == some id && tree.origin id == some edge && !s.isIgnored id

def deferBlanks (s : Shelf) (tree : Tree) (occurrences : Occurrences) : Shelf :=
  occurrences.blankEdges.foldl (deferBlank tree) s

end Shelf
end ApexLayout
