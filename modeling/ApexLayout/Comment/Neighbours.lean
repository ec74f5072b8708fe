import ApexLayout.Comment.Basic
import ApexLayout.Extent.Basic

/-!
The nodes around a comment. From the root down, the children of a node that can carry comments are
searched by halving for one that holds the comment; where none does, the nearest ones on both sides
are its neighbours.
-/
namespace ApexLayout

/-- What is the same for all comments. -/
structure Site where
  tree : Tree
  extents : Extents
  source : String

abbrev ChildMemo := List (NodeId × List NodeId)

namespace Site

def canCarry (site : Site) (id : NodeId) : Bool :=
  site.tree.hasClass id && (site.extents.get? id).isSome && !site.tree.isComment id

/-- The first node starts before the second, or with it and ends no later. -/
def startsBefore (site : Site) (a b : NodeId) : Bool :=
  match site.extents.get? a, site.extents.get? b with
  | some x, some y => x.start < y.start || (x.start == y.start && x.stop ≤ y.stop)
  | none, _ => true
  | some _, none => false

/-- The nodes below a node that can carry comments, nearest ones only, sorted by their extents. Nodes on
    the way down are left out; the bound is on the length of that way. A list is found once, and then
    kept as it was found. -/
def children (site : Site) : Nat → List NodeId → NodeId → ChildMemo → List NodeId × ChildMemo
  | 0, _, _, memo => ([], memo)
  | bound + 1, path, id, memo =>
    match memo.lookup id with
    | some found => (found, memo)
    | none =>
      let collect (acc : List NodeId × ChildMemo) (child : NodeId) : List NodeId × ChildMemo :=
        if (id :: path).contains child then acc
        else if site.canCarry child then (acc.1 ++ [child], acc.2)
        else
          let (below, memo) := site.children bound (id :: path) child acc.2
          (acc.1 ++ below, memo)
      let (found, memo) := ((site.tree.children id).map (·.2)).foldl collect ([], memo)
      let found := found.mergeSort site.startsBefore
      (found, (id, found) :: memo)

inductive Found where
  /-- A sibling that holds the comment. -/
  | inside (id : NodeId)
  | beside (preceding following : Option NodeId)

def search (site : Site) (siblings : List NodeId) (comment : Span) (left right : Nat)
    (preceding following : Option NodeId) : Outcome Found :=
  if left < right then
    let middle := (left + right) / 2
    match siblings[middle]? with
    | none => .ok (.beside preceding following)
    | some child =>
      match site.extents.get? child with
      | none => .ok (.beside preceding following)
      | some span =>
        if span.contains comment then .ok (.inside child)
        else if span.stop ≤ comment.start then site.search siblings comment (middle + 1) right (some child) following
        else if comment.stop ≤ span.start then site.search siblings comment left middle preceding (some child)
        else
          .error (.location (site.tree.className child)
            ("comment at " ++ toString comment.start ++ ".." ++ toString comment.stop ++ " overlaps node span " ++
              toString span.start ++ ".." ++ toString span.stop))
  else .ok (.beside preceding following)
termination_by right - left

/-- One level of the search for a comment: the node right below that holds it or the nearest ones on both
    sides, and the lists of children found by then. -/
def level (site : Site) (comment : Span) (id : NodeId) (memo : ChildMemo) : Outcome Found × ChildMemo :=
  let (siblings, memo) := site.children (site.tree.size + 1) [] id memo
  (site.search siblings comment 0 siblings.length none none, memo)

/-- Searches for the neighbours of a comment from a node down. Nothing bounds the number of levels: where
    nodes that hold the comment refer back to those around them, the search does not end. -/
def descend (site : Site) (comment : Span) (id : NodeId) (enclosing : Option NodeId) (memo : ChildMemo) :
    Option (Outcome (Neighbours × ChildMemo)) :=
  match site.level comment id memo with
  | (.error e, _) => some (.error e)
  | (.ok (.inside child), memo) => site |>.descend comment child (some child) memo
  | (.ok (.beside preceding following), memo) => some (.ok ({ enclosing, preceding, following }, memo))
partial_fixpoint

def neighbours (site : Site) : List Comment → ChildMemo → Outcome (List Comment)
  | [], _ => .ok []
  | c :: rest, memo => do
    let (near, memo) ← (site.descend c.span site.tree.root none memo).getD (.error .endless)
    let rest ← site.neighbours rest memo
    return { c with near } :: rest

end Site
end ApexLayout
