import ApexLayout.Comment.Neighbours

/-!
The rules of the language by which a comment goes to a node other than its neighbour. Rules are
asked in a fixed order for each placement, and the first one with an answer decides.
-/
namespace ApexLayout

abbrev Verdict := Option (NodeId × Anchor)

/-- The kinds that print the comments in their bodies themselves when those have no members. -/
def bodyKinds : List Kind := [.triggerDeclUnit, .classDecl, .enumDecl, .interfaceDecl, .blockStmnt]

namespace Site

def isEmptyArray (site : Site) (id : NodeId) (name : String) : Bool :=
  (((site.tree.field? id name).bind Value.array?).map List.isEmpty).getD false

/-- Before the first statement of a block, or inside an empty one. -/
def intoBlock (site : Site) (block : NodeId) : NodeId × Anchor :=
  match site.tree.nodesIn block "stmnts" with
  | first :: _ => (first, .leading)
  | [] => (block, .dangling)

def emptyBody (site : Site) (c : Comment) : Verdict := do
  let enclosing ← c.near.enclosing
  if site.tree.isAmong enclosing bodyKinds &&
      (site.isEmptyArray enclosing "stmnts" || site.isEmptyArray enclosing "members") then
    some (enclosing, .dangling)
  else none

def trailsStatement (site : Site) (c : Comment) (branch body : NodeId) : Option Bool :=
  if site.tree.isKind body .blockStmnt then some false
  else do
    let bodySpan ← site.extents.get? body
    let branchSpan ← site.extents.get? branch
    some (bodySpan.stop == branchSpan.stop && !Text.hasLineFeedBetween site.source bodySpan.stop c.span.start)

/-- A comment between two branches of a condition goes into the second. -/
def betweenBranches (site : Site) (c : Comment) : Verdict := do
  let enclosing ← c.near.enclosing
  let preceding ← c.near.preceding
  let following ← c.near.following
  if site.tree.isKind enclosing .ifElseBlock && site.tree.isKind preceding .ifBlock &&
      site.tree.isAmong following [.ifBlock, .elseBlock] && !c.isIgnore then
    let precedingBody ← site.tree.child? preceding "stmnt"
    if ← site.trailsStatement c preceding precedingBody then none
    else
      let followingBody ← site.tree.child? following "stmnt"
      if site.tree.isKind followingBody .blockStmnt then some (site.intoBlock followingBody)
      else some (followingBody, .leading)
  else none

def betweenTryBlocks (site : Site) (c : Comment) : Verdict := do
  let enclosing ← c.near.enclosing
  let preceding ← c.near.preceding
  let following ← c.near.following
  if site.tree.isKind enclosing .tryCatchFinallyBlock && site.tree.isAmong preceding [.blockStmnt, .catchBlock] &&
      site.tree.isAmong following [.catchBlock, .finallyBlock] then
    (site.tree.child? following "stmnt").map site.intoBlock
  else none

def beforeBlock (site : Site) (c : Comment) : Verdict := do
  let following ← c.near.following
  if site.tree.isKind following .blockStmnt then some (site.intoBlock following) else none

/-- The operators of a chain of conditions have no extents, so a comment on a later line than the
    condition before it stays with that condition. -/
def inConditionChain (site : Site) (c : Comment) : Verdict := do
  let enclosing ← c.near.enclosing
  let preceding ← c.near.preceding
  let following ← c.near.following
  if site.tree.hasClass preceding && site.tree.hasClass following && site.tree.isKind enclosing .whereCompoundExpr then
    let span ← site.extents.get? preceding
    if Text.hasLineFeedBetween site.source span.stop c.span.start then some (preceding, .trailing) else none
  else none

/-- A request to ignore that stands before a modifier holds for the whole declaration. -/
def ignoreBeforeModifier (site : Site) (c : Comment) : Verdict :=
  if c.isIgnore then do
    let enclosing ← c.near.enclosing
    let following ← c.near.following
    if site.tree.family? following == some Kind.annotationMark.family then some (enclosing, .leading) else none
  else none

/-- A comment in a chain of calls stays before the dot, behind the receiver. -/
def inCallChain (site : Site) (c : Comment) : Verdict := do
  let enclosing ← c.near.enclosing
  let preceding ← c.near.preceding
  let _ ← c.near.following
  if site.tree.isAmong enclosing [.methodCallExpr, .variableExpr] &&
      site.tree.optionalChild? enclosing "dottedExpr" == some preceding then
    some (preceding, .trailing)
  else none

/-- A comment at the end of the line after an operation stays behind its right operand. -/
def behindOperation (site : Site) (c : Comment) : Verdict := do
  let preceding ← c.near.preceding
  if site.tree.isAmong preceding [.binaryExpr, .booleanExpr] then
    let right ← site.tree.child? preceding "right"
    some (right, .trailing)
  else none

def inBareStatement (site : Site) (c : Comment) : Verdict := do
  let enclosing ← c.near.enclosing
  if site.tree.isAmong enclosing [.continueStmnt, .breakStmnt] ||
      (site.tree.isKind enclosing .returnStmnt && (site.tree.optional? enclosing "expr").isNone) then
    some (enclosing, .trailing)
  else none

def rules : Placement → List (Site → Comment → Verdict)
  | .ownLine =>
    [emptyBody, betweenBranches, betweenTryBlocks, beforeBlock, inConditionChain, ignoreBeforeModifier, inCallChain]
  | .endOfLine =>
    [emptyBody, betweenBranches, betweenTryBlocks, behindOperation, beforeBlock, inConditionChain,
      ignoreBeforeModifier, inCallChain, inBareStatement]
  | .remaining =>
    [betweenBranches, betweenTryBlocks, inConditionChain, ignoreBeforeModifier, inCallChain, inBareStatement]

def verdict (site : Site) (placement : Placement) (c : Comment) : Verdict :=
  (rules placement).findSome? fun rule => rule site c

end Site
end ApexLayout
