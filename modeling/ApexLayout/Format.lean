import ApexLayout.Doc.Render
import ApexLayout.Printer.Dispatch
import ApexLayout.Tree.Build

/-!
Formatting a source by the tree that the serializer gives for it.
-/
namespace ApexLayout

/-- The serializer counts offsets in code units; everything else counts bytes. -/
def Tree.inBytes (tree : Tree) (source : String) : Tree :=
  let units := Text.UnitMap.ofText source
  if units.isIdentity then tree else tree.mapOffsets units.toByte

def Manuscript.ofTree (tree : Tree) (output : ParserOutput) (source : String) (settings : FormatSettings) :
    Outcome Manuscript := do
  let tree := tree.inBytes source
  let comments := output.comments.filterMap fun id => (tree.node id).location
  let extents ← Extents.ofTree tree source comments
  let occurrences := Occurrences.ofTree tree extents (Text.Lines.ofText source)
  let shelf ← Site.bind ⟨tree, extents, source⟩ output.comments
  return { tree, extents, occurrences, shelf := shelf.deferBlanks tree occurrences, source, settings, unit := output.unit }

def toDoc (text source : String) (settings : FormatSettings) : Outcome Draft := do
  let tree ← Tree.ofText text
  let output ← tree.parserOutput
  let manuscript ← Manuscript.ofTree tree output source settings
  manuscript.doc

def format (text source : String) (settings : FormatSettings) : Outcome String :=
  (Doc.render settings ·) <$> toDoc text source settings

end ApexLayout
