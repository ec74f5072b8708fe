import ApexLayout.Text.Quoted

/-!
Layout documents. A document says where a text may break and how its lines are indented; rendering
lays it out against a width. A group is laid out on one line if it fits and otherwise breaks at
every line that is not inside a further group. A note says where a part of a document comes from;
what is rendered has no notes.
-/
namespace ApexLayout

/-- A document whose notes have the labels `ν`. -/
inductive Doc (ν : Type := Empty) where
  /-- Characters as they are. -/
  | text (value : String)
  | concat (parts : List (Doc ν))
  /-- Laid out flat if it fits, unless it is marked as broken. -/
  | group (contents : Doc ν) (broken : Bool)
  | indent (contents : Doc ν)
  /-- Takes the innermost indentation away. -/
  | dedent (contents : Doc ν)
  | align (columns : Nat) (contents : Doc ν)
  /-- A space when flat. -/
  | line
  /-- Nothing when flat. -/
  | softLine
  /-- A line end in every layout. `hardLine` also breaks the groups around it. -/
  | lineEnd
  /-- Held back until just before the next line end. -/
  | lineSuffix (contents : Doc ν)
  | breakParent
  /-- Takes away the spaces and tabs at the end of what is written. -/
  | trim
  /-- The contents come from what the label stands for. -/
  | note (label : ν) (contents : Doc ν)
  deriving Repr, BEq, Inhabited

namespace Doc

variable {ν : Type}

instance : Coe String (Doc ν) := ⟨Doc.text⟩

/-- The text without characters, which stands for nothing printed. -/
def empty : Doc ν := .text ""

def isEmpty : Doc ν → Bool
  | .text value => value.isEmpty
  | _ => false

def hardLine : Doc ν := .concat [.lineEnd, .breakParent]

def fill (contents : Doc ν) : Doc ν := .group contents false

def indentGroup (contents : Doc ν) : Doc ν := fill (.indent contents)

def joinParts (separator : Doc ν) : List (Doc ν) → List (Doc ν)
  | [] => []
  | [doc] => [doc]
  | doc :: docs => doc :: separator :: joinParts separator docs

def join (separator : Doc ν) (docs : List (Doc ν)) : Doc ν := .concat (joinParts separator docs)

def parts (lists : List (List (Doc ν))) : Doc ν := .concat lists.flatten

def commaLine : Doc ν := .concat [",", .line]

mutual
def plain : Doc ν → Doc
  | .text value => .text value
  | .concat parts => .concat (plains parts)
  | .group contents broken => .group contents.plain broken
  | .indent contents => .indent contents.plain
  | .dedent contents => .dedent contents.plain
  | .align columns contents => .align columns contents.plain
  | .line => .line
  | .softLine => .softLine
  | .lineEnd => .lineEnd
  | .lineSuffix contents => .lineSuffix contents.plain
  | .breakParent => .breakParent
  | .trim => .trim
  | .note _ contents => contents.plain
def plains : List (Doc ν) → List Doc
  | [] => []
  | doc :: docs => doc.plain :: plains docs
end

mutual
/-- The number of constructors, which no step of a layout increases. -/
def weight : Doc → Nat
  | .concat parts => 1 + weights parts
  | .group contents _ => 1 + contents.weight
  | .indent contents => 1 + contents.weight
  | .dedent contents => 1 + contents.weight
  | .align _ contents => 1 + contents.weight
  | .lineSuffix contents => 2 + contents.weight
  | _ => 1
def weights : List Doc → Nat
  | [] => 0
  | doc :: docs => doc.weight + weights docs
end

/-! ### The dump: one line that names every constructor, with texts quoted -/

mutual
def dumpPlain : Doc → String
  | .text value => Text.quoted value
  | .concat [.lineEnd, .breakParent] => "hardline"
  | .concat parts => "[" ++ dumpsPlain parts ++ "]"
  | .group contents true => "group(" ++ contents.dumpPlain ++ ", break)"
  | .group contents false => "group(" ++ contents.dumpPlain ++ ")"
  | .indent contents => "indent(" ++ contents.dumpPlain ++ ")"
  | .dedent contents => "dedent(" ++ contents.dumpPlain ++ ")"
  | .align columns contents => "align(" ++ toString columns ++ ", " ++ contents.dumpPlain ++ ")"
  | .line => "line"
  | .softLine => "softline"
  | .lineEnd => "hardlineWithoutBreakParent"
  | .lineSuffix contents => "lineSuffix(" ++ contents.dumpPlain ++ ")"
  | .breakParent => "breakParent"
  | .trim => "trim"
  | .note label _ => nomatch label
def dumpsPlain : List Doc → String
  | [] => ""
  | [doc] => doc.dumpPlain
  | doc :: docs => doc.dumpPlain ++ ", " ++ dumpsPlain docs
end

/-- The dump of a document, in which its notes do not show. -/
def dump {ν : Type} (doc : Doc ν) : String := doc.plain.dumpPlain

end Doc
end ApexLayout
