import PointsTo.Yaml.Scalar
import PointsTo.Yaml.Tag

/-!
# YAML nodes

A document is a tree of scalars, sequences and mappings. A node can carry a tag and an anchor; an
alias elsewhere in the document stands for the node with its anchor.

Anchors are numbered, and a number is shared by all anchors that came when so many names were known.
An alias stands for the last node of the document with the number that its name has.
-/

namespace PointsTo.Yaml

/-- What a node carries in front of its content. -/
structure Properties where
  tag : Option Tag := none
  anchor : Option Nat := none

inductive Node where
  | scalar (props : Properties) (style : Style) (text : String)
  | sequence (props : Properties) (items : List Node)
  | mapping (props : Properties) (entries : List (Node × Node))
  | reference (anchor : Nat)

namespace Node

/-- The plain scalar of no characters, which a missing node counts as. -/
def missing : Node :=
  scalar {} .plain ""

def anchor? : Node → Option Nat
  | scalar p _ _ | sequence p _ | mapping p _ => p.anchor
  | reference _ => none

mutual

/-- The node and all below it, in the order of the text. -/
def nodes : Node → List Node
  | n@(scalar ..) | n@(reference _) => [n]
  | n@(sequence _ items) => n :: nodesOfItems items
  | n@(mapping _ entries) => n :: nodesOfEntries entries

def nodesOfItems : List Node → List Node
  | [] => []
  | n :: ns => nodes n ++ nodesOfItems ns

def nodesOfEntries : List (Node × Node) → List Node
  | [] => []
  | (k, v) :: es => nodes k ++ nodes v ++ nodesOfEntries es

end

/-- The node itself, or the node of `root` that it is an alias for. -/
def follow (root : Node) : Node → Node
  | reference a => ((nodes root).reverse.find? fun n => n.anchor? == some a).getD (reference a)
  | n => n

end Node

end PointsTo.Yaml
