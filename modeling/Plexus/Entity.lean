import Plexus.Scalar
import Plexus.Identifier
import Std.Data.ExtTreeSet

/-!
# Nodes and edges

A node carries a set of labels, fixed when it is created, and a property list. An edge is
directed, has one relationship type, and carries a property list of its own; edges with the same
endpoints and type are distinct.
-/

namespace Plexus

/-- The properties of a node or an edge, in ascending order of property. -/
abbrev PropertyMap := Std.ExtTreeMap PropertyId Scalar

namespace PropertyMap

/-- The map of a list of pairs; of two values for one property the later counts. -/
def ofPairs (pairs : List (PropertyId × Scalar)) : PropertyMap := Std.ExtTreeMap.ofList pairs

end PropertyMap

/-- A node record. -/
structure Node where
  id : NodeId
  labels : Std.ExtTreeSet LabelId
  properties : PropertyMap
  deriving DecidableEq

namespace Node

/-- The node with the given labels, which may repeat. -/
def ofLabels (id : NodeId) (labels : List LabelId) (properties : PropertyMap) : Node :=
  ⟨id, Std.ExtTreeSet.ofList labels, properties⟩

/-- Both are records of one node, perhaps at different times. -/
def isSame (m n : Node) : Bool := m.id = n.id

def hasLabel (n : Node) (label : LabelId) : Bool := n.labels.contains label

def property? (n : Node) (key : PropertyId) : Option Scalar := n.properties[key]?

/-- The node with a property set to a value. -/
def setProperty (n : Node) (key : PropertyId) (value : Scalar) : Node :=
  { n with properties := n.properties.insert key value }

/-- The node without a property. -/
def removeProperty (n : Node) (key : PropertyId) : Node :=
  { n with properties := n.properties.erase key }

end Node

/-- An edge record. -/
structure Edge where
  id : EdgeId
  source : NodeId
  target : NodeId
  relationType : TypeId
  properties : PropertyMap
  deriving DecidableEq

namespace Edge

/-- Both are records of one edge, perhaps at different times. -/
def isSame (e f : Edge) : Bool := e.id = f.id

def property? (e : Edge) (key : PropertyId) : Option Scalar := e.properties[key]?

/-- The edge with a property set to a value. -/
def setProperty (e : Edge) (key : PropertyId) (value : Scalar) : Edge :=
  { e with properties := e.properties.insert key value }

/-- The edge without a property. -/
def removeProperty (e : Edge) (key : PropertyId) : Edge :=
  { e with properties := e.properties.erase key }

/-- The other endpoint, seen from a node; the source unless the node is the source. -/
def opposite (e : Edge) (node : NodeId) : NodeId := if e.source = node then e.target else e.source

def isLoop (e : Edge) : Bool := e.source = e.target

end Edge

end Plexus
