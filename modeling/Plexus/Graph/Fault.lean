import Plexus.Identifier

/-!
# Faults of graph operations

Why an operation on a graph is refused. A refused operation changes nothing.
-/

namespace Plexus

/-- An identifier that no name was ever interned for. -/
inductive SchemaViolation where
  | label (id : LabelId)
  | relationType (id : TypeId)
  | property (id : PropertyId)
  /-- An index was asked for on an unknown property. -/
  | indexedProperty (id : PropertyId)
  deriving DecidableEq, Repr

def SchemaViolation.message : SchemaViolation → String
  | .label id => s!"unknown label id {id.index}"
  | .relationType id => s!"unknown relationship type id {id.index}"
  | .property id => s!"unknown property id {id.index}"
  | .indexedProperty id => s!"cannot index unknown property id {id.index}"

/-- Why a graph operation is refused. -/
inductive GraphFault where
  | nodeNotFound (id : NodeId)
  | edgeNotFound (id : EdgeId)
  /-- The source of a new edge is not a live node. -/
  | missingSource (id : NodeId)
  /-- The target of a new edge is not a live node. -/
  | missingTarget (id : NodeId)
  /-- An arena slot that was never allocated or no longer holds a record. -/
  | outOfRange (slot : Nat)
  | schema (violation : SchemaViolation)
  deriving DecidableEq, Repr

namespace GraphFault

def message : GraphFault → String
  | nodeNotFound id => s!"Node {id.text} not found"
  | edgeNotFound id => s!"Edge {id.text} not found"
  | missingSource id => s!"Invalid edge: source node {id.text} does not exist"
  | missingTarget id => s!"Invalid edge: target node {id.text} does not exist"
  | outOfRange slot => s!"Slot {slot} is not allocated or has been tombstoned"
  | schema violation => s!"Schema violation: {violation.message}"

/-- The operation named a node or edge that does not exist. -/
def isUnknownEntity : GraphFault → Bool
  | nodeNotFound _ | edgeNotFound _ | missingSource _ | missingTarget _ => true
  | outOfRange _ | schema _ => false

end GraphFault

end Plexus
