import Plexus.Arena
import Plexus.Index.Catalog
import Plexus.Schema
import Plexus.Settings
import Plexus.Traversal

/-!
# Graphs

A graph owns its node and edge records, each kind in an arena. Beside the records it keeps what
can be worked out from them but is asked for often: the members of each label, one adjacency
matrix per relationship type, and the postings of every index.
-/

namespace Plexus

/-- A property graph. -/
structure Graph where
  schema : Schema
  nodes : Arena Node
  edges : Arena Edge
  /-- The live nodes with each label. -/
  members : Std.ExtTreeMap LabelId (Std.ExtTreeSet NodeId)
  /-- One matrix per relationship type, up to the last type that has had an edge. -/
  matrices : Array Matrix
  catalog : Catalog
  settings : TraversalSettings

namespace Graph

/-- The graph without records over a schema. -/
def ofSchema (schema : Schema) (settings : TraversalSettings) : Graph :=
  ⟨schema, .empty, .empty, ∅, #[], .empty, settings⟩

/-- The empty graph. -/
def empty (settings : TraversalSettings) : Graph := ofSchema .empty settings

/-- A live node. -/
def node? (g : Graph) (id : NodeId) : Option Node := g.nodes.get? id.index

/-- A live edge. -/
def edge? (g : Graph) (id : EdgeId) : Option Edge := g.edges.get? id.index

def hasNode (g : Graph) (id : NodeId) : Bool := g.nodes.isLive id.index

def hasEdge (g : Graph) (id : EdgeId) : Bool := g.edges.isLive id.index

/-- A live node, or the fault that it is none. -/
def node (g : Graph) (id : NodeId) : Except GraphFault Node :=
  match g.node? id with
  | some n => .ok n
  | none => .error (.nodeNotFound id)

/-- A live edge, or the fault that it is none. -/
def edge (g : Graph) (id : EdgeId) : Except GraphFault Edge :=
  match g.edge? id with
  | some e => .ok e
  | none => .error (.edgeNotFound id)

/-- A property of a live node by name. -/
def nodeProperty? (g : Graph) (id : NodeId) (key : String) : Option Scalar := do
  let key ← g.schema.propertyId? key
  (← g.node? id).property? key

/-- A property of a live edge by name. -/
def edgeProperty? (g : Graph) (id : EdgeId) (key : String) : Option Scalar := do
  let key ← g.schema.propertyId? key
  (← g.edge? id).property? key

/-- The live nodes with a label, ascending. -/
def labelled (g : Graph) (label : LabelId) : List NodeId := (g.members.getD label ∅).toList

/-- How many live nodes have a label. -/
def labelCount (g : Graph) (label : LabelId) : Nat := (g.members.getD label ∅).size

def nodeCount (g : Graph) : Nat := g.nodes.live

def edgeCount (g : Graph) : Nat := g.edges.live

/-- The matrix of a relationship type, if it or a later type has had an edge. -/
def matrix? (g : Graph) (type : TypeId) : Option Matrix := g.matrices[type.index]?

/-- The pairs of nodes that an edge of a type connects. -/
def relation (g : Graph) (type : TypeId) : Relation :=
  match g.matrix? type with
  | some m => m.relation
  | none => .empty

/-- The pairs of nodes that any edge connects. -/
def anyRelation (g : Graph) : Relation :=
  g.matrices.toList.foldl (fun r m => r.union m.relation) .empty

/-- The matrices of some types, followed in one direction. A listed type counts once. -/
def view (g : Graph) (types : TypeFilter) (direction : Direction) : MatrixView :=
  let matrices := match types with
    | .any => g.matrices.toList
    | .only types => (Std.ExtTreeSet.ofList types).toList.filterMap g.matrix?
  ⟨matrices, direction⟩

/-- The edges of some types at a node with their other ends, in ascending order. An edge from a
node to itself is listed once per direction. -/
def edgesOf (g : Graph) (node : NodeId) (types : TypeFilter) (direction : Direction) :
    List (EdgeId × NodeId) :=
  let found := g.matrices.toList.zipIdx.flatMap fun (m, t) =>
    if types.allows ⟨t⟩ then
      let cells := (if direction.forward then m.row node else []) ++
        (if direction.backward then m.column node else [])
      cells.flatMap fun (other, edges) => edges.map (·, other)
    else []
  found.mergeSort fun a b => a.1 < b.1 || (a.1 = b.1 && a.2 ≤ b.2)

/-- The nodes at the other ends of a node's edges, ascending and without repeats. -/
def neighbors (g : Graph) (node : NodeId) (types : TypeFilter) (direction : Direction) :
    List NodeId :=
  (Std.ExtTreeSet.ofList ((g.edgesOf node types direction).map Prod.snd)).toList

/-- The pairs of a live start and a node that a traversal reaches from it. -/
def traverse (g : Graph) (starts : List NodeId) (t : Traversal) : Relation :=
  (g.view t.types t.direction).reach (starts.filter g.hasNode) t.hops g.settings.parallelThreshold

def hasIndex (g : Graph) (label : LabelId) (property : PropertyId) : Bool :=
  g.catalog.has ⟨label, property⟩

/-- The nodes with a label whose property equals a value; absent without such an index. -/
def lookup? (g : Graph) (label : LabelId) (property : PropertyId) (value : Scalar) :
    Option (List NodeId) :=
  g.catalog.lookup? ⟨label, property⟩ value

end Graph

end Plexus
