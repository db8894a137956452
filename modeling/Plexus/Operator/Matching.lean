import Plexus.Operator.Tree
import Plexus.Query.Evaluation

/-!
# Rows found in the graph

How leaves and traversals find rows. A leaf binds one variable to each of its nodes. A traversal
extends a row by an end node that has the wanted labels and is the one the row already binds, if
it binds one; with a variable for the edge there is one row per edge, and otherwise one per node.

A traversal by an interval of hops gathers its input rows in a block of memory with room for a whole
batch, which is set aside before the first of them is read. No block has more bytes than a signed
word can count, so that with larger batches there are no rows, however few would be gathered.
-/

namespace Plexus

/-- The nodes a leaf lists, ascending. Without its index it tests the members of the label. -/
def Access.nodes (g : Graph) : Access → List NodeId
  | all => g.nodes.records.map (·.id)
  | label none => []
  | label (some l) => g.labelled l
  | index l property value =>
    match g.lookup? l property value with
    | some ids => ids
    | none => (g.labelled l).filter fun id =>
      ((g.node? id).bind (·.property? property)).any fun v => v.equals value = some true

/-- A node has the labels that are asked for. -/
def LabelTest.accepts (g : Graph) (node : NodeId) : LabelTest → Bool
  | any => true
  | never => false
  | every labels => (g.node? node).any fun n => labels.all n.hasLabel

namespace Row

/-- The node that a traversal starts from; none if the variable is null. -/
def startNode (r : Row) (name : String) : Except QueryFault (Option NodeId) :=
  match r.get? name with
  | some (.node id) => .ok (some id)
  | some (.scalar .null) => .ok none
  | some other => .error (.type (.notNode name other.kindName))
  | none => .error (.unbound name)

/-- The row does not bind the variable to anything but the node. -/
def agrees (r : Row) (name : String) (node : NodeId) : Bool :=
  match r.get? name with
  | some v => v.node? = some node
  | none => true

end Row

namespace Expansion

/-- Where one hop leads from a node: to each edge's other end, or to each neighbour. -/
def ends (e : Expansion) (g : Graph) (node : NodeId) : List (Option EdgeId × NodeId) :=
  if e.edge.isSome then
    ((g.edgesOf node e.types e.direction).eraseRepsBy fun a b => a.1 = b.1).map
      fun (edge, other) => (some edge, other)
  else (g.neighbors node e.types e.direction).map (none, ·)

/-- The row extended by an end and, if it has a variable, the edge. -/
def extend (e : Expansion) (row : Row) (found : Option EdgeId × NodeId) : Row :=
  let row := row.bind e.target (.node found.2)
  match e.edge, found.1 with
  | some name, some edge => row.bind name (.edge edge)
  | _, _ => row

/-- The rows that one row is extended to. -/
def rows (e : Expansion) (g : Graph) (row : Row) : Except QueryFault (List Row) := do
  match ← row.startNode e.source with
  | none => return []
  | some node =>
    let fitting := (e.ends g node).filter fun found =>
      e.labels.accepts g found.2 && row.agrees e.target found.2
    return fitting.map (e.extend row)

end Expansion

namespace Batch

/-- The bytes that a place in a batch takes: nine words for the bindings of a row and two for the
node it starts from. -/
def placeBytes : Nat := 88

/-- The bytes of the largest block of memory that there can be. -/
def mostBytes : Nat := 9223372036854775807

/-- A block of memory can have room for a batch of the size; none is taken as one. -/
def fits (size : Nat) : Bool := placeBytes * max 1 size ≤ mostBytes

end Batch

namespace Reach

/-- The rows that a batch of rows is extended to, row by row, from the ends that their start
nodes reach. -/
def rows (r : Reach) (g : Graph) (batch : List (Row × Option NodeId)) : List Row :=
  let starts := (Std.ExtTreeSet.ofList (batch.filterMap Prod.snd)).toList
  let reached := g.traverse starts r.traversal
  batch.flatMap fun (row, start) =>
    match start with
    | none => []
    | some node =>
      let fitting := (reached.ends node).filter fun stop =>
        r.labels.accepts g stop && row.agrees r.target stop
      fitting.map fun stop => row.bind r.target (.node stop)

end Reach

end Plexus
