import Plexus.Graph.Change

/-!
# Changing a graph in place

The operations once more, as programs that work on one graph step by step, in the order in which
a store in memory carries the steps out. Each step sees what the ones before it have done, and a
fault undoes nothing: whatever was interned, written or unlinked before it stays. That a refused
operation leaves the graph as it was is therefore not built in here.
-/

namespace Plexus

/-- A program that changes a graph in place. Where it fails, the changes made so far remain. -/
abbrev Change := EStateM GraphFault Graph

namespace Change

variable {α : Type}

/-- Ask something of the graph as it stands, and fail if the answer is a fault. -/
def demand (check : Graph → Except GraphFault α) : Change α := do
  match check (← get) with
  | .ok a => return a
  | .error fault => throw fault

/-- A step that cannot fail. -/
def update (f : Graph → Graph × α) : Change α := modifyGet fun g => (f g).swap

/-- The identifier of a name, which is added to its part of the schema if it is new. -/
def intern (part : Schema.Part) (name : String) : Change (Id part.kind) :=
  update fun g =>
    ({ g with schema := (g.schema.intern part name).1 }, (g.schema.intern part name).2)

/-- The property map of named values, of which the last one for a name counts. -/
def internProperties (named : List (String × Scalar)) : Change PropertyMap := do
  let keys ← (named.map Prod.fst).mapM (intern .property)
  return PropertyMap.ofPairs (keys.zip (named.map Prod.snd))

/-- Add a node: first to its labels, then to the indices, last to the records. -/
def insertNode (labels : List LabelId) (properties : PropertyMap) : Change NodeId := do
  let node := Node.ofLabels ⟨(← get).nodes.capacity⟩ labels properties
  modify (·.enroll node.id node.labels.toList)
  modify (·.announce (.created node.id node.labels.toList node.properties))
  modify fun g => { g with nodes := (g.nodes.insert node).1 }
  return node.id

def createNode (labels : List String) (properties : List (String × Scalar)) : Change NodeId := do
  let labels ← labels.mapM (intern .label)
  let properties ← internProperties properties
  insertNode labels properties

def createNodeById (labels : List LabelId) (properties : PropertyMap) : Change NodeId := do
  demand (·.checkLabels labels)
  demand (·.checkProperties properties)
  insertNode labels properties

/-- Change the record of a node; gives the record as it was. -/
def alterNode (id : NodeId) (f : Node → Node) : Change Node := do
  let node ← demand (·.node id)
  let nodes ← demand (·.nodes.modify id.index f)
  modify ({ · with nodes })
  return node

def setNodePropertyById (id : NodeId) (key : PropertyId) (value : Scalar) :
    Change (Option Scalar) := do
  if ((← get).schema.propertyName? key).isNone then throw (.schema (.property key))
  let node ← alterNode id (·.setProperty key value)
  let old := node.property? key
  modify (·.announce (.changed id node.labels.toList key old (some value)))
  return old

def setNodeProperty (id : NodeId) (key : String) (value : Scalar) : Change (Option Scalar) := do
  let _ ← demand (·.node id)
  let key ← intern .property key
  setNodePropertyById id key value

/-- The record is written whether or not it has the property; the indices hear of it if so. -/
def removeNodeProperty (id : NodeId) (key : String) : Change (Option Scalar) := do
  let _ ← demand (·.node id)
  match (← get).schema.propertyId? key with
  | none => return none
  | some key =>
    let node ← alterNode id (·.removeProperty key)
    let old := node.property? key
    if old.isSome then modify (·.announce (.changed id node.labels.toList key old none))
    return old

/-- Add an edge: first to the records, then to the matrix of its type. -/
def insertEdge (source target : NodeId) (type : TypeId) (properties : PropertyMap) :
    Change EdgeId := do
  let edge : Edge := ⟨⟨(← get).edges.capacity⟩, source, target, type, properties⟩
  modify fun g => { g with edges := (g.edges.insert edge).1 }
  modify (·.withMatrix type (·.insert source target edge.id))
  return edge.id

def createEdge (source target : NodeId) (type : String) (properties : List (String × Scalar)) :
    Change EdgeId := do
  demand (·.checkEndpoints source target)
  let type ← intern .relationType type
  let properties ← internProperties properties
  insertEdge source target type properties

def createEdgeById (source target : NodeId) (type : TypeId) (properties : PropertyMap) :
    Change EdgeId := do
  demand (·.checkEndpoints source target)
  if ((← get).schema.typeName? type).isNone then throw (.schema (.relationType type))
  demand (·.checkProperties properties)
  insertEdge source target type properties

/-- The name is interned before the record is written, which fails on a dead slot. -/
def setEdgeProperty (id : EdgeId) (key : String) (value : Scalar) : Change (Option Scalar) := do
  let _ ← demand (·.edge id)
  let key ← intern .property key
  let edge ← demand (·.edges.read id.index)
  let edges ← demand (·.edges.modify id.index (·.setProperty key value))
  modify ({ · with edges })
  return edge.property? key

/-- Remove an edge from its arena, then from its matrix. A slot that was only reserved is retired
too, and then there is no edge to give. -/
def unlink (id : EdgeId) : Change (Option Edge) := do
  match (← get).edges.free id.index with
  | .error _ => return none
  | .ok (edges, old) =>
    modify ({ · with edges })
    if let some edge := old then
      modify fun g => { g with
        matrices := g.matrices.modify edge.relationType.index fun m =>
          (m.remove edge.source edge.target edge.id).1 }
    return old

def deleteEdge (id : EdgeId) : Change Edge := do
  match ← unlink id with
  | some edge => return edge
  | none => throw (.edgeNotFound id)

/-- The edges go before the node does; should its slot then turn out empty, they are gone. -/
def deleteNode (id : NodeId) : Change Node := do
  let _ ← demand (·.node id)
  ((← get).incident id).forM fun e => discard (unlink e)
  match (← get).nodes.free id.index with
  | .error _ => throw (.nodeNotFound id)
  | .ok (nodes, old) =>
    modify ({ · with nodes })
    match old with
    | none => throw (.nodeNotFound id)
    | some node =>
      modify (·.dismiss id node.labels.toList)
      modify (·.announce (.deleted id node.labels.toList node.properties))
      return node

def createIndex (label property : String) : Change Bool := do
  let label ← intern .label label
  let property ← intern .property property
  update (·.buildIndex label property)

def createIndexById (label : LabelId) (property : PropertyId) : Change Bool := do
  demand (·.checkLabels [label])
  if ((← get).schema.propertyName? property).isNone then
    throw (.schema (.indexedProperty property))
  update (·.buildIndex label property)

def dropIndex (label property : String) : Change Bool := do
  let g ← get
  match g.schema.labelId? label, g.schema.propertyId? property with
  | some label, some property =>
    update fun g => ({ g with catalog := (g.catalog.drop ⟨label, property⟩).1 },
      (g.catalog.drop ⟨label, property⟩).2)
  | _, _ => return false

end Change

end Plexus
