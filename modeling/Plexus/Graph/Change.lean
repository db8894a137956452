import Plexus.Graph.Basic

/-!
# Changing a graph

Every operation checks its arguments before it changes anything, so a refused operation has no
result to go on with and the graph stays what it was. Names are interned on the way in; the
variants that take identifiers refuse those no name was interned for.
-/

namespace Plexus.Graph

/-- The identifiers of names, interning new ones from left to right. -/
def internAll (schema : Schema) (part : Schema.Part) :
    List String → Schema × List (Id part.kind)
  | [] => (schema, [])
  | name :: rest =>
    let (schema, id) := schema.intern part name
    let (schema, ids) := internAll schema part rest
    (schema, id :: ids)

/-- The property map of named values, of which the last one for a name counts. -/
def internProperties (schema : Schema) (named : List (String × Scalar)) :
    Schema × PropertyMap :=
  let (schema, ids) := internAll schema .property (named.map Prod.fst)
  (schema, PropertyMap.ofPairs (ids.zip (named.map Prod.snd)))

/-- Every label has a name. -/
def checkLabels (g : Graph) (labels : List LabelId) : Except GraphFault Unit :=
  match labels.find? fun l => (g.schema.labelName? l).isNone with
  | some l => .error (.schema (.label l))
  | none => .ok ()

/-- Every property has a name. -/
def checkProperties (g : Graph) (properties : PropertyMap) : Except GraphFault Unit :=
  match properties.keys.find? fun k => (g.schema.propertyName? k).isNone with
  | some k => .error (.schema (.property k))
  | none => .ok ()

/-- Both ends of an edge are live nodes. -/
def checkEndpoints (g : Graph) (source target : NodeId) : Except GraphFault Unit :=
  if !g.hasNode source then .error (.missingSource source)
  else if !g.hasNode target then .error (.missingTarget target)
  else .ok ()

/-- Make a node a member of its labels. -/
def enroll (g : Graph) (node : NodeId) (labels : List LabelId) : Graph :=
  { g with members := labels.foldl (fun m l => m.insert l ((m.getD l ∅).insert node)) g.members }

/-- Take a node out of its labels. -/
def dismiss (g : Graph) (node : NodeId) (labels : List LabelId) : Graph :=
  { g with members := labels.foldl (fun m l => m.insert l ((m.getD l ∅).erase node)) g.members }

/-- Bring the indices up to date. -/
def announce (g : Graph) (event : NodeEvent) : Graph := { g with catalog := g.catalog.apply event }

/-- Add a node whose labels and properties have names. -/
def addNode (g : Graph) (labels : List LabelId) (properties : PropertyMap) : Graph × NodeId :=
  let node := Node.ofLabels ⟨g.nodes.capacity⟩ labels properties
  let g := g.enroll node.id node.labels.toList
  let g := g.announce (.created node.id node.labels.toList node.properties)
  ({ g with nodes := (g.nodes.insert node).1 }, node.id)

/-- Create a node from names. -/
def createNode (g : Graph) (labels : List String) (properties : List (String × Scalar)) :
    Graph × NodeId :=
  let (schema, labels) := internAll g.schema .label labels
  let (schema, properties) := internProperties schema properties
  { g with schema }.addNode labels properties

/-- Create a node from identifiers. -/
def createNodeById (g : Graph) (labels : List LabelId) (properties : PropertyMap) :
    Except GraphFault (Graph × NodeId) := do
  g.checkLabels labels
  g.checkProperties properties
  return g.addNode labels properties

/-- Set a property of a node; gives its old value. -/
def setNodePropertyById (g : Graph) (id : NodeId) (key : PropertyId) (value : Scalar) :
    Except GraphFault (Graph × Option Scalar) := do
  if (g.schema.propertyName? key).isNone then throw (.schema (.property key))
  let node ← g.node id
  let nodes ← g.nodes.modify id.index (·.setProperty key value)
  let old := node.property? key
  return ({ g with nodes }.announce (.changed id node.labels.toList key old (some value)), old)

/-- Set a property of a node by name; gives its old value. -/
def setNodeProperty (g : Graph) (id : NodeId) (key : String) (value : Scalar) :
    Except GraphFault (Graph × Option Scalar) := do
  discard (g.node id)
  let (schema, key) := g.schema.intern .property key
  { g with schema }.setNodePropertyById id key value

/-- Remove a property of a node by name; gives its old value. -/
def removeNodeProperty (g : Graph) (id : NodeId) (key : String) :
    Except GraphFault (Graph × Option Scalar) := do
  let node ← g.node id
  match g.schema.propertyId? key with
  | none => return (g, none)
  | some key =>
    match node.property? key with
    | none => return (g, none)
    | some old =>
      let nodes ← g.nodes.modify id.index (·.removeProperty key)
      return ({ g with nodes }.announce (.changed id node.labels.toList key (some old) none),
        some old)

/-- The matrices with one changed, after making it and those before it if need be. -/
def withMatrix (g : Graph) (type : TypeId) (f : Matrix → Matrix) : Graph :=
  let missing := type.index + 1 - g.matrices.size
  { g with matrices := (g.matrices ++ Array.replicate missing Matrix.empty).modify type.index f }

/-- Add an edge between live nodes whose type and properties have names. -/
def addEdge (g : Graph) (source target : NodeId) (type : TypeId) (properties : PropertyMap) :
    Graph × EdgeId :=
  let edge : Edge := ⟨⟨g.edges.capacity⟩, source, target, type, properties⟩
  let g := { g with edges := (g.edges.insert edge).1 }
  (g.withMatrix type (·.insert source target edge.id), edge.id)

/-- Create an edge from names. -/
def createEdge (g : Graph) (source target : NodeId) (type : String)
    (properties : List (String × Scalar)) : Except GraphFault (Graph × EdgeId) := do
  g.checkEndpoints source target
  let (schema, type) := g.schema.intern .relationType type
  let (schema, properties) := internProperties schema properties
  return { g with schema }.addEdge source target type properties

/-- Create an edge from identifiers. -/
def createEdgeById (g : Graph) (source target : NodeId) (type : TypeId)
    (properties : PropertyMap) : Except GraphFault (Graph × EdgeId) := do
  g.checkEndpoints source target
  if (g.schema.typeName? type).isNone then throw (.schema (.relationType type))
  g.checkProperties properties
  return g.addEdge source target type properties

/-- Set a property of an edge by name; gives its old value. -/
def setEdgeProperty (g : Graph) (id : EdgeId) (key : String) (value : Scalar) :
    Except GraphFault (Graph × Option Scalar) := do
  let edge ← g.edge id
  let (schema, key) := g.schema.intern .property key
  let edges ← g.edges.modify id.index (·.setProperty key value)
  return ({ g with schema, edges }, edge.property? key)

/-- Remove an edge from its arena and its matrix, if it is live. -/
def unlink (g : Graph) (id : EdgeId) : Option (Graph × Edge) := do
  let edge ← g.edge? id
  let (edges, _) ← (g.edges.free id.index).toOption
  let matrices := g.matrices.modify edge.relationType.index fun m =>
    (m.remove edge.source edge.target edge.id).1
  return ({ g with edges, matrices }, edge)

/-- Delete an edge; gives its record. -/
def deleteEdge (g : Graph) (id : EdgeId) : Except GraphFault (Graph × Edge) :=
  match g.unlink id with
  | some result => .ok result
  | none => .error (.edgeNotFound id)

/-- The edges at a node, each once. -/
def incident (g : Graph) (id : NodeId) : List EdgeId :=
  ((g.edgesOf id .any .both).map Prod.fst).eraseReps

/-- Remove all edges at a node. -/
def isolate (g : Graph) (id : NodeId) : Graph :=
  (g.incident id).foldl (fun g e => (g.unlink e).elim g Prod.fst) g

/-- Delete a node and the edges at it; gives its record. -/
def deleteNode (g : Graph) (id : NodeId) : Except GraphFault (Graph × Node) := do
  let node ← g.node id
  let g := g.isolate id
  let (nodes, _) ← g.nodes.free id.index
  let g := { g with nodes }.dismiss id node.labels.toList
  return (g.announce (.deleted id node.labels.toList node.properties), node)

/-- Define an index over the current members of its label, unless it exists. -/
def buildIndex (g : Graph) (label : LabelId) (property : PropertyId) : Graph × Bool :=
  let (catalog, created) :=
    g.catalog.create ⟨label, property⟩ ((g.labelled label).filterMap g.node?)
  ({ g with catalog }, created)

/-- Define an index by names; tells whether it is new. -/
def createIndex (g : Graph) (label property : String) : Graph × Bool :=
  let (schema, label) := g.schema.intern .label label
  let (schema, property) := schema.intern .property property
  { g with schema }.buildIndex label property

/-- Define an index by identifiers; tells whether it is new. -/
def createIndexById (g : Graph) (label : LabelId) (property : PropertyId) :
    Except GraphFault (Graph × Bool) := do
  g.checkLabels [label]
  if (g.schema.propertyName? property).isNone then throw (.schema (.indexedProperty property))
  return g.buildIndex label property

/-- Remove an index by names; tells whether it existed. -/
def dropIndex (g : Graph) (label property : String) : Graph × Bool :=
  match g.schema.labelId? label, g.schema.propertyId? property with
  | some label, some property =>
    let (catalog, dropped) := g.catalog.drop ⟨label, property⟩
    ({ g with catalog }, dropped)
  | _, _ => (g, false)

end Plexus.Graph
