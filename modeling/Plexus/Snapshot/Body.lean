import Plexus.Codec.Basic
import Plexus.Graph.Change

/-!
# Snapshot bodies

What a snapshot says about a graph: its name tables, what each node slot and each edge slot
holds, and the definitions of its indices. Members of labels, matrices and postings are left out,
because they can be worked out again. A body need not come from a graph; `validate` checks every
identifier that it refers to, and `build?` makes the graph of a valid body.
-/

namespace Plexus

/-- The properties of a node or an edge, as they are listed. -/
abbrev PropertyList := List (UInt32 × Scalar)

/-- What a node slot holds. -/
inductive NodeEntry where
  | tombstone
  | live (labels : List UInt32) (properties : PropertyList)
  deriving DecidableEq, Repr

/-- What an edge slot holds. -/
inductive EdgeEntry where
  | tombstone
  | live (source target : UInt64) (relationType : UInt32) (properties : PropertyList)
  deriving DecidableEq, Repr

/-- The definition of an index. -/
structure IndexEntry where
  label : UInt32
  property : UInt32
  deriving DecidableEq, Repr

/-- The content of a snapshot. -/
structure Body where
  labels : List String
  relationTypes : List String
  properties : List String
  nodes : List NodeEntry
  edges : List EdgeEntry
  indices : List IndexEntry
  deriving DecidableEq, Repr

/-- Why a snapshot's content is refused. -/
inductive Corruption where
  /-- The length of the body cannot be added to those of header and digest. -/
  | unaddressable (length : Nat)
  | trailingBytes (count : Nat)
  | noLengthPrefix
  | implausibleLength (declared ceiling stream : Nat)
  | wrongLength (declared : Nat)
  | nodeLabel (node : Nat) (label : UInt32)
  | nodeProperty (node : Nat) (property : UInt32)
  | missingEndpoint (edge : Nat) (source target : UInt64)
  | edgeType (edge : Nat) (relationType : UInt32)
  | edgeProperty (edge : Nat) (property : UInt32)
  | index (entry : IndexEntry)
  | repeatedName
  | graph (fault : GraphFault)
  deriving DecidableEq, Repr

def Corruption.message : Corruption → String
  | unaddressable length => s!"body length {length} is not addressable"
  | trailingBytes count => s!"{count} trailing bytes after digest"
  | noLengthPrefix => "compressed body has no length prefix"
  | implausibleLength declared ceiling stream =>
    s!"declared inflated length {declared} exceeds {ceiling} for a {stream}-byte stream"
  | wrongLength declared =>
    s!"compressed body does not inflate to its declared {declared} bytes"
  | nodeLabel node label => s!"node {node} uses unknown label id {label}"
  | nodeProperty node property => s!"node {node} uses unknown property id {property}"
  | missingEndpoint edge source target =>
    s!"relationship {edge} connects missing nodes {source} -> {target}"
  | edgeType edge relationType => s!"relationship {edge} uses unknown type id {relationType}"
  | edgeProperty edge property => s!"relationship {edge} uses unknown property id {property}"
  | index entry => s!"index on unknown label/property ids ({entry.label}, {entry.property})"
  | repeatedName => "schema table repeats a name"
  | graph fault => fault.message

namespace Body

/-- The first listed property without a name. -/
def unknownProperty? (b : Body) (properties : PropertyList) : Option UInt32 :=
  (properties.map Prod.fst).find? fun key => b.properties.length ≤ key.toNat

/-- Every identifier in a node slot has a name. -/
def checkNode (b : Body) (id : Nat) : NodeEntry → Except Corruption Unit
  | .tombstone => .ok ()
  | .live labels properties =>
    match labels.find? fun l => b.labels.length ≤ l.toNat with
    | some label => .error (.nodeLabel id label)
    | none =>
      match b.unknownProperty? properties with
      | some key => .error (.nodeProperty id key)
      | none => .ok ()

/-- The node slot is live. -/
def isLiveNode (b : Body) (id : UInt64) : Bool :=
  match b.nodes[id.toNat]? with
  | some (.live _ _) => true
  | _ => false

/-- The ends in an edge slot are live, and every identifier in it has a name. -/
def checkEdge (b : Body) (id : Nat) : EdgeEntry → Except Corruption Unit
  | .tombstone => .ok ()
  | .live source target relationType properties =>
    if !b.isLiveNode source || !b.isLiveNode target then
      .error (.missingEndpoint id source target)
    else if b.relationTypes.length ≤ relationType.toNat then .error (.edgeType id relationType)
    else
      match b.unknownProperty? properties with
      | some key => .error (.edgeProperty id key)
      | none => .ok ()

/-- Both identifiers of an index have names. -/
def checkIndex (b : Body) (entry : IndexEntry) : Except Corruption Unit :=
  if b.labels.length ≤ entry.label.toNat || b.properties.length ≤ entry.property.toNat then
    .error (.index entry)
  else .ok ()

/-- Check every identifier that the body refers to: nodes, then edges, then indices. -/
def validate (b : Body) : Except Corruption Unit := do
  b.nodes.zipIdx.forM fun (entry, id) => b.checkNode id entry
  b.edges.zipIdx.forM fun (entry, id) => b.checkEdge id entry
  b.indices.forM b.checkIndex

/-- The map of listed properties, of which the last one for a key counts. -/
def propertyMap (properties : PropertyList) : PropertyMap :=
  PropertyMap.ofPairs (properties.map fun (key, value) => (⟨key.toNat⟩, value))

/-- Put a node or a tombstone into the next slot. -/
def restoreNode (g : Graph) : NodeEntry → Graph
  | .tombstone => { g with nodes := g.nodes.pushTombstone.1 }
  | .live labels properties =>
    (g.addNode (labels.map fun l => ⟨l.toNat⟩) (propertyMap properties)).1

/-- Put an edge or a tombstone into the next slot. -/
def restoreEdge (g : Graph) : EdgeEntry → Except GraphFault Graph
  | .tombstone => .ok { g with edges := g.edges.pushTombstone.1 }
  | .live source target relationType properties => do
    let source : NodeId := ⟨source.toNat⟩
    let target : NodeId := ⟨target.toNat⟩
    g.checkEndpoints source target
    return (g.addEdge source target ⟨relationType.toNat⟩ (propertyMap properties)).1

/-- Define an index; one that exists is left alone. -/
def restoreIndex (g : Graph) (entry : IndexEntry) : Except GraphFault Graph := do
  return (← g.createIndexById ⟨entry.label.toNat⟩ ⟨entry.property.toNat⟩).1

/-- The edges and indices of a body over its nodes. -/
def restoreOnto (b : Body) (g : Graph) : Except GraphFault Graph := do
  let g ← b.edges.foldlM restoreEdge g
  b.indices.foldlM restoreIndex g

/-- The graph of a body. -/
def build (b : Body) (settings : TraversalSettings) : Except Corruption Graph :=
  match Schema.ofTables? b.labels b.relationTypes b.properties with
  | none => .error .repeatedName
  | some schema =>
    match b.restoreOnto (b.nodes.foldl restoreNode (.ofSchema schema settings)) with
    | .ok g => .ok g
    | .error fault => .error (.graph fault)

/-- The properties of a record as they are listed. -/
def propertyList (properties : PropertyMap) : PropertyList :=
  properties.toList.map fun (key, value) => (UInt32.ofNat key.index, value)

/-- What a node slot is written as. -/
def nodeEntry (slot : Slot Node) : NodeEntry :=
  match slot.record? with
  | some n => .live (n.labels.toList.map fun l => UInt32.ofNat l.index) (propertyList n.properties)
  | none => .tombstone

/-- What an edge slot is written as. -/
def edgeEntry (slot : Slot Edge) : EdgeEntry :=
  match slot.record? with
  | some e => .live (UInt64.ofNat e.source.index) (UInt64.ofNat e.target.index)
      (UInt32.ofNat e.relationType.index) (propertyList e.properties)
  | none => .tombstone

/-- The body of a graph. -/
def ofGraph (g : Graph) : Body where
  labels := g.schema.labels.names
  relationTypes := g.schema.relationTypes.names
  properties := g.schema.properties.names
  nodes := g.nodes.slots.toList.map nodeEntry
  edges := g.edges.slots.toList.map edgeEntry
  indices := g.catalog.names.map fun name =>
    ⟨UInt32.ofNat name.label.index, UInt32.ofNat name.property.index⟩

end Body

end Plexus
