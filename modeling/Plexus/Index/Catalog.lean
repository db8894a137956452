import Plexus.Assoc
import Plexus.Entity
import Plexus.Index.Postings

/-!
# Index catalog

The indices of a graph, each on one property of the nodes with one label, in the order in which
they were defined. Every change to a node is described by an event; applying the event brings
all indices up to date.
-/

namespace Plexus

/-- What an index is on. -/
structure IndexName where
  label : LabelId
  property : PropertyId
  deriving DecidableEq, Repr

/-- A change to a node that indices follow. -/
inductive NodeEvent where
  | created (id : NodeId) (labels : List LabelId) (properties : PropertyMap)
  | deleted (id : NodeId) (labels : List LabelId) (properties : PropertyMap)
  /-- A property of a node got another value, or none. -/
  | changed (id : NodeId) (labels : List LabelId) (key : PropertyId) (old new : Option Scalar)

/-- All indices with their postings, in order of definition. -/
structure Catalog where
  indices : Assoc IndexName Postings

namespace Catalog

def empty : Catalog := ⟨[]⟩

def find? (c : Catalog) (name : IndexName) : Option Postings := c.indices.get? name

def has (c : Catalog) (name : IndexName) : Bool := (c.find? name).isSome

/-- The definitions in order. -/
def names (c : Catalog) : List IndexName := c.indices.keys

/-- The postings of an index over the given nodes, built from scratch. -/
def postingsOf (name : IndexName) (nodes : List Node) : Postings :=
  nodes.foldl (fun p n =>
    if n.hasLabel name.label then
      match n.property? name.property with
      | some value => (p.insert value n.id).1
      | none => p
    else p) .empty

/-- Define an index over the given nodes, unless it exists; tells whether it is new. -/
def create (c : Catalog) (name : IndexName) (nodes : List Node) : Catalog × Bool :=
  if c.has name then (c, false)
  else (⟨c.indices ++ [(name, postingsOf name nodes)]⟩, true)

/-- Remove an index; tells whether it existed. -/
def drop (c : Catalog) (name : IndexName) : Catalog × Bool :=
  if c.has name then (⟨c.indices.erase name⟩, true) else (c, false)

/-- The nodes with a label whose property equals a value; absent without such an index. -/
def lookup? (c : Catalog) (name : IndexName) (value : Scalar) : Option (List NodeId) :=
  (c.find? name).map (·.get value)

/-- Change the postings of an index, if it exists. -/
def update (c : Catalog) (name : IndexName) (f : Postings → Postings) : Catalog :=
  match c.find? name with
  | some p => ⟨c.indices.set name (f p)⟩
  | none => c

/-- Add a node under a value to an index, if it exists. -/
def post (c : Catalog) (node : NodeId) (key : PropertyId) (value : Scalar) (label : LabelId) :
    Catalog :=
  c.update ⟨label, key⟩ fun p => (p.insert value node).1

/-- Remove a node under a value from an index, if it exists. -/
def unpost (c : Catalog) (node : NodeId) (key : PropertyId) (value : Scalar) (label : LabelId) :
    Catalog :=
  c.update ⟨label, key⟩ fun p => (p.remove value node).1

/-- Bring all indices up to date with a change to a node. -/
def apply (c : Catalog) : NodeEvent → Catalog
  | .created id labels properties =>
    properties.toList.foldl (fun c (key, value) =>
      labels.foldl (fun c label => c.post id key value label) c) c
  | .deleted id labels properties =>
    properties.toList.foldl (fun c (key, value) =>
      labels.foldl (fun c label => c.unpost id key value label) c) c
  | .changed id labels key old new =>
    labels.foldl (fun c label =>
      let c := match old with
        | some value => c.unpost id key value label
        | none => c
      match new with
      | some value => c.post id key value label
      | none => c) c

end Catalog

end Plexus
