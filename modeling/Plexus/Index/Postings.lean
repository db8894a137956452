import Plexus.Index.Key
import Plexus.Identifier
import Std.Data.ExtTreeSet

/-!
# Postings

What one index holds: for each indexed value the nodes that have it. A value that loses its last
node disappears, and the number of postings is kept beside them.
-/

namespace Plexus

/-- The nodes holding each value of one property under one label. -/
structure Postings where
  nodes : Std.ExtTreeMap IndexKey (Std.ExtTreeSet NodeId)
  /-- How many pairs of a value and a node there are. -/
  size : Nat

namespace Postings

def empty : Postings := ⟨∅, 0⟩

/-- The nodes with the given key. -/
def withKey (p : Postings) (key : IndexKey) : Std.ExtTreeSet NodeId := p.nodes.getD key ∅

/-- Add a node under a value; tells whether the pair is new. -/
def insert (p : Postings) (value : Scalar) (node : NodeId) : Postings × Bool :=
  match IndexKey.ofScalar? value with
  | none => (p, false)
  | some key =>
    if (p.withKey key).contains node then (p, false)
    else (⟨p.nodes.insert key ((p.withKey key).insert node), p.size + 1⟩, true)

/-- Remove a node from a value; tells whether it was there. -/
def remove (p : Postings) (value : Scalar) (node : NodeId) : Postings × Bool :=
  match IndexKey.ofScalar? value with
  | none => (p, false)
  | some key =>
    if (p.withKey key).contains node then
      let rest := (p.withKey key).erase node
      (⟨if rest.isEmpty then p.nodes.erase key else p.nodes.insert key rest, p.size - 1⟩, true)
    else (p, false)

/-- The nodes that have a value, in ascending order. -/
def get (p : Postings) (value : Scalar) : List NodeId :=
  match IndexKey.ofScalar? value with
  | none => []
  | some key => (p.withKey key).toList

def isEmpty (p : Postings) : Bool := p.size = 0

/-- How many different values have a node. -/
def distinctValues (p : Postings) : Nat := p.nodes.size

end Postings

end Plexus
