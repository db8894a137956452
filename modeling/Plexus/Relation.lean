import Plexus.Identifier
import Std.Data.ExtTreeSet

/-!
# Boolean relations on nodes

A relation is a finite set of pairs of nodes, kept by rows: the ends of each start. The number of
pairs is kept beside the rows, and no operation leaves an empty row behind, so two relations with
the same pairs are equal. Composing a relation with one hop is the step from which traversals are
built.
-/

namespace Plexus

/-- One hop: the nodes reachable from a node, in some order and possibly with repeats. -/
abbrev Hop := NodeId → List NodeId

/-- A finite set of pairs of nodes. -/
structure Relation where
  /-- The ends that each start is paired with. -/
  rows : Std.ExtTreeMap NodeId (Std.ExtTreeSet NodeId)
  /-- How many pairs there are. -/
  size : Nat
  deriving DecidableEq

namespace Relation

def empty : Relation := ⟨∅, 0⟩

/-- The ends paired with a start, ascending. -/
def ends (r : Relation) (start : NodeId) : List NodeId := (r.rows.getD start ∅).toList

def contains (r : Relation) (start stop : NodeId) : Bool := (r.rows.getD start ∅).contains stop

/-- The relation with one more pair, unless it is there already. -/
def insert (r : Relation) (start stop : NodeId) : Relation :=
  if r.contains start stop then r
  else ⟨r.rows.insert start ((r.rows.getD start ∅).insert stop), r.size + 1⟩

/-- All pairs in ascending order. -/
def pairs (r : Relation) : List (NodeId × NodeId) :=
  r.rows.toList.flatMap fun (start, row) => row.toList.map (start, ·)

def isEmpty (r : Relation) : Bool := r.size = 0

def ofPairs (pairs : List (NodeId × NodeId)) : Relation :=
  pairs.foldl (fun r p => r.insert p.1 p.2) empty

/-- Every listed node paired with itself. -/
def identity (nodes : List NodeId) : Relation := ofPairs (nodes.map fun n => (n, n))

/-- The pairs of either relation. -/
def union (r s : Relation) : Relation := s.pairs.foldl (fun acc p => acc.insert p.1 p.2) r

/-- Add every pair of another relation; tells how many were new. -/
def absorb (r s : Relation) : Relation × Nat :=
  let joined := r.union s
  (joined, joined.size - r.size)

/-- The pairs of the first relation that the second lacks. -/
def difference (r s : Relation) : Relation :=
  ofPairs (r.pairs.filter fun p => !s.contains p.1 p.2)

/-- Every pair turned around. -/
def transpose (r : Relation) : Relation := ofPairs (r.pairs.map Prod.swap)

/-- The relation as a hop. -/
def hop (r : Relation) : Hop := r.ends

/-- The relation with the given rows, of which empty ones are left out. -/
def ofRows (rows : List (NodeId × Std.ExtTreeSet NodeId)) : Relation :=
  rows.foldl (fun r (start, row) =>
    if row.isEmpty then r else ⟨r.rows.insert start row, r.size + row.size⟩) empty

/-- All nodes one hop away from the given ones. -/
def advance (hop : Hop) (nodes : List NodeId) : Std.ExtTreeSet NodeId :=
  nodes.foldl (fun acc n => acc.insertMany (hop n)) ∅

/-- What one hop leads to from every end of a relation, worked out once per end. -/
def hopTable (r : Relation) (hop : Hop) : Std.ExtTreeMap NodeId (List NodeId) :=
  r.rows.toList.foldl (fun table (_, row) =>
    row.toList.foldl (fun t n => if t.contains n then t else t.insert n (hop n)) table) ∅

/-- Follow every pair by one hop. From `sharingThreshold` rows on, rows share one table of hops;
with fewer, each row takes its own. The pairs are the same either way. -/
def compose (r : Relation) (hop : Hop) (sharingThreshold : Nat) : Relation :=
  let hop :=
    if sharingThreshold ≤ r.rows.size then
      let table := r.hopTable hop
      fun n => table.getD n []
    else hop
  ofRows (r.rows.toList.map fun (start, row) => (start, advance hop row.toList))

end Relation

end Plexus
