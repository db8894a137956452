import Plexus.Relation

/-!
# Adjacency matrices

One relationship type's edges, as a sparse table from sources and targets to the edges between
them, oldest first. The table is kept twice, by source and by target, so that both directions can
be read off; a cell or row that loses its last edge disappears.
-/

namespace Plexus

/-- A sparse table: for each row its non-empty cells. -/
abbrev Cells := Std.ExtTreeMap NodeId (Std.ExtTreeMap NodeId (List EdgeId))

namespace Cells

/-- The edges in one cell. -/
def list (c : Cells) (row column : NodeId) : List EdgeId := (c.getD row ∅).getD column []

/-- The cells of one row with their columns, ascending. -/
def row (c : Cells) (row : NodeId) : List (NodeId × List EdgeId) := (c.getD row ∅).toList

/-- How many cells there are. -/
def count (c : Cells) : Nat := c.toList.foldr (fun p n => p.2.size + n) 0

/-- Add an edge at the end of a cell. -/
def push (c : Cells) (row column : NodeId) (edge : EdgeId) : Cells :=
  c.insert row ((c.getD row ∅).insert column (c.list row column ++ [edge]))

/-- Put a list into a cell; an empty list removes the cell, and the row with its last cell. -/
def put (c : Cells) (row column : NodeId) : List EdgeId → Cells
  | [] =>
    let cells := (c.getD row ∅).erase column
    if cells.isEmpty then c.erase row else c.insert row cells
  | edges => c.insert row ((c.getD row ∅).insert column edges)

/-- Remove the first occurrence of an edge from a cell, if it is there. -/
def remove (c : Cells) (row column : NodeId) (edge : EdgeId) : Cells :=
  c.put row column ((c.list row column).erase edge)

end Cells

/-- The edges of one relationship type by their endpoints. -/
structure Matrix where
  /-- Rows are sources and columns targets. -/
  outgoing : Cells
  /-- Rows are targets and columns sources. -/
  incoming : Cells
  /-- How many edges there are. -/
  edgeCount : Nat
  deriving DecidableEq

namespace Matrix

def empty : Matrix := ⟨∅, ∅, 0⟩

/-- Record an edge. -/
def insert (m : Matrix) (source target : NodeId) (edge : EdgeId) : Matrix :=
  ⟨m.outgoing.push source target edge, m.incoming.push target source edge, m.edgeCount + 1⟩

/-- The edges from one node to another, oldest first. -/
def between (m : Matrix) (source target : NodeId) : List EdgeId := m.outgoing.list source target

/-- Forget an edge; tells whether it was recorded between these nodes. -/
def remove (m : Matrix) (source target : NodeId) (edge : EdgeId) : Matrix × Bool :=
  if edge ∈ m.between source target then
    (⟨m.outgoing.remove source target edge, m.incoming.remove target source edge,
      m.edgeCount - 1⟩, true)
  else (m, false)

/-- At least one edge leads from one node to the other. -/
def contains (m : Matrix) (source target : NodeId) : Bool :=
  (m.outgoing.getD source ∅).contains target

/-- The targets of a source with the edges leading there, ascending. -/
def row (m : Matrix) (source : NodeId) : List (NodeId × List EdgeId) := m.outgoing.row source

/-- The sources of a target with the edges coming from there, ascending. -/
def column (m : Matrix) (target : NodeId) : List (NodeId × List EdgeId) := m.incoming.row target

def successors (m : Matrix) (source : NodeId) : List NodeId := (m.row source).map Prod.fst

def predecessors (m : Matrix) (target : NodeId) : List NodeId := (m.column target).map Prod.fst

/-- How many pairs of nodes an edge connects. -/
def pairCount (m : Matrix) : Nat := m.outgoing.count

/-- The pairs of nodes that an edge connects. -/
def relation (m : Matrix) : Relation :=
  Relation.ofPairs (m.outgoing.toList.flatMap fun (s, row) => row.keys.map (s, ·))

end Matrix

/-- The way in which an edge is followed. -/
inductive Direction where
  | outgoing
  | incoming
  | both
  deriving DecidableEq, Repr

def Direction.reverse : Direction → Direction
  | .outgoing => .incoming
  | .incoming => .outgoing
  | .both => .both

/-- Edges are followed from source to target. -/
def Direction.forward : Direction → Bool
  | .outgoing | .both => true
  | .incoming => false

/-- Edges are followed from target to source. -/
def Direction.backward : Direction → Bool
  | .incoming | .both => true
  | .outgoing => false

/-- The union of some matrices, followed in one direction. -/
structure MatrixView where
  matrices : List Matrix
  direction : Direction

namespace MatrixView

/-- No matrix has an edge. -/
def isEmpty (v : MatrixView) : Bool := v.matrices.all (·.edgeCount = 0)

/-- The neighbours of a node matrix by matrix, in each the targets before the sources. -/
def hop (v : MatrixView) : Hop := fun node =>
  v.matrices.flatMap fun m =>
    (if v.direction.forward then m.successors node else []) ++
      (if v.direction.backward then m.predecessors node else [])

/-- No more than this many nodes are the end of a hop. -/
def endBound (v : MatrixView) : Nat :=
  v.matrices.foldr (fun m n =>
    (if v.direction.forward then m.outgoing.count else 0) +
      (if v.direction.backward then m.incoming.count else 0) + n) 0

end MatrixView

end Plexus
