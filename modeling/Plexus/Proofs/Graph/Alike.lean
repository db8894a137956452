import Plexus.Proofs.Graph.Traverse

/-!
# Graphs that look alike

Two graphs have the same content if they have the same schema, slots and indices, the same members
of every label and the same matrix of every relationship type. They may still differ in labels
without members and in matrices without edges at the end, which nothing that reads a graph can
tell, and in their settings. If they have the same settings as well, they look alike.
-/

namespace Plexus.Graph

/-- The graphs hold the same, under whatever settings. -/
structure SameContent (g h : Graph) : Prop where
  schema : h.schema = g.schema
  nodes : h.nodes = g.nodes
  edges : h.edges = g.edges
  members (label : LabelId) : h.members.getD label ∅ = g.members.getD label ∅
  matrices (t : Nat) : h.matrices.getD t .empty = g.matrices.getD t .empty
  catalog : h.catalog = g.catalog

/-- Nothing that reads the graphs tells them apart. -/
structure Alike (g h : Graph) : Prop extends SameContent g h where
  settings : h.settings = g.settings

variable {g h : Graph}

/-- A sound graph is determined, as far as reading can tell, by its slots and indices. -/
theorem Sound.alike (hg : g.Sound) (hh : h.Sound) (hschema : h.schema = g.schema)
    (hnodes : h.nodes.slots = g.nodes.slots) (hedges : h.edges.slots = g.edges.slots)
    (hnames : h.catalog.names = g.catalog.names) (hsettings : h.settings = g.settings) :
    g.Alike h := by
  have hnodeRecords : h.nodes.records = g.nodes.records := by
    rw [Arena.records, Arena.records, hnodes]
  have hedgeRecords : h.edges.records = g.edges.records := by
    rw [Arena.records, Arena.records, hedges]
  have hnodeArena : h.nodes = g.nodes := by
    have hlive : h.nodes.live = g.nodes.live := by
      rw [hh.nodes.live_eq, hg.nodes.live_eq, hnodeRecords]
    cases hn : h.nodes
    cases hn' : g.nodes
    simp_all
  have hedgeArena : h.edges = g.edges := by
    have hlive : h.edges.live = g.edges.live := by
      rw [hh.edges.live_eq, hg.edges.live_eq, hedgeRecords]
    cases hn : h.edges
    cases hn' : g.edges
    simp_all
  refine ⟨?content, hsettings⟩
  constructor
  case schema => exact hschema
  case nodes => exact hnodeArena
  case edges => exact hedgeArena
  case members =>
    intro label
    apply Std.ExtTreeSet.ext_mem
    intro id
    rw [hh.members, hg.members, hnodeRecords]
  case matrices =>
    intro t
    have hrec := hh.matrices t
    rw [edgesOfType, hedgeRecords] at hrec
    exact hrec.unique (hg.matrices t)
  case catalog => exact (hnodeRecords ▸ hh.catalog).unique hg.catalog hnames

private theorem flatMap_zipIdx {α : Type} (ms : Array Matrix) {f : Matrix → Nat → List α}
    (hf : ∀ t, f .empty t = []) {n : Nat} (hn : ms.size ≤ n) :
    (ms.toList.zipIdx.flatMap fun p => f p.1 p.2) =
      (List.range n).flatMap fun t => f (ms.getD t .empty) t := by
  induction hn with
  | refl =>
    have hzip : ms.toList.zipIdx = (List.range ms.size).map fun t => (ms.getD t .empty, t) := by
      apply List.ext_getElem
      · simp
      · intro i h₁ h₂
        have hi : i < ms.size := by simpa using h₁
        simp [hi]
    rw [hzip, List.flatMap_map]
  | step hle ih =>
    rename_i m
    have hnone : ms[m]? = none := Array.getElem?_eq_none hle
    rw [ih, List.range_succ, List.flatMap_append]
    simp [Array.getD_eq_getD_getElem?, hnone, hf]

namespace SameContent

variable (hc : g.SameContent h)

include hc

/-- Alike graphs have the same nodes under a label. -/
theorem labelled (label : LabelId) : h.labelled label = g.labelled label := by
  rw [Graph.labelled, Graph.labelled, hc.members]

/-- Alike graphs count as many nodes under a label. -/
theorem labelCount (label : LabelId) : h.labelCount label = g.labelCount label := by
  rw [Graph.labelCount, Graph.labelCount, hc.members]

/-- Alike graphs list the same edges of a node. -/
theorem edgesOf (node : NodeId) (types : TypeFilter) (dir : Direction) :
    h.edgesOf node types dir = g.edgesOf node types dir := by
  have hnone (t : Nat) : Graph.edgesIn types node dir .empty t = [] := by
    simp [Graph.edgesIn, Graph.cellsAt, Matrix.row, Matrix.column, Cells.row, Matrix.empty]
  rw [Graph.edgesOf_eq, Graph.edgesOf_eq,
    flatMap_zipIdx h.matrices hnone (Nat.le_max_left _ g.matrices.size),
    flatMap_zipIdx g.matrices hnone (Nat.le_max_right h.matrices.size _)]
  simp only [hc.matrices]

/-- Alike graphs list the same neighbours of a node. -/
theorem neighbors (node : NodeId) (types : TypeFilter) (dir : Direction) :
    h.neighbors node types dir = g.neighbors node types dir := by
  rw [Graph.neighbors, Graph.neighbors, hc.edgesOf]

/-- Alike graphs give a traversal the same result. -/
theorem traverse (hg : g.Sound) (hh : h.Sound) (starts : List NodeId) (t : Traversal) :
    h.traverse starts t = g.traverse starts t := by
  have hholds := hh.traverse_holds starts t
  have hlinked : h.Linked = g.Linked := by
    funext types dir a b
    rw [Graph.Linked, Graph.Linked, hc.edges]
  have hlive (id : NodeId) : h.hasNode id = g.hasNode id := by
    rw [Graph.hasNode, Graph.hasNode, hc.nodes]
  rw [hlinked] at hholds
  simp only [hlive] at hholds
  exact hholds.unique (hg.traverse_holds starts t)

end SameContent

end Plexus.Graph
