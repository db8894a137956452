import Plexus.Proofs.Graph.Reachable
import Plexus.Proofs.Traversal

/-!
# Traversals of a graph

A traversal pairs every live start with the ends of all walks along live edges whose length is in
the interval, and its search always ends.
-/

namespace Plexus.Graph

variable {g : Graph}

/-- What a traversal reaches, in any sound graph. -/
theorem Sound.traverse_holds (h : g.Sound) (starts : List NodeId) (t : Traversal) :
    (g.traverse starts t).Holds fun s e => (s ∈ starts ∧ g.hasNode s) ∧
      ∃ k, t.hops.least.toNat ≤ k ∧ (∀ most, t.hops.most = some most → k ≤ most.toNat) ∧
        Walk (g.Linked t.types t.direction) k s e :=
  (MatrixView.reach_holds _ _ _ _).congr fun s e => by
    have hstep (a b : NodeId) : b ∈ (g.view t.types t.direction).hop a ↔
        g.Linked t.types t.direction a b :=
      h.mem_hop
    simp only [List.mem_filter, Walk.congr hstep]

/-- In every reachable graph a traversal is the set of pairs of a live start and the end of a walk
with an allowed number of steps; if any number of steps is allowed at all, this is what the search
from the first level ends with. -/
theorem Reachable.contains_traverse (h : g.Reachable) (starts : List NodeId) (t : Traversal) :
    (∀ s e, (g.traverse starts t).contains s e = true ↔ (s ∈ starts ∧ g.hasNode s) ∧
      ∃ k, t.hops.least.toNat ≤ k ∧ (∀ most, t.hops.most = some most → k ≤ most.toNat) ∧
        Walk (g.Linked t.types t.direction) k s e) ∧
    (t.hops.isEmpty = true → g.traverse starts t = .empty) ∧
    (t.hops.isEmpty = false →
      let v := g.view t.types t.direction
      let level := v.firstLevel (starts.filter g.hasNode) t.hops g.settings.parallelThreshold
      Relation.Saturates v.hop g.settings.parallelThreshold t.hops t.hops.least level level
        (g.traverse starts t)) := by
  have hcontains := h.sound.traverse_holds starts t
  refine ⟨fun s e => hcontains.contains_iff, fun hempty => ?_, fun hne => ?_⟩
  · rw [Graph.traverse, MatrixView.reach, if_pos hempty]
  · exact MatrixView.saturates_reach hne _ _

/-- A cycle of two nodes, a dead start and a repeated one. -/
theorem traverse_cycle :
    let g := [Mutation.createNode [] [], .createNode [] [], .createNode [] [],
      .createEdge ⟨0⟩ ⟨1⟩ "R" [], .createEdge ⟨1⟩ ⟨0⟩ "R" [], .deleteNode ⟨2⟩].foldl
        Graph.after (.empty {})
    g.Reachable ∧ (g.traverse [⟨0⟩, ⟨2⟩, ⟨0⟩] ⟨.any, .outgoing, ⟨3, none⟩⟩).contains ⟨0⟩ ⟨1⟩ ∧
      ∃ k, 3 ≤ k ∧ Walk (g.Linked .any .outgoing) k ⟨0⟩ ⟨1⟩ := by
  have hreach := Reachable.foldl (.empty {}) [Mutation.createNode [] [], .createNode [] [],
    .createNode [] [], .createEdge ⟨0⟩ ⟨1⟩ "R" [], .createEdge ⟨1⟩ ⟨0⟩ "R" [], .deleteNode ⟨2⟩]
  have hcontains : (Graph.traverse ([Mutation.createNode [] [], .createNode [] [],
      .createNode [] [], .createEdge ⟨0⟩ ⟨1⟩ "R" [], .createEdge ⟨1⟩ ⟨0⟩ "R" [],
      .deleteNode ⟨2⟩].foldl Graph.after (.empty {})) [⟨0⟩, ⟨2⟩, ⟨0⟩]
        ⟨.any, .outgoing, ⟨3, none⟩⟩).contains ⟨0⟩ ⟨1⟩ = true := by decide +kernel
  obtain ⟨-, k, hk, -, hwalk⟩ := ((Reachable.contains_traverse hreach _ _).1 _ _).1 hcontains
  exact ⟨hreach, hcontains, k, hk, hwalk⟩

end Plexus.Graph
