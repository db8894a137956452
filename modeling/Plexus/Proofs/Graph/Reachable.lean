import Plexus.Proofs.Graph.Restore

/-!
# Reachable graphs

A graph is reachable if it comes of any sequence of public operations, refused ones included,
from an empty graph or from one read from a snapshot. Every reachable graph is sound, and so all
that it keeps beside its records can be relied on.
-/

namespace Plexus

/-- The public operations that change a graph. -/
inductive Mutation where
  | createNode (labels : List String) (properties : List (String × Scalar))
  | createNodeById (labels : List LabelId) (properties : PropertyMap)
  | createEdge (source target : NodeId) (type : String) (properties : List (String × Scalar))
  | createEdgeById (source target : NodeId) (type : TypeId) (properties : PropertyMap)
  | setNodeProperty (id : NodeId) (key : String) (value : Scalar)
  | setNodePropertyById (id : NodeId) (key : PropertyId) (value : Scalar)
  | removeNodeProperty (id : NodeId) (key : String)
  | setEdgeProperty (id : EdgeId) (key : String) (value : Scalar)
  | deleteNode (id : NodeId)
  | deleteEdge (id : EdgeId)
  | createIndex (label property : String)
  | createIndexById (label : LabelId) (property : PropertyId)
  | dropIndex (label property : String)

namespace Graph

/-- The graph that an operation leads to, unless it is refused. -/
def run (g : Graph) : Mutation → Except GraphFault Graph
  | .createNode labels properties => .ok (g.createNode labels properties).1
  | .createNodeById labels properties => (g.createNodeById labels properties).map Prod.fst
  | .createEdge source target type properties =>
    (g.createEdge source target type properties).map Prod.fst
  | .createEdgeById source target type properties =>
    (g.createEdgeById source target type properties).map Prod.fst
  | .setNodeProperty id key value => (g.setNodeProperty id key value).map Prod.fst
  | .setNodePropertyById id key value => (g.setNodePropertyById id key value).map Prod.fst
  | .removeNodeProperty id key => (g.removeNodeProperty id key).map Prod.fst
  | .setEdgeProperty id key value => (g.setEdgeProperty id key value).map Prod.fst
  | .deleteNode id => (g.deleteNode id).map Prod.fst
  | .deleteEdge id => (g.deleteEdge id).map Prod.fst
  | .createIndex label property => .ok (g.createIndex label property).1
  | .createIndexById label property => (g.createIndexById label property).map Prod.fst
  | .dropIndex label property => .ok (g.dropIndex label property).1

/-- The graph after an operation; a refused one leaves it as it was. -/
def after (g : Graph) (m : Mutation) : Graph :=
  match g.run m with
  | .ok g' => g'
  | .error _ => g

/-- The graphs that operations and snapshots lead to. -/
inductive Reachable : Graph → Prop where
  | empty (settings : TraversalSettings) : Reachable (Graph.empty settings)
  | decoded {bytes : Bytes} {settings : TraversalSettings} {g : Graph}
      (h : Snapshot.decode bytes settings = .ok g) : Reachable g
  | after {g : Graph} (h : Reachable g) (m : Mutation) : Reachable (g.after m)

variable {g g' : Graph}

theorem map_fst_eq_ok {α : Type} {x : Except GraphFault (Graph × α)} :
    x.map Prod.fst = .ok g' ↔ ∃ a, x = .ok (g', a) := by
  cases x with
  | error fault => simp [Except.map]
  | ok result =>
    simp only [Except.map, Except.ok.injEq]
    constructor
    · rintro rfl
      exact ⟨result.2, rfl⟩
    · rintro ⟨a, rfl⟩
      rfl

/-- No operation makes a sound graph unsound. -/
theorem Sound.run (h : g.Sound) {m : Mutation} (hm : g.run m = .ok g') : g'.Sound := by
  cases m with
  | createNode labels properties =>
    cases hm
    exact h.createNode labels properties
  | createNodeById labels properties =>
    obtain ⟨id, hid⟩ := map_fst_eq_ok.1 hm
    exact h.createNodeById hid
  | createEdge source target type properties =>
    obtain ⟨id, hid⟩ := map_fst_eq_ok.1 hm
    exact h.createEdge hid
  | createEdgeById source target type properties =>
    obtain ⟨id, hid⟩ := map_fst_eq_ok.1 hm
    exact h.createEdgeById hid
  | setNodeProperty id key value =>
    obtain ⟨old, hold⟩ := map_fst_eq_ok.1 hm
    exact h.setNodeProperty hold
  | setNodePropertyById id key value =>
    obtain ⟨old, hold⟩ := map_fst_eq_ok.1 hm
    exact h.setNodePropertyById hold
  | removeNodeProperty id key =>
    obtain ⟨old, hold⟩ := map_fst_eq_ok.1 hm
    exact h.removeNodeProperty hold
  | setEdgeProperty id key value =>
    obtain ⟨old, hold⟩ := map_fst_eq_ok.1 hm
    exact h.setEdgeProperty hold
  | deleteNode id =>
    obtain ⟨n, hn⟩ := map_fst_eq_ok.1 hm
    exact h.deleteNode hn
  | deleteEdge id =>
    obtain ⟨e, he⟩ := map_fst_eq_ok.1 hm
    exact h.deleteEdge he
  | createIndex label property =>
    cases hm
    exact h.createIndex label property
  | createIndexById label property =>
    obtain ⟨created, hcreated⟩ := map_fst_eq_ok.1 hm
    exact h.createIndexById hcreated
  | dropIndex label property =>
    cases hm
    exact h.dropIndex label property

/-- A mutation keeps a graph sound, whether or not it succeeds. -/
theorem Sound.after (h : g.Sound) (m : Mutation) : (g.after m).Sound := by
  unfold Graph.after
  split
  · rename_i g' hg'
    exact h.run hg'
  · exact h

/-- From a reachable graph any mutations lead to reachable graphs. -/
theorem Reachable.foldl (h : g.Reachable) (ms : List Mutation) :
    (ms.foldl Graph.after g).Reachable := by
  induction ms generalizing g with
  | nil => exact h
  | cons m rest ih => exact ih (h.after m)

/-- Every reachable graph is sound. -/
theorem Reachable.sound (h : g.Reachable) : g.Sound := by
  induction h with
  | empty settings => exact sound_ofSchema _ _
  | decoded h => exact Snapshot.sound_decode h
  | after h m ih => exact ih.after m

/-- What can be relied on in a graph: how its records, counts and lists of members agree. -/
structure Consistent (g : Graph) : Prop where
  node_id (slot : Nat) (n : Node) : g.nodes.get? slot = some n → n.id.index = slot
  edge_id (slot : Nat) (e : Edge) : g.edges.get? slot = some e → e.id.index = slot
  labels_ascending (id : NodeId) (n : Node) :
    g.node? id = some n → n.labels.toList.Pairwise (· < ·)
  endpoints_live (id : EdgeId) (e : Edge) :
    g.edge? id = some e → g.hasNode e.source ∧ g.hasNode e.target
  labelled_ascending (label : LabelId) : (g.labelled label).Pairwise (· < ·)
  mem_labelled (label : LabelId) (id : NodeId) :
    id ∈ g.labelled label ↔ ∃ n, g.node? id = some n ∧ n.hasLabel label
  labelCount_eq (label : LabelId) : g.labelCount label = (g.labelled label).length
  node_named (id : NodeId) (n : Node) : g.node? id = some n → n.Named g.schema
  edge_named (id : EdgeId) (e : Edge) : g.edge? id = some e → e.Named g.schema
  index_named (name : IndexName) : name ∈ g.catalog.names → name.Named g.schema
  nodeCount_eq : g.nodeCount = (List.range g.nodes.capacity).countP (g.nodes.isLive ·)
  edgeCount_eq : g.edgeCount = (List.range g.edges.capacity).countP (g.edges.isLive ·)

/-- Every reachable graph is consistent. -/
theorem Reachable.consistent (h : g.Reachable) : g.Consistent where
  node_id slot n hn := h.sound.nodes.slotOf_eq slot n hn
  edge_id slot e he := h.sound.edges.slotOf_eq slot e he
  labels_ascending id n hn := n.labels.ordered_toList.imp fun hlt => Id.compare_eq_lt.1 hlt
  endpoints_live id e he := by
    have hends := h.sound.endpoints e (h.sound.edge?_iff.1 he).1
    exact ⟨h.sound.hasNode_iff.2 hends.1, h.sound.hasNode_iff.2 hends.2⟩
  labelled_ascending label :=
    (g.members.getD label ∅).ordered_toList.imp fun hlt => Id.compare_eq_lt.1 hlt
  mem_labelled label id := by
    simp only [h.sound.mem_labelled, h.sound.node?_iff, and_assoc]
  labelCount_eq label := Std.ExtTreeSet.length_toList.symm
  node_named id n hn := h.sound.nodes_named n (h.sound.node?_iff.1 hn).1
  edge_named id e he := h.sound.edges_named e (h.sound.edge?_iff.1 he).1
  index_named := h.sound.indices_named
  nodeCount_eq := h.sound.nodes.live_eq.trans g.nodes.countP_isLive.symm
  edgeCount_eq := h.sound.edges.live_eq.trans g.edges.countP_isLive.symm

/-- A run in which a node is deleted together with the edge at it. -/
theorem consistent_after_deletion :
    let g := [Mutation.createNode ["B", "A", "B"] [], .createNode ["A"] [("n", .text "x")],
      .createIndex "A" "n", .createEdge ⟨0⟩ ⟨1⟩ "R" [],
      .deleteNode ⟨1⟩].foldl Graph.after (.empty {})
    g.Reachable ∧ g.Consistent ∧ g.labelled ⟨1⟩ = [⟨0⟩] ∧ g.nodeCount = 1 ∧ g.edgeCount = 0 := by
  have hreach := Reachable.foldl (.empty {}) [Mutation.createNode ["B", "A", "B"] [],
    .createNode ["A"] [("n", .text "x")], .createIndex "A" "n", .createEdge ⟨0⟩ ⟨1⟩ "R" [],
    .deleteNode ⟨1⟩]
  exact ⟨hreach, Reachable.consistent hreach, by decide +kernel, by decide +kernel,
    by decide +kernel⟩

end Graph

end Plexus
