import Plexus.Proofs.Graph.Restore

/-!
# Filling the slots of a graph

Building a body puts one entry after the other into the next slot, and then defines the indices.
Every check on the way was made when the body was validated, so that nothing is refused.
-/

namespace Plexus

/-- What the node slot with a number is filled with. -/
def NodeEntry.slot (i : Nat) : NodeEntry → Slot Node
  | .tombstone => .tombstone
  | .live labels properties =>
    .live (Node.ofLabels ⟨i⟩ (labels.map fun l => ⟨l.toNat⟩) (Body.propertyMap properties))

/-- What the edge slot with a number is filled with. -/
def EdgeEntry.slot (i : Nat) : EdgeEntry → Slot Edge
  | .tombstone => .tombstone
  | .live source target relationType properties =>
    .live ⟨⟨i⟩, ⟨source.toNat⟩, ⟨target.toNat⟩, ⟨relationType.toNat⟩, Body.propertyMap properties⟩

/-- The index that a definition is of. -/
def IndexEntry.name (entry : IndexEntry) : IndexName :=
  ⟨⟨entry.label.toNat⟩, ⟨entry.property.toNat⟩⟩

/-- How far a graph has been filled: its names and settings, the slots so far, and the indices so
far. -/
structure Graph.Filled (g : Graph) (schema : Schema) (settings : TraversalSettings)
    (nodes : List (Slot Node)) (edges : List (Slot Edge)) (names : List IndexName) : Prop where
  schema : g.schema = schema
  settings : g.settings = settings
  nodes : g.nodes.slots.toList = nodes
  edges : g.edges.slots.toList = edges
  names : g.catalog.names = names

namespace Body

variable {b : Body} {g : Graph} {schema : Schema} {settings : TraversalSettings}
variable {nodes : List (Slot Node)} {edges : List (Slot Edge)} {names : List IndexName}

/-- A graph that has a schema alone is filled with nothing. -/
theorem filled_ofSchema (schema : Schema) (settings : TraversalSettings) :
    (Graph.ofSchema schema settings).Filled schema settings [] [] [] :=
  ⟨rfl, rfl, rfl, rfl, rfl⟩

/-- An entry fills the next node slot. -/
theorem filled_restoreNode (h : g.Filled schema settings nodes edges names) (entry : NodeEntry) :
    (restoreNode g entry).Filled schema settings (nodes ++ [entry.slot nodes.length]) edges
      names := by
  have hnext : g.nodes.capacity = nodes.length := by
    rw [← h.nodes, Arena.capacity, Array.length_toList]
  cases entry with
  | tombstone =>
    refine ⟨h.schema, h.settings, ?_, h.edges, h.names⟩
    rw [restoreNode, Arena.pushTombstone, Array.toList_push, h.nodes, NodeEntry.slot]
  | live labels properties =>
    refine ⟨h.schema, h.settings, ?_, h.edges, (Catalog.names_apply _ _).trans h.names⟩
    rw [NodeEntry.slot, ← hnext, ← h.nodes]
    exact Array.toList_push

/-- The entries fill the node slots one after the other. -/
theorem filled_restoreNodes (h : g.Filled schema settings nodes edges names)
    (entries : List NodeEntry) :
    (entries.foldl restoreNode g).Filled schema settings
      (nodes ++ entries.mapIdx fun i entry => entry.slot (i + nodes.length)) edges names := by
  induction entries generalizing g nodes with
  | nil => simpa using h
  | cons entry rest ih =>
    have hrest := ih (filled_restoreNode h entry)
    simpa [List.mapIdx_cons, Nat.add_assoc, Nat.add_comm] using hrest

/-- An entry whose ends are live fills the next edge slot. -/
theorem filled_restoreEdge (h : g.Filled schema settings nodes edges names) {entry : EdgeEntry}
    (hends : ∀ source target relationType properties,
      entry = .live source target relationType properties →
        g.hasNode ⟨source.toNat⟩ = true ∧ g.hasNode ⟨target.toNat⟩ = true) :
    ∃ g', restoreEdge g entry = .ok g' ∧ g'.nodes = g.nodes ∧
      g'.Filled schema settings nodes (edges ++ [entry.slot edges.length]) names := by
  have hnext : g.edges.capacity = edges.length := by
    rw [← h.edges, Arena.capacity, Array.length_toList]
  cases entry with
  | tombstone =>
    refine ⟨_, rfl, rfl, h.schema, h.settings, h.nodes, ?_, h.names⟩
    rw [Arena.pushTombstone, Array.toList_push, h.edges, EdgeEntry.slot]
  | live source target relationType properties =>
    have hcheck : g.checkEndpoints ⟨source.toNat⟩ ⟨target.toNat⟩ = .ok () :=
      Graph.checkEndpoints_eq_ok.2 (hends _ _ _ _ rfl)
    refine ⟨_, bind_eq_ok.2 ⟨(), hcheck, rfl⟩, rfl, h.schema, h.settings, h.nodes, ?_, h.names⟩
    rw [EdgeEntry.slot, ← hnext, ← h.edges]
    exact Array.toList_push

/-- Entries whose ends are live fill the edge slots one after the other. -/
theorem filled_restoreEdges (h : g.Filled schema settings nodes edges names)
    {entries : List EdgeEntry}
    (hends : ∀ source target relationType properties,
      .live source target relationType properties ∈ entries →
        g.hasNode ⟨source.toNat⟩ = true ∧ g.hasNode ⟨target.toNat⟩ = true) :
    ∃ g', entries.foldlM restoreEdge g = .ok g' ∧ g'.Filled schema settings nodes
      (edges ++ entries.mapIdx fun i entry => entry.slot (i + edges.length)) names := by
  induction entries generalizing g edges with
  | nil => exact ⟨g, rfl, by simpa using h⟩
  | cons entry rest ih =>
    obtain ⟨g₁, hfirst, hnodes, h₁⟩ := filled_restoreEdge h fun s t r ps hentry =>
      hends s t r ps (hentry ▸ List.mem_cons_self)
    have hends₁ (s t r ps) (hmem : EdgeEntry.live s t r ps ∈ rest) :
        g₁.hasNode ⟨s.toNat⟩ = true ∧ g₁.hasNode ⟨t.toNat⟩ = true := by
      rw [Graph.hasNode, Graph.hasNode, hnodes]
      exact hends s t r ps (List.mem_cons_of_mem _ hmem)
    obtain ⟨g₂, hothers, h₂⟩ := ih h₁ hends₁
    refine ⟨g₂, bind_eq_ok.2 ⟨g₁, hfirst, hothers⟩, ?_⟩
    simpa [List.mapIdx_cons, Nat.add_assoc, Nat.add_comm] using h₂

/-- A definition with names adds its index at the end, unless it is there. -/
theorem filled_restoreIndex (h : g.Filled schema settings nodes edges names) {entry : IndexEntry}
    (hnamed : entry.name.Named schema) :
    ∃ g', restoreIndex g entry = .ok g' ∧ g'.Filled schema settings nodes edges
      (if entry.name ∈ names then names else names ++ [entry.name]) := by
  have hlabel : g.checkLabels [entry.name.label] = .ok () := by
    apply Graph.checkLabels_eq_ok.2
    rw [List.forall_mem_singleton, h.schema]
    exact hnamed.1
  have hproperty : ¬(g.schema.propertyName? entry.name.property).isNone := by
    rw [h.schema, Option.isNone_iff_eq_none, ← ne_eq, Option.ne_none_iff_isSome]
    exact hnamed.2
  have hcreate : g.createIndexById entry.name.label entry.name.property =
      .ok (g.buildIndex entry.name.label entry.name.property) :=
    bind_eq_ok.2 ⟨(), hlabel, guard_eq_ok.2 ⟨hproperty, rfl⟩⟩
  refine ⟨_, bind_eq_ok.2 ⟨_, hcreate, rfl⟩, h.schema, h.settings, h.nodes, h.edges, ?_⟩
  rw [Graph.buildIndex, Catalog.names_create, h.names]

/-- Definitions with names define every index once, in the order in which they are first listed. -/
theorem filled_restoreIndices (listed : List IndexName)
    (h : g.Filled schema settings nodes edges listed.eraseDups) {entries : List IndexEntry}
    (hnamed : ∀ entry ∈ entries, entry.name.Named schema) :
    ∃ g', entries.foldlM restoreIndex g = .ok g' ∧ g'.Filled schema settings nodes edges
      (listed ++ entries.map IndexEntry.name).eraseDups := by
  induction entries generalizing g listed with
  | nil => exact ⟨g, rfl, by simpa using h⟩
  | cons entry rest ih =>
    rw [List.forall_mem_cons] at hnamed
    obtain ⟨g₁, hfirst, h₁⟩ := filled_restoreIndex h hnamed.1
    rw [← eraseDups_snoc] at h₁
    obtain ⟨g₂, hothers, h₂⟩ := ih _ h₁ hnamed.2
    refine ⟨g₂, bind_eq_ok.2 ⟨g₁, hfirst, hothers⟩, ?_⟩
    simpa [List.append_assoc] using h₂

/-- The nodes that are live in a filled graph are those that are live in the body. -/
theorem hasNode_filled
    (h : g.Filled schema settings (b.nodes.mapIdx NodeEntry.slot) edges names)
    (id : UInt64) : g.hasNode ⟨id.toNat⟩ = b.isLiveNode id := by
  have hslot : g.nodes.slots[id.toNat]? = b.nodes[id.toNat]?.map (NodeEntry.slot id.toNat) := by
    rw [← Array.getElem?_toList, h.nodes, List.getElem?_mapIdx]
  rw [Graph.hasNode, Arena.isLive, Arena.get?, hslot, isLiveNode]
  rcases b.nodes[id.toNat]? with - | (- | ⟨labels, properties⟩) <;> rfl

/-- The ends of an edge that passed its check are live. -/
theorem live_of_checkEdge {i : Nat} {source target : UInt64} {relationType : UInt32}
    {properties : PropertyList}
    (h : b.checkEdge i (.live source target relationType properties) = .ok ()) :
    b.isLiveNode source = true ∧ b.isLiveNode target = true := by
  simp only [checkEdge] at h
  split at h
  · cases h
  · rename_i hends
    simpa using hends

/-- An index that passed its check is on a label and a property with names. -/
theorem named_of_checkIndex (hs : b.Names schema) {entry : IndexEntry}
    (h : b.checkIndex entry = .ok ()) : entry.name.Named schema := by
  unfold checkIndex at h
  split at h
  · cases h
  · rename_i hends
    rw [IndexName.Named, Schema.labelName?, Schema.propertyName?, Schema.isSome_resolve?_iff,
      Schema.isSome_resolve?_iff]
    simpa [Schema.table, hs.labels, hs.properties, IndexEntry.name] using hends

/-- Building a valid body whose tables make a schema succeeds, and fills the graph with its
entries. -/
theorem filled_build (hv : b.validate = .ok ()) (hs : b.Names schema)
    (settings : TraversalSettings) :
    ∃ g, b.build settings = .ok g ∧ g.Filled schema settings
      (b.nodes.mapIdx NodeEntry.slot) (b.edges.mapIdx EdgeEntry.slot)
      (b.indices.map IndexEntry.name).eraseDups := by
  obtain ⟨-, hedges, hindices⟩ := validate_eq_ok.1 hv
  have htables := Schema.ofTables?_eq_some.2 ⟨hs.labels, hs.relationTypes, hs.properties⟩
  have hnodes := filled_restoreNodes (filled_ofSchema schema settings) b.nodes
  have hends (s t r ps) (hmem : EdgeEntry.live s t r ps ∈ b.edges) :
      (b.nodes.foldl restoreNode (.ofSchema schema settings)).hasNode ⟨s.toNat⟩ = true ∧
        (b.nodes.foldl restoreNode (.ofSchema schema settings)).hasNode ⟨t.toNat⟩ = true := by
    obtain ⟨i, hi⟩ := List.mem_iff_getElem?.1 hmem
    have hlive := live_of_checkEdge (hedges _ (List.mk_mem_zipIdx_iff_getElem?.2 hi))
    rw [hasNode_filled hnodes, hasNode_filled hnodes]
    exact hlive
  obtain ⟨g₁, hrestored, h₁⟩ := filled_restoreEdges hnodes hends
  obtain ⟨g₂, hdefined, h₂⟩ := filled_restoreIndices [] h₁ fun entry hentry =>
    named_of_checkIndex hs (hindices entry hentry)
  have honto : b.restoreOnto (b.nodes.foldl restoreNode (.ofSchema schema settings)) = .ok g₂ :=
    bind_eq_ok.2 ⟨g₁, hrestored, hdefined⟩
  refine ⟨g₂, ?_, h₂⟩
  simp only [build, htables, honto]

end Body

end Plexus
