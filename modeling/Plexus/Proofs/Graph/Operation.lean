import Plexus.Proofs.Graph.Step
import Plexus.Proofs.Outcome

/-!
# Operations keep a graph sound

Every public operation that succeeds on a sound graph leads to a sound graph.
-/

namespace Plexus.Graph

variable {g g' : Graph}

/-- Reading a node succeeds if it is there. -/
theorem node_eq_ok {id : NodeId} {n : Node} : g.node id = .ok n ↔ g.node? id = some n := by
  unfold node
  cases g.node? id <;> simp

/-- Reading an edge succeeds if it is there. -/
theorem edge_eq_ok {id : EdgeId} {e : Edge} : g.edge id = .ok e ↔ g.edge? id = some e := by
  unfold edge
  cases g.edge? id <;> simp

/-- Labels pass the check if every one of them is registered. -/
theorem checkLabels_eq_ok {labels : List LabelId} :
    g.checkLabels labels = .ok () ↔ ∀ l ∈ labels, (g.schema.labelName? l).isSome := by
  unfold checkLabels
  split
  · rename_i l hl
    have hnone := List.find?_some hl
    refine ⟨fun hh => (by cases hh), fun hall => ?_⟩
    have hsome := hall l (List.mem_of_find?_eq_some hl)
    simp_all
  · rename_i hnone
    refine ⟨fun _ l hl => ?_, fun _ => rfl⟩
    simpa [Option.isSome_iff_ne_none] using List.find?_eq_none.1 hnone l hl

/-- Properties pass the check if every key is registered. -/
theorem checkProperties_eq_ok {properties : PropertyMap} :
    g.checkProperties properties = .ok () ↔
      ∀ k ∈ properties, (g.schema.propertyName? k).isSome := by
  unfold checkProperties
  split
  · rename_i k hk
    have hnone := List.find?_some hk
    refine ⟨fun hh => (by cases hh), fun hall => ?_⟩
    have hsome := hall k (Std.ExtTreeMap.mem_keys.1 (List.mem_of_find?_eq_some hk))
    simp_all
  · rename_i hnone
    refine ⟨fun _ k hk => ?_, fun _ => rfl⟩
    simpa [Option.isSome_iff_ne_none] using
      List.find?_eq_none.1 hnone k (Std.ExtTreeMap.mem_keys.2 hk)

/-- Endpoints pass the check if both nodes are live. -/
theorem checkEndpoints_eq_ok {source target : NodeId} :
    g.checkEndpoints source target = .ok () ↔ g.hasNode source ∧ g.hasNode target := by
  unfold checkEndpoints
  cases g.hasNode source <;> cases g.hasNode target <;> simp

namespace Sound

/-- Creating a node by names keeps a graph sound. -/
theorem createNode (h : g.Sound) (labels : List String) (properties : List (String × Scalar)) :
    (g.createNode labels properties).1.Sound := by
  have hlabels := grows_internAll g.schema .label labels
  have hproperties := grows_internProperties (internAll g.schema .label labels).1 properties
  refine (h.grow (hlabels.trans hproperties)).addNode (fun l hl => ?_) (fun k hk => ?_)
  · exact hproperties.labelName? (resolve?_internAll g.schema .label labels l hl)
  · exact resolve?_internProperties _ properties k hk

/-- Creating a node by ids keeps a graph sound. -/
theorem createNodeById (h : g.Sound) {labels : List LabelId} {properties : PropertyMap}
    {result : Graph × NodeId} (hr : g.createNodeById labels properties = .ok result) :
    result.1.Sound := by
  obtain ⟨⟨⟩, hlabels, hr⟩ := bind_eq_ok.1 hr
  obtain ⟨⟨⟩, hproperties, hr⟩ := bind_eq_ok.1 hr
  cases hr
  exact h.addNode (checkLabels_eq_ok.1 hlabels) (checkProperties_eq_ok.1 hproperties)

/-- Setting a property of a node by its id keeps a graph sound. -/
theorem setNodePropertyById (h : g.Sound) {id : NodeId} {key : PropertyId} {value : Scalar}
    {result : Graph × Option Scalar} (hr : g.setNodePropertyById id key value = .ok result) :
    result.1.Sound := by
  unfold Graph.setNodePropertyById at hr
  obtain ⟨hkey, hr⟩ := guard_eq_ok.1 hr
  obtain ⟨n, hn, hr⟩ := bind_eq_ok.1 hr
  rw [node_eq_ok] at hn
  obtain ⟨nodes, hnodes, hr⟩ := bind_eq_ok.1 hr
  rw [Arena.modify_of_get? _ hn] at hnodes
  cases hnodes
  cases hr
  have hnew : (n.setProperty key value).property? key = some value := by
    simp [Node.setProperty, Node.property?]
  rw [← hnew]
  refine h.changeNode hn rfl rfl (fun k hk => ?_) (fun k hk => ?_)
  · have hk' : ¬key = k := fun e => hk e.symm
    simp [Node.setProperty, Node.property?, Std.ExtTreeMap.getElem?_insert, hk']
  · simp only [Node.setProperty, Std.ExtTreeMap.mem_insert, Std.LawfulEqCmp.compare_eq_iff_eq] at hk
    rcases hk with rfl | hk
    · simpa [Option.isSome_iff_ne_none] using hkey
    · exact (h.nodes_named n (h.node?_iff.1 hn).1).2 k hk

/-- Setting a property of a node by its name keeps a graph sound. -/
theorem setNodeProperty (h : g.Sound) {id : NodeId} {key : String} {value : Scalar}
    {result : Graph × Option Scalar} (hr : g.setNodeProperty id key value = .ok result) :
    result.1.Sound := by
  obtain ⟨⟨⟩, -, hr⟩ := bind_eq_ok.1 hr
  exact (h.grow (g.schema.grows_intern .property key)).setNodePropertyById hr

/-- Removing a property of a node keeps a graph sound. -/
theorem removeNodeProperty (h : g.Sound) {id : NodeId} {key : String}
    {result : Graph × Option Scalar} (hr : g.removeNodeProperty id key = .ok result) :
    result.1.Sound := by
  obtain ⟨n, hn, hr⟩ := bind_eq_ok.1 hr
  rw [node_eq_ok] at hn
  split at hr
  · cases hr
    exact h
  · rename_i k hk
    split at hr
    · cases hr
      exact h
    · rename_i old hold
      obtain ⟨nodes, hnodes, hr⟩ := bind_eq_ok.1 hr
      rw [Arena.modify_of_get? _ hn] at hnodes
      cases hnodes
      cases hr
      have hnew : (n.removeProperty k).property? k = none := by
        simp [Node.removeProperty, Node.property?]
      rw [← hold, ← hnew]
      refine h.changeNode hn rfl rfl (fun k' hk' => ?_) (fun k' hk' => ?_)
      · have hne : ¬k = k' := fun e => hk' e.symm
        simp [Node.removeProperty, Node.property?, Std.ExtTreeMap.getElem?_erase, hne]
      · exact (h.nodes_named n (h.node?_iff.1 hn).1).2 k' (Std.ExtTreeMap.mem_of_mem_erase hk')

/-- Creating an edge by the name of its type keeps a graph sound. -/
theorem createEdge (h : g.Sound) {source target : NodeId} {type : String}
    {properties : List (String × Scalar)} {result : Graph × EdgeId}
    (hr : g.createEdge source target type properties = .ok result) : result.1.Sound := by
  obtain ⟨⟨⟩, hends, hr⟩ := bind_eq_ok.1 hr
  cases hr
  rw [checkEndpoints_eq_ok] at hends
  have htype := g.schema.grows_intern .relationType type
  have hproperties := grows_internProperties (g.schema.intern .relationType type).1 properties
  refine (h.grow (htype.trans hproperties)).addEdge (h.hasNode_iff.1 hends.1)
    (h.hasNode_iff.1 hends.2) ?_ (resolve?_internProperties _ properties)
  exact hproperties.typeName?
    (Option.isSome_of_eq_some (g.schema.resolve?_intern .relationType type))

/-- Creating an edge by the id of its type keeps a graph sound. -/
theorem createEdgeById (h : g.Sound) {source target : NodeId} {type : TypeId}
    {properties : PropertyMap} {result : Graph × EdgeId}
    (hr : g.createEdgeById source target type properties = .ok result) : result.1.Sound := by
  obtain ⟨⟨⟩, hends, hr⟩ := bind_eq_ok.1 hr
  rw [checkEndpoints_eq_ok] at hends
  obtain ⟨htype, hr⟩ := guard_eq_ok.1 hr
  obtain ⟨⟨⟩, hproperties, hr⟩ := bind_eq_ok.1 hr
  cases hr
  exact h.addEdge (h.hasNode_iff.1 hends.1) (h.hasNode_iff.1 hends.2)
    (by simpa [Option.isSome_iff_ne_none] using htype) (checkProperties_eq_ok.1 hproperties)

/-- Setting a property of an edge keeps a graph sound. -/
theorem setEdgeProperty (h : g.Sound) {id : EdgeId} {key : String} {value : Scalar}
    {result : Graph × Option Scalar} (hr : g.setEdgeProperty id key value = .ok result) :
    result.1.Sound := by
  obtain ⟨e, he, hr⟩ := bind_eq_ok.1 hr
  rw [edge_eq_ok] at he
  obtain ⟨edges, hedges, hr⟩ := bind_eq_ok.1 hr
  rw [Arena.modify_of_get? _ he] at hedges
  cases hedges
  cases hr
  have hgrow := h.grow (g.schema.grows_intern .property key)
  apply hgrow.changeEdge he
  intro k hk
  simp only [Std.ExtTreeMap.mem_insert, Std.LawfulEqCmp.compare_eq_iff_eq] at hk
  rcases hk with rfl | hk
  · exact Option.isSome_of_eq_some (g.schema.resolve?_intern .property key)
  · exact (hgrow.edges_named e (h.edge?_iff.1 he).1).2 k hk

/-- Deleting an edge keeps a graph sound. -/
theorem deleteEdge (h : g.Sound) {id : EdgeId} {result : Graph × Edge}
    (hr : g.deleteEdge id = .ok result) : result.1.Sound := by
  unfold Graph.deleteEdge at hr
  split at hr
  · rename_i found hu
    cases hr
    exact h.unlink hu
  · cases hr

/-- Deleting a node with its edges keeps a graph sound. -/
theorem deleteNode (h : g.Sound) {id : NodeId} {result : Graph × Node}
    (hr : g.deleteNode id = .ok result) : result.1.Sound := by
  obtain ⟨n, hn, hr⟩ := bind_eq_ok.1 hr
  rw [node_eq_ok] at hn
  obtain ⟨⟨nodes, old⟩, hnodes, hr⟩ := bind_eq_ok.1 hr
  obtain ⟨hsound, hrecords, edges, matrices, hrest⟩ := h.isolate id
  have hn' : (g.isolate id).node? id = some n := by
    rw [hrest]
    exact hn
  rw [Arena.free_of_get? hn'] at hnodes
  cases hnodes
  cases hr
  apply hsound.removeNode hn'
  intro e he
  rw [hrecords] at he
  simpa using (List.mem_filter.1 he).2

/-- Creating an index by names keeps a graph sound. -/
theorem createIndex (h : g.Sound) (label property : String) :
    (g.createIndex label property).1.Sound := by
  have hlabel := g.schema.grows_intern .label label
  have hproperty := (g.schema.intern .label label).1.grows_intern .property property
  refine (h.grow (hlabel.trans hproperty)).buildIndex ?_ ?_
  · exact hproperty.labelName?
      (Option.isSome_of_eq_some (g.schema.resolve?_intern .label label))
  · exact Option.isSome_of_eq_some (Schema.resolve?_intern _ .property property)

/-- Creating an index by ids keeps a graph sound. -/
theorem createIndexById (h : g.Sound) {label : LabelId} {property : PropertyId}
    {result : Graph × Bool} (hr : g.createIndexById label property = .ok result) :
    result.1.Sound := by
  obtain ⟨⟨⟩, hlabel, hr⟩ := bind_eq_ok.1 hr
  obtain ⟨hproperty, hr⟩ := guard_eq_ok.1 hr
  cases hr
  exact h.buildIndex (checkLabels_eq_ok.1 hlabel label List.mem_cons_self)
    (by simpa [Option.isSome_iff_ne_none] using hproperty)

/-- Dropping an index keeps a graph sound. -/
theorem dropIndex (h : g.Sound) (label property : String) :
    (g.dropIndex label property).1.Sound := by
  unfold Graph.dropIndex
  split
  · exact h.dropCatalog _
  · exact h

end Sound

/-- Creating an index by ids registers no name. -/
theorem schema_createIndexById {label : LabelId} {property : PropertyId} {result : Graph × Bool}
    (hr : g.createIndexById label property = .ok result) : result.1.schema = g.schema := by
  obtain ⟨⟨⟩, -, hr⟩ := bind_eq_ok.1 hr
  obtain ⟨-, hr⟩ := guard_eq_ok.1 hr
  cases hr
  rfl

end Plexus.Graph
