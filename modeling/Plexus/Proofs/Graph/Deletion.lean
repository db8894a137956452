import Plexus.Proofs.Graph.Reachable

/-!
# What the deletion of a node takes away

With a node go the edges that start or end there, and all that labels, indices and matrices kept of
the node and of these edges. Nothing else changes, and nothing of them is left behind. A sound graph
is determined by its records, so it is enough to follow the records, and the number of slots.
-/

namespace Plexus

/-- An edge starts or ends at a node. -/
def Edge.Touches (e : Edge) (id : NodeId) : Prop := e.source = id ∨ e.target = id

instance (e : Edge) (id : NodeId) : Decidable (e.Touches id) := inferInstanceAs (Decidable (_ ∨ _))

/-- Erasing an id from a set takes it off the list of its members. -/
theorem Id.toList_erase {kind : Kind} (s : Std.ExtTreeSet (Id kind)) (id : Id kind) :
    (s.erase id).toList = s.toList.erase id := by
  have hnodup : s.toList.Nodup := (ascending_toList s).imp ne_of_lt
  refine eq_of_ascending (ascending_toList _) ((ascending_toList s).sublist List.erase_sublist) ?_
  intro x
  rw [hnodup.mem_erase_iff, Std.ExtTreeSet.mem_toList, Std.ExtTreeSet.mem_toList,
    Std.ExtTreeSet.mem_erase, ne_eq, Std.LawfulEqCmp.compare_eq_iff_eq, eq_comm]

/-- A table loses the row and the column of a node, and every row that was in that column only. -/
structure Cells.Loses (t u : Cells) (id : NodeId) : Prop where
  row (r : NodeId) : u.getD r ∅ = if r = id then ∅ else (t.getD r ∅).erase id
  row_ne (r : NodeId) : u[r]? ≠ some ∅

/-- A matrix loses the edges at a node, of which it had so many. -/
structure Matrix.Loses (m m' : Matrix) (id : NodeId) (count : Nat) : Prop where
  outgoing : m.outgoing.Loses m'.outgoing id
  incoming : m.incoming.Loses m'.incoming id
  edgeCount_add : m'.edgeCount + count = m.edgeCount

/-- An index loses the entry of a node, if there is one. It stood under the node's key. -/
structure Postings.Loses (p p' : Postings) (id : NodeId) (key? : Option IndexKey) : Prop where
  mem_iff (key : IndexKey) : id ∈ p.withKey key ↔ key? = some key
  withKey (key : IndexKey) : p'.withKey key = (p.withKey key).erase id
  row_ne (key : IndexKey) : p'.nodes[key]? ≠ some ∅
  size_add : p'.size + key?.toList.length = p.size

/-- A graph loses a node with a record, and with it the edges at the node. -/
structure Graph.Loses (g g' : Graph) (id : NodeId) (n : Node) : Prop where
  dead : g'.hasNode id = false
  node?_of_ne (other : NodeId) : other ≠ id → g'.node? other = g.node? other
  nodeCount_add : g'.nodeCount + 1 = g.nodeCount
  node_capacity : g'.nodes.capacity = g.nodes.capacity
  edge?_eq (eid : EdgeId) : g'.edge? eid = (g.edge? eid).filter fun e => ¬e.Touches id
  /-- The edges at the node are collected once each, before they are removed one by one. -/
  incident_eq : g.incident id = (g.edges.records.filter (·.Touches id)).map (·.id)
  edgeCount_add : g'.edgeCount + (g.incident id).length = g.edgeCount
  edge_capacity : g'.edges.capacity = g.edges.capacity
  labelled_eq (label : LabelId) : g'.labelled label = (g.labelled label).erase id
  labelCount_add (label : LabelId) :
    g'.labelCount label + (n.hasLabel label).toNat = g.labelCount label
  names_eq : g'.catalog.names = g.catalog.names
  index (name : IndexName) (p : Postings) : g.catalog.find? name = some p →
    ∃ p', g'.catalog.find? name = some p' ∧ p.Loses p' id (n.key? name)
  matrices_size : g'.matrices.size = g.matrices.size
  matrix (type : TypeId) (m : Matrix) : g.matrix? type = some m →
    ∃ m', g'.matrix? type = some m' ∧
      m.Loses m' id ((g.edgesOfType type.index).countP (·.Touches id))
  schema_eq : g'.schema = g.schema
  settings_eq : g'.settings = g.settings

/-! ## Matrices -/

/-- Leaving out the edges at a node empties its row and its column. -/
theorem Edge.between_filter_touches (es : List Edge) (id s t : NodeId) :
    between (es.filter fun e => ¬e.Touches id) s t =
      if s = id ∨ t = id then [] else between es s t := by
  simp only [between, List.filter_filter]
  split
  · rename_i hst
    rw [List.map_eq_nil_iff, List.filter_eq_nil_iff]
    rintro e - he
    rw [Bool.and_eq_true, decide_eq_true_eq, decide_eq_true_eq] at he
    obtain ⟨⟨rfl, rfl⟩, hnot⟩ := he
    exact hnot hst
  · rename_i hst
    congr 1
    apply List.filter_congr
    intro e _
    by_cases he : e.source = s ∧ e.target = t
    · obtain ⟨rfl, rfl⟩ := he
      simpa [Touches] using hst
    · simp [he]

/-- A tight table that has no edge in the row and the column of a node, and is like another one
elsewhere, has lost them. -/
theorem Cells.Tight.loses {t u : Cells} (ht : t.Tight) (hu : u.Tight) {id : NodeId}
    (hlist : ∀ r k, u.list r k = if r = id ∨ k = id then [] else t.list r k) : t.Loses u id where
  row_ne := hu.row_ne
  row r := by
    apply Std.ExtTreeMap.ext_getElem?
    intro k
    apply Option.ext
    intro es
    rw [hu.getElem?_eq_some_iff, hlist]
    by_cases hr : r = id
    · simp [hr]
    · rw [if_neg hr, Std.ExtTreeMap.getElem?_erase]
      by_cases hk : k = id
      · simp [hk]
      · have hk' : ¬id = k := fun e => hk e.symm
        simp [hr, hk, hk', ht.getElem?_eq_some_iff]

/-- A matrix of the edges that do not touch a node has lost exactly those that do. -/
theorem Matrix.Records.loses {m m' : Matrix} {es : List Edge} {id : NodeId} (h : m.Records es)
    (h' : m'.Records (es.filter fun e => ¬e.Touches id)) :
    m.Loses m' id (es.countP (·.Touches id)) where
  outgoing := h.outgoing_tight.loses h'.outgoing_tight fun s t => by
    rw [h'.outgoing_list, Edge.between_filter_touches, h.outgoing_list]
  incoming := h.incoming_tight.loses h'.incoming_tight fun t s => by
    rw [h'.incoming_list, Edge.between_filter_touches, h.incoming_list]
    simp only [or_comm]
  edgeCount_add := by
    rw [h.edgeCount_eq, h'.edgeCount_eq, ← List.countP_eq_length_filter, Nat.add_comm,
      List.length_eq_countP_add_countP fun e : Edge => decide (e.Touches id)]
    simp

/-! ## Indices -/

/-- Postings that hold all pairs of others but those of one node have lost its entry. -/
theorem Postings.Holds.loses {p p' : Postings} {P : IndexKey → NodeId → Prop} {id : NodeId}
    {key? : Option IndexKey} (h : p.Holds P) (h' : p'.Holds fun k n => P k n ∧ n ≠ id)
    (hkey : ∀ k, P k id ↔ key? = some k) : p.Loses p' id key? where
  mem_iff k := (h.mem_iff k id).trans (hkey k)
  withKey k := by
    apply Std.ExtTreeSet.ext_mem
    intro n
    rw [h'.mem_iff, Std.ExtTreeSet.mem_erase, h.mem_iff, ne_eq, ne_eq,
      Std.LawfulEqCmp.compare_eq_iff_eq, eq_comm (a := id), and_comm]
  row_ne := Rows.row_ne h'
  size_add := by
    cases key? with
    | none =>
      have hsame : p'.Holds P := h'.congr fun k n => by
        refine ⟨And.left, fun hP => ⟨hP, ?_⟩⟩
        rintro rfl
        cases (hkey k).1 hP
      rw [hsame.unique h]
      rfl
    | some key =>
      have hP : P key id := (hkey key).2 rfl
      have herased := Rows.erase h hP
      have hpairs (k : IndexKey) (n : NodeId) : P k n ∧ ¬(k = key ∧ n = id) ↔ P k n ∧ n ≠ id := by
        refine and_congr_right fun hkn => not_congr ⟨And.right, ?_⟩
        rintro rfl
        exact ⟨(Option.some.inj ((hkey k).1 hkn)).symm, rfl⟩
      have hsize := (Rows.unique h' (herased.congr hpairs)).2
      have hpos : p.size ≠ 0 := fun hzero => (Rows.size_eq_zero_iff h).1 hzero key id hP
      simp only [Option.toList_some, List.length_singleton]
      omega

/-- A node stands under its key only. -/
theorem IndexName.holds_self {name : IndexName} {nodes : List Node} {n : Node} {key : IndexKey}
    (hnodes : (nodes.map (·.id)).Nodup) (hn : n ∈ nodes) :
    name.Holds nodes key n.id ↔ n.key? name = some key := by
  constructor
  · rintro ⟨x, hx, hid, hkey⟩
    exact List.inj_on_of_nodup_map hnodes hx hn hid ▸ hkey
  · intro hkey
    exact ⟨n, hn, rfl, hkey⟩

namespace Graph

variable {g g' : Graph} {id : NodeId} {n : Node}

/-! ## Edges -/

/-- Unlinking an edge keeps the number of slots and of matrices. -/
theorem sizes_unlink {eid : EdgeId} {e : Edge} (hu : g.unlink eid = some (g', e)) :
    g'.edges.capacity = g.edges.capacity ∧ g'.matrices.size = g.matrices.size := by
  simp only [unlink, bind, pure, Option.bind_eq_some_iff, Option.some.injEq, Prod.mk.injEq] at hu
  obtain ⟨edge, hedge, ⟨edges, old⟩, hfree, rfl, -⟩ := hu
  rw [Arena.free_of_get? hedge] at hfree
  cases hfree
  exact ⟨Array.size_setIfInBounds, Array.size_modify⟩

private theorem sizes_isolate (g : Graph) (id : NodeId) :
    (g.isolate id).edges.capacity = g.edges.capacity ∧
      (g.isolate id).matrices.size = g.matrices.size := by
  unfold isolate
  generalize g.incident id = ids
  induction ids generalizing g with
  | nil => exact ⟨rfl, rfl⟩
  | cons eid rest ih =>
    rw [List.foldl_cons]
    cases hu : g.unlink eid with
    | none => exact ih g
    | some result =>
      obtain ⟨hcapacity, hsize⟩ := sizes_unlink hu
      exact ⟨(ih result.1).1.trans hcapacity, (ih result.1).2.trans hsize⟩

namespace Sound

/-- The edges at a node are collected in ascending order, each once. -/
theorem incident_eq (h : g.Sound) (id : NodeId) :
    g.incident id = (g.edges.records.filter (·.Touches id)).map (·.id) := by
  have hsorted : ((g.edgesOf id .any .both).map Prod.fst).Pairwise fun a b : EdgeId =>
      a.index ≤ b.index := by
    rw [List.pairwise_map]
    exact g.edgesOf_ascending id .any .both
  have hindex (a b : EdgeId) : (a == b) = true ↔ a.index = b.index := by
    rw [beq_iff_eq]
    exact ⟨congrArg Id.index, Id.ext_index⟩
  refine Id.eq_of_ascending (pairwise_eraseRepsBy hindex hsorted) ?_ fun eid => ?_
  · rw [List.pairwise_map]
    exact h.edges.ascending.sublist List.filter_sublist
  · rw [h.mem_incident, List.mem_map]
    refine exists_congr fun e => ?_
    rw [List.mem_filter, decide_eq_true_eq, and_assoc, and_comm (a := e.id = eid)]
    rfl

/-- What a sound graph answers for an edge, once the edges at a node are gone from its records. -/
theorem edge?_filter (h : g.Sound) (h' : g'.Sound)
    (hrecords : g'.edges.records = g.edges.records.filter fun e => ¬e.Touches id) (eid : EdgeId) :
    g'.edge? eid = (g.edge? eid).filter fun e => ¬e.Touches id := by
  apply Option.ext
  intro e
  rw [h'.edge?_iff, hrecords, List.mem_filter, Option.filter_eq_some_iff, h.edge?_iff]
  tauto

/-- If a node's incident edges are deleted, the count of edges goes down by their number. -/
theorem edgeCount_filter (h : g.Sound) (h' : g'.Sound)
    (hrecords : g'.edges.records = g.edges.records.filter fun e => ¬e.Touches id) :
    g'.edgeCount + (g.incident id).length = g.edgeCount := by
  rw [edgeCount, edgeCount, h.edges.live_eq, h'.edges.live_eq, hrecords, h.incident_eq,
    List.length_map, ← List.countP_eq_length_filter, ← List.countP_eq_length_filter, Nat.add_comm,
    List.length_eq_countP_add_countP fun e : Edge => decide (e.Touches id)]
  simp

/-- If one node is deleted, the count of nodes goes down by one. -/
theorem nodeCount_filter (h : g.Sound) (h' : g'.Sound) (hn : n ∈ g.nodes.records)
    (hrecords : g'.nodes.records = g.nodes.records.filter fun x => x.id ≠ n.id) :
    g'.nodeCount + 1 = g.nodeCount := by
  have hids : g'.nodeIds = g.nodeIds.erase n.id := by
    rw [nodeIds, hrecords, nodeIds, h.nodeIds_nodup.erase_eq_filter, List.filter_map]
    congr 1
    exact List.filter_congr fun x _ => by simp [bne, beq_eq_decide, decide_not]
  have hmem : n.id ∈ g.nodeIds := List.mem_map_of_mem hn
  have hpos : 0 < g.nodeIds.length := List.length_pos_of_mem hmem
  have hlength := congrArg List.length hids
  rw [List.length_erase_of_mem hmem] at hlength
  rw [nodeCount, nodeCount, h.nodes.live_eq, h'.nodes.live_eq]
  simp only [nodeIds, List.length_map] at hlength hpos
  omega

/-- The members of every label are as before, but for the node. -/
theorem members_filter (h : g.Sound) (h' : g'.Sound)
    (hrecords : g'.nodes.records = g.nodes.records.filter fun x => x.id ≠ id) (label : LabelId) :
    g'.members.getD label ∅ = (g.members.getD label ∅).erase id := by
  apply Std.ExtTreeSet.ext_mem
  intro m
  rw [h'.members, hrecords, Std.ExtTreeSet.mem_erase, h.members, ne_eq,
    Std.LawfulEqCmp.compare_eq_iff_eq]
  simp only [List.mem_filter, decide_eq_true_eq]
  constructor
  · rintro ⟨x, ⟨hx, hne⟩, rfl, hl⟩
    exact ⟨fun heq => hne heq.symm, x, hx, rfl, hl⟩
  · rintro ⟨hne, x, hx, rfl, hl⟩
    exact ⟨x, ⟨hx, fun heq => hne heq.symm⟩, rfl, hl⟩

/-- A sound graph that keeps all records of another one but a node's and its edges', and all slots,
schema, settings and definitions of indices, has lost the node. -/
theorem loses (h : g.Sound) (h' : g'.Sound) (hn : g.node? id = some n)
    (hnodes : g'.nodes.records = g.nodes.records.filter fun x => x.id ≠ id)
    (hedges : g'.edges.records = g.edges.records.filter fun e => ¬e.Touches id)
    (hnodeSlots : g'.nodes.capacity = g.nodes.capacity)
    (hedgeSlots : g'.edges.capacity = g.edges.capacity)
    (hnames : g'.catalog.names = g.catalog.names) (hsize : g'.matrices.size = g.matrices.size)
    (hschema : g'.schema = g.schema) (hsettings : g'.settings = g.settings) :
    g.Loses g' id n := by
  obtain ⟨hmem, rfl⟩ := h.node?_iff.1 hn
  constructor
  case dead =>
    rw [← Bool.not_eq_true, h'.hasNode_iff, nodeIds, hnodes, List.mem_map]
    rintro ⟨x, hx, hid⟩
    simp [hid] at hx
  case node?_of_ne =>
    intro other hother
    apply Option.ext
    intro x
    rw [h'.node?_iff, hnodes, List.mem_filter, h.node?_iff, decide_eq_true_eq]
    constructor
    · rintro ⟨⟨hx, -⟩, hid⟩
      exact ⟨hx, hid⟩
    · rintro ⟨hx, rfl⟩
      exact ⟨⟨hx, hother⟩, rfl⟩
  case nodeCount_add => exact h.nodeCount_filter h' hmem hnodes
  case node_capacity => exact hnodeSlots
  case edge?_eq => exact h.edge?_filter h' hedges
  case incident_eq => exact h.incident_eq n.id
  case edgeCount_add => exact h.edgeCount_filter h' hedges
  case edge_capacity => exact hedgeSlots
  case labelled_eq =>
    intro label
    rw [labelled, h.members_filter h' hnodes, Id.toList_erase]
    rfl
  case labelCount_add =>
    intro label
    have hiff : n.id ∈ g.members.getD label ∅ ↔ n.hasLabel label = true := by
      rw [h.members]
      constructor
      · rintro ⟨x, hx, hid, hl⟩
        exact h.node_ext hx hmem hid ▸ hl
      · intro hl
        exact ⟨n, hmem, rfl, hl⟩
    rw [labelCount, labelCount, h.members_filter h' hnodes, Std.ExtTreeSet.size_erase]
    split
    · rename_i hin
      have hpos : (g.members.getD label ∅).size ≠ 0 := fun hzero => by
        rw [Std.ExtTreeSet.eq_empty_iff_size_eq_zero.2 hzero] at hin
        exact Std.ExtTreeSet.not_mem_empty hin
      rw [hiff.1 hin, Bool.toNat_true]
      omega
    · rename_i hout
      rw [Bool.eq_false_iff.2 fun hl => hout (hiff.2 hl)]
      rfl
  case names_eq => exact hnames
  case index =>
    intro name p hp
    obtain ⟨p', hp'⟩ := Catalog.mem_names.1 (hnames ▸ Catalog.mem_names.2 ⟨p, hp⟩)
    have hself (k : IndexKey) : name.Holds g.nodes.records k n.id ↔ n.key? name = some k :=
      IndexName.holds_self h.nodeIds_nodup hmem
    refine ⟨p', hp', (h.catalog.holds name p hp).loses
      ((h'.catalog.holds name p' hp').congr fun k m => ?_) hself⟩
    rw [hnodes, IndexName.holds_filter h.nodeIds_nodup hmem]
    refine and_congr_right fun hheld => not_congr ⟨And.left, ?_⟩
    rintro rfl
    exact ⟨rfl, (hself k).1 hheld⟩
  case matrices_size => exact hsize
  case matrix =>
    intro type m hm
    obtain ⟨m', hm'⟩ : ∃ m', g'.matrices[type.index]? = some m' := by
      obtain ⟨hlt, -⟩ := Array.getElem?_eq_some_iff.1 hm
      exact ⟨_, Array.getElem?_eq_getElem (hsize ▸ hlt)⟩
    have htype : g'.edgesOfType type.index =
        (g.edgesOfType type.index).filter fun e => ¬e.Touches n.id := by
      rw [edgesOfType, hedges, edgesOfType, List.filter_filter, List.filter_filter]
      exact List.filter_congr fun e _ => Bool.and_comm _ _
    exact ⟨m', hm', (h.records hm).loses (htype ▸ h'.records hm')⟩
  case schema_eq => exact hschema
  case settings_eq => exact hsettings

/-- Deleting a live node of a sound graph succeeds and hands out its record. -/
theorem deleteNode_eq (h : g.Sound) (hn : g.node? id = some n) :
    g.deleteNode id = .ok (((({ g.isolate id with
      nodes := ⟨g.nodes.slots.setIfInBounds id.index .tombstone, g.nodes.live - 1⟩ } :
        Graph).dismiss id n.labels.toList).announce
          (.deleted id n.labels.toList n.properties)), n) := by
  obtain ⟨-, -, edges, matrices, hrest⟩ := h.isolate id
  have hnodes : (g.isolate id).nodes = g.nodes := by rw [hrest]
  simp only [Graph.deleteNode, node_eq_ok.2 hn, bind, Except.bind, hnodes, Arena.free_of_get? hn]
  rfl

end Sound

/-- A live node of a reachable graph can be deleted. Its record is handed out, and the graph loses
the node and the edges at it, and nothing else. -/
theorem Reachable.loses_of_live (h : g.Reachable) (hlive : g.hasNode id = true) :
    ∃ n g', g.node? id = some n ∧ g.deleteNode id = .ok (g', n) ∧ g.Loses g' id n := by
  obtain ⟨n, hn⟩ := Arena.isLive_iff.1 hlive
  have hdelete := h.sound.deleteNode_eq hn
  refine ⟨n, _, hn, hdelete, ?_⟩
  obtain ⟨-, hedges, edges, matrices, hrest⟩ := h.sound.isolate id
  obtain ⟨hcapacity, hsize⟩ := g.sizes_isolate id
  refine h.sound.loses (h.sound.deleteNode hdelete) hn ?_ hedges Array.size_setIfInBounds hcapacity
    ?_ hsize ?_ ?_
  · exact h.sound.records_retire hn
  · rw [announce, Catalog.names_apply, dismiss, hrest]
  · rw [announce, dismiss, hrest]
  · rw [announce, dismiss, hrest]

/-- A node with two labels goes with two parallel edges, an edge to itself, an edge of another type
that leads to it, and its entries in two indices. Another node's edge to itself is left, and its
entry. -/
theorem loses_of_live_node :
    let g := [Mutation.createNode ["A", "B"] [("n", .text "x")],
      .createNode ["A"] [("n", .boolean true)], .createIndex "A" "n", .createIndex "B" "n",
      .createEdge ⟨0⟩ ⟨1⟩ "R" [], .createEdge ⟨0⟩ ⟨1⟩ "R" [], .createEdge ⟨0⟩ ⟨0⟩ "R" [],
      .createEdge ⟨1⟩ ⟨1⟩ "R" [], .createEdge ⟨1⟩ ⟨0⟩ "S" []].foldl Graph.after (.empty {})
    g.Reachable ∧ g.hasNode ⟨0⟩ = true ∧
      (∃ n g', g.node? ⟨0⟩ = some n ∧ g.deleteNode ⟨0⟩ = .ok (g', n) ∧ g.Loses g' ⟨0⟩ n) ∧
      g.edgeCount = 5 ∧
      (g.edges.records.filter (·.Touches ⟨0⟩)).map (·.id) = [⟨0⟩, ⟨1⟩, ⟨2⟩, ⟨4⟩] ∧
      g.catalog.indices.map (·.2.size) = [2, 1] := by
  intro g
  have hreach : g.Reachable := Reachable.foldl (.empty {}) _
  have hlive : g.hasNode ⟨0⟩ = true := by decide +kernel
  exact ⟨hreach, hlive, hreach.loses_of_live hlive, by decide +kernel, by decide +kernel,
    by decide +kernel⟩

end Graph

end Plexus
