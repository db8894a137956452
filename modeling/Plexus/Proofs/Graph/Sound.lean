import Plexus.Proofs.Arena
import Plexus.Proofs.Catalog
import Plexus.Proofs.Matrix
import Plexus.Proofs.Schema

/-!
# Sound graphs

A graph is sound if its two arenas are, no edge hangs in the air, every name is known, and the
members, matrices and indices are exactly those of the records. What a graph answers can then be
read off its records.
-/

namespace Plexus

/-- The labels and properties of a node have names. -/
def Node.Named (s : Schema) (n : Node) : Prop :=
  (∀ l ∈ n.labels, (s.labelName? l).isSome) ∧ ∀ k ∈ n.properties, (s.propertyName? k).isSome

/-- The type and the properties of an edge have names. -/
def Edge.Named (s : Schema) (e : Edge) : Prop :=
  (s.typeName? e.relationType).isSome ∧ ∀ k ∈ e.properties, (s.propertyName? k).isSome

/-- The label and the property that an index is on have names. -/
def IndexName.Named (s : Schema) (name : IndexName) : Prop :=
  (s.labelName? name.label).isSome ∧ (s.propertyName? name.property).isSome

namespace Schema.Grows

variable {s t : Schema}

/-- A node whose names are known has known names after the schema has grown. -/
theorem node (h : s.Grows t) {n : Node} (hn : n.Named s) : n.Named t :=
  ⟨fun l hl => h.labelName? (hn.1 l hl),
    fun k hk => h.propertyName? (hn.2 k hk)⟩

/-- An edge whose names are known has known names after the schema has grown. -/
theorem edge (h : s.Grows t) {e : Edge} (he : e.Named s) : e.Named t :=
  ⟨h.typeName? he.1,
    fun k hk => h.propertyName? (he.2 k hk)⟩

/-- So has the definition of an index. -/
theorem index (h : s.Grows t) {name : IndexName} (hname : name.Named s) : name.Named t :=
  ⟨h.labelName? hname.1, h.propertyName? hname.2⟩

end Schema.Grows

/-- Ids of one kind are equal if their numbers are. -/
theorem Id.ext_index {kind : Kind} {a b : Id kind} (h : a.index = b.index) : a = b := by
  cases a
  cases b
  exact congrArg Id.mk h

/-- Ids are compared by their order. -/
theorem Id.compare_eq_lt {kind : Kind} {a b : Id kind} : compare a b = .lt ↔ a < b :=
  Nat.compare_eq_lt

theorem Id.ne_of_lt {kind : Kind} {a b : Id kind} (h : a < b) : a ≠ b := by
  rintro rfl
  exact Nat.lt_irrefl _ h

/-- Ascending identifiers are determined by their membership. -/
theorem Id.eq_of_ascending {kind : Kind} {ids more : List (Id kind)} (h : ids.Pairwise (· < ·))
    (h' : more.Pairwise (· < ·)) (hmem : ∀ id, id ∈ ids ↔ id ∈ more) : ids = more := by
  have : Std.Irrefl fun a b : Id kind => a < b := ⟨fun a => Nat.lt_irrefl _⟩
  have : Std.Antisymm fun a b : Id kind => a < b :=
    ⟨fun a b hab hba => absurd hab (Nat.lt_asymm hba)⟩
  exact List.Pairwise.eq_of_mem_iff h h' hmem

/-- A set of ids lists them ascending. -/
theorem Id.ascending_toList {kind : Kind} (s : Std.ExtTreeSet (Id kind)) :
    s.toList.Pairwise (· < ·) :=
  s.ordered_toList.imp fun hlt => Id.compare_eq_lt.1 hlt

namespace Graph

/-- The live nodes, ascending. -/
def nodeIds (g : Graph) : List NodeId := g.nodes.records.map (·.id)

/-- The live edges of the type with a number, in order. -/
def edgesOfType (g : Graph) (t : Nat) : List Edge :=
  g.edges.records.filter fun e => e.relationType.index = t

/-- What a graph keeps beside its records is what its records say. -/
structure Sound (g : Graph) : Prop where
  nodes : g.nodes.Sound fun n => n.id.index
  edges : g.edges.Sound fun e => e.id.index
  endpoints : ∀ e ∈ g.edges.records, e.source ∈ g.nodeIds ∧ e.target ∈ g.nodeIds
  members (label : LabelId) (id : NodeId) :
    id ∈ g.members.getD label ∅ ↔ ∃ n ∈ g.nodes.records, n.id = id ∧ n.hasLabel label
  matrices (t : Nat) : (g.matrices.getD t .empty).Records (g.edgesOfType t)
  catalog : g.catalog.Follows g.nodes.records
  nodes_named : ∀ n ∈ g.nodes.records, n.Named g.schema
  edges_named : ∀ e ∈ g.edges.records, e.Named g.schema
  indices_named : ∀ name ∈ g.catalog.names, name.Named g.schema

/-- A graph without records is sound. -/
theorem sound_ofSchema (schema : Schema) (settings : TraversalSettings) :
    (ofSchema schema settings).Sound where
  nodes := Arena.Sound.empty _
  edges := Arena.Sound.empty _
  endpoints e he := by simp [ofSchema] at he
  members label id := by simp [ofSchema]
  matrices t := by
    simpa [ofSchema, edgesOfType] using Matrix.Records.empty
  catalog := Catalog.follows_empty _
  nodes_named n hn := by simp [ofSchema] at hn
  edges_named e he := by simp [ofSchema] at he
  indices_named name hname := by simp [ofSchema] at hname

namespace Sound

variable {g : Graph} {n : Node} {e : Edge} {id : NodeId} {eid : EdgeId}

/-- The node that is read under an id is the live record with this id. -/
theorem node?_iff (h : g.Sound) : g.node? id = some n ↔ n ∈ g.nodes.records ∧ n.id = id := by
  constructor
  · intro hn
    exact ⟨Arena.mem_records.2 ⟨_, hn⟩, Id.ext_index (h.nodes.slotOf_eq _ _ hn)⟩
  · rintro ⟨hn, rfl⟩
    exact h.nodes.get?_slotOf hn

/-- The edge that is read under an id is the live record with this id. -/
theorem edge?_iff (h : g.Sound) : g.edge? eid = some e ↔ e ∈ g.edges.records ∧ e.id = eid := by
  constructor
  · intro he
    exact ⟨Arena.mem_records.2 ⟨_, he⟩, Id.ext_index (h.edges.slotOf_eq _ _ he)⟩
  · rintro ⟨he, rfl⟩
    exact h.edges.get?_slotOf he

/-- A graph has a node if its id is one of the live ones. -/
theorem hasNode_iff (h : g.Sound) : g.hasNode id = true ↔ id ∈ g.nodeIds := by
  rw [hasNode, Arena.isLive_iff, nodeIds, List.mem_map]
  exact exists_congr fun n => h.node?_iff

/-- A graph has an edge if a live record has its id. -/
theorem hasEdge_iff (h : g.Sound) : g.hasEdge eid = true ↔ ∃ e ∈ g.edges.records, e.id = eid := by
  rw [hasEdge, Arena.isLive_iff]
  exact exists_congr fun e => h.edge?_iff

/-- The identifiers of the live nodes ascend. -/
theorem nodeIds_ascending (h : g.Sound) : g.nodeIds.Pairwise (· < ·) := by
  rw [nodeIds, List.pairwise_map]
  exact h.nodes.ascending

/-- No two live nodes have one id. -/
theorem nodeIds_nodup (h : g.Sound) : (g.nodes.records.map (·.id)).Nodup :=
  h.nodeIds_ascending.imp Id.ne_of_lt

/-- No two live edges have one id. -/
theorem edgeIds_nodup (h : g.Sound) : (g.edges.records.map (·.id)).Nodup := by
  rw [List.Nodup, List.pairwise_map]
  exact h.edges.ascending.imp Id.ne_of_lt

/-- Among the live nodes the identifier determines the record. -/
theorem node_ext (h : g.Sound) {m : Node} (hm : m ∈ g.nodes.records) (hn : n ∈ g.nodes.records)
    (hid : m.id = n.id) : m = n :=
  List.inj_on_of_nodup_map h.nodeIds_nodup hm hn hid

/-- Among the live edges the identifier determines the record. -/
theorem edge_ext (h : g.Sound) {f : Edge} (hf : f ∈ g.edges.records) (he : e ∈ g.edges.records)
    (hid : f.id = e.id) : f = e :=
  List.inj_on_of_nodup_map h.edgeIds_nodup hf he hid

/-- Each matrix records the live edges of its type. -/
theorem records (h : g.Sound) {t : Nat} {m : Matrix} (hm : g.matrices[t]? = some m) :
    m.Records (g.edgesOfType t) := by
  simpa [Array.getD_eq_getD_getElem?, hm] using h.matrices t

/-- A row of a type's matrix lists the edges of the type that leave the node. -/
theorem mem_matrix_row (h : g.Sound) {t : Nat} {m : Matrix} (hm : g.matrices[t]? = some m)
    {node other : NodeId} :
    (∃ es, (other, es) ∈ m.row node ∧ eid ∈ es) ↔ ∃ e ∈ g.edges.records,
      e.id = eid ∧ e.relationType.index = t ∧ e.source = node ∧ e.target = other := by
  have hrec := h.records hm
  simp only [Matrix.row, hrec.outgoing_tight.mem_row, hrec.outgoing_list]
  constructor
  · rintro ⟨es, ⟨rfl, -⟩, hid⟩
    obtain ⟨e, he, rfl, rfl, rfl⟩ := Edge.mem_between.1 hid
    obtain ⟨he', ht⟩ := List.mem_filter.1 he
    exact ⟨e, he', rfl, by simpa using ht, rfl, rfl⟩
  · rintro ⟨e, he, rfl, rfl, rfl, rfl⟩
    have hmem : e.id ∈ Edge.between (g.edgesOfType e.relationType.index) e.source e.target :=
      Edge.mem_between.2 ⟨e, List.mem_filter.2 ⟨he, by simp⟩, rfl, rfl, rfl⟩
    exact ⟨_, ⟨rfl, List.ne_nil_of_mem hmem⟩, hmem⟩

/-- A column of a type's matrix lists the edges of the type that enter the node. -/
theorem mem_matrix_column (h : g.Sound) {t : Nat} {m : Matrix} (hm : g.matrices[t]? = some m)
    {node other : NodeId} :
    (∃ es, (other, es) ∈ m.column node ∧ eid ∈ es) ↔ ∃ e ∈ g.edges.records,
      e.id = eid ∧ e.relationType.index = t ∧ e.target = node ∧ e.source = other := by
  have hrec := h.records hm
  simp only [Matrix.column, hrec.incoming_tight.mem_row, hrec.incoming_list]
  constructor
  · rintro ⟨es, ⟨rfl, -⟩, hid⟩
    obtain ⟨e, he, rfl, rfl, rfl⟩ := Edge.mem_between.1 hid
    obtain ⟨he', ht⟩ := List.mem_filter.1 he
    exact ⟨e, he', rfl, by simpa using ht, rfl, rfl⟩
  · rintro ⟨e, he, rfl, rfl, rfl, rfl⟩
    have hmem : e.id ∈ Edge.between (g.edgesOfType e.relationType.index) e.source e.target :=
      Edge.mem_between.2 ⟨e, List.mem_filter.2 ⟨he, by simp⟩, rfl, rfl, rfl⟩
    exact ⟨_, ⟨rfl, List.ne_nil_of_mem hmem⟩, hmem⟩

/-- The type of a live edge has a matrix. -/
theorem matrix_of_edge (h : g.Sound) (he : e ∈ g.edges.records) :
    ∃ m, g.matrices[e.relationType.index]? = some m := by
  cases hm : g.matrices[e.relationType.index]? with
  | some m => exact ⟨m, rfl⟩
  | none =>
    have hrec := (h.matrices e.relationType.index).mem_between
      (List.mem_filter.2 ⟨he, decide_eq_true rfl⟩)
    rw [Array.getD_eq_getD_getElem?, hm, Option.getD_none] at hrec
    simp [Matrix.between, Matrix.empty] at hrec

end Sound

end Graph

end Plexus
