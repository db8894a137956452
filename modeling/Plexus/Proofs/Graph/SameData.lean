import Plexus.Proofs.Graph.Reachable
import Plexus.Proofs.Query.Match
import Plexus.Proofs.Query.Reads

/-!
# Graphs with the same data

Two graphs have the same data if they have the same records and these use identifiers of the same
names. Their indices may differ, and so may their schemas in names that no record uses, since an
index may be on a name that is new. Defining and dropping indices keeps the data. What can be read
of a record is the same, and so is which nodes are what a descriptor asks for.
-/

namespace Plexus

namespace Schema

variable {s : Schema} {part : Part} {id : Id part.kind} {name : String}

/-- Looking up a name finds the identifier that has it. -/
theorem lookup?_eq_some : s.lookup? part name = some id ↔ s.resolve? part id = some name := by
  refine ⟨fun h => ?_, lookup?_of_resolve?⟩
  obtain ⟨position, hposition, rfl⟩ := Option.map_eq_some_iff.1 h
  obtain ⟨hlt, hname, -⟩ := List.idxOf?_eq_some_iff.1 hposition
  exact List.getElem?_eq_some_iff.2 ⟨hlt, hname⟩

variable {t : Schema}

/-- An identifier with the same name in two schemas is found under the same names. -/
theorem lookup?_congr (h : t.resolve? part id = s.resolve? part id) (name : String) :
    t.lookup? part name = some id ↔ s.lookup? part name = some id := by
  rw [lookup?_eq_some, lookup?_eq_some, h]

/-- What is read by name is the same if the identifiers by which something is found have the same
names. -/
theorem bind_lookup? {α : Type} {f : Id part.kind → Option α}
    (h : ∀ id, (f id).isSome → t.resolve? part id = s.resolve? part id) (name : String) :
    (t.lookup? part name).bind f = (s.lookup? part name).bind f := by
  apply Option.ext
  intro a
  rw [Option.bind_eq_some_iff, Option.bind_eq_some_iff]
  exact exists_congr fun id => and_congr_left fun hid =>
    lookup?_congr (h id (Option.isSome_of_eq_some hid)) name

end Schema

namespace Graph

/-- The records are the same, and so are the names of the identifiers that they use. -/
structure SameData (g h : Graph) : Prop where
  nodes : h.nodes = g.nodes
  edges : h.edges = g.edges
  labels : ∀ n ∈ g.nodes.records, ∀ l ∈ n.labels, h.schema.labelName? l = g.schema.labelName? l
  node_keys : ∀ n ∈ g.nodes.records, ∀ k ∈ n.properties,
    h.schema.propertyName? k = g.schema.propertyName? k
  types : ∀ e ∈ g.edges.records, h.schema.typeName? e.relationType =
    g.schema.typeName? e.relationType
  edge_keys : ∀ e ∈ g.edges.records, ∀ k ∈ e.properties,
    h.schema.propertyName? k = g.schema.propertyName? k

namespace SameData

variable {g h i : Graph}

theorem refl (g : Graph) : g.SameData g where
  nodes := rfl
  edges := rfl
  labels _ _ _ _ := rfl
  node_keys _ _ _ _ := rfl
  types _ _ := rfl
  edge_keys _ _ _ _ := rfl

theorem symm (hs : g.SameData h) : h.SameData g where
  nodes := hs.nodes.symm
  edges := hs.edges.symm
  labels n hn l hl := (hs.labels n (hs.nodes ▸ hn) l hl).symm
  node_keys n hn k hk := (hs.node_keys n (hs.nodes ▸ hn) k hk).symm
  types e he := (hs.types e (hs.edges ▸ he)).symm
  edge_keys e he k hk := (hs.edge_keys e (hs.edges ▸ he) k hk).symm

theorem trans (hs : g.SameData h) (hs' : h.SameData i) : g.SameData i where
  nodes := hs'.nodes.trans hs.nodes
  edges := hs'.edges.trans hs.edges
  labels n hn l hl := (hs'.labels n (hs.nodes ▸ hn) l hl).trans (hs.labels n hn l hl)
  node_keys n hn k hk := (hs'.node_keys n (hs.nodes ▸ hn) k hk).trans (hs.node_keys n hn k hk)
  types e he := (hs'.types e (hs.edges ▸ he)).trans (hs.types e he)
  edge_keys e he k hk := (hs'.edge_keys e (hs.edges ▸ he) k hk).trans (hs.edge_keys e he k hk)

/-- A graph that differs in its indices and in new names has the same data. -/
theorem of_grows (hg : g.Sound) (hnodes : h.nodes = g.nodes) (hedges : h.edges = g.edges)
    (hgrows : g.schema.Grows h.schema) : g.SameData h := by
  have hkeeps {part : Schema.Part} {id : Id part.kind} (hid : (g.schema.resolve? part id).isSome) :
      h.schema.resolve? part id = g.schema.resolve? part id := by
    obtain ⟨name, hname⟩ := Option.isSome_iff_exists.1 hid
    rw [hname]
    exact hgrows.resolve? hname
  constructor
  case nodes => exact hnodes
  case edges => exact hedges
  case labels => exact fun n hn l hl => hkeeps ((hg.nodes_named n hn).1 l hl)
  case node_keys => exact fun n hn k hk => hkeeps ((hg.nodes_named n hn).2 k hk)
  case types => exact fun e he => hkeeps (hg.edges_named e he).1
  case edge_keys => exact fun e he k hk => hkeeps ((hg.edges_named e he).2 k hk)

variable (hs : g.SameData h)

include hs

/-- Graphs with the same data have the same live nodes. -/
theorem hasNode (id : NodeId) : h.hasNode id = g.hasNode id := by
  rw [Graph.hasNode, Graph.hasNode, hs.nodes]

/-- Graphs with the same data have the same record of a node. -/
theorem node? (id : NodeId) : h.node? id = g.node? id := by
  rw [Graph.node?, Graph.node?, hs.nodes]

/-- Graphs with the same data have the same record of an edge. -/
theorem edge? (id : EdgeId) : h.edge? id = g.edge? id := by
  rw [Graph.edge?, Graph.edge?, hs.edges]

/-- Reading a node ends alike on graphs with the same data. -/
theorem node (id : NodeId) : h.node id = g.node id := by
  rw [Graph.node, Graph.node, hs.node?]

/-- Reading an edge ends alike on graphs with the same data. -/
theorem edge (id : EdgeId) : h.edge id = g.edge id := by
  rw [Graph.edge, Graph.edge, hs.edge?]

private theorem labelId?_iff {n : Node} (hn : n ∈ g.nodes.records) {l : LabelId}
    (hl : n.hasLabel l = true) (name : String) :
    h.schema.labelId? name = some l ↔ g.schema.labelId? name = some l :=
  Schema.lookup?_congr (hs.labels n hn l (Std.ExtTreeSet.contains_iff_mem.1 hl)) name

private theorem nodeProperty? {n : Node} (hn : n ∈ g.nodes.records) (key : String) :
    (h.schema.propertyId? key).bind n.property? = (g.schema.propertyId? key).bind n.property? := by
  apply Schema.bind_lookup?
  intro k hk
  exact hs.node_keys n hn k (Std.ExtTreeMap.isSome_getElem?_iff_mem.1 hk)

private theorem edgeProperty? {e : Edge} (he : e ∈ g.edges.records) (key : String) :
    (h.schema.propertyId? key).bind e.property? = (g.schema.propertyId? key).bind e.property? := by
  apply Schema.bind_lookup?
  intro k hk
  exact hs.edge_keys e he k (Std.ExtTreeMap.isSome_getElem?_iff_mem.1 hk)

private theorem any_hasLabel {n : Node} (hn : n ∈ g.nodes.records) (name : String) :
    (h.schema.labelId? name).any n.hasLabel = (g.schema.labelId? name).any n.hasLabel := by
  rw [Bool.eq_iff_iff, Option.any_eq_true, Option.any_eq_true]
  exact exists_congr fun l => and_congr_left fun hl => hs.labelId?_iff hn hl name

private theorem bind_node {α : Type} {read read' : Node → Except QueryFault α}
    (hread : ∀ n ∈ g.nodes.records, read' n = read n) (id : NodeId) :
    (liftGraph (h.node id) >>= read') = liftGraph (g.node id) >>= read := by
  rw [hs.node]
  cases hn : g.node id with
  | error fault => rfl
  | ok n => exact hread n (Arena.mem_records.2 ⟨_, node_eq_ok.1 hn⟩)

private theorem bind_edge {α : Type} {read read' : Edge → Except QueryFault α}
    (hread : ∀ e ∈ g.edges.records, read' e = read e) (id : EdgeId) :
    (liftGraph (h.edge id) >>= read') = liftGraph (g.edge id) >>= read := by
  rw [hs.edge]
  cases he : g.edge id with
  | error fault => rfl
  | ok e => exact hread e (Arena.mem_records.2 ⟨_, edge_eq_ok.1 he⟩)

/-- Whatever is read of a value is the same. -/
theorem sameReads : g.SameReads h where
  property v key := by
    cases v with
    | scalar a => cases a <;> rfl
    | node id =>
      refine hs.bind_node (fun n hn => ?_) id
      rw [hs.nodeProperty? hn]
    | edge id =>
      refine hs.bind_edge (fun e he => ?_) id
      rw [hs.edgeProperty? he]
  labels v names := by
    cases v with
    | scalar a => cases a <;> rfl
    | edge id => rfl
    | node id =>
      refine hs.bind_node (fun n hn => ?_) id
      simp only [hs.any_hasLabel hn]
  call function v := by
    cases v with
    | scalar a => cases a <;> rfl
    | node id => rfl
    | edge id =>
      simp only [Expression.callOn]
      rw [hs.bind_edge (fun e he => by rw [hs.types e he]) id]

/-- A node has the same labels in graphs with the same data. -/
theorem nodeIs_iff (id : NodeId) (name : String) : h.NodeIs id name ↔ g.NodeIs id name := by
  simp only [NodeIs, hs.node?]
  refine exists_congr fun n => exists_congr fun l => and_congr_right fun hn => ?_
  exact and_congr_left fun hl => hs.labelId?_iff (Arena.mem_records.2 ⟨_, hn⟩) hl name

/-- A node has the same properties in graphs with the same data. -/
theorem nodeHas_iff (id : NodeId) (p : String × Scalar) : h.NodeHas id p ↔ g.NodeHas id p := by
  have hread : h.nodeProperty? id p.1 = g.nodeProperty? id p.1 := by
    unfold Graph.nodeProperty?
    rw [hs.node?]
    cases hn : g.node? id with
    | none => cases h.schema.propertyId? p.1 <;> cases g.schema.propertyId? p.1 <;> rfl
    | some n => exact hs.nodeProperty? (Arena.mem_records.2 ⟨_, hn⟩) p.1
  rw [NodeHas, NodeHas, hread]

/-- The same nodes are what a descriptor asks for. -/
theorem fits_iff (n : NodePattern) (id : NodeId) : n.Fits h id ↔ n.Fits g id := by
  have himp {g h : Graph} (hs : g.SameData h) (hfits : n.Fits g id) : n.Fits h id :=
    ⟨(hs.hasNode id).trans hfits.live, fun l hl => (hs.nodeIs_iff id l).2 (hfits.labels l hl),
      fun p hp => (hs.nodeHas_iff id p).2 (hfits.properties p hp)⟩
  exact ⟨himp hs.symm, himp hs⟩

end SameData

end Graph

/-- Operations that define or drop an index and do nothing else. -/
def Mutation.OnIndices : Mutation → Prop
  | .createIndex .. | .createIndexById .. | .dropIndex .. => True
  | _ => False

namespace Graph

variable {g : Graph}

/-- Defining or dropping an index keeps the data. -/
theorem Sound.sameData_after (hg : g.Sound) {m : Mutation} (hm : m.OnIndices) :
    g.SameData (g.after m) := by
  cases m with
  | createIndex label property =>
    exact .of_grows hg rfl rfl ((g.schema.grows_intern .label label).trans
      ((g.schema.intern .label label).1.grows_intern .property property))
  | createIndexById label property =>
    unfold Graph.after
    split
    · rename_i g' hg'
      obtain ⟨created, hr⟩ := map_fst_eq_ok.1 hg'
      obtain ⟨⟨⟩, -, hr⟩ := bind_eq_ok.1 hr
      obtain ⟨-, hr⟩ := guard_eq_ok.1 hr
      cases hr
      exact .of_grows hg rfl rfl (.refl _)
    · exact .refl g
  | dropIndex label property =>
    change g.SameData (g.dropIndex label property).1
    unfold Graph.dropIndex
    split
    · exact .of_grows hg rfl rfl (.refl _)
    · exact .refl g
  | _ => cases hm

/-- However often indices are defined and dropped, the data stay the same. -/
theorem Sound.sameData_foldl (hg : g.Sound) {ms : List Mutation} (hms : ∀ m ∈ ms, m.OnIndices) :
    g.SameData (ms.foldl Graph.after g) := by
  induction ms generalizing g with
  | nil => exact .refl g
  | cons m rest ih =>
    rw [List.forall_mem_cons] at hms
    exact (hg.sameData_after hms.1).trans (ih (hg.after m) hms.2)

end Graph

end Plexus
