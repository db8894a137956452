import Plexus.Proofs.Graph.Adjacent

/-!
# Changes keep a graph sound

One lemma for each way in which an operation touches a graph: it grows the schema, adds a record,
changes a property, or takes a record out, and with the record it brings members, matrices and
indices up to date.
-/

namespace Plexus

namespace Graph

variable {g g' : Graph}

private theorem mem_enroll (g : Graph) (node : NodeId) (labels : List LabelId) (l : LabelId)
    (id : NodeId) :
    id ∈ (g.enroll node labels).members.getD l ∅ ↔
      id ∈ g.members.getD l ∅ ∨ id = node ∧ l ∈ labels := by
  simp only [enroll]
  generalize g.members = m
  induction labels generalizing m with
  | nil => simp
  | cons a rest ih =>
    rw [List.foldl_cons, ih, Std.ExtTreeMap.getD_insert]
    by_cases ha : a = l
    · subst ha
      simp only [Std.ReflCmp.compare_self, if_true, Std.ExtTreeSet.mem_insert,
        Std.LawfulEqCmp.compare_eq_iff_eq, List.mem_cons, true_or, and_true]
      rw [eq_comm (a := node)]
      tauto
    · have ha' : ¬l = a := fun e => ha e.symm
      simp [ha, ha']

private theorem mem_dismiss (g : Graph) (node : NodeId) (labels : List LabelId) (l : LabelId)
    (id : NodeId) :
    id ∈ (g.dismiss node labels).members.getD l ∅ ↔
      id ∈ g.members.getD l ∅ ∧ ¬(id = node ∧ l ∈ labels) := by
  simp only [dismiss]
  generalize g.members = m
  induction labels generalizing m with
  | nil => simp
  | cons a rest ih =>
    rw [List.foldl_cons, ih, Std.ExtTreeMap.getD_insert]
    by_cases ha : a = l
    · subst ha
      simp only [Std.ReflCmp.compare_self, if_true, Std.ExtTreeSet.mem_erase, ne_eq,
        Std.LawfulEqCmp.compare_eq_iff_eq, List.mem_cons, true_or, and_true]
      rw [eq_comm (a := node)]
      tauto
    · have ha' : ¬l = a := fun e => ha e.symm
      simp [ha, ha']

private theorem getD_modify (ms : Array Matrix) (t i : Nat) {f : Matrix → Matrix}
    (hf : f .empty = .empty) :
    (ms.modify t f).getD i .empty =
      if i = t then f (ms.getD i .empty) else ms.getD i .empty := by
  simp only [Array.getD_eq_getD_getElem?, Array.getElem?_modify]
  by_cases hi : t = i
  · subst hi
    cases ms[t]? <;> simp [hf]
  · have hi' : ¬i = t := fun e => hi e.symm
    simp [hi, hi']

private theorem getD_withMatrix (g : Graph) (type : TypeId) (f : Matrix → Matrix) (i : Nat) :
    (g.withMatrix type f).matrices.getD i .empty =
      if i = type.index then f (g.matrices.getD i .empty) else g.matrices.getD i .empty := by
  have hget (j : Nat) : (g.matrices ++
      Array.replicate (type.index + 1 - g.matrices.size) Matrix.empty).getD j .empty =
        g.matrices.getD j .empty := by
    simp only [Array.getD_eq_getD_getElem?, Array.getElem?_append, Array.getElem?_replicate]
    by_cases hj : j < g.matrices.size
    · simp [hj]
    · simp only [hj, if_false]
      split <;> simp [hj]
  rw [withMatrix]
  by_cases hi : i = type.index
  · subst hi
    have hlt : type.index < (g.matrices ++
        Array.replicate (type.index + 1 - g.matrices.size) Matrix.empty).size := by
      simp only [Array.size_append, Array.size_replicate]
      omega
    have hi := hget type.index
    rw [if_pos rfl, ← hi]
    simp only [Array.getD_eq_getD_getElem?, Array.getElem?_modify, if_true,
      Array.getElem?_eq_getElem hlt, Option.map_some, Option.getD_some]
  · have hi' : ¬type.index = i := fun e => hi e.symm
    rw [if_neg hi, ← hget i]
    simp only [Array.getD_eq_getD_getElem?, Array.getElem?_modify, if_neg hi']

namespace Sound

/-- A schema that knows all old names still knows those of the records. -/
theorem grow (h : g.Sound) {s : Schema} (hs : g.schema.Grows s) : { g with schema := s }.Sound :=
  { h with
    nodes_named := fun n hn => hs.node (h.nodes_named n hn)
    edges_named := fun e he => hs.edge (h.edges_named e he)
    indices_named := fun name hname => hs.index (h.indices_named name hname) }

private theorem records_addNode (g : Graph) (labels : List LabelId) (properties : PropertyMap) :
    (g.addNode labels properties).1.nodes.records =
      g.nodes.records ++ [Node.ofLabels ⟨g.nodes.capacity⟩ labels properties] :=
  Arena.records_insert _ _

/-- Adding a node with registered labels and keys keeps a graph sound. -/
theorem addNode (h : g.Sound) {labels : List LabelId} {properties : PropertyMap}
    (hl : ∀ l ∈ labels, (g.schema.labelName? l).isSome)
    (hk : ∀ k ∈ properties, (g.schema.propertyName? k).isSome) :
    (g.addNode labels properties).1.Sound where
  nodes := h.nodes.insert rfl
  edges := h.edges
  endpoints e he := by
    have hmem {id : NodeId} (hid : id ∈ g.nodeIds) :
        id ∈ (g.addNode labels properties).1.nodeIds := by
      rw [nodeIds, records_addNode, List.map_append]
      exact List.mem_append_left _ hid
    exact ⟨hmem (h.endpoints e he).1, hmem (h.endpoints e he).2⟩
  members label id := by
    refine (mem_enroll g _ _ label id).trans ?_
    simp only [records_addNode, List.mem_append, List.mem_singleton, or_and_right, exists_or,
      exists_eq_left, h.members, Node.hasLabel, Std.ExtTreeSet.mem_toList,
      Std.ExtTreeSet.contains_iff_mem]
    rw [eq_comm (a := id)]
  matrices := h.matrices
  catalog := by
    rw [records_addNode]
    exact h.catalog.created (Node.ofLabels ⟨g.nodes.capacity⟩ labels properties)
  nodes_named n hn := by
    rw [records_addNode, List.mem_append, List.mem_singleton] at hn
    rcases hn with hn | rfl
    · exact h.nodes_named n hn
    · refine ⟨fun l hlabel => hl l ?_, hk⟩
      simpa [Node.ofLabels] using hlabel
  edges_named := h.edges_named
  indices_named name hname := h.indices_named name ((Catalog.names_apply _ _) ▸ hname)

private theorem records_addEdge (g : Graph) (source target : NodeId) (type : TypeId)
    (properties : PropertyMap) :
    (g.addEdge source target type properties).1.edges.records =
      g.edges.records ++ [⟨⟨g.edges.capacity⟩, source, target, type, properties⟩] :=
  Arena.records_insert _ _

/-- Adding an edge between live nodes with a registered type and keys keeps a graph sound. -/
theorem addEdge (h : g.Sound) {source target : NodeId} {type : TypeId} {properties : PropertyMap}
    (hsource : source ∈ g.nodeIds) (htarget : target ∈ g.nodeIds)
    (ht : (g.schema.typeName? type).isSome)
    (hk : ∀ k ∈ properties, (g.schema.propertyName? k).isSome) :
    (g.addEdge source target type properties).1.Sound where
  nodes := h.nodes
  edges := h.edges.insert rfl
  endpoints e he := by
    rw [records_addEdge, List.mem_append, List.mem_singleton] at he
    rcases he with he | rfl
    · exact h.endpoints e he
    · exact ⟨hsource, htarget⟩
  members := h.members
  matrices t := by
    have hold := h.matrices t
    have hnew := getD_withMatrix { g with edges := (g.edges.insert
      ⟨⟨g.edges.capacity⟩, source, target, type, properties⟩).1 } type
        (·.insert source target ⟨g.edges.capacity⟩) t
    rw [edgesOfType, records_addEdge, List.filter_append]
    refine hnew ▸ ?_
    by_cases htype : type.index = t
    · subst htype
      simpa [edgesOfType] using hold.insert ⟨⟨g.edges.capacity⟩, source, target, type, properties⟩
    · have htype' : ¬t = type.index := fun e => htype e.symm
      simpa [htype, htype', edgesOfType] using hold
  catalog := h.catalog
  nodes_named := h.nodes_named
  edges_named e he := by
    rw [records_addEdge, List.mem_append, List.mem_singleton] at he
    rcases he with he | rfl
    · exact h.edges_named e he
    · exact ⟨ht, hk⟩
  indices_named := h.indices_named

/-- A retired node slot at the end changes nothing. -/
theorem pushNodeTombstone (h : g.Sound) : { g with nodes := g.nodes.pushTombstone.1 }.Sound where
  nodes := h.nodes.pushTombstone
  edges := h.edges
  endpoints := by simpa [nodeIds] using h.endpoints
  members := by simpa using h.members
  matrices := h.matrices
  catalog := by simpa using h.catalog
  nodes_named := by simpa using h.nodes_named
  edges_named := h.edges_named
  indices_named := h.indices_named

/-- A retired edge slot at the end changes nothing. -/
theorem pushEdgeTombstone (h : g.Sound) : { g with edges := g.edges.pushTombstone.1 }.Sound where
  nodes := h.nodes
  edges := h.edges.pushTombstone
  endpoints := by simpa [nodeIds] using h.endpoints
  members := h.members
  matrices := by simpa [edgesOfType] using h.matrices
  catalog := h.catalog
  nodes_named := h.nodes_named
  edges_named := by simpa using h.edges_named
  indices_named := h.indices_named

private theorem records_changeNode (h : g.Sound) {id : NodeId} {n n' : Node}
    (hn : g.node? id = some n) (hid : n'.id = n.id) :
    Arena.records ⟨g.nodes.slots.setIfInBounds id.index (.live n'), g.nodes.live⟩ =
      g.nodes.records.map fun x => if x.id = n.id then n' else x := by
  obtain ⟨hmem, rfl⟩ := h.node?_iff.1 hn
  rw [h.nodes.records_set_live hn (congrArg Id.index hid)]
  apply List.map_congr_left
  intro x _
  have hiff : x.id.index = n.id.index ↔ x.id = n.id := ⟨Id.ext_index, congrArg Id.index⟩
  simp only [hiff]

/-- A node may change one property, if the indices hear of it. -/
theorem changeNode (h : g.Sound) {id : NodeId} {n n' : Node} {key : PropertyId}
    (hn : g.node? id = some n) (hid : n'.id = n.id) (hlabels : n'.labels = n.labels)
    (hother : ∀ k, k ≠ key → n'.property? k = n.property? k)
    (hnamed : ∀ k ∈ n'.properties, (g.schema.propertyName? k).isSome) :
    ({ g with nodes := ⟨g.nodes.slots.setIfInBounds id.index (.live n'), g.nodes.live⟩ }.announce
      (.changed id n.labels.toList key (n.property? key) (n'.property? key))).Sound := by
  have hrecords := h.records_changeNode hn hid
  obtain ⟨hmem, hnid⟩ := h.node?_iff.1 hn
  have hids : ∀ x : Node, (if x.id = n.id then n' else x).id = x.id := by
    intro x
    split
    · rename_i hx
      exact hid.trans hx.symm
    · rfl
  have hnodeIds : (Arena.records ⟨g.nodes.slots.setIfInBounds id.index (.live n'),
      g.nodes.live⟩).map (·.id) = g.nodeIds := by
    rw [hrecords, List.map_map]
    exact List.map_congr_left fun x _ => hids x
  constructor
  case nodes => exact h.nodes.set_live hn (congrArg Id.index (hid.trans hnid))
  case edges => exact h.edges
  case endpoints =>
    intro e he
    rw [nodeIds, show Arena.records _ = Arena.records _ from rfl, announce, hnodeIds]
    exact h.endpoints e he
  case members =>
    intro label m
    have hlabel (x : Node) (hx : x ∈ g.nodes.records) :
        (if x.id = n.id then n' else x).hasLabel label = x.hasLabel label := by
      split
      · rename_i hxn
        rw [h.node_ext hx hmem hxn, Node.hasLabel, Node.hasLabel, hlabels]
      · rfl
    refine (h.members label m).trans ?_
    simp only [announce, hrecords, List.mem_map]
    constructor
    · rintro ⟨x, hx, rfl, hl⟩
      exact ⟨_, ⟨x, hx, rfl⟩, hids x, (hlabel x hx).trans hl⟩
    · rintro ⟨_, ⟨x, hx, rfl⟩, rfl, hl⟩
      exact ⟨x, hx, (hids x).symm, (hlabel x hx).symm.trans hl⟩
  case matrices => exact h.matrices
  case catalog =>
    have hc := h.catalog.changed h.nodeIds_nodup hmem hid hlabels hother
    rw [← hrecords, hnid] at hc
    exact hc
  case nodes_named =>
    intro x hx
    simp only [announce, hrecords, List.mem_map] at hx
    obtain ⟨y, hy, rfl⟩ := hx
    split
    · exact ⟨hlabels ▸ (h.nodes_named n hmem).1, hnamed⟩
    · exact h.nodes_named y hy
  case edges_named => exact h.edges_named
  case indices_named =>
    intro name hname
    exact h.indices_named name ((Catalog.names_apply _ _) ▸ hname)

/-- An edge with the properties replaced, if it is the one with the identifier. -/
private def replaced (id : EdgeId) (properties : PropertyMap) (x : Edge) : Edge :=
  if x.id = id then { x with properties } else x

private theorem frame_replaced (id : EdgeId) (properties : PropertyMap) (x : Edge) :
    (replaced id properties x).id = x.id ∧ (replaced id properties x).source = x.source ∧
      (replaced id properties x).target = x.target ∧
      (replaced id properties x).relationType = x.relationType := by
  unfold replaced
  split
  · exact ⟨rfl, rfl, rfl, rfl⟩
  · exact ⟨rfl, rfl, rfl, rfl⟩

/-- An edge may change its properties. -/
theorem changeEdge (h : g.Sound) {id : EdgeId} {e : Edge} {properties : PropertyMap}
    (he : g.edge? id = some e)
    (hnamed : ∀ k ∈ properties, (g.schema.propertyName? k).isSome) :
    Sound { g with edges := ⟨g.edges.slots.setIfInBounds id.index (.live { e with properties }),
      g.edges.live⟩ } := by
  obtain ⟨hmem, rfl⟩ := h.edge?_iff.1 he
  have hrecords : Arena.records ⟨g.edges.slots.setIfInBounds e.id.index
      (.live { e with properties }), g.edges.live⟩ =
        g.edges.records.map (replaced e.id properties) := by
    have hset := h.edges.records_set_live he (s := { e with properties }) rfl
    refine hset.trans (List.map_congr_left fun x hx => ?_)
    by_cases hxe : x.id = e.id
    · simp [replaced, h.edge_ext hx hmem hxe]
    · have hne : ¬x.id.index = e.id.index := fun hi => hxe (Id.ext_index hi)
      simp [replaced, hxe, hne]
  constructor
  case nodes => exact h.nodes
  case edges => exact h.edges.set_live he rfl
  case endpoints =>
    intro x hx
    obtain ⟨y, hy, rfl⟩ := List.mem_map.1 (hrecords ▸ hx)
    obtain ⟨-, hsource, htarget, -⟩ := frame_replaced e.id properties y
    rw [hsource, htarget]
    exact h.endpoints y hy
  case members => exact h.members
  case matrices =>
    intro t
    rw [edgesOfType, hrecords, List.filter_map]
    have htype (x : Edge) : (replaced e.id properties x).relationType = x.relationType :=
      (frame_replaced e.id properties x).2.2.2
    simp only [Function.comp_def, htype]
    apply (h.matrices t).map
    intro x _
    obtain ⟨hid, hsource, htarget, -⟩ := frame_replaced e.id properties x
    exact ⟨hid, hsource, htarget⟩
  case catalog => exact h.catalog
  case nodes_named => exact h.nodes_named
  case edges_named =>
    intro x hx
    obtain ⟨y, hy, rfl⟩ := List.mem_map.1 (hrecords ▸ hx)
    obtain ⟨-, -, -, htype⟩ := frame_replaced e.id properties y
    refine ⟨htype.symm ▸ (h.edges_named y hy).1, ?_⟩
    simp only [replaced]
    split
    · exact hnamed
    · exact (h.edges_named y hy).2
  case indices_named => exact h.indices_named

private theorem unlink_of_edge? {id : EdgeId} {e : Edge} (he : g.edge? id = some e) :
    g.unlink id = some ({ g with
      edges := ⟨g.edges.slots.setIfInBounds id.index .tombstone, g.edges.live - 1⟩
      matrices := g.matrices.modify e.relationType.index fun m =>
        (m.remove e.source e.target e.id).1 }, e) := by
  have hfree := Arena.free_of_get? (show g.edges.get? id.index = some e from he)
  simp [unlink, he, hfree, Except.toOption]

private theorem records_unlink (h : g.Sound) {id : EdgeId} {e : Edge} (he : g.edge? id = some e) :
    Arena.records ⟨g.edges.slots.setIfInBounds id.index .tombstone, g.edges.live - 1⟩ =
      g.edges.records.filter fun x => x.id ≠ id := by
  rw [h.edges.records_set_tombstone he]
  apply List.filter_congr
  intro x _
  have hiff : x.id.index = id.index ↔ x.id = id := ⟨Id.ext_index, congrArg Id.index⟩
  simp only [ne_eq, hiff]

/-- What unlinking leaves alone, and which edge it takes. -/
theorem unlink_eq (h : g.Sound) {id : EdgeId} {e : Edge} (hu : g.unlink id = some (g', e)) :
    g.edge? id = some e ∧ g'.edges.records = (g.edges.records.filter fun x => x.id ≠ id) ∧
      g' = { g with edges := g'.edges, matrices := g'.matrices } := by
  cases he : g.edge? id with
  | none => simp [unlink, he] at hu
  | some f =>
    rw [unlink_of_edge? he, Option.some.injEq, Prod.mk.injEq] at hu
    obtain ⟨rfl, rfl⟩ := hu
    exact ⟨rfl, h.records_unlink he, rfl⟩

/-- Unlinking an edge keeps a graph sound. -/
theorem unlink (h : g.Sound) {id : EdgeId} {e : Edge} (hu : g.unlink id = some (g', e)) :
    g'.Sound := by
  obtain ⟨he, hrecords, hrest⟩ := h.unlink_eq hu
  rw [unlink_of_edge? he, Option.some.injEq, Prod.mk.injEq] at hu
  obtain ⟨rfl, -⟩ := hu
  obtain ⟨hmem, rfl⟩ := h.edge?_iff.1 he
  constructor
  case nodes => exact h.nodes
  case edges => exact h.edges.set_tombstone he
  case endpoints =>
    intro x hx
    rw [hrecords] at hx
    exact h.endpoints x (List.mem_filter.1 hx).1
  case members => exact h.members
  case matrices =>
    intro t
    have hold := h.matrices t
    rw [edgesOfType, hrecords,
      getD_modify _ _ _ (by simp [Matrix.remove, Matrix.between, Matrix.empty]),
      List.filter_filter]
    have hids : ((g.edgesOfType t).map (·.id)).Nodup :=
      h.edgeIds_nodup.sublist (List.filter_sublist.map _)
    split
    · rename_i ht
      have hedge : e ∈ g.edgesOfType t := List.mem_filter.2 ⟨hmem, by simp [ht]⟩
      simpa [edgesOfType, List.filter_filter, Bool.and_comm] using hold.remove hids hedge
    · rename_i ht
      have hsame : (g.edges.records.filter fun x => decide (x.relationType.index = t) &&
          decide (x.id ≠ e.id)) = g.edgesOfType t := by
        apply List.filter_congr
        intro x hx
        by_cases hxe : x.id = e.id
        · rw [h.edge_ext hx hmem hxe]
          have ht' : ¬e.relationType.index = t := fun hi => ht hi.symm
          simp [ht']
        · simp [hxe]
      rw [hsame]
      exact hold
  case catalog => exact h.catalog
  case nodes_named => exact h.nodes_named
  case edges_named =>
    intro x hx
    rw [hrecords] at hx
    exact h.edges_named x (List.mem_filter.1 hx).1
  case indices_named => exact h.indices_named

private theorem unlink_all (h : g.Sound) (ids : List EdgeId) :
    (ids.foldl (fun g e => (g.unlink e).elim g Prod.fst) g).Sound ∧
      (ids.foldl (fun g e => (g.unlink e).elim g Prod.fst) g).edges.records =
        (g.edges.records.filter fun x => x.id ∉ ids) ∧
      ∃ edges matrices, ids.foldl (fun g e => (g.unlink e).elim g Prod.fst) g =
        { g with edges, matrices } := by
  induction ids generalizing g with
  | nil => exact ⟨h, (List.filter_eq_self.2 (by simp)).symm, _, _, rfl⟩
  | cons id rest ih =>
    rw [List.foldl_cons]
    cases hu : g.unlink id with
    | none =>
      obtain ⟨hsound, hrecords, hrest⟩ := ih h
      refine ⟨hsound, hrecords.trans ?_, hrest⟩
      apply List.filter_congr
      intro x hx
      have hne : x.id ≠ id := by
        rintro rfl
        rw [unlink_of_edge? (h.edge?_iff.2 ⟨hx, rfl⟩)] at hu
        cases hu
      simp [hne]
    | some result =>
      obtain ⟨g', e⟩ := result
      obtain ⟨-, hfirst, hsame⟩ := h.unlink_eq hu
      obtain ⟨hsound, hrecords, edges, matrices, hrest⟩ := ih (h.unlink hu)
      refine ⟨hsound, ?_, edges, matrices, ?_⟩
      · refine hrecords.trans ?_
        rw [hfirst, List.filter_filter]
        apply List.filter_congr
        intro x _
        simp [Bool.and_comm]
      · refine hrest.trans ?_
        rw [hsame]

/-- Isolating a node removes exactly the edges that start or end there. -/
theorem isolate (h : g.Sound) (id : NodeId) :
    (g.isolate id).Sound ∧
      (g.isolate id).edges.records =
        (g.edges.records.filter fun e => ¬(e.source = id ∨ e.target = id)) ∧
      ∃ edges matrices, g.isolate id = { g with edges, matrices } := by
  obtain ⟨hsound, hrecords, hrest⟩ := h.unlink_all (g.incident id)
  refine ⟨hsound, hrecords.trans ?_, hrest⟩
  apply List.filter_congr
  intro e he
  have hiff : e.id ∈ g.incident id ↔ e.source = id ∨ e.target = id := by
    rw [h.mem_incident]
    constructor
    · rintro ⟨f, hf, hid, hends⟩
      exact h.edge_ext hf he hid ▸ hends
    · intro hends
      exact ⟨e, he, rfl, hends⟩
  simp only [hiff]

/-- The nodes that are left once one is gone. -/
theorem records_retire (h : g.Sound) {id : NodeId} {n : Node} (hn : g.node? id = some n) :
    Arena.records ⟨g.nodes.slots.setIfInBounds id.index .tombstone, g.nodes.live - 1⟩ =
      g.nodes.records.filter fun x => x.id ≠ id := by
  rw [h.nodes.records_set_tombstone hn]
  apply List.filter_congr
  intro x _
  have hiff : x.id.index = id.index ↔ x.id = id := ⟨Id.ext_index, congrArg Id.index⟩
  simp only [ne_eq, hiff]

/-- A node without edges may go, if its labels and the indices hear of it. -/
theorem removeNode (h : g.Sound) {id : NodeId} {n : Node} (hn : g.node? id = some n)
    (hedges : ∀ e ∈ g.edges.records, e.source ≠ id ∧ e.target ≠ id) :
    (({ g with
        nodes := ⟨g.nodes.slots.setIfInBounds id.index .tombstone, g.nodes.live - 1⟩ }.dismiss
      id n.labels.toList).announce (.deleted id n.labels.toList n.properties)).Sound := by
  obtain ⟨hmem, rfl⟩ := h.node?_iff.1 hn
  have hrecords := h.records_retire hn
  have hkeep {m : NodeId} (hm : m ∈ g.nodeIds) (hne : m ≠ n.id) :
      m ∈ (g.nodes.records.filter fun x => x.id ≠ n.id).map (·.id) := by
    obtain ⟨x, hx, rfl⟩ := List.mem_map.1 hm
    exact List.mem_map.2 ⟨x, List.mem_filter.2 ⟨hx, decide_eq_true hne⟩, rfl⟩
  constructor
  case nodes => exact h.nodes.set_tombstone hn
  case edges => exact h.edges
  case endpoints =>
    intro e he
    simp only [nodeIds, announce, dismiss, hrecords]
    exact ⟨hkeep (h.endpoints e he).1 (hedges e he).1, hkeep (h.endpoints e he).2 (hedges e he).2⟩
  case members =>
    intro label m
    refine (mem_dismiss _ _ _ label m).trans ?_
    simp only [announce, dismiss, hrecords, List.mem_filter, decide_eq_true_eq, h.members,
      Std.ExtTreeSet.mem_toList]
    constructor
    · rintro ⟨⟨x, hx, rfl, hl⟩, hnot⟩
      refine ⟨x, ⟨hx, fun hid => hnot ⟨hid, ?_⟩⟩, rfl, hl⟩
      rw [← h.node_ext hx hmem hid]
      exact Std.ExtTreeSet.contains_iff_mem.1 hl
    · rintro ⟨x, ⟨hx, hne⟩, rfl, hl⟩
      exact ⟨⟨x, hx, rfl, hl⟩, fun hh => hne hh.1⟩
  case matrices => exact h.matrices
  case catalog =>
    have hc := h.catalog.deleted h.nodeIds_nodup hmem
    rw [← hrecords] at hc
    exact hc
  case nodes_named =>
    intro x hx
    simp only [announce, dismiss, hrecords] at hx
    exact h.nodes_named x (List.mem_filter.1 hx).1
  case edges_named => exact h.edges_named
  case indices_named =>
    intro name hname
    exact h.indices_named name ((Catalog.names_apply _ _) ▸ hname)

/-- The members of a label are the live nodes that carry it. -/
theorem mem_labelled (h : g.Sound) {label : LabelId} {id : NodeId} :
    id ∈ g.labelled label ↔ ∃ n ∈ g.nodes.records, n.id = id ∧ n.hasLabel label := by
  rw [labelled, Std.ExtTreeSet.mem_toList, h.members]

/-- Building an index on registered names keeps a graph sound. -/
theorem buildIndex (h : g.Sound) {label : LabelId} {property : PropertyId}
    (hlabel : (g.schema.labelName? label).isSome)
    (hproperty : (g.schema.propertyName? property).isSome) :
    (g.buildIndex label property).1.Sound := by
  have hmem (n : Node) : n ∈ (g.labelled label).filterMap g.node? ↔
      n ∈ g.nodes.records ∧ n.hasLabel label := by
    simp only [List.mem_filterMap, h.mem_labelled, h.node?_iff]
    constructor
    · rintro ⟨_, ⟨m, hm, rfl, hl⟩, hn, hid⟩
      exact ⟨hn, h.node_ext hm hn hid.symm ▸ hl⟩
    · rintro ⟨hn, hl⟩
      exact ⟨n.id, ⟨n, hn, rfl, hl⟩, hn, rfl⟩
  exact { h with
    catalog := h.catalog.create ⟨label, property⟩ hmem
    indices_named := fun name hname => by
      simp only [Graph.buildIndex, Catalog.names_create] at hname
      split at hname
      · exact h.indices_named name hname
      · rcases List.mem_append.1 hname with hold | hnew
        · exact h.indices_named name hold
        · rw [List.mem_singleton.1 hnew]
          exact ⟨hlabel, hproperty⟩ }

/-- Dropping an index from the catalog keeps a graph sound. -/
theorem dropCatalog (h : g.Sound) (name : IndexName) :
    Sound { g with catalog := (g.catalog.drop name).1 } :=
  { h with
    catalog := h.catalog.drop name
    indices_named := fun other hother => h.indices_named other (List.mem_of_mem_erase
      ((Catalog.names_drop _ _) ▸ hother)) }

end Sound

end Graph

end Plexus
