import Plexus.Proofs.Snapshot.File
import Plexus.Proofs.Snapshot.Fill

/-!
# The graph of a written body

The body of a sound graph passes validation, and each of its entries fills a slot with what the
slot held before. Members, matrices and postings are worked out anew; a graph's
soundness says what they come to.
-/

namespace Plexus

/-- The identifiers of names are words of 32 bits, and the body's length is one of 64 bits. -/
structure Graph.FitsWords (g : Graph) : Prop where
  labels : g.schema.labels.size ≤ 2 ^ 32
  relationTypes : g.schema.relationTypes.size ≤ 2 ^ 32
  properties : g.schema.properties.size ≤ 2 ^ 32
  body : (Body.ofGraph g).toBytes.length ≤ Snapshot.maxLength

private theorem ofNat_toNat_word32 {n : Nat} (h : n < 2 ^ 32) : (UInt32.ofNat n).toNat = n :=
  Nat.mod_eq_of_lt h

private theorem ofNat_toNat_word64 {n : Nat} (h : n < 2 ^ 64) : (UInt64.ofNat n).toNat = n :=
  Nat.mod_eq_of_lt h

namespace Graph

variable {g : Graph}

private theorem index_lt (part : Schema.Part) {id : Id part.kind}
    (hid : (g.schema.resolve? part id).isSome)
    (hsize : (g.schema.table part).size ≤ 2 ^ 32) : id.index < 2 ^ 32 := by
  have hlt : id.index < (g.schema.table part).names.length := Schema.isSome_resolve?_iff.1 hid
  exact Nat.lt_of_lt_of_le hlt hsize

namespace FitsWords

/-- The labels of a graph that fits are numbered by words. -/
theorem label (hf : g.FitsWords) {l : LabelId} (hl : (g.schema.labelName? l).isSome) :
    l.index < 2 ^ 32 :=
  index_lt .label hl hf.labels

/-- The relationship types of a graph that fits are numbered by words. -/
theorem type (hf : g.FitsWords) {t : TypeId} (ht : (g.schema.typeName? t).isSome) :
    t.index < 2 ^ 32 :=
  index_lt .relationType ht hf.relationTypes

/-- The property keys of a graph that fits are numbered by words. -/
theorem property (hf : g.FitsWords) {k : PropertyId} (hk : (g.schema.propertyName? k).isSome) :
    k.index < 2 ^ 32 :=
  index_lt .property hk hf.properties

/-- Every slot takes at least a byte of the body. -/
theorem capacity_lt (hf : g.FitsWords) :
    g.nodes.capacity < 2 ^ 64 ∧ g.edges.capacity < 2 ^ 64 := by
  have hnodes := Codec.lossless_nodeEntry.length_le (Body.ofGraph g).nodes
  have hedges := Codec.lossless_edgeEntry.length_le (Body.ofGraph g).edges
  have hbody := hf.body
  simp only [Body.toBytes, Codec.body, Codec.map, Codec.pair, Codec.list, List.length_append,
    Snapshot.maxLength] at hbody
  have hnodesLength : (Body.ofGraph g).nodes.length = g.nodes.capacity := by
    simp [Body.ofGraph, Arena.capacity]
  have hedgesLength : (Body.ofGraph g).edges.length = g.edges.capacity := by
    simp [Body.ofGraph, Arena.capacity]
  omega

end FitsWords

end Graph

namespace Body

variable {g : Graph}

/-- A property map is the map of its own list. -/
theorem propertyMap_propertyList {properties : PropertyMap}
    (hk : ∀ k ∈ properties, k.index < 2 ^ 32) :
    propertyMap (propertyList properties) = properties := by
  have hpairs : (propertyList properties).map (fun p => (Id.mk p.1.toNat, p.2)) =
      properties.toList := by
    rw [propertyList, List.map_map]
    refine (List.map_congr_left fun p hp => ?_).trans (List.map_id _)
    have hkey : p.1 ∈ properties := by
      rw [Std.ExtTreeMap.mem_iff_isSome_getElem?,
        Std.ExtTreeMap.mem_toList_iff_getElem?_eq_some.1 hp]
      rfl
    simp only [Function.comp_apply, ofNat_toNat_word32 (hk p.1 hkey), id_eq]
  refine (congrArg PropertyMap.ofPairs hpairs).trans ?_
  rw [PropertyMap.ofPairs]
  apply Std.ExtTreeMap.ext_getElem?
  intro k
  cases hvalue : properties[k]? with
  | some value =>
    exact Std.ExtTreeMap.getElem?_ofList_of_mem Std.ReflCmp.compare_self
      properties.distinct_keys_toList (Std.ExtTreeMap.mem_toList_iff_getElem?_eq_some.2 hvalue)
  | none =>
    apply Std.ExtTreeMap.getElem?_ofList_of_contains_eq_false
    rw [Std.ExtTreeMap.map_fst_toList_eq_keys, Bool.eq_false_iff]
    intro hcontains
    have hmem : k ∈ properties := Std.ExtTreeMap.mem_keys.1 (List.contains_iff_mem.1 hcontains)
    rw [Std.ExtTreeMap.mem_iff_isSome_getElem?, hvalue] at hmem
    cases hmem

/-- The labels of a node are the set of their own list. -/
theorem ofLabels_toList {n : Node} (hl : ∀ l ∈ n.labels, l.index < 2 ^ 32) :
    Node.ofLabels n.id ((n.labels.toList.map fun l => UInt32.ofNat l.index).map fun l => ⟨l.toNat⟩)
      n.properties = n := by
  have hlabels : ((n.labels.toList.map fun l => UInt32.ofNat l.index).map
      fun l => (⟨l.toNat⟩ : LabelId)) = n.labels.toList := by
    rw [List.map_map]
    refine (List.map_congr_left fun l hmem => ?_).trans (List.map_id _)
    simp only [Function.comp_apply,
      ofNat_toNat_word32 (hl l (Std.ExtTreeSet.mem_toList.1 hmem)), id_eq]
  have hset : Std.ExtTreeSet.ofList n.labels.toList = n.labels := by
    apply Std.ExtTreeSet.ext_mem
    intro l
    rw [Std.ExtTreeSet.mem_ofList, List.contains_iff_mem, Std.ExtTreeSet.mem_toList]
  rw [Node.ofLabels, hlabels, hset]

private theorem unknownProperty?_propertyList (hf : g.FitsWords) {properties : PropertyMap}
    (hk : ∀ k ∈ properties, (g.schema.propertyName? k).isSome) :
    (ofGraph g).unknownProperty? (propertyList properties) = none := by
  apply List.find?_eq_none.2
  intro key hkey
  simp only [propertyList, List.map_map, List.mem_map] at hkey
  obtain ⟨p, hp, rfl⟩ := hkey
  have hmem : p.1 ∈ properties := by
    rw [Std.ExtTreeMap.mem_iff_isSome_getElem?,
      Std.ExtTreeMap.mem_toList_iff_getElem?_eq_some.1 hp]
    rfl
  have hname := hk p.1 hmem
  have hlt : p.1.index < g.schema.properties.names.length := Schema.isSome_resolve?_iff.1 hname
  simpa [ofNat_toNat_word32 (hf.property hname), ofGraph] using hlt

/-- A slot that a live record is written to is read as live. -/
theorem isLiveNode_ofGraph (hg : g.Sound) (hf : g.FitsWords) {id : NodeId}
    (hid : id ∈ g.nodeIds) : (ofGraph g).isLiveNode (UInt64.ofNat id.index) = true := by
  obtain ⟨n, hn⟩ := Arena.isLive_iff.1 (hg.hasNode_iff.2 hid)
  have hlt := Nat.lt_trans (Arena.lt_capacity_of_get? hn) hf.capacity_lt.1
  have hslot : g.nodes.slots[id.index]? = some (.live n) := Arena.get?_eq_some_iff.1 hn
  simp [isLiveNode, ofGraph, ofNat_toNat_word64 hlt, hslot, nodeEntry, Slot.record?]

private theorem mem_records_of_slot {α : Type} {a : Arena α} {r : α}
    (hr : Slot.live r ∈ a.slots.toList) : r ∈ a.records :=
  List.mem_filterMap.2 ⟨_, hr, rfl⟩

private theorem checkNode_nodeEntry (hg : g.Sound) (hf : g.FitsWords) {slot : Slot Node}
    (hslot : slot ∈ g.nodes.slots.toList) (i : Nat) :
    (ofGraph g).checkNode i (nodeEntry slot) = .ok () := by
  cases slot with
  | reserved => rfl
  | tombstone => rfl
  | live n =>
    obtain ⟨hlabels, hproperties⟩ := hg.nodes_named n (mem_records_of_slot hslot)
    have hfind : (n.labels.toList.map fun l => UInt32.ofNat l.index).find?
        (fun l => (ofGraph g).labels.length ≤ l.toNat) = none := by
      apply List.find?_eq_none.2
      intro label hlabel
      obtain ⟨l, hl, rfl⟩ := List.mem_map.1 hlabel
      have hname := hlabels l (Std.ExtTreeSet.mem_toList.1 hl)
      have hlt : l.index < g.schema.labels.names.length := Schema.isSome_resolve?_iff.1 hname
      simpa [ofNat_toNat_word32 (hf.label hname), ofGraph] using hlt
    simp only [nodeEntry, Slot.record?, checkNode, hfind,
      unknownProperty?_propertyList hf hproperties]

private theorem checkEdge_edgeEntry (hg : g.Sound) (hf : g.FitsWords) {slot : Slot Edge}
    (hslot : slot ∈ g.edges.slots.toList) (i : Nat) :
    (ofGraph g).checkEdge i (edgeEntry slot) = .ok () := by
  cases slot with
  | reserved => rfl
  | tombstone => rfl
  | live e =>
    have he := mem_records_of_slot hslot
    obtain ⟨htype, hproperties⟩ := hg.edges_named e he
    have hsource := isLiveNode_ofGraph hg hf (hg.endpoints e he).1
    have htarget := isLiveNode_ofGraph hg hf (hg.endpoints e he).2
    have hlt : e.relationType.index < g.schema.relationTypes.names.length :=
      Schema.isSome_resolve?_iff.1 htype
    have hword : ¬(ofGraph g).relationTypes.length ≤ (UInt32.ofNat e.relationType.index).toNat := by
      rw [ofNat_toNat_word32 (hf.type htype)]
      exact Nat.not_le.2 hlt
    simp only [edgeEntry, Slot.record?, checkEdge, hsource, htarget, Bool.not_true, Bool.or_self,
      Bool.false_eq_true, if_false, if_neg hword, unknownProperty?_propertyList hf hproperties]

private theorem checkIndex_ofGraph (hg : g.Sound) (hf : g.FitsWords) {name : IndexName}
    (hname : name ∈ g.catalog.names) :
    (ofGraph g).checkIndex
      ⟨UInt32.ofNat name.label.index, UInt32.ofNat name.property.index⟩ = .ok () := by
  obtain ⟨hlabel, hproperty⟩ := hg.indices_named name hname
  have hlt : name.label.index < g.schema.labels.names.length := Schema.isSome_resolve?_iff.1 hlabel
  have hlt' : name.property.index < g.schema.properties.names.length :=
    Schema.isSome_resolve?_iff.1 hproperty
  have hlabels : (ofGraph g).labels = g.schema.labels.names := rfl
  have hproperties : (ofGraph g).properties = g.schema.properties.names := rfl
  simp only [checkIndex, ofNat_toNat_word32 (hf.label hlabel),
    ofNat_toNat_word32 (hf.property hproperty), hlabels, hproperties,
    decide_eq_false (Nat.not_le.2 hlt),
    decide_eq_false (Nat.not_le.2 hlt'), Bool.or_self, Bool.false_eq_true, if_false]

/-- The body of a sound graph is valid. -/
theorem validate_ofGraph (hg : g.Sound) (hf : g.FitsWords) : (ofGraph g).validate = .ok () := by
  refine validate_eq_ok.2 ⟨fun p hp => ?_, fun p hp => ?_, fun entry hentry => ?_⟩
  · obtain ⟨slot, hslot, heq⟩ := List.mem_map.1 (List.fst_mem_of_mem_zipIdx hp)
    rw [← heq]
    exact checkNode_nodeEntry hg hf hslot _
  · obtain ⟨slot, hslot, heq⟩ := List.mem_map.1 (List.fst_mem_of_mem_zipIdx hp)
    rw [← heq]
    exact checkEdge_edgeEntry hg hf hslot _
  · obtain ⟨name, hname, rfl⟩ := List.mem_map.1 hentry
    exact checkIndex_ofGraph hg hf hname

private theorem slot_nodeEntry (hg : g.Sound) (hf : g.FitsWords) {i : Nat} {slot : Slot Node}
    (hslot : g.nodes.slots[i]? = some slot) : (nodeEntry slot).slot i = slot := by
  cases slot with
  | reserved => exact absurd hslot (hg.nodes.settled i)
  | tombstone => rfl
  | live n =>
    have hn : g.nodes.get? i = some n := Arena.get?_eq_some_iff.2 hslot
    obtain ⟨hlabels, hproperties⟩ := hg.nodes_named n (Arena.mem_records.2 ⟨i, hn⟩)
    have hid : (⟨i⟩ : NodeId) = n.id := Id.ext_index (hg.nodes.slotOf_eq i n hn).symm
    have hnode := ofLabels_toList (n := n) fun l hl => hf.label (hlabels l hl)
    have hmap := propertyMap_propertyList fun k hk => hf.property (hproperties k hk)
    simp only [nodeEntry, Slot.record?, NodeEntry.slot, hid, hmap, hnode]

private theorem slot_edgeEntry (hg : g.Sound) (hf : g.FitsWords) {i : Nat} {slot : Slot Edge}
    (hslot : g.edges.slots[i]? = some slot) : (edgeEntry slot).slot i = slot := by
  cases slot with
  | reserved => exact absurd hslot (hg.edges.settled i)
  | tombstone => rfl
  | live e =>
    have hget : g.edges.get? i = some e := Arena.get?_eq_some_iff.2 hslot
    have he : e ∈ g.edges.records := Arena.mem_records.2 ⟨i, hget⟩
    obtain ⟨htype, hproperties⟩ := hg.edges_named e he
    have hid : (⟨i⟩ : EdgeId) = e.id := Id.ext_index (hg.edges.slotOf_eq i e hget).symm
    have hword (id : NodeId) (hid : id ∈ g.nodeIds) :
        (⟨(UInt64.ofNat id.index).toNat⟩ : NodeId) = id := by
      obtain ⟨n, hn⟩ := Arena.isLive_iff.1 (hg.hasNode_iff.2 hid)
      exact Id.ext_index (ofNat_toNat_word64
        (Nat.lt_trans (Arena.lt_capacity_of_get? hn) hf.capacity_lt.1))
    have htypeWord : (⟨(UInt32.ofNat e.relationType.index).toNat⟩ : TypeId) = e.relationType :=
      Id.ext_index (ofNat_toNat_word32 (hf.type htype))
    have hmap := propertyMap_propertyList fun k hk => hf.property (hproperties k hk)
    simp only [edgeEntry, Slot.record?, EdgeEntry.slot, hid, hmap, htypeWord,
      hword _ (hg.endpoints e he).1, hword _ (hg.endpoints e he).2]

private theorem mapIdx_slot {α β : Type} {slots : Array (Slot α)} {write : Slot α → β}
    {slotOf : Nat → β → Slot α}
    (h : ∀ i slot, slots[i]? = some slot → slotOf i (write slot) = slot) :
    (slots.toList.map write).mapIdx slotOf = slots.toList := by
  apply List.ext_getElem?
  intro i
  rw [List.getElem?_mapIdx, List.getElem?_map, Option.map_map, Array.getElem?_toList]
  cases hslot : slots[i]? with
  | none => rfl
  | some slot => exact congrArg some (h i slot hslot)

private theorem name_indexEntry (hg : g.Sound) (hf : g.FitsWords) {name : IndexName}
    (hname : name ∈ g.catalog.names) :
    IndexEntry.name ⟨UInt32.ofNat name.label.index, UInt32.ofNat name.property.index⟩ = name := by
  obtain ⟨hlabel, hproperty⟩ := hg.indices_named name hname
  rw [IndexEntry.name, ofNat_toNat_word32 (hf.label hlabel),
    ofNat_toNat_word32 (hf.property hproperty)]

private theorem names_ofGraph (hg : g.Sound) (hf : g.FitsWords) :
    ((ofGraph g).indices.map IndexEntry.name).eraseDups = g.catalog.names := by
  have hnames : (ofGraph g).indices.map IndexEntry.name = g.catalog.names := by
    rw [ofGraph, List.map_map]
    exact (List.map_congr_left fun name hname => name_indexEntry hg hf hname).trans (List.map_id _)
  rw [hnames]
  exact eraseDups_of_nodup hg.catalog.names_nodup

/-- Building the body of a sound graph gives a sound graph with the same slots and indices. -/
theorem build_ofGraph (hg : g.Sound) (hf : g.FitsWords) (settings : TraversalSettings) :
    ∃ h, (ofGraph g).build settings = .ok h ∧ h.Sound ∧ h.Filled g.schema settings
      g.nodes.slots.toList g.edges.slots.toList g.catalog.names := by
  have hvalid := validate_ofGraph hg hf
  have hnames : (ofGraph g).Names g.schema := ⟨rfl, rfl, rfl⟩
  obtain ⟨h, hbuild, hfilled⟩ := filled_build hvalid hnames settings
  have hnodes : (ofGraph g).nodes.mapIdx NodeEntry.slot = g.nodes.slots.toList :=
    mapIdx_slot fun i slot hslot => slot_nodeEntry hg hf hslot
  have hedges : (ofGraph g).edges.mapIdx EdgeEntry.slot = g.edges.slots.toList :=
    mapIdx_slot fun i slot hslot => slot_edgeEntry hg hf hslot
  rw [hnodes, hedges, names_ofGraph hg hf] at hfilled
  exact ⟨h, hbuild, (sound_build hvalid hbuild).1, hfilled⟩

end Body

end Plexus
