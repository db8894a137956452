import Plexus.Operator.Matching
import Plexus.Proofs.Graph.Reachable
import Plexus.Proofs.IndexKey

/-!
# Indices against a scan

An index that has followed any run of operations is the index that would be built from the nodes as
they are. What it lists for a value is what a scan over the nodes with its label finds, and what a
leaf lists without it.
-/

namespace Plexus

/-- A node stands in an index under a key of every value that its property equals. -/
theorem Node.key?_common {n : Node} {label : LabelId} {property : PropertyId} {value : Scalar} :
    (∃ k, IndexKey.ofScalar? value = some k ∧ n.key? ⟨label, property⟩ = some k) ↔
      n.hasLabel label = true ∧
        ∃ v, n.property? property = some v ∧ v.equals value = some true := by
  simp only [← IndexKey.ofScalar?_common, Node.key?]
  constructor
  · rintro ⟨k, hk, hkey⟩
    split at hkey
    · rename_i hl
      obtain ⟨v, hv, hvk⟩ := Option.bind_eq_some_iff.1 hkey
      exact ⟨hl, v, hv, k, hvk, hk⟩
    · cases hkey
  · rintro ⟨hl, v, hv, k, hvk, hk⟩
    refine ⟨k, hk, ?_⟩
    rw [if_pos hl, hv]
    exact hvk

namespace Graph

/-- The live nodes with a label whose property equals a value, found by a scan. -/
def scanFor (g : Graph) (label : LabelId) (property : PropertyId) (value : Scalar) : List NodeId :=
  (g.nodes.records.filter fun n => n.hasLabel label ∧
    (n.property? property).any fun v => v.equals value = some true).map (·.id)

/-- An index agrees with the nodes: it is the one that dropping and defining it again would build,
by names or by identifiers, and it lists what a scan finds and a leaf lists after the drop. -/
structure IndexAgrees (g : Graph) (label property : String) (name : IndexName) (p : Postings) :
    Prop where
  label_named : g.schema.labelId? label = some name.label
  property_named : g.schema.propertyId? property = some name.property
  kept : g.catalog.find? name = some p
  dropped : (g.dropIndex label property).1.hasIndex name.label name.property = false
  rebuilt :
    ((g.dropIndex label property).1.createIndex label property).1.catalog.find? name = some p
  rebuiltById : ∃ h, (g.dropIndex label property).1.createIndexById name.label name.property =
    .ok (h, true) ∧ h.catalog.find? name = some p
  lookup (value : Scalar) :
    g.lookup? name.label name.property value = some (g.scanFor name.label name.property value)
  scan_ascending (value : Scalar) :
    (g.scanFor name.label name.property value).Pairwise (· < ·)
  listed (value : Scalar) :
    (Access.index name.label name.property value).nodes (g.dropIndex label property).1 =
      g.scanFor name.label name.property value

variable {g h : Graph} {label : LabelId} {property : PropertyId} {name : IndexName}
  {value : Scalar} {id : NodeId}

/-- A scan for a property value finds the labelled nodes with a value that is equal to it. -/
theorem mem_scanFor : id ∈ g.scanFor label property value ↔ ∃ n ∈ g.nodes.records, n.id = id ∧
    n.hasLabel label = true ∧ ∃ v, n.property? property = some v ∧ v.equals value = some true := by
  simp only [scanFor, List.mem_map, List.mem_filter, decide_eq_true_eq, Option.any_eq_true]
  constructor
  · rintro ⟨n, ⟨hn, hwanted⟩, hid⟩
    exact ⟨n, hn, hid, hwanted⟩
  · rintro ⟨n, hn, hid, hwanted⟩
    exact ⟨n, ⟨hn, hwanted⟩, hid⟩

/-- Identifiers that have names may be indexed. -/
theorem createIndexById_eq {name : IndexName} (hname : name.Named g.schema) :
    g.createIndexById name.label name.property = .ok (g.buildIndex name.label name.property) := by
  have hlabels : g.checkLabels [name.label] = .ok () :=
    checkLabels_eq_ok.2 (List.forall_mem_singleton.2 hname.1)
  have hproperty : (g.schema.propertyName? name.property).isNone = false := by
    rw [Option.isNone_eq_false_iff]
    exact hname.2
  unfold createIndexById
  rw [hlabels, hproperty]
  rfl

namespace Sound

/-- A scan lists the nodes it finds by ascending ids. -/
theorem scanFor_ascending (hg : g.Sound) : (g.scanFor label property value).Pairwise (· < ·) := by
  rw [scanFor, List.pairwise_map]
  exact hg.nodes.ascending.filter _

/-- What an index lists for a value is what a scan finds. -/
theorem lookup?_eq (hg : g.Sound) (hindex : g.hasIndex label property = true) (value : Scalar) :
    g.lookup? label property value = some (g.scanFor label property value) := by
  obtain ⟨p, hp⟩ := Catalog.mem_names.1 (Catalog.has_iff.1 hindex)
  have hholds := hg.catalog.holds _ p hp
  rw [lookup?, Catalog.lookup?, hp, Option.map_some]
  refine congrArg some (Id.eq_of_ascending ?_ hg.scanFor_ascending fun id => ?_)
  · unfold Postings.get
    split
    · exact List.Pairwise.nil
    · exact Id.ascending_toList _
  · have hget : id ∈ p.get value ↔ ∃ k, IndexKey.ofScalar? value = some k ∧
        (IndexName.mk label property).Holds g.nodes.records k id := by
      unfold Postings.get
      cases IndexKey.ofScalar? value with
      | none => simp
      | some k => simp [hholds.mem_iff k id]
    rw [hget, mem_scanFor]
    constructor
    · rintro ⟨k, hk, n, hn, hid, hkey⟩
      exact ⟨n, hn, hid, Node.key?_common.1 ⟨k, hk, hkey⟩⟩
    · rintro ⟨n, hn, hid, hwanted⟩
      obtain ⟨k, hk, hkey⟩ := Node.key?_common.2 hwanted
      exact ⟨k, hk, n, hn, hid, hkey⟩

/-- A leaf on an index lists what a scan finds, whether or not the index is there. -/
theorem nodes_index (hg : g.Sound) (label : LabelId) (property : PropertyId) (value : Scalar) :
    (Access.index label property value).nodes g = g.scanFor label property value := by
  rw [Access.nodes]
  cases hindex : g.hasIndex label property with
  | true => rw [hg.lookup?_eq hindex]
  | false =>
    have hnone : g.lookup? label property value = none := by
      have hfind : (g.catalog.find? ⟨label, property⟩).isSome = false := hindex
      rw [lookup?, Catalog.lookup?, Option.map_eq_none_iff]
      simpa using hfind
    rw [hnone]
    refine Id.eq_of_ascending ((Id.ascending_toList _).filter _) hg.scanFor_ascending fun id => ?_
    rw [List.mem_filter, hg.mem_labelled, mem_scanFor]
    simp only [Option.any_eq_true, Option.bind_eq_some_iff, hg.node?_iff, decide_eq_true_eq]
    constructor
    · rintro ⟨⟨n, hn, hid, hl⟩, v, ⟨m, ⟨hm, hid'⟩, hv⟩, heq⟩
      obtain rfl : m = n := hg.node_ext hm hn (hid'.trans hid.symm)
      exact ⟨m, hm, hid, hl, v, hv, heq⟩
    · rintro ⟨n, hn, hid, hl, v, hv, heq⟩
      exact ⟨⟨n, hn, hid, hl⟩, v, ⟨n, ⟨hn, hid⟩, hv⟩, heq⟩

/-- Two sound graphs with the same nodes have the same postings in an index of both. -/
theorem postings_unique (hg : g.Sound) (hh : h.Sound) (hnodes : h.nodes = g.nodes)
    {p q : Postings} (hp : g.catalog.find? name = some p) (hq : h.catalog.find? name = some q) :
    p = q := by
  have hq' := hh.catalog.holds name q hq
  rw [hnodes] at hq'
  exact (hg.catalog.holds name p hp).unique hq'

/-- An index that is dropped and built again is the one it was. -/
theorem find?_rebuilt (hg : g.Sound) {p : Postings} (hp : g.catalog.find? name = some p) :
    let dropped : Graph := { g with catalog := (g.catalog.drop name).1 }
    dropped.hasIndex name.label name.property = false ∧
      (dropped.buildIndex name.label name.property).1.catalog.find? name = some p ∧
        dropped.createIndexById name.label name.property =
          .ok ((dropped.buildIndex name.label name.property).1, true) := by
  intro dropped
  have hnot : name ∉ dropped.catalog.names := by
    rw [Catalog.names_drop]
    exact hg.catalog.names_nodup.not_mem_erase
  have hhas : dropped.catalog.has name = false :=
    Bool.eq_false_iff.2 fun hhas => hnot (Catalog.has_iff.1 hhas)
  have hnamed : name.Named dropped.schema := hg.indices_named name (Catalog.mem_names.2 ⟨p, hp⟩)
  have hbuilt := (hg.dropCatalog name).buildIndex hnamed.1 hnamed.2
  have hmem : name ∈ (dropped.buildIndex name.label name.property).1.catalog.names := by
    simp only [Graph.buildIndex, Catalog.names_create, if_neg hnot]
    exact List.mem_append_right _ List.mem_cons_self
  obtain ⟨q, hq⟩ := Catalog.mem_names.1 hmem
  refine ⟨hhas, ?_, ?_⟩
  · rw [hg.postings_unique hbuilt rfl hp hq]
    exact hq
  · have hcreated : (dropped.buildIndex name.label name.property).2 = true := by
      simp [Graph.buildIndex, Catalog.create, hhas]
    rw [createIndexById_eq hnamed, ← hcreated]

end Sound

/-- In every reachable graph each index agrees with the nodes, whatever operations it followed. -/
theorem Reachable.indexAgrees (hg : g.Reachable) (hindex : g.hasIndex label property = true) :
    ∃ labelName propertyName p, g.IndexAgrees labelName propertyName ⟨label, property⟩ p := by
  obtain ⟨p, hp⟩ := Catalog.mem_names.1 (Catalog.has_iff.1 hindex)
  obtain ⟨hlabel, hproperty⟩ := hg.sound.indices_named _ (Catalog.has_iff.1 hindex)
  obtain ⟨labelName, hlabelName⟩ := Option.isSome_iff_exists.1 hlabel
  obtain ⟨propertyName, hpropertyName⟩ := Option.isSome_iff_exists.1 hproperty
  have hl : g.schema.labelId? labelName = some label := Schema.lookup?_of_resolve? hlabelName
  have hk : g.schema.propertyId? propertyName = some property :=
    Schema.lookup?_of_resolve? hpropertyName
  obtain ⟨hdropped, hfind, hcreated⟩ := hg.sound.find?_rebuilt hp
  have hdrop : (g.dropIndex labelName propertyName).1 =
      { g with catalog := (g.catalog.drop ⟨label, property⟩).1 } := by
    simp only [dropIndex, hl, hk]
  have hdroppedSound := hg.sound.dropIndex labelName propertyName
  refine ⟨labelName, propertyName, p, ?_⟩
  exact {
    label_named := hl
    property_named := hk
    kept := hp
    dropped := hdrop ▸ hdropped
    rebuilt := by
      rw [hdrop, createIndex, Schema.intern_of_lookup? hl]
      dsimp only
      rw [Schema.intern_of_lookup? hk]
      exact hfind
    rebuiltById := ⟨_, hdrop ▸ hcreated, hfind⟩
    lookup := hg.sound.lookup?_eq hindex
    scan_ascending := fun value => hg.sound.scanFor_ascending
    listed := fun value => by
      rw [hdroppedSound.nodes_index, hdrop]
      rfl }

/-- An index that followed a change from one to negative zero, beside a zero and a null. -/
theorem indexAgrees_after_change :
    let g := [Mutation.createNode ["A"] [("n", .number .zero)], .createIndex "A" "n",
      .createNode ["A"] [("n", .null)], .createNode ["A"] [("n", .boolean true)],
      .setNodeProperty ⟨2⟩ "n" (.number (.ofMagnitude true 0))].foldl Graph.after (.empty {})
    g.hasIndex ⟨0⟩ ⟨0⟩ = true ∧
      (∃ labelName propertyName p, g.IndexAgrees labelName propertyName ⟨⟨0⟩, ⟨0⟩⟩ p) ∧
      g.scanFor ⟨0⟩ ⟨0⟩ (.number .zero) = [⟨0⟩, ⟨2⟩] ∧ g.scanFor ⟨0⟩ ⟨0⟩ .null = [] := by
  have hreach := Reachable.foldl (.empty {}) [Mutation.createNode ["A"] [("n", .number .zero)],
    .createIndex "A" "n", .createNode ["A"] [("n", .null)],
    .createNode ["A"] [("n", .boolean true)],
    .setNodeProperty ⟨2⟩ "n" (.number (.ofMagnitude true 0))]
  have hindex : Graph.hasIndex ([Mutation.createNode ["A"] [("n", .number .zero)],
      .createIndex "A" "n", .createNode ["A"] [("n", .null)],
      .createNode ["A"] [("n", .boolean true)],
      .setNodeProperty ⟨2⟩ "n" (.number (.ofMagnitude true 0))].foldl Graph.after (.empty {}))
        ⟨0⟩ ⟨0⟩ = true := by decide +kernel
  exact ⟨hindex, Reachable.indexAgrees hreach hindex, by decide +kernel, by decide +kernel⟩

end Graph

end Plexus
