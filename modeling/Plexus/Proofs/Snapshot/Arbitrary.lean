import Plexus.Proofs.Snapshot.Fill

/-!
# Graphs of arbitrary bodies

A body need not have been written from a graph: its labels may be unsorted, and labels, properties
and indices may be listed twice. Whatever it lists, it is refused if it is invalid. If it is valid,
then a name that is listed twice is all that can go wrong, and otherwise its graph is sound and
holds what the entries say.
-/

namespace Plexus

/-- The value that is listed last for a property. -/
def PropertyList.last? (properties : PropertyList) (key : PropertyId) : Option Scalar :=
  properties.findSomeRev? fun (listed, value) =>
    if listed.toNat = key.index then some value else none

/-- What a node slot holds is what an entry says. -/
def NodeEntry.Describes (i : Nat) : NodeEntry → Slot Node → Prop
  | .tombstone, slot => slot = .tombstone
  | .live labels properties, slot => ∃ n, slot = .live n ∧ n.id = ⟨i⟩ ∧
      (∀ l, n.hasLabel l = true ↔ ∃ listed ∈ labels, listed.toNat = l.index) ∧
        ∀ k, n.property? k = properties.last? k

/-- What an edge slot holds is what an entry says. -/
def EdgeEntry.Describes (i : Nat) : EdgeEntry → Slot Edge → Prop
  | .tombstone, slot => slot = .tombstone
  | .live source target relationType properties, slot => ∃ e, slot = .live e ∧ e.id = ⟨i⟩ ∧
      e.source = ⟨source.toNat⟩ ∧ e.target = ⟨target.toNat⟩ ∧
        e.relationType = ⟨relationType.toNat⟩ ∧ ∀ k, e.property? k = properties.last? k

namespace Body

/-- No table lists a name twice. -/
def DistinctNames (b : Body) : Prop :=
  b.labels.Nodup ∧ b.relationTypes.Nodup ∧ b.properties.Nodup

instance : DecidablePred DistinctNames := fun b =>
  inferInstanceAs (Decidable (b.labels.Nodup ∧ b.relationTypes.Nodup ∧ b.properties.Nodup))

/-- A graph holds what a body says: its names, an entry in each slot, and the listed indices without
repeats, in the order in which they are first listed. -/
structure Describes (b : Body) (g : Graph) : Prop where
  names : b.Names g.schema
  nodes (i : Nat) : Option.Rel (NodeEntry.Describes i) b.nodes[i]? g.nodes.slots[i]?
  edges (i : Nat) : Option.Rel (EdgeEntry.Describes i) b.edges[i]? g.edges.slots[i]?
  indices : g.catalog.names = (b.indices.map IndexEntry.name).eraseDups

end Body

/-- Bytes are a snapshot, intact and inflated in full, of which the body is read. -/
def Snapshot.Holds (bytes : Bytes) (b : Body) : Prop :=
  ∃ header stored plain, Header.parse bytes = .ok header ∧ split header bytes = .ok stored ∧
    (if header.isCompressed then inflate stored else .ok stored) = .ok plain ∧
      Body.ofBytes plain = .ok b

namespace Body

variable {b : Body} {g : Graph} {schema : Schema} {settings : TraversalSettings}

private theorem mk_eq_iff {kind : Kind} {i : Nat} {id : Id kind} : ⟨i⟩ = id ↔ i = id.index := by
  cases id
  exact Id.mk.injEq _ _ ▸ Iff.rfl

/-- Of the values that are listed for a property the last one counts. -/
theorem getElem?_propertyMap (properties : PropertyList) (k : PropertyId) :
    (propertyMap properties)[k]? = properties.last? k := by
  rw [propertyMap, PropertyMap.ofPairs, Std.ExtTreeMap.ofList_eq_insertMany_empty,
    Std.ExtTreeMap.getElem?_insertMany_list, Std.ExtTreeMap.getElem?_empty, Option.or_none,
    PropertyList.last?]
  induction properties with
  | nil => rfl
  | cons p rest ih =>
    have hkey : compare (⟨p.1.toNat⟩ : PropertyId) k = .eq ↔ p.1.toNat = k.index :=
      Std.LawfulEqOrd.compare_eq_iff_eq.trans mk_eq_iff
    simp only [List.map_cons, List.findSomeRev?, ih, hkey]

/-- The slot that is written from an entry of a node is as the entry says. -/
theorem describes_nodeSlot (i : Nat) (entry : NodeEntry) : entry.Describes i (entry.slot i) := by
  cases entry with
  | tombstone => rfl
  | live labels properties =>
    refine ⟨_, rfl, rfl, fun l => ?_, getElem?_propertyMap properties⟩
    rw [Node.hasLabel, Node.ofLabels, Std.ExtTreeSet.contains_ofList, List.contains_iff_mem,
      List.mem_map]
    exact exists_congr fun listed => and_congr_right fun _ => mk_eq_iff

/-- The slot that is written from an entry of an edge is as the entry says. -/
theorem describes_edgeSlot (i : Nat) (entry : EdgeEntry) : entry.Describes i (entry.slot i) := by
  cases entry with
  | tombstone => rfl
  | live source target relationType properties =>
    exact ⟨_, rfl, rfl, rfl, rfl, rfl, getElem?_propertyMap properties⟩

/-- The tables of a body make a schema if none lists a name twice. -/
theorem names_iff_distinctNames : (∃ schema, b.Names schema) ↔ b.DistinctNames := by
  constructor
  · rintro ⟨schema, h⟩
    exact ⟨h.labels ▸ schema.labels.nodup, h.relationTypes ▸ schema.relationTypes.nodup,
      h.properties ▸ schema.properties.nodup⟩
  · rintro ⟨hlabels, htypes, hproperties⟩
    exact ⟨⟨⟨_, hlabels⟩, ⟨_, htypes⟩, ⟨_, hproperties⟩⟩, rfl, rfl, rfl⟩

/-- A name that is listed twice is found before anything is built. -/
theorem build_of_repeatedName (h : ¬b.DistinctNames) (settings : TraversalSettings) :
    b.build settings = .error .repeatedName := by
  cases htables : Schema.ofTables? b.labels b.relationTypes b.properties with
  | none => rw [build, htables]
  | some schema =>
    obtain ⟨hlabels, htypes, hproperties⟩ := Schema.ofTables?_eq_some.1 htables
    exact absurd (names_iff_distinctNames.1 ⟨schema, hlabels, htypes, hproperties⟩) h

/-- A filled graph holds what its entries say. -/
theorem describes_filled (hs : b.Names schema)
    (h : g.Filled schema settings (b.nodes.mapIdx NodeEntry.slot) (b.edges.mapIdx EdgeEntry.slot)
      (b.indices.map IndexEntry.name).eraseDups) : b.Describes g where
  names := h.schema ▸ hs
  nodes i := by
    rw [← Array.getElem?_toList, h.nodes, List.getElem?_mapIdx]
    cases b.nodes[i]? with
    | none => exact .none
    | some entry => exact .some (describes_nodeSlot i entry)
  edges i := by
    rw [← Array.getElem?_toList, h.edges, List.getElem?_mapIdx]
    cases b.edges[i]? with
    | none => exact .none
    | some entry => exact .some (describes_edgeSlot i entry)
  indices := h.names

end Body

namespace Snapshot

variable {bytes : Bytes} {b : Body} {cause : Corruption}

/-- A body that is held is given if it is valid. -/
theorem decodeBody_of_holds (h : Holds bytes b) :
    decodeBody bytes = (b.validate.map fun _ => b).mapError .corrupt := by
  obtain ⟨header, stored, plain, hheader, hstored, hplain, hbody⟩ := h
  cases hflag : header.isCompressed <;> cases hv : b.validate <;>
    simp_all [decodeBody, bind, Except.bind, pure, Except.pure, throw, throwThe,
      MonadExceptOf.throw, Except.map, Except.mapError]

/-- A body that is invalid gives no graph. -/
theorem decode_of_invalid (h : Holds bytes b) (hv : b.validate = .error cause)
    (settings : TraversalSettings) : decode bytes settings = .error (.corrupt cause) := by
  rw [decode, decodeBody_of_holds h, hv]
  rfl

/-- What a body that is valid gives is what is built from it. -/
theorem decode_of_valid (h : Holds bytes b) (hv : b.validate = .ok ())
    (settings : TraversalSettings) :
    decode bytes settings = (b.build settings).mapError .corrupt := by
  have hbody : decodeBody bytes = .ok b := by
    rw [decodeBody_of_holds h, hv]
    rfl
  rw [decode, hbody]
  cases hbuild : b.build settings <;>
    simp only [hbuild, bind, Except.bind, pure, Except.pure, throw, throwThe, MonadExceptOf.throw,
      Except.mapError]

end Snapshot

namespace Body

/-- Any body that a snapshot holds is refused or described: an invalid one gives no graph, whatever
is wrong with it; building a valid one fails just if a table lists a name twice, and gives a sound
graph otherwise, which holds what the body says. -/
theorem refused_or_described (b : Body) (settings : TraversalSettings) :
    (∀ cause, b.validate = .error cause → ∀ bytes, Snapshot.Holds bytes b →
      Snapshot.decode bytes settings = .error (.corrupt cause)) ∧
    (b.validate = .ok () →
      ((∃ cause, b.build settings = .error cause) ↔ ¬b.DistinctNames) ∧
      (∀ g, b.build settings = .ok g → g.Sound ∧ b.Describes g ∧ g.settings = settings) ∧
      ∀ bytes, Snapshot.Holds bytes b →
        Snapshot.decode bytes settings = (b.build settings).mapError .corrupt) := by
  refine ⟨fun cause hv bytes hbytes => Snapshot.decode_of_invalid hbytes hv settings,
    fun hv => ⟨⟨?_, ?_⟩, ?_, fun bytes hbytes => Snapshot.decode_of_valid hbytes hv settings⟩⟩
  · rintro ⟨cause, hcause⟩ hdistinct
    obtain ⟨schema, hs⟩ := names_iff_distinctNames.2 hdistinct
    obtain ⟨g, hbuild, -⟩ := filled_build hv hs settings
    rw [hbuild] at hcause
    cases hcause
  · intro hrepeated
    exact ⟨_, build_of_repeatedName hrepeated settings⟩
  · intro g hbuild
    obtain ⟨hsound, hs⟩ := sound_build hv hbuild
    obtain ⟨g', hbuild', hfilled⟩ := filled_build hv hs settings
    rw [hbuild] at hbuild'
    cases hbuild'
    exact ⟨hsound, describes_filled hs hfilled, hfilled.settings⟩

/-- A body with labels out of order and repeated, a property and an index that are listed twice,
and tombstones. -/
theorem describes_of_repeats :
    let b : Body := ⟨["A", "B"], ["R"], ["k"],
      [.live [1, 0, 1] [(0, .boolean true), (0, .text "x")], .tombstone, .live [] []],
      [.tombstone, .live 2 0 0 []], [⟨1, 0⟩, ⟨0, 0⟩, ⟨1, 0⟩]⟩
    let header : Header := ⟨1, 0, UInt64.ofNat b.toBytes.length⟩
    let bytes := header.toBytes ++ b.toBytes ++ Sha256.digest b.toBytes
    b.validate = .ok () ∧ b.DistinctNames ∧ Snapshot.Holds bytes b ∧
      ∃ g, Snapshot.decode bytes {} = .ok g ∧ g.Sound ∧ b.Describes g ∧
        g.catalog.names = [⟨⟨1⟩, ⟨0⟩⟩, ⟨⟨0⟩, ⟨0⟩⟩] := by
  intro b header bytes
  have hv : b.validate = .ok () := by decide +kernel
  have hdistinct : b.DistinctNames := by decide +kernel
  have hholds : Snapshot.Holds bytes b :=
    ⟨header, b.toBytes, b.toBytes, by decide +kernel, by decide +kernel, by decide +kernel,
      by decide +kernel⟩
  obtain ⟨hfails, hgives, hdecode⟩ := (refused_or_described b {}).2 hv
  have hok : ∃ g, b.build {} = .ok g := by
    cases hbuild : b.build {} with
    | error cause => exact absurd hdistinct (hfails.1 ⟨cause, hbuild⟩)
    | ok g => exact ⟨g, rfl⟩
  obtain ⟨g, hbuild⟩ := hok
  obtain ⟨hsound, hdescribes, -⟩ := hgives g hbuild
  refine ⟨hv, hdistinct, hholds, g, ?_, hsound, hdescribes, ?_⟩
  · rw [hdecode bytes hholds, hbuild]
    rfl
  · rw [hdescribes.indices]
    decide +kernel

end Body

end Plexus
