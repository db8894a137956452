import Plexus.Proofs.Graph.Operation
import Plexus.Snapshot.File

/-!
# Graphs from snapshots

A body that passes validation refers only to names that it lists and to nodes that are live in
it. The graph that is built from it is therefore sound, whatever wrote the snapshot.
-/

namespace Plexus

namespace Body

variable {b : Body} {g g' : Graph} {s : Schema}

/-- A schema whose tables are those that the body lists. -/
structure Names (b : Body) (s : Schema) : Prop where
  labels : s.labels.names = b.labels
  relationTypes : s.relationTypes.names = b.relationTypes
  properties : s.properties.names = b.properties

/-- The keys of restored properties are those that the list names. -/
theorem mem_propertyMap {properties : PropertyList} {k : PropertyId} :
    k ∈ propertyMap properties ↔ ∃ p ∈ properties, k = ⟨p.1.toNat⟩ := by
  rw [propertyMap, PropertyMap.ofPairs, Std.ExtTreeMap.mem_ofList]
  simp [eq_comm]

private theorem named_of_unknownProperty? (hs : b.Names s) {properties : PropertyList}
    (h : b.unknownProperty? properties = none) :
    ∀ k ∈ propertyMap properties, (s.propertyName? k).isSome := by
  intro k hk
  obtain ⟨p, hp, rfl⟩ := mem_propertyMap.1 hk
  have hnot := List.find?_eq_none.1 h p.1 (List.mem_map_of_mem hp)
  rw [Schema.propertyName?, Schema.isSome_resolve?_iff]
  simpa [Schema.table, hs.properties] using hnot

/-- A checked node slot keeps the graph sound. -/
theorem sound_restoreNode (hs : b.Names g.schema) (h : g.Sound) {i : Nat} {entry : NodeEntry}
    (hcheck : b.checkNode i entry = .ok ()) :
    (restoreNode g entry).Sound ∧ (restoreNode g entry).schema = g.schema := by
  cases entry with
  | tombstone => exact ⟨h.pushNodeTombstone, rfl⟩
  | live labels properties =>
    simp only [checkNode] at hcheck
    split at hcheck
    · cases hcheck
    · rename_i hlabels
      split at hcheck
      · cases hcheck
      · rename_i hproperties
        refine ⟨h.addNode (fun l hl => ?_) (named_of_unknownProperty? hs hproperties), rfl⟩
        obtain ⟨label, hlabel, rfl⟩ := List.mem_map.1 hl
        have hnot := List.find?_eq_none.1 hlabels label hlabel
        rw [Schema.labelName?, Schema.isSome_resolve?_iff]
        simpa [Schema.table, hs.labels] using hnot

/-- A checked edge slot keeps the graph sound. -/
theorem sound_restoreEdge (hs : b.Names g.schema) (h : g.Sound) {i : Nat} {entry : EdgeEntry}
    (hcheck : b.checkEdge i entry = .ok ()) (hg : restoreEdge g entry = .ok g') :
    g'.Sound ∧ g'.schema = g.schema := by
  cases entry with
  | tombstone =>
    cases hg
    exact ⟨h.pushEdgeTombstone, rfl⟩
  | live source target relationType properties =>
    obtain ⟨⟨⟩, hends, hadd⟩ := bind_eq_ok.1 hg
    cases hadd
    simp only [Graph.checkEndpoints] at hends
    split at hends
    · cases hends
    · rename_i hsource
      split at hends
      · cases hends
      · rename_i htarget
        simp only [checkEdge] at hcheck
        split at hcheck
        · cases hcheck
        · split at hcheck
          · cases hcheck
          · rename_i htype
            split at hcheck
            · cases hcheck
            · rename_i hproperties
              refine ⟨h.addEdge (h.hasNode_iff.1 ?_) (h.hasNode_iff.1 ?_) ?_
                (named_of_unknownProperty? hs hproperties), rfl⟩
              · simpa using hsource
              · simpa using htarget
              · rw [Schema.typeName?, Schema.isSome_resolve?_iff]
                simpa [Schema.table, hs.relationTypes] using htype

/-- Validation checks every slot and every index. -/
theorem validate_eq_ok : b.validate = .ok () ↔
    (∀ p ∈ b.nodes.zipIdx, b.checkNode p.2 p.1 = .ok ()) ∧
      (∀ p ∈ b.edges.zipIdx, b.checkEdge p.2 p.1 = .ok ()) ∧
        ∀ entry ∈ b.indices, b.checkIndex entry = .ok () := by
  rw [← forM_eq_ok, ← forM_eq_ok (l := b.edges.zipIdx), ← forM_eq_ok (l := b.indices), validate]
  constructor
  · intro h
    obtain ⟨⟨⟩, hnodes, h⟩ := bind_eq_ok.1 h
    obtain ⟨⟨⟩, hedges, hindices⟩ := bind_eq_ok.1 h
    exact ⟨hnodes, hedges, hindices⟩
  · rintro ⟨hnodes, hedges, hindices⟩
    exact bind_eq_ok.2 ⟨(), hnodes, bind_eq_ok.2 ⟨(), hedges, hindices⟩⟩

private theorem exists_zipIdx {α : Type} {a : α} {l : List α} (h : a ∈ l) :
    ∃ i, (a, i) ∈ l.zipIdx := by
  obtain ⟨i, hi⟩ := List.mem_iff_getElem?.1 h
  exact ⟨i, List.mk_mem_zipIdx_iff_getElem?.2 hi⟩

private theorem sound_restoreNodes (hs : b.Names g.schema) (h : g.Sound) {entries : List NodeEntry}
    (hcheck : ∀ entry ∈ entries, ∃ i, b.checkNode i entry = .ok ()) :
    (entries.foldl restoreNode g).Sound ∧ (entries.foldl restoreNode g).schema = g.schema := by
  induction entries generalizing g with
  | nil => exact ⟨h, rfl⟩
  | cons entry rest ih =>
    obtain ⟨i, hi⟩ := hcheck entry List.mem_cons_self
    obtain ⟨hsound, hschema⟩ := sound_restoreNode hs h hi
    obtain ⟨hsound', hschema'⟩ :=
      ih (hschema.symm ▸ hs) hsound fun e he => hcheck e (List.mem_cons_of_mem _ he)
    exact ⟨hsound', hschema'.trans hschema⟩

/-- The graph of a valid body is sound, and its names are the listed ones. -/
theorem sound_build (hv : b.validate = .ok ()) {settings : TraversalSettings}
    (hb : b.build settings = .ok g) : g.Sound ∧ b.Names g.schema := by
  obtain ⟨hnodes, hedges, hindices⟩ := validate_eq_ok.1 hv
  unfold build at hb
  split at hb
  · cases hb
  · rename_i schema hschema
    obtain ⟨hl, hr, hp⟩ := Schema.ofTables?_eq_some.1 hschema
    split at hb
    · rename_i g' honto
      cases hb
      have hcheck : ∀ entry ∈ b.nodes, ∃ i, b.checkNode i entry = .ok () := fun entry he => by
        obtain ⟨i, hi⟩ := exists_zipIdx he
        exact ⟨i, hnodes _ hi⟩
      obtain ⟨h₁, h₁'⟩ := sound_restoreNodes (b := b) (g := .ofSchema schema settings)
        ⟨hl, hr, hp⟩ (Graph.sound_ofSchema _ _) hcheck
      obtain ⟨g₂, hfold, hfold'⟩ := bind_eq_ok.1 honto
      have h₂ : g₂.Sound ∧ b.Names g₂.schema := by
        refine foldlM_invariant (P := fun g => g.Sound ∧ b.Names g.schema) ?_
          ⟨h₁, h₁'.symm ▸ ⟨hl, hr, hp⟩⟩ hfold
        rintro entry he g g' ⟨hg, hs⟩ hstep
        obtain ⟨i, hi⟩ := exists_zipIdx he
        obtain ⟨hg', hs'⟩ := sound_restoreEdge hs hg (hedges _ hi) hstep
        exact ⟨hg', hs'.symm ▸ hs⟩
      refine foldlM_invariant (P := fun g => g.Sound ∧ b.Names g.schema) ?_ h₂ hfold'
      rintro entry he g g' ⟨hg, hs⟩ hstep
      obtain ⟨result, hcreate, hresult⟩ := bind_eq_ok.1 hstep
      cases hresult
      exact ⟨hg.createIndexById hcreate, (Graph.schema_createIndexById hcreate).symm ▸ hs⟩
    · cases hb

end Body

namespace Snapshot

variable {bytes : Bytes} {body : Body} {settings : TraversalSettings} {g : Graph}

/-- What it takes for bytes to hold a body. -/
theorem decodeBody_eq_ok : decodeBody bytes = .ok body ↔
    ∃ header stored plain, Header.parse bytes = .ok header ∧ split header bytes = .ok stored ∧
      (if header.isCompressed then inflate stored else .ok stored) = .ok plain ∧
        Body.ofBytes plain = .ok body ∧ body.validate = .ok () := by
  constructor
  · intro h
    obtain ⟨header, hheader, h⟩ := bind_eq_ok.1 h
    obtain ⟨stored, hstored, h⟩ := bind_eq_ok.1 h
    obtain ⟨plain, hplain, h⟩ := choice_eq_ok.1 h
    refine ⟨header, stored, plain, hheader, hstored, hplain, ?_⟩
    dsimp only at h
    split at h
    · cases h
    · rename_i hbody
      split at h
      · cases h
      · rename_i hvalid
        cases h
        exact ⟨hbody, hvalid⟩
  · rintro ⟨header, stored, plain, hheader, hstored, hplain, hbody, hvalid⟩
    refine bind_eq_ok.2 ⟨header, hheader, bind_eq_ok.2 ⟨stored, hstored,
      choice_eq_ok.2 ⟨plain, hplain, ?_⟩⟩⟩
    simp only [hbody, hvalid]
    rfl

/-- A snapshot is read by building the graph of its body. -/
theorem decode_eq_ok : decode bytes settings = .ok g ↔
    ∃ body, decodeBody bytes = .ok body ∧ body.build settings = .ok g := by
  unfold decode
  rw [bind_eq_ok]
  refine exists_congr fun body => and_congr_right fun _ => ?_
  cases body.build settings with
  | error cause => exact ⟨fun hh => (by cases hh), fun hh => (by cases hh)⟩
  | ok g' => simp [pure, Except.pure]

/-- A graph that is read from a snapshot is sound. -/
theorem sound_decode (h : decode bytes settings = .ok g) : g.Sound := by
  obtain ⟨body, hbody, hbuild⟩ := decode_eq_ok.1 h
  obtain ⟨header, stored, plain, -, -, -, -, hvalid⟩ := decodeBody_eq_ok.1 hbody
  exact (Body.sound_build hvalid hbuild).1

end Snapshot

end Plexus
