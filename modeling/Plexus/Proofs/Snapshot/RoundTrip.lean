import Plexus.Proofs.Query.Alike
import Plexus.Proofs.Snapshot.Rebuild

/-!
# Snapshots round trip

The graph that is read from a graph's snapshot cannot be told apart from it: names, slots and
indices are the same, another snapshot of it has the same bytes, and every query has the same plan
and the same answer.
-/

namespace Plexus

namespace Graph

variable {g h : Graph} {deflate : Nat → Bytes → Bytes}

/-- A sound graph that is filled with the slots and indices of another looks like it. -/
theorem Filled.alike (hr : h.Filled g.schema g.settings g.nodes.slots.toList g.edges.slots.toList
    g.catalog.names) (hg : g.Sound) (hh : h.Sound) : g.Alike h :=
  hg.alike hh hr.schema (Array.toList_inj.1 hr.nodes) (Array.toList_inj.1 hr.edges) hr.names
    hr.settings

/-- Graphs that look alike have the same snapshots. -/
theorem Alike.encodeWith (ha : g.Alike h) (settings : SnapshotSettings) :
    Snapshot.encodeWith deflate h settings = Snapshot.encodeWith deflate g settings := by
  have hbody : Body.ofGraph h = Body.ofGraph g := by
    rw [Body.ofGraph, Body.ofGraph, ha.schema, ha.nodes, ha.edges, ha.catalog]
  rw [Snapshot.encodeWith, Snapshot.encodeWith, hbody]

/-- What the snapshot of a sound graph is read as. -/
theorem Sound.decode_snapshot (hg : g.Sound) (hf : g.FitsWords)
    (hd : Gzip.Inflates deflate Snapshot.maxRatio) (settings : SnapshotSettings)
    (hlevel : settings.compress = true → settings.compressionLevel ≤ 9)
    (hmax : (Snapshot.encodeWith deflate g settings).length ≤ Snapshot.maxLength) :
    ∃ h, Snapshot.decode (Snapshot.encodeWith deflate g settings) g.settings = .ok h ∧
      h.Sound ∧ g.Alike h := by
  obtain ⟨h, hbuild, hh, hr⟩ := Body.build_ofGraph hg hf g.settings
  have hbody := Snapshot.decodeBody_encodeWith hd hlevel hf.body hmax (Body.validate_ofGraph hg hf)
  exact ⟨h, Snapshot.decode_eq_ok.2 ⟨_, hbody, hbuild⟩, hh, hr.alike hg hh⟩

/-- The snapshot of a reachable graph, compressed or not, is read back as a graph with the same
names, slots, indices and capacities, whose own snapshots have the same bytes, and on which every
query has the same outline and the same answer. -/
theorem Reachable.decode_encodeWith (hg : g.Reachable) (hf : g.FitsWords)
    (hd : Gzip.Inflates deflate Snapshot.maxRatio) (settings : SnapshotSettings)
    (hlevel : settings.compress = true → settings.compressionLevel ≤ 9)
    (hmax : (Snapshot.encodeWith deflate g settings).length ≤ Snapshot.maxLength) :
    ∃ h, Snapshot.decode (Snapshot.encodeWith deflate g settings) g.settings = .ok h ∧
      (∀ part, (h.schema.table part).names = (g.schema.table part).names) ∧
      (∀ slot : Nat, h.nodes.slots[slot]? = g.nodes.slots[slot]?) ∧
      (∀ slot : Nat, h.edges.slots[slot]? = g.edges.slots[slot]?) ∧
      h.catalog.names = g.catalog.names ∧
      h.nodes.capacity = g.nodes.capacity ∧ h.edges.capacity = g.edges.capacity ∧
      (∀ other : SnapshotSettings,
        Snapshot.encodeWith deflate h other = Snapshot.encodeWith deflate g other) ∧
      ∀ q : Query, q.explain h = q.explain g ∧ q.execute h = q.execute g := by
  obtain ⟨h, hdecode, hh, ha⟩ := hg.sound.decode_snapshot hf hd settings hlevel hmax
  refine ⟨h, hdecode, fun part => ?_, fun slot => ?_, fun slot => ?_, ?_, ?_, ?_, ha.encodeWith,
    fun q => ⟨ha.explain q, ha.execute hg.sound hh q⟩⟩
  · rw [ha.schema]
  · rw [ha.nodes]
  · rw [ha.edges]
  · rw [ha.catalog]
  · rw [ha.nodes]
  · rw [ha.edges]

/-- A compressed snapshot of a graph with a tombstone, a dropped index and a type without edges. -/
theorem decode_encode_after_deletion :
    let g := [Mutation.createNode ["A"] [("n", .text "x")], .createNode ["B"] [],
      .createIndex "A" "n", .createIndex "B" "n", .createEdge ⟨0⟩ ⟨1⟩ "R" [], .deleteNode ⟨1⟩,
      .dropIndex "B" "n"].foldl Graph.after (.empty {})
    g.Reachable ∧ g.nodes.isTombstone 1 = true ∧ g.matrices.size = 1 ∧
      ∃ h, Snapshot.decode (Snapshot.encode g ⟨true, 9⟩) g.settings = .ok h ∧
        h.catalog.names = [⟨⟨0⟩, ⟨0⟩⟩] ∧ h.nodes.isTombstone 1 = true := by
  have hreach := Reachable.foldl (.empty {}) [Mutation.createNode ["A"] [("n", .text "x")],
    .createNode ["B"] [], .createIndex "A" "n", .createIndex "B" "n",
    .createEdge ⟨0⟩ ⟨1⟩ "R" [], .deleteNode ⟨1⟩, .dropIndex "B" "n"]
  have hfits : FitsWords ([Mutation.createNode ["A"] [("n", .text "x")], .createNode ["B"] [],
      .createIndex "A" "n", .createIndex "B" "n", .createEdge ⟨0⟩ ⟨1⟩ "R" [], .deleteNode ⟨1⟩,
      .dropIndex "B" "n"].foldl Graph.after (.empty {})) :=
    ⟨by decide +kernel, by decide +kernel, by decide +kernel, by decide +kernel⟩
  have htombstone : Arena.isTombstone (Graph.nodes ([Mutation.createNode ["A"] [("n", .text "x")],
      .createNode ["B"] [], .createIndex "A" "n", .createIndex "B" "n",
      .createEdge ⟨0⟩ ⟨1⟩ "R" [], .deleteNode ⟨1⟩,
      .dropIndex "B" "n"].foldl Graph.after (.empty {}))) 1 = true := by decide +kernel
  obtain ⟨h, hdecode, -, hnodes, -, hnames, -⟩ := Reachable.decode_encodeWith hreach hfits
    (Gzip.inflates_write Snapshot.maxRatio (by decide)) ⟨true, 9⟩
    (fun _ => Nat.le_refl 9) (by decide +kernel)
  refine ⟨hreach, htombstone, by decide +kernel, h, hdecode, hnames.trans (by decide +kernel), ?_⟩
  rw [← htombstone, Arena.isTombstone, Arena.isTombstone, hnodes]

end Graph

end Plexus
