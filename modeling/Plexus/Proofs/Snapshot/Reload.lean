import Plexus.Proofs.Graph.Lasting
import Plexus.Proofs.Snapshot.RoundTrip

/-!
# Identifiers last through reloads

In a run, operations alternate with reloads, in which a graph is replaced by what its own snapshot
is read as. Reading fills the slots one by one, a tombstone for each slot that is not live, so that
the numbers of a run's records are given out once, whether or not the run is interrupted by reloads.
-/

namespace Plexus

namespace Snapshot

variable {deflate : Nat → Bytes → Bytes} {g h : Graph} {settings : SnapshotSettings}
variable {traversal : TraversalSettings} {header : Header} {bytes stored : Bytes}

/-- Bytes that are split are as long as the header says, and can be addressed. -/
theorem length_of_split (h : split header bytes = .ok stored) : bytes.length ≤ maxLength := by
  unfold split at h
  dsimp only at h
  split_ifs at h with hmax hshort hlong
  omega

/-- A graph that is read from the snapshot of a graph is built from the body of that graph. -/
theorem build_of_decode (hd : Gzip.Inflates deflate maxRatio)
    (hfits : settings.compress = true →
      settings.compressionLevel ≤ 9 ∧ (Body.ofGraph g).toBytes.length ≤ maxLength)
    (hdecode : decode (encodeWith deflate g settings) traversal = .ok h) :
    (Body.ofGraph g).validate = .ok () ∧ (Body.ofGraph g).build traversal = .ok h := by
  obtain ⟨body, hbody, hbuild⟩ := decode_eq_ok.1 hdecode
  obtain ⟨header, stored, plain, hparse, hsplit, hplain, hread, hvalid⟩ := decodeBody_eq_ok.1 hbody
  have hmax := length_of_split hsplit
  have hintact := intact_encodeWith hmax
  rw [hintact.parse] at hparse
  cases hparse
  rw [hintact.split] at hsplit
  cases hsplit
  rw [plain_payload hd hfits] at hplain
  cases hplain
  have hlength : (Body.ofGraph g).toBytes.length ≤ maxLength := by
    cases hcompress : settings.compress with
    | true => exact (hfits hcompress).2
    | false =>
      have hstored : payload deflate settings (Body.ofGraph g).toBytes =
          (Body.ofGraph g).toBytes := by
        rw [payload, hcompress]
        rfl
      have hall := hintact.length_eq
      rw [hstored] at hall
      omega
  rw [Body.ofBytes_toBytes _ (Nat.lt_of_le_of_lt hlength (by decide))] at hread
  cases hread
  exact ⟨hvalid, hbuild⟩

end Snapshot

namespace Arena

variable {α β : Type} {a b : Arena α} {write : Slot α → β} {read : Nat → β → Slot α}

/-- An arena that is read from what the slots of another one are written as has as many slots, and
the same ones live. -/
theorem precedes_of_written
    (hread : ∀ i s, (read i (write s)).record?.isSome = s.record?.isSome)
    (hb : b.slots.toList = (a.slots.toList.map write).mapIdx read) : a.Precedes b where
  capacity_le := by
    have hlength := congrArg List.length hb
    simp only [List.length_mapIdx, List.length_map, Array.length_toList] at hlength
    exact Nat.le_of_eq hlength.symm
  live slot _ h := by
    rw [isLive, get?, ← Array.getElem?_toList, hb, List.getElem?_mapIdx, List.getElem?_map,
      Array.getElem?_toList] at h
    rw [isLive, get?]
    cases hslot : a.slots[slot]? with
    | none => rw [hslot] at h; exact h
    | some s =>
      rw [hslot] at h
      exact (hread slot s).symm.trans h

end Arena

namespace Body

variable {g h : Graph} {traversal : TraversalSettings}

/-- Building the body of a graph takes no slot away and brings none to life. -/
theorem precedes_build (hvalid : (ofGraph g).validate = .ok ())
    (hbuild : (ofGraph g).build traversal = .ok h) : g.Precedes h := by
  obtain ⟨h', hbuild', hfilled⟩ :=
    filled_build hvalid (sound_build hvalid hbuild).2 traversal
  rw [hbuild] at hbuild'
  cases hbuild'
  refine ⟨Arena.precedes_of_written (fun i s => ?_) hfilled.nodes,
    Arena.precedes_of_written (fun i s => ?_) hfilled.edges⟩
  · cases s <;> rfl
  · cases s <;> rfl

end Body

/-- What happens in a run: an operation, or a reload with the settings of a snapshot and those of
the graph that is read from it. -/
inductive Event where
  | mutate (m : Mutation)
  | reload (settings : SnapshotSettings) (traversal : TraversalSettings)

namespace Graph

variable {deflate : Nat → Bytes → Bytes} {g : Graph} {events : List Event}

/-- The graph after an event; if the snapshot of a graph cannot be read, the graph stays. -/
def step (deflate : Nat → Bytes → Bytes) (g : Graph) : Event → Graph
  | .mutate m => g.after m
  | .reload settings traversal =>
    match Snapshot.decode (Snapshot.encodeWith deflate g settings) traversal with
    | .ok h => h
    | .error _ => g

/-- The graph when a number of events have happened. -/
def moment (deflate : Nat → Bytes → Bytes) (g : Graph) (events : List Event) (i : Nat) : Graph :=
  (events.take i).foldl (step deflate) g

/-- The node that an event of a run creates. -/
def createdNodeAt? (deflate : Nat → Bytes → Bytes) (g : Graph) (events : List Event) (i : Nat) :
    Option NodeId :=
  match events[i]? with
  | some (.mutate m) => (g.moment deflate events i).createdNode? m
  | some (.reload _ _) | none => none

/-- The edge that an event of a run creates. -/
def createdEdgeAt? (deflate : Nat → Bytes → Bytes) (g : Graph) (events : List Event) (i : Nat) :
    Option EdgeId :=
  match events[i]? with
  | some (.mutate m) => (g.moment deflate events i).createdEdge? m
  | some (.reload _ _) | none => none

theorem moment_succ {i : Nat} {event : Event} (h : events[i]? = some event) :
    g.moment deflate events (i + 1) = (g.moment deflate events i).step deflate event := by
  rw [moment, moment, List.take_add_one, h]
  exact List.foldl_append

theorem moment_of_none {i : Nat} (h : events[i]? = none) :
    g.moment deflate events (i + 1) = g.moment deflate events i := by
  rw [moment, moment, List.take_add_one, h, Option.toList_none, List.append_nil]

/-- Every event takes the arenas forward. -/
theorem precedes_step (hd : Gzip.Inflates deflate Snapshot.maxRatio) {event : Event}
    (hfits : ∀ settings traversal, event = .reload settings traversal →
      settings.compress = true → settings.compressionLevel ≤ 9 ∧
        (Body.ofGraph g).toBytes.length ≤ Snapshot.maxLength) :
    g.Precedes (g.step deflate event) := by
  cases event with
  | mutate m => exact g.precedes_after m
  | reload settings traversal =>
    rw [step]
    split
    · rename_i h hdecode
      obtain ⟨hvalid, hbuild⟩ := Snapshot.build_of_decode hd (hfits settings traversal rfl) hdecode
      exact Body.precedes_build hvalid hbuild
    · exact .refl g

/-- An event leads from a reachable graph to a reachable graph. -/
theorem Reachable.step (hg : g.Reachable) (event : Event) : (g.step deflate event).Reachable := by
  cases event with
  | mutate m => exact hg.after m
  | reload settings traversal =>
    rw [Graph.step]
    split
    · rename_i h hdecode
      exact .decoded hdecode
    · exact hg

/-- At every moment the graph is reachable. -/
theorem Reachable.moment (hg : g.Reachable) (events : List Event) (i : Nat) :
    (g.moment deflate events i).Reachable := by
  unfold Graph.moment
  generalize events.take i = happened
  induction happened generalizing g with
  | nil => exact hg
  | cons event rest ih => exact ih (hg.step event)

/-- The snapshot of a sound graph can be read, whatever the settings are. -/
theorem Sound.decode_eq_ok (hg : g.Sound) (hf : g.FitsWords)
    (hd : Gzip.Inflates deflate Snapshot.maxRatio) {settings : SnapshotSettings}
    (hlevel : settings.compress = true → settings.compressionLevel ≤ 9)
    (hmax : (Snapshot.encodeWith deflate g settings).length ≤ Snapshot.maxLength)
    (traversal : TraversalSettings) :
    ∃ h, Snapshot.decode (Snapshot.encodeWith deflate g settings) traversal = .ok h := by
  obtain ⟨h, hbuild, -⟩ := Body.build_ofGraph hg hf traversal
  have hbody := Snapshot.decodeBody_encodeWith hd hlevel hf.body hmax (Body.validate_ofGraph hg hf)
  exact ⟨h, Snapshot.decode_eq_ok.2 ⟨_, hbody, hbuild⟩⟩

/-- In any run of operations and reloads, every created node and every created edge gets the number
that its arena has next, no number is given out twice, no arena shrinks, and what is no longer live
never is again. A reload replaces the graph as soon as what it counts fits into words. -/
theorem Reachable.lasting_run (hg : g.Reachable) (hd : Gzip.Inflates deflate Snapshot.maxRatio)
    (events : List Event)
    (hfits : ∀ i settings traversal, events[i]? = some (.reload settings traversal) →
      settings.compress = true → settings.compressionLevel ≤ 9 ∧
        (Body.ofGraph (g.moment deflate events i)).toBytes.length ≤ Snapshot.maxLength) :
    Arena.Lasting (fun i => (g.moment deflate events i).nodes) (g.createdNodeAt? deflate events) ∧
      Arena.Lasting (fun i => (g.moment deflate events i).edges)
        (g.createdEdgeAt? deflate events) ∧
      ∀ i settings traversal, events[i]? = some (.reload settings traversal) →
        (g.moment deflate events i).FitsWords →
        (Snapshot.encodeWith deflate (g.moment deflate events i) settings).length ≤
          Snapshot.maxLength →
        Snapshot.decode (Snapshot.encodeWith deflate (g.moment deflate events i) settings)
          traversal = .ok (g.moment deflate events (i + 1)) := by
  have hstep (i : Nat) :
      (g.moment deflate events i).Precedes (g.moment deflate events (i + 1)) := by
    cases hevent : events[i]? with
    | none =>
      rw [moment_of_none hevent]
      exact .refl _
    | some event =>
      rw [moment_succ hevent]
      exact precedes_step hd fun settings traversal heq => hfits i settings traversal (heq ▸ hevent)
  refine ⟨Arena.lasting_of_step (fun i => (hstep i).nodes) fun i id hid => ?_,
    Arena.lasting_of_step (fun i => (hstep i).edges) fun i id hid => ?_, ?_⟩
  · unfold createdNodeAt? at hid
    split at hid
    · rename_i m hevent
      rw [moment_succ hevent]
      exact createdNode?_spec hid
    · cases hid
    · cases hid
  · unfold createdEdgeAt? at hid
    split at hid
    · rename_i m hevent
      rw [moment_succ hevent]
      exact createdEdge?_spec hid
    · cases hid
    · cases hid
  · intro i settings traversal hevent hwords hmax
    obtain ⟨h, hdecode⟩ := (hg.moment events i).sound.decode_eq_ok hwords hd
      (fun hcompress => (hfits i settings traversal hevent hcompress).1) hmax traversal
    rw [moment_succ hevent, Graph.step, hdecode]

/-- A node and the edge at it are deleted, and the graph is reloaded from a compressed snapshot. The
next node gets neither of the old numbers, and what was deleted stays so. -/
theorem lasting_run_through_reload :
    let events := [Event.mutate (.createNode ["A"] []), .mutate (.createNode [] []),
      .mutate (.createEdge ⟨0⟩ ⟨1⟩ "R" []), .mutate (.deleteNode ⟨1⟩), .reload ⟨true, 9⟩ {},
      .mutate (.createNode [] [])]
    let graphAt (i : Nat) := (Graph.empty {}).moment Gzip.write events i
    (Graph.empty {}).Reachable ∧
      Snapshot.decode (Snapshot.encodeWith Gzip.write (graphAt 4) ⟨true, 9⟩) {} =
        .ok (graphAt 5) ∧
      (∃ id, (Graph.empty {}).createdNodeAt? Gzip.write events 5 = some id ∧ id ≠ ⟨0⟩ ∧ id ≠ ⟨1⟩) ∧
      (graphAt 6).nodes.isLive 1 = false ∧ (graphAt 6).edges.isLive 0 = false := by
  intro events graphAt
  have hfits : ∀ i settings traversal, events[i]? = some (.reload settings traversal) →
      settings.compress = true → settings.compressionLevel ≤ 9 ∧
        (Body.ofGraph (graphAt i)).toBytes.length ≤ Snapshot.maxLength := by
    intro i settings traversal hevent _
    rcases i with _ | _ | _ | _ | _ | _ | i
    case succ.succ.succ.succ.zero =>
      cases hevent
      exact ⟨Nat.le_refl 9, by decide +kernel⟩
    all_goals cases hevent
  have hwords : (graphAt 4).FitsWords :=
    ⟨by decide +kernel, by decide +kernel, by decide +kernel, by decide +kernel⟩
  obtain ⟨hnodes, hedges, hreload⟩ := Reachable.lasting_run (.empty {})
    (Gzip.inflates_write Snapshot.maxRatio (by decide)) events hfits
  refine ⟨.empty {}, hreload 4 _ _ rfl hwords (by decide +kernel), ⟨_, rfl, ?_, ?_⟩, ?_, ?_⟩
  · exact hnodes.created_ne 0 5 ⟨0⟩ _ (by decide) (by decide +kernel) rfl
  · exact hnodes.created_ne 1 5 ⟨1⟩ _ (by decide) (by decide +kernel) rfl
  · exact hnodes.retired 2 4 6 1 (by decide) (by decide) (by decide +kernel) (by decide +kernel)
  · exact hedges.retired 3 4 6 0 (by decide) (by decide) (by decide +kernel) (by decide +kernel)

end Graph

end Plexus
