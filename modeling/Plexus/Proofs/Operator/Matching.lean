import Plexus.Operator.Matching
import Plexus.Plan.Build
import Plexus.Proofs.Query.Match

/-!
# What a traversal finds

The ends that a traversal lists for a node are those that the edges of the graph lead to, each
once: with a variable for the edge once per edge, without one once per end.
-/

namespace Plexus

/-- Seen from a node, an edge has one other end. -/
theorem Edge.other_eq {e : Edge} {dir : Direction} {a b c : NodeId} (hb : e.Leads dir a b)
    (hc : e.Leads dir a c) : b = c := by
  rcases hb with ⟨-, hs, hb⟩ | ⟨-, ht, hb⟩ <;> rcases hc with ⟨-, hs', hc⟩ | ⟨-, ht', hc⟩
  · exact hb.symm.trans hc
  · exact hb.symm.trans (ht'.trans (hs.symm.trans hc))
  · exact hb.symm.trans (hs'.trans (ht.symm.trans hc))
  · exact hb.symm.trans hc

namespace Graph

variable {g : Graph} {types : TypeFilter} {dir : Direction} {node other : NodeId}

/-- The neighbours of a node are those that a live edge of an allowed type leads to. -/
theorem Sound.mem_neighbors (h : g.Sound) :
    other ∈ g.neighbors node types dir ↔ ∃ e ∈ g.edges.records, types.allows e.relationType ∧
      e.Leads dir node other := by
  rw [neighbors, Std.ExtTreeSet.mem_toList, Std.ExtTreeSet.mem_ofList, List.contains_iff_mem,
    List.mem_map]
  constructor
  · rintro ⟨⟨id, other'⟩, hmem, rfl⟩
    obtain ⟨e, he, -, hleads⟩ := h.mem_edgesOf.1 hmem
    exact ⟨e, he, hleads⟩
  · rintro ⟨e, he, hleads⟩
    exact ⟨(e.id, other), h.mem_edgesOf.2 ⟨e, he, rfl, hleads⟩, rfl⟩

end Graph

namespace Expansion

variable {g : Graph} {e : Expansion} {a : NodeId}

/-- The ends of a node are those that the edges of the allowed types lead to. -/
theorem mem_ends (h : g.Sound) {found : Option EdgeId × NodeId} :
    found ∈ e.ends g a ↔ ∃ x ∈ g.edges.records, e.types.allows x.relationType ∧
      x.Leads e.direction a found.2 ∧ found.1 = if e.edge.isSome then some x.id else none := by
  obtain ⟨id?, b⟩ := found
  unfold ends
  split
  · have hrepeats : ∀ p ∈ g.edgesOf a e.types e.direction,
        ∀ q ∈ g.edgesOf a e.types e.direction, decide (p.1 = q.1) = true → p = q := by
      intro p hp q hq hpq
      obtain ⟨x, hx, hxid, -, hleads⟩ := h.mem_edgesOf.1 hp
      obtain ⟨y, hy, hyid, -, hleads'⟩ := h.mem_edgesOf.1 hq
      have hid : p.1 = q.1 := of_decide_eq_true hpq
      have hxy : x = y := h.edge_ext hx hy (hxid.trans (hid.trans hyid.symm))
      exact Prod.ext hid (Edge.other_eq hleads (hxy ▸ hleads'))
    rw [List.mem_map]
    constructor
    · rintro ⟨⟨id, other⟩, hmem, hfound⟩
      cases hfound
      obtain ⟨x, hx, hid, hallows, hleads⟩ := h.mem_edgesOf.1 ((mem_eraseRepsBy hrepeats).1 hmem)
      exact ⟨x, hx, hallows, hleads, congrArg some hid.symm⟩
    · rintro ⟨x, hx, hallows, hleads, hfound⟩
      cases hfound
      exact ⟨(x.id, b), (mem_eraseRepsBy hrepeats).2
        (h.mem_edgesOf.2 ⟨x, hx, rfl, hallows, hleads⟩), rfl⟩
  · rw [List.mem_map]
    constructor
    · rintro ⟨other, hmem, hfound⟩
      cases hfound
      obtain ⟨x, hx, hallows, hleads⟩ := h.mem_neighbors.1 hmem
      exact ⟨x, hx, hallows, hleads, rfl⟩
    · rintro ⟨x, hx, hallows, hleads, hfound⟩
      cases hfound
      exact ⟨b, h.mem_neighbors.2 ⟨x, hx, hallows, hleads⟩, rfl⟩

/-- No end is listed twice. -/
theorem nodup_ends (e : Expansion) (g : Graph) (a : NodeId) : (e.ends g a).Nodup := by
  unfold ends
  split
  · have hrepeats (p q : EdgeId × NodeId) :
        decide (p.1 = q.1) = true ↔ p.1.index = q.1.index := by
      rw [decide_eq_true_eq]
      exact ⟨congrArg Id.index, Id.ext_index⟩
    have hstrict := pairwise_eraseRepsBy hrepeats (g.edgesOf_ascending a e.types e.direction)
    rw [List.Nodup, List.pairwise_map]
    apply hstrict.imp
    intro p q hpq heq
    have hid : p.1 = q.1 := Option.some.inj (congrArg Prod.fst heq)
    rw [hid] at hpq
    exact Nat.lt_irrefl _ hpq
  · refine List.Nodup.map (fun p q hpq => congrArg Prod.snd hpq) ?_
    exact Std.ExtTreeSet.distinct_toList.imp fun hne heq => hne (by simp [heq])

end Expansion

private theorem mapM_all {α β : Type} {f : α → Option β} {p : β → Bool} {l : List α} :
    (∃ bs, l.mapM f = some bs ∧ bs.all p = true) ↔ ∀ a ∈ l, ∃ b, f a = some b ∧ p b = true := by
  induction l with
  | nil => simp
  | cons a l ih =>
    rw [List.forall_mem_cons, ← ih]
    simp only [List.mapM_cons, bind, Option.bind_eq_some_iff, pure, Option.some.injEq]
    constructor
    · rintro ⟨_, ⟨b, hb, bs, hbs, rfl⟩, hall⟩
      rw [List.all_cons, Bool.and_eq_true] at hall
      exact ⟨⟨b, hb, hall.1⟩, bs, hbs, hall.2⟩
    · rintro ⟨⟨b, hb, hpb⟩, bs, hbs, hall⟩
      exact ⟨b :: bs, ⟨b, hb, bs, hbs, rfl⟩, by rw [List.all_cons, hpb, hall]; rfl⟩

/-- The test for some labels accepts the nodes that have all of them. -/
theorem Draft.accepts_labelTest {g : Graph} {labels : List String} {b : NodeId}
    (hlive : g.hasNode b = true) :
    (labelTest g.schema labels).accepts g b = true ↔ ∀ label ∈ labels, g.NodeIs b label := by
  obtain ⟨n, hn⟩ := Arena.isLive_iff.1 hlive
  have hnode : g.node? b = some n := hn
  have hall := mapM_all (f := g.schema.labelId?) (p := n.hasLabel) (l := labels)
  have his (label : String) :
      (∃ l, g.schema.labelId? label = some l ∧ n.hasLabel l = true) ↔ g.NodeIs b label := by
    simp [Graph.NodeIs, hnode]
  simp only [his] at hall
  rw [← hall]
  unfold labelTest
  split
  · rename_i hempty
    rw [List.isEmpty_iff.1 hempty]
    exact ⟨fun _ => ⟨[], rfl, rfl⟩, fun _ => rfl⟩
  · cases hids : labels.mapM g.schema.labelId? with
    | none => simp [LabelTest.accepts]
    | some ids => simp [LabelTest.accepts, hnode]

/-- The filter for some type names allows the types with one of these names. -/
theorem Draft.allows_typeFilter {g : Graph} {e : EdgePattern} {t : TypeId} :
    (typeFilter g.schema e.types).allows t = true ↔ e.Allows g t := by
  unfold typeFilter EdgePattern.Allows
  split
  · rename_i hempty
    simp [TypeFilter.allows, List.isEmpty_iff.1 hempty]
  · rename_i hne
    have hne' : e.types ≠ [] := fun he => hne (List.isEmpty_iff.2 he)
    simp [TypeFilter.allows, hne']

/-- The ends of one start are determined by the pairs with that start. -/
theorem Relation.Holds.ends_congr {r s : Relation} {P Q : NodeId → NodeId → Prop} (h : r.Holds P)
    (h' : s.Holds Q) {a : NodeId} (hPQ : ∀ b, P a b ↔ Q a b) : r.ends a = s.ends a := by
  have hset : r.rows.getD a ∅ = s.rows.getD a ∅ := by
    apply Std.ExtTreeSet.ext_mem
    intro b
    rw [← Std.ExtTreeSet.mem_toList, ← Std.ExtTreeSet.mem_toList]
    exact h.mem_ends.trans ((hPQ b).trans h'.mem_ends.symm)
  rw [ends, ends, hset]

/-- A traversal starts at the node that its variable stands for. -/
theorem Row.startNode_of_get? {r : Row} {name : String} {a : NodeId}
    (h : r.get? name = some (.node a)) : r.startNode name = .ok (some a) := by
  simp only [startNode, h]

namespace Reach

variable {g : Graph} {r : Reach} {a b : NodeId}

/-- The live nodes that the traversal reaches from a node. -/
def From (g : Graph) (r : Reach) (a b : NodeId) : Prop :=
  g.hasNode a = true ∧ ∃ k, r.traversal.hops.least.toNat ≤ k ∧
    (∀ most, r.traversal.hops.most = some most → k ≤ most.toNat) ∧
      Walk (g.Linked r.traversal.types r.traversal.direction) k a b

private theorem starts_holds (h : g.Sound) (r : Reach) (batch : List (Row × Option NodeId)) :
    (g.traverse (Std.ExtTreeSet.ofList (batch.filterMap Prod.snd)).toList r.traversal).Holds
      fun a b => a ∈ batch.filterMap Prod.snd ∧ r.From g a b :=
  (h.traverse_holds _ _).congr fun a b => by
    rw [Std.ExtTreeSet.mem_toList, Std.ExtTreeSet.mem_ofList, List.contains_iff_mem, From,
      and_assoc]

/-- What one row of a batch is extended to does not depend on the other rows. -/
theorem rows_eq_flatMap (h : g.Sound) (r : Reach) (batch : List (Row × Option NodeId)) :
    r.rows g batch = batch.flatMap fun p => r.rows g [p] := by
  rw [rows]
  apply List.flatMap_congr
  rintro ⟨row, start⟩ hmem
  cases start with
  | none => simp [rows]
  | some a =>
    have hends := (starts_holds h r batch).ends_congr (starts_holds h r [(row, some a)]) (a := a)
      fun b => and_congr_left fun _ => by
        simp only [List.mem_filterMap]
        exact ⟨fun _ => ⟨_, List.mem_singleton_self _, rfl⟩, fun _ => ⟨_, hmem, rfl⟩⟩
    simp only [rows, List.flatMap_cons, List.flatMap_nil, List.append_nil, hends]

/-- What one row is extended to, whatever other rows there are. -/
def rowsOf (g : Graph) (r : Reach) (row : Row) : Except QueryFault (List Row) := do
  return r.rows g [(row, ← row.startNode r.source)]

/-- A row with a start is extended from there. -/
theorem rowsOf_of_start {row : Row} {start : Option NodeId}
    (h : row.startNode r.source = .ok start) : r.rowsOf g row = .ok (r.rows g [(row, start)]) := by
  rw [rowsOf, h]
  rfl

/-- A row without a start is not extended. -/
theorem rowsOf_of_error {row : Row} {fault : QueryFault}
    (h : row.startNode r.source = .error fault) : r.rowsOf g row = .error fault := by
  rw [rowsOf, h]
  rfl

/-- What one row is extended to, given the node that it starts from. -/
theorem exists_rows_eq (h : g.Sound) (r : Reach) (row : Row) (a : NodeId) :
    ∃ ends : List NodeId, ends.Pairwise (· < ·) ∧ (∀ b, b ∈ ends ↔ r.From g a b) ∧
      r.rows g [(row, some a)] = (ends.filter fun b => r.labels.accepts g b &&
        row.agrees r.target b).map fun b => row.bind r.target (.node b) := by
  refine ⟨_, ?_, fun b => ?_, List.append_nil _⟩
  · exact Id.ascending_toList _
  · rw [(starts_holds h r [(row, some a)]).mem_ends]
    simp

end Reach

end Plexus
