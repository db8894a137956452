import Plexus.Proofs.Graph.Indexed

/-!
# What leaves list

Whichever way a leaf finds its nodes, it lists those of the live nodes that it admits, in the order
of their slots.
-/

namespace Plexus

namespace Access

/-- The leaf is for the node. -/
def admits (n : Node) : Access → Bool
  | all => true
  | label none => false
  | label (some l) => n.hasLabel l
  | index l property value =>
    n.hasLabel l && (n.property? property).any fun v => v.equals value = some true

/-- The live nodes that the leaf is for, slot by slot. -/
def listed (g : Graph) (access : Access) : List NodeId :=
  ((List.range g.nodes.capacity).filter fun slot => (g.nodes.get? slot).any access.admits).map Id.mk

end Access

namespace Graph.Sound

variable {g : Graph} {access : Access} {id : NodeId}

/-- A leaf lists the nodes that it admits. -/
theorem mem_nodes (h : g.Sound) :
    id ∈ access.nodes g ↔ ∃ n ∈ g.nodes.records, n.id = id ∧ access.admits n = true := by
  cases access with
  | all => simp [Access.nodes, Access.admits]
  | label l =>
    cases l with
    | none => simp [Access.nodes, Access.admits]
    | some l => exact h.mem_labelled
  | index l property value =>
    rw [h.nodes_index, Graph.mem_scanFor]
    simp only [Access.admits, Bool.and_eq_true, Option.any_eq_true, decide_eq_true_eq]

/-- A leaf lists its nodes in ascending order. -/
theorem nodes_ascending (h : g.Sound) (access : Access) : (access.nodes g).Pairwise (· < ·) := by
  cases access with
  | all => exact h.nodeIds_ascending
  | label l =>
    cases l with
    | none => exact List.Pairwise.nil
    | some l => exact Id.ascending_toList _
  | index l property value =>
    rw [h.nodes_index]
    exact h.scanFor_ascending

/-- A leaf lists live nodes. -/
theorem hasNode_of_mem_nodes (h : g.Sound) (hid : id ∈ access.nodes g) : g.hasNode id = true := by
  obtain ⟨n, hn, rfl, -⟩ := h.mem_nodes.1 hid
  exact h.hasNode_iff.2 (List.mem_map_of_mem hn)

/-- A leaf lists no node twice. -/
theorem nodup_nodes (h : g.Sound) (access : Access) : (access.nodes g).Nodup :=
  (h.nodes_ascending access).imp Id.ne_of_lt

private theorem mem_listed (h : g.Sound) :
    id ∈ access.listed g ↔ ∃ n ∈ g.nodes.records, n.id = id ∧ access.admits n = true := by
  simp only [Access.listed, List.mem_map, List.mem_filter, List.mem_range, Option.any_eq_true]
  constructor
  · rintro ⟨slot, ⟨-, n, hn, hadmits⟩, rfl⟩
    exact ⟨n, Arena.mem_records.2 ⟨slot, hn⟩, Id.ext_index (h.nodes.slotOf_eq slot n hn), hadmits⟩
  · rintro ⟨n, hn, rfl, hadmits⟩
    have hget := h.nodes.get?_slotOf hn
    exact ⟨n.id.index, ⟨Arena.lt_capacity_of_get? hget, n, hget, hadmits⟩, rfl⟩

/-- What a leaf lists is what going through the slots finds. -/
theorem nodes_eq_listed (h : g.Sound) (access : Access) : access.nodes g = access.listed g := by
  refine Id.eq_of_ascending (h.nodes_ascending access) ?_ fun id =>
    h.mem_nodes.trans (mem_listed h).symm
  rw [Access.listed, List.pairwise_map]
  exact List.pairwise_lt_range.filter _

end Graph.Sound

end Plexus
