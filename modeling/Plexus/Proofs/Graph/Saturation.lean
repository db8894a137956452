import Mathlib.Data.Fintype.Card
import Plexus.Proofs.Graph.Traverse

/-!
# Traversals saturate

The more hops a traversal is allowed, the more it reaches, up to a bound that the number of live
nodes sets. A walk beyond that bound visits some node twice after its obligatory first steps.
Without the round between the two visits it has the same ends, is shorter and is still long enough.
So no pair is reached by long walks alone, and from the bound on a traversal is one without any
upper bound.
-/

namespace Plexus

namespace Walk

variable {step : NodeId → NodeId → Prop} {nodes : Finset NodeId} {a b : NodeId} {n least : Nat}

/-- A walk does not leave nodes that no step leaves. -/
theorem mem_of_closed (hstep : ∀ x y, step x y → y ∈ nodes) (ha : a ∈ nodes)
    (h : Walk step n a b) : b ∈ nodes := by
  cases h with
  | refl => exact ha
  | snoc _ hlast => exact hstep _ _ hlast

/-- A walk among some nodes that goes on for as many steps as there are nodes, after some first
steps, can be replaced by a shorter one. -/
theorem exists_shorter (hstep : ∀ x y, step x y → y ∈ nodes) (ha : a ∈ nodes)
    (h : Walk step n a b) (hn : least + nodes.card ≤ n) :
    ∃ k, least ≤ k ∧ k < n ∧ Walk step k a b := by
  have hstop (i : Fin (nodes.card + 1)) : ∃ x ∈ nodes,
      Walk step (least + i) a x ∧ Walk step (n - (least + i)) x b := by
    have hle : least + i + (n - (least + i)) = n := by omega
    rw [← hle] at h
    obtain ⟨x, hfirst, hrest⟩ := h.exists_append
    exact ⟨x, hfirst.mem_of_closed hstep ha, hfirst, hrest⟩
  choose stop hmem hfirst hrest using hstop
  -- one more stop than there are nodes
  have hcard : nodes.card < (Finset.univ : Finset (Fin (nodes.card + 1))).card := by simp
  obtain ⟨i, -, j, -, hne, hsame⟩ :=
    Finset.exists_ne_map_eq_of_card_lt_of_maps_to hcard fun i _ => hmem i
  wlog hlt : i < j generalizing i j
  · exact this j i hne.symm hsame.symm (lt_of_le_of_ne (not_lt.1 hlt) hne.symm)
  have hshort := (hfirst i).append (hsame ▸ hrest j)
  exact ⟨_, by omega, by omega, hshort⟩

/-- Whatever a walk among some nodes leads to, one does that takes fewer steps than there are nodes
after its first steps. -/
theorem exists_short (hstep : ∀ x y, step x y → y ∈ nodes) (ha : a ∈ nodes)
    (h : Walk step n a b) (hn : least ≤ n) :
    ∃ k, least ≤ k ∧ k < least + nodes.card ∧ Walk step k a b := by
  induction n using Nat.strong_induction_on with
  | h n ih =>
    by_cases hlt : n < least + nodes.card
    · exact ⟨n, hn, hlt, h⟩
    · obtain ⟨k, hleast, hk, hwalk⟩ := h.exists_shorter hstep ha (Nat.le_of_not_lt hlt)
      exact ih k hk hwalk hleast

end Walk

namespace Graph

variable {g : Graph}

/-- The live nodes as a set. -/
def liveNodes (g : Graph) : Finset NodeId := g.nodeIds.toFinset

/-- There are as many live nodes as the graph counts. -/
theorem Sound.card_liveNodes (h : g.Sound) : g.liveNodes.card = g.nodeCount := by
  rw [liveNodes, List.toFinset_card_of_nodup (h.nodeIds_ascending.imp Id.ne_of_lt), nodeIds,
    List.length_map]
  exact h.nodes.live_eq.symm

/-- The live nodes are those that the graph has. -/
theorem Sound.mem_liveNodes (h : g.Sound) {id : NodeId} :
    id ∈ g.liveNodes ↔ g.hasNode id = true := by
  rw [liveNodes, List.mem_toFinset, h.hasNode_iff]

/-- An edge leads to a live node. -/
theorem Sound.mem_liveNodes_of_linked (h : g.Sound) {types : TypeFilter} {direction : Direction}
    (a b : NodeId) (hab : g.Linked types direction a b) : b ∈ g.liveNodes := by
  obtain ⟨e, he, -, hleads⟩ := hab
  exact h.mem_liveNodes.2 (h.hasNode_of_leads he hleads)

/-- A larger bound on the hops loses nothing, be it a number or none at all. -/
theorem Sound.traverse_mono (h : g.Sound) (starts : List NodeId) {types : TypeFilter}
    {direction : Direction} {least : UInt32} {most most' : Option UInt32}
    (hmost : ∀ m', most' = some m' → ∃ m, most = some m ∧ m ≤ m') {s e : NodeId}
    (hs : (g.traverse starts ⟨types, direction, ⟨least, most⟩⟩).contains s e = true) :
    (g.traverse starts ⟨types, direction, ⟨least, most'⟩⟩).contains s e = true := by
  rw [(h.traverse_holds starts _).contains_iff] at hs ⊢
  obtain ⟨hstart, k, hleast, hk, hwalk⟩ := hs
  refine ⟨hstart, k, hleast, fun m' hm' => ?_, hwalk⟩
  obtain ⟨m, hm, hle⟩ := hmost m' hm'
  exact (hk m hm).trans (UInt32.le_iff_toNat_le.1 hle)

/-- From a bound on that leaves as many hops beyond the least as there are other live nodes, a
traversal reaches what it reaches without any bound. -/
theorem Sound.traverse_unbounded (h : g.Sound) (starts : List NodeId) {types : TypeFilter}
    {direction : Direction} {least most : UInt32}
    (hmost : least.toNat + (g.nodeCount - 1) ≤ most.toNat) :
    g.traverse starts ⟨types, direction, ⟨least, some most⟩⟩ =
      g.traverse starts ⟨types, direction, ⟨least, none⟩⟩ := by
  refine ((h.traverse_holds starts _).congr fun s e => and_congr_right ?_).unique
    (h.traverse_holds starts _)
  rintro ⟨-, hlive⟩
  constructor
  · rintro ⟨k, hleast, -, hwalk⟩
    exact ⟨k, hleast, nofun, hwalk⟩
  · rintro ⟨n, hleast, -, hwalk⟩
    obtain ⟨k, hk, hshort, hwalk⟩ :=
      hwalk.exists_short h.mem_liveNodes_of_linked (h.mem_liveNodes.2 hlive) hleast
    rw [h.card_liveNodes] at hshort
    refine ⟨k, hk, ?_, hwalk⟩
    rintro _ ⟨⟩
    have hbound : k < least.toNat + g.nodeCount := hshort
    omega

/-- In every reachable graph a traversal loses no pair under a larger upper bound or none, and it is
saturated at a bound that leaves, beyond the least number of hops, one hop for every live node but
one: it has then the pairs that it has without an upper bound. -/
theorem Reachable.traverse_saturates (h : g.Reachable) (starts : List NodeId) (types : TypeFilter)
    (direction : Direction) (least : UInt32) :
    let reached (most : Option UInt32) := g.traverse starts ⟨types, direction, ⟨least, most⟩⟩
    (∀ m m' : UInt32, m ≤ m' → ∀ s e,
      (reached (some m)).contains s e = true → (reached (some m')).contains s e = true) ∧
    (∀ m s e, (reached (some m)).contains s e = true → (reached none).contains s e = true) ∧
    ∀ m : UInt32, least.toNat + (g.nodeCount - 1) ≤ m.toNat → reached (some m) = reached none := by
  refine ⟨fun m m' hle s e => ?_, fun m s e => ?_, fun m => h.sound.traverse_unbounded starts⟩
  · exact h.sound.traverse_mono starts fun _ heq => ⟨m, rfl, Option.some.inj heq ▸ hle⟩
  · refine h.sound.traverse_mono starts ?_
    rintro _ ⟨⟩

/-- On a cycle of three nodes, of which a fourth has been deleted, two hops beyond the least number
are enough from a start for every node, and one hop is not. -/
theorem traverse_saturates_on_cycle :
    let g := [Mutation.createNode [] [], .createNode [] [], .createNode [] [], .createNode [] [],
      .createEdge ⟨0⟩ ⟨1⟩ "R" [], .createEdge ⟨1⟩ ⟨2⟩ "R" [], .createEdge ⟨2⟩ ⟨0⟩ "R" [],
      .deleteNode ⟨3⟩].foldl Graph.after (.empty {})
    let reached (most : Option UInt32) := g.traverse [⟨0⟩, ⟨3⟩] ⟨.any, .outgoing, ⟨2, most⟩⟩
    g.Reachable ∧ g.nodeCount = 3 ∧ reached (some 4) = reached none ∧
      (reached (some 3)).contains ⟨0⟩ ⟨1⟩ = false ∧ (reached none).contains ⟨0⟩ ⟨1⟩ = true := by
  intro g reached
  have hreach : g.Reachable := .foldl (.empty {}) _
  obtain ⟨-, -, hsaturated⟩ :=
    Reachable.traverse_saturates hreach [⟨0⟩, ⟨3⟩] .any .outgoing 2
  exact ⟨hreach, by decide +kernel, hsaturated 4 (by decide +kernel), by decide +kernel,
    by decide +kernel⟩

end Graph

end Plexus
