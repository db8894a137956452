import Plexus.Proofs.Plan.Names

/-!
# Positions on a path

A path can be seen from each of its nodes. From the node at a position the planner follows the
segments after the position as they are written and then those before it backwards, the nearest
first. Of the nodes with one variable it starts from the first alone.
-/

namespace Plexus

namespace WalkStep

/-- The step between the same nodes the other way. -/
def turned (s : WalkStep) : WalkStep := ⟨s.target, s.edge, s.source, s.direction.reverse⟩

/-- The step that an edge descriptor between two node descriptors is written as. -/
def written (ends : NamedNode × NamedNode) (edge : NamedEdge) : WalkStep :=
  ⟨ends.1, edge, ends.2, edge.pattern.direction⟩

end WalkStep

namespace Focus

/-- The steps of the path as they are written, from left to right. -/
def segments (f : Focus) : List WalkStep :=
  List.zipWith WalkStep.written (f.nodes.zip f.nodes.tail) f.edges

/-- The steps from the node at a position: those after it as they are written, and then those before
it backwards. -/
def outward (f : Focus) (i : Nat) : List WalkStep :=
  f.segments.drop i ++ ((f.segments.take i).map WalkStep.turned).reverse

/-- The steps to the end of a path are as they are written. -/
theorem walkFrom_eq (node : NamedNode) (after : List (NamedEdge × NamedNode)) :
    walkFrom id node after =
      List.zipWith WalkStep.written ((node :: after.map Prod.snd).zip (after.map Prod.snd))
        (after.map Prod.fst) := by
  induction after generalizing node with
  | nil => rfl
  | cons p rest ih =>
    obtain ⟨edge, next⟩ := p
    rw [walkFrom, ih]
    rfl

private theorem outward_eq (before : List (NamedEdge × NamedNode)) (node : NamedNode)
    (after : List (NamedEdge × NamedNode)) :
    (Focus.mk before node after).segments.drop before.length = walkFrom id node after ∧
      (((Focus.mk before node after).segments.take before.length).map WalkStep.turned).reverse =
        walkFrom Direction.reverse node before := by
  induction before generalizing node after with
  | nil => exact ⟨(walkFrom_eq node after).symm, rfl⟩
  | cons p before ih =>
    obtain ⟨edge, last⟩ := p
    -- seen from the node before, the segments are the same
    have hsame : (Focus.mk ((edge, last) :: before) node after).segments =
        (Focus.mk before last ((edge, node) :: after)).segments := by
      simp [segments, nodes, edges]
    obtain ⟨hdrop, htake⟩ := ih last ((edge, node) :: after)
    rw [hsame, List.length_cons]
    generalize (Focus.mk before last ((edge, node) :: after)).segments = l at hdrop htake
    have hnext : l[before.length]? = some ⟨last, edge, node, edge.pattern.direction⟩ := by
      rw [← List.head?_drop, hdrop]
      rfl
    constructor
    · rw [← List.tail_drop, hdrop]
      rfl
    · rw [List.take_add_one, hnext, List.map_append, List.reverse_append, htake]
      rfl

/-- The planner walks outward from where the path is seen. -/
theorem walk_eq_outward (f : Focus) : f.walk = f.outward f.before.length := by
  obtain ⟨before, node, after⟩ := f
  obtain ⟨hdrop, htake⟩ := outward_eq before node after
  rw [outward, hdrop, htake]
  rfl

/-- The node from which a path is seen stands at its own place. -/
theorem getElem?_nodes (f : Focus) : f.nodes[f.before.length]? = some f.node := by
  simp [nodes]

/-- A node comes first under its name if no node before it is called the same. -/
theorem isFirst_iff (f : Focus) :
    f.isFirst = true ↔ ∀ m ∈ f.nodes.take f.before.length, m.name ≠ f.node.name := by
  simp only [isFirst, nodes, List.all_eq_true, decide_eq_true_eq, List.length_reverse,
    List.length_map, List.take_left', List.mem_reverse, List.forall_mem_map]

/-- There is one step for each edge descriptor. -/
theorem perm_outward (f : Focus) (i : Nat) : ((f.outward i).map WalkStep.edge).Perm f.edges := by
  have hlength : f.edges.length ≤ (f.nodes.zip f.nodes.tail).length := by
    simp [nodes, edges]
  have hsegments : f.segments.map WalkStep.edge = f.edges := by
    rw [segments, List.map_zipWith]
    exact (List.map_zip_eq_zipWith ..).symm.trans (List.map_snd_zip hlength)
  have hturned : (f.segments.take i).map (WalkStep.edge ∘ WalkStep.turned) =
      (f.segments.take i).map WalkStep.edge := rfl
  rw [outward, List.map_append, List.map_reverse, List.map_map, hturned]
  refine (List.Perm.append_left _ (List.reverse_perm _)).trans (List.perm_append_comm.trans ?_)
  rw [← List.map_append, List.take_append_drop, hsegments]

/-- What lies beyond a place does not depend on where the path is seen from. -/
theorem outward_of_mem_all {f f' : Focus} (h : f' ∈ f.all) (i : Nat) :
    f'.outward i = f.outward i := by
  simp only [outward, segments, nodes_of_mem_all h, edges_of_mem_all h]

private theorem exists_mem_shiftAll {before after : List (NamedEdge × NamedNode)} {node : NamedNode}
    {i : Nat} (hbefore : before.length < i) (hafter : i ≤ before.length + after.length) :
    ∃ f ∈ shiftAll before node after, f.before.length = i := by
  induction after generalizing before node with
  | nil =>
    rw [List.length_nil] at hafter
    omega
  | cons p after ih =>
    obtain ⟨edge, next⟩ := p
    rw [List.length_cons] at hafter
    rcases Nat.eq_or_lt_of_le hbefore with heq | hlt
    · exact ⟨_, List.mem_cons_self, heq⟩
    · have hrest : ∃ f ∈ shiftAll ((edge, node) :: before) next after, f.before.length = i :=
        ih hlt (by rw [List.length_cons]; omega)
      obtain ⟨f, hf, hlength⟩ := hrest
      exact ⟨f, List.mem_cons_of_mem _ hf, hlength⟩

/-- A path that is seen from its start is also seen from each of its nodes. -/
theorem exists_mem_all {f : Focus} (hbefore : f.before = []) {i : Nat} (hi : i < f.nodes.length) :
    ∃ f' ∈ f.all, f'.before.length = i := by
  obtain ⟨before, node, after⟩ := f
  obtain rfl : before = [] := hbefore
  cases i with
  | zero => exact ⟨_, List.mem_cons_self, rfl⟩
  | succ i =>
    have hafter : i + 1 ≤ ([] : List (NamedEdge × NamedNode)).length + after.length := by
      simp only [nodes, List.map_nil, List.reverse_nil, List.nil_append, List.length_cons,
        List.length_map] at hi
      simpa using Nat.le_of_lt_succ hi
    obtain ⟨f', hf', hlength⟩ := exists_mem_shiftAll (Nat.succ_pos i) hafter
    exact ⟨f', List.mem_cons_of_mem _ hf', hlength⟩

end Focus

/-- The node descriptor at a position, where no other with its variable comes before it. -/
structure Path.FirstAt (p : Path) (i : Nat) (n : NodePattern) : Prop where
  position : p.nodes[i]? = some n
  first : ∀ x, n.name = some x → ∀ m ∈ p.nodes.take i, m.name ≠ some x

namespace Focus

variable {f : Focus} {p : Path} {path : Nat}

/-- Node descriptors of a path have one name if the query gives it to all of them. -/
theorem Names.first_iff (h : f.Names p)
    (hapart : (f.mentions path).Pairwise Mention.Apart) {i : Nat} {n : NamedNode}
    (hn : f.nodes[i]? = some n) :
    p.FirstAt i n.pattern ↔ ∀ m ∈ f.nodes.take i, m.name ≠ n.name := by
  have hposition : p.nodes[i]? = some n.pattern := by
    rw [← h.map_nodes, List.getElem?_map, hn]
    rfl
  have htake : p.nodes.take i = (f.nodes.take i).map NamedNode.pattern := by
    rw [← h.map_nodes, List.map_take]
  have hnodes : ∀ m ∈ f.nodes.take i, (m.mention path).Apart (n.mention path) := by
    have hpairs := (List.pairwise_append.1 hapart).1
    rw [List.pairwise_map, ← List.take_append_drop i f.nodes, List.pairwise_append] at hpairs
    have hdrop : n ∈ f.nodes.drop i :=
      List.mem_of_getElem? (i := 0) (by rw [List.getElem?_drop, Nat.add_zero, hn])
    exact fun m hm => hpairs.2.2 m hm n hdrop
  constructor
  · intro hfirst m hm heq
    obtain ⟨hroles, _, hrole⟩ := hnodes m hm heq
    obtain ⟨x, hx, -⟩ := Option.map_eq_some_iff.1 hrole
    obtain ⟨y, hy, -⟩ := Option.map_eq_some_iff.1 (hroles.symm.trans hrole)
    have hxy : x = y := by
      rw [← h.node_name m (List.mem_of_mem_take hm) x hx,
        ← h.node_name n (List.mem_of_getElem? hn) y hy, heq]
    refine hfirst.first y hy m.pattern ?_ (hxy ▸ hx)
    rw [htake]
    exact List.mem_map_of_mem hm
  · refine fun hfirst => ⟨hposition, fun x hx => ?_⟩
    rw [htake, List.forall_mem_map]
    intro m hm hmx
    refine hfirst m hm ?_
    rw [h.node_name m (List.mem_of_mem_take hm) x hmx, h.node_name n (List.mem_of_getElem? hn) x hx]

/-- The nodes that a path may be entered at are those that come first with their variable. -/
theorem Names.firstAt_iff (h : f.Names p) (hapart : (f.mentions path).Pairwise Mention.Apart)
    {i : Nat} {n : NodePattern} : p.FirstAt i n ↔
      ∃ f' ∈ f.candidates, f'.before.length = i ∧ f'.node.pattern = n := by
  constructor
  · intro hfirst
    have hi : i < f.nodes.length := by
      rw [← List.length_map (f := NamedNode.pattern), h.map_nodes]
      exact (List.getElem?_eq_some_iff.1 hfirst.position).1
    obtain ⟨f', hf', rfl⟩ := exists_mem_all h.before hi
    have hnode := f'.getElem?_nodes
    rw [nodes_of_mem_all hf'] at hnode
    have hpattern : f'.node.pattern = n := by
      have hposition := hfirst.position
      rw [← h.map_nodes, List.getElem?_map, hnode] at hposition
      exact Option.some.inj hposition
    refine ⟨f', List.mem_filter.2 ⟨hf', f'.isFirst_iff.2 ?_⟩, rfl, hpattern⟩
    rw [nodes_of_mem_all hf']
    exact (h.first_iff hapart hnode).1 (hpattern ▸ hfirst)
  · rintro ⟨f', hf', rfl, rfl⟩
    obtain ⟨hall, hisFirst⟩ := List.mem_filter.1 hf'
    have hnode := f'.getElem?_nodes
    have hfirst := f'.isFirst_iff.1 hisFirst
    rw [nodes_of_mem_all hall] at hnode hfirst
    exact (h.first_iff hapart hnode).2 hfirst

end Focus

end Plexus
