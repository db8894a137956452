import Plexus.Graph.Change
import Plexus.Proofs.Graph.Sound
import Plexus.Proofs.Repeats

/-!
# Edges at a node

The lists of edges that a graph reads off its matrices contain exactly the live edges of the
asked types in the asked direction.
-/

namespace Plexus

/-- Followed in a direction, an edge leads from one node to another. -/
def Edge.Leads (e : Edge) (dir : Direction) (a b : NodeId) : Prop :=
  dir.forward ∧ e.source = a ∧ e.target = b ∨ dir.backward ∧ e.target = a ∧ e.source = b

instance (e : Edge) (dir : Direction) (a b : NodeId) : Decidable (e.Leads dir a b) :=
  inferInstanceAs (Decidable (_ ∨ _))

/-- A live edge of an allowed type that leads from one node to another. -/
def Graph.Linked (g : Graph) (types : TypeFilter) (dir : Direction) (a b : NodeId) : Prop :=
  ∃ e ∈ g.edges.records, types.allows e.relationType ∧ e.Leads dir a b

namespace Graph

/-- The cells of a matrix at a node, each with the node at its other end. -/
def cellsAt (m : Matrix) (node : NodeId) (dir : Direction) : List (NodeId × List EdgeId) :=
  (if dir.forward then m.row node else []) ++ if dir.backward then m.column node else []

/-- The edges at a node that the matrix of a type holds, if the type is allowed. -/
def edgesIn (types : TypeFilter) (node : NodeId) (dir : Direction) (m : Matrix) (t : Nat) :
    List (EdgeId × NodeId) :=
  if types.allows ⟨t⟩ then (cellsAt m node dir).flatMap fun c => c.2.map (·, c.1) else []

/-- The order in which the edges of a node are listed. -/
def before (a b : EdgeId × NodeId) : Bool := a.1 < b.1 || (a.1 = b.1 && a.2 ≤ b.2)

/-- The edges of a node are put together from its cells in every matrix and then sorted. -/
theorem edgesOf_eq (g : Graph) (node : NodeId) (types : TypeFilter) (dir : Direction) :
    g.edgesOf node types dir = (g.matrices.toList.zipIdx.flatMap fun p =>
      edgesIn types node dir p.1 p.2).mergeSort before :=
  rfl

/-- Listed edges are ordered by the edge and then by the node at its other end. -/
theorem before_iff {a b : EdgeId × NodeId} : before a b = true ↔
    a.1.index < b.1.index ∨ a.1.index = b.1.index ∧ a.2.index ≤ b.2.index := by
  have heq : a.1 = b.1 ↔ a.1.index = b.1.index := ⟨congrArg Id.index, Id.ext_index⟩
  simp only [before, Bool.or_eq_true, Bool.and_eq_true, decide_eq_true_eq, heq]
  rfl

/-- No two listed edges stand at the same place in the order. -/
theorem before_antisymm {a b : EdgeId × NodeId} (hab : before a b = true)
    (hba : before b a = true) : a = b := by
  rw [before_iff] at hab hba
  exact Prod.ext (Id.ext_index (by omega)) (Id.ext_index (by omega))

/-- The edges of a node are listed in order. -/
theorem edgesOf_sorted (g : Graph) (node : NodeId) (types : TypeFilter) (dir : Direction) :
    (g.edgesOf node types dir).Pairwise fun a b => before a b = true := by
  have htrans (a b c : EdgeId × NodeId) :
      before a b = true → before b c = true → before a c = true := by
    rw [before_iff, before_iff, before_iff]
    omega
  have htotal (a b : EdgeId × NodeId) : (before a b || before b a) = true := by
    rw [Bool.or_eq_true, before_iff, before_iff]
    omega
  rw [edgesOf_eq]
  exact List.pairwise_mergeSort htrans htotal _

/-- The edges of a node are listed by ascending ids. -/
theorem edgesOf_ascending (g : Graph) (node : NodeId) (types : TypeFilter) (dir : Direction) :
    (g.edgesOf node types dir).Pairwise fun a b => a.1.index ≤ b.1.index := by
  apply (g.edgesOf_sorted node types dir).imp
  intro a b hab
  rw [before_iff] at hab
  omega

end Graph

namespace Graph.Sound

variable {g : Graph} {types : TypeFilter} {dir : Direction} {node other : NodeId} {eid : EdgeId}

/-- An edge leads to a live node. -/
theorem hasNode_of_leads (h : g.Sound) {e : Edge} (he : e ∈ g.edges.records)
    (hleads : e.Leads dir node other) : g.hasNode other = true := by
  rw [h.hasNode_iff]
  rcases hleads with ⟨-, -, rfl⟩ | ⟨-, -, rfl⟩
  · exact (h.endpoints e he).2
  · exact (h.endpoints e he).1

/-- The matrix of a type holds the live edges of the type that lead away from a node. -/
theorem mem_cellsAt (h : g.Sound) {t : Nat} {m : Matrix} (hm : g.matrices[t]? = some m) :
    (∃ es, (other, es) ∈ cellsAt m node dir ∧ eid ∈ es) ↔
      ∃ e ∈ g.edges.records, e.id = eid ∧ e.relationType.index = t ∧ e.Leads dir node other := by
  have hsplit : (∃ es, (other, es) ∈ cellsAt m node dir ∧ eid ∈ es) ↔
      (dir.forward ∧ ∃ es, (other, es) ∈ m.row node ∧ eid ∈ es) ∨
        (dir.backward ∧ ∃ es, (other, es) ∈ m.column node ∧ eid ∈ es) := by
    cases dir <;> simp [cellsAt, Direction.forward, Direction.backward, or_and_right, exists_or]
  rw [hsplit, h.mem_matrix_row hm, h.mem_matrix_column hm]
  constructor
  · rintro (⟨hf, e, he, hid, ht, hends⟩ | ⟨hb, e, he, hid, ht, hends⟩)
    · exact ⟨e, he, hid, ht, Or.inl ⟨hf, hends⟩⟩
    · exact ⟨e, he, hid, ht, Or.inr ⟨hb, hends⟩⟩
  · rintro ⟨e, he, hid, ht, ⟨hf, hends⟩ | ⟨hb, hends⟩⟩
    · exact Or.inl ⟨hf, e, he, hid, ht, hends⟩
    · exact Or.inr ⟨hb, e, he, hid, ht, hends⟩

/-- The edges listed at a node from the matrix of a type are its live edges that lead away. -/
theorem mem_edgesIn (h : g.Sound) {t : Nat} {m : Matrix} (hm : g.matrices[t]? = some m) :
    (eid, other) ∈ edgesIn types node dir m t ↔ ∃ e ∈ g.edges.records, e.id = eid ∧
      e.relationType.index = t ∧ types.allows e.relationType ∧ e.Leads dir node other := by
  have hcells : (eid, other) ∈ (cellsAt m node dir).flatMap (fun c => c.2.map (·, c.1)) ↔
      ∃ es, (other, es) ∈ cellsAt m node dir ∧ eid ∈ es := by
    simp [Prod.exists]
  unfold edgesIn
  constructor
  · intro hmem
    split at hmem
    · rename_i hallows
      obtain ⟨e, he, hid, rfl, hleads⟩ := (h.mem_cellsAt hm).1 (hcells.1 hmem)
      exact ⟨e, he, hid, rfl, hallows, hleads⟩
    · cases hmem
  · rintro ⟨e, he, hid, rfl, hallows, hleads⟩
    rw [if_pos hallows]
    exact hcells.2 ((h.mem_cellsAt hm).2 ⟨e, he, hid, rfl, hleads⟩)

/-- The edges of a node are the live edges of the allowed types that lead away from it. -/
theorem mem_edgesOf (h : g.Sound) :
    (eid, other) ∈ g.edgesOf node types dir ↔
      ∃ e ∈ g.edges.records, e.id = eid ∧ types.allows e.relationType ∧ e.Leads dir node other := by
  simp only [edgesOf_eq, List.mem_mergeSort, List.mem_flatMap, Prod.exists,
    List.mk_mem_zipIdx_iff_getElem?, Array.getElem?_toList]
  constructor
  · rintro ⟨m, t, hm, hmem⟩
    obtain ⟨e, he, hid, -, hleads⟩ := (h.mem_edgesIn hm).1 hmem
    exact ⟨e, he, hid, hleads⟩
  · rintro ⟨e, he, hid, hleads⟩
    obtain ⟨m, hm⟩ := h.matrix_of_edge he
    exact ⟨m, _, hm, (h.mem_edgesIn hm).2 ⟨e, he, hid, rfl, hleads⟩⟩

/-- The incident edges of a node are those that start or end there. -/
theorem mem_incident (h : g.Sound) :
    eid ∈ g.incident node ↔
      ∃ e ∈ g.edges.records, e.id = eid ∧ (e.source = node ∨ e.target = node) := by
  rw [incident, List.eraseReps, mem_eraseRepsBy fun _ _ _ _ => eq_of_beq, List.mem_map]
  constructor
  · rintro ⟨⟨eid', other⟩, hmem, rfl⟩
    obtain ⟨e, he, hid, -, hleads⟩ := h.mem_edgesOf.1 hmem
    exact ⟨e, he, hid, hleads.imp (·.2.1) (·.2.1)⟩
  · rintro ⟨e, he, hid, hs | ht⟩
    · exact ⟨(eid, e.target), h.mem_edgesOf.2 ⟨e, he, hid, rfl, Or.inl ⟨rfl, hs, rfl⟩⟩, rfl⟩
    · exact ⟨(eid, e.source), h.mem_edgesOf.2 ⟨e, he, hid, rfl, Or.inr ⟨rfl, ht, rfl⟩⟩, rfl⟩

private theorem mem_view (g : Graph) (types : TypeFilter) (dir : Direction) (m : Matrix) :
    m ∈ (g.view types dir).matrices ↔
      ∃ t : Nat, g.matrices[t]? = some m ∧ types.allows ⟨t⟩ := by
  cases types with
  | any => simp [view, TypeFilter.allows, List.mem_iff_getElem?]
  | only types =>
    simp only [view, List.mem_filterMap, Std.ExtTreeSet.mem_toList, matrix?, TypeFilter.allows,
      Std.ExtTreeSet.mem_ofList]
    constructor
    · rintro ⟨⟨t⟩, ht, hm⟩
      exact ⟨t, hm, ht⟩
    · rintro ⟨t, hm, ht⟩
      exact ⟨⟨t⟩, ht, hm⟩

/-- One hop leads along the live edges of the allowed types. -/
theorem mem_hop (h : g.Sound) :
    other ∈ (g.view types dir).hop node ↔ g.Linked types dir node other := by
  have hhop : other ∈ (g.view types dir).hop node ↔
      ∃ m ∈ (g.view types dir).matrices, ∃ es, (other, es) ∈ cellsAt m node dir := by
    simp only [MatrixView.hop, List.mem_flatMap, Matrix.successors, Matrix.predecessors]
    refine exists_congr fun m => and_congr_right fun _ => ?_
    have hdir : (g.view types dir).direction = dir := by cases types <;> rfl
    rw [hdir]
    cases dir <;>
      simp [cellsAt, Direction.forward, Direction.backward, List.mem_map, Prod.exists, exists_or]
  rw [hhop]
  constructor
  · rintro ⟨m, hm, es, hcell⟩
    obtain ⟨t, hmatrix, hallows⟩ := (mem_view g types dir m).1 hm
    have hne : es ≠ [] := by
      have hrec := h.records hmatrix
      rcases List.mem_append.1 hcell with hrow | hcolumn
      · split at hrow
        · exact (hrec.outgoing_tight.mem_row.1 hrow).2
        · cases hrow
      · split at hcolumn
        · exact (hrec.incoming_tight.mem_row.1 hcolumn).2
        · cases hcolumn
    obtain ⟨eid, heid⟩ := List.exists_mem_of_ne_nil es hne
    obtain ⟨e, he, -, rfl, hleads⟩ := (h.mem_cellsAt hmatrix).1 ⟨es, hcell, heid⟩
    exact ⟨e, he, hallows, hleads⟩
  · rintro ⟨e, he, hallows, hleads⟩
    obtain ⟨m, hm⟩ := h.matrix_of_edge he
    obtain ⟨es, hcell, -⟩ := (h.mem_cellsAt hm).2 ⟨e, he, rfl, rfl, hleads⟩
    exact ⟨m, (mem_view g types dir m).2 ⟨_, hm, hallows⟩, es, hcell⟩

end Graph.Sound

end Plexus
