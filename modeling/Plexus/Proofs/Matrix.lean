import Mathlib.Data.List.Nodup
import Plexus.Entity
import Plexus.Matrix

/-!
# Matrices as tables of edges

A matrix records a list of edges if every cell holds the identifiers of the edges between its
nodes, in the order of the list, in both directions, and nothing empty is kept. Adding an edge
and removing one keep this up, and a matrix is determined by the edges it records.
-/

namespace Plexus

namespace Cells

variable {t u : Cells} {r k : NodeId}

/-- No row is kept without a cell, and no cell without an edge. -/
structure Tight (t : Cells) : Prop where
  row_ne (r : NodeId) : t[r]? ≠ some ∅
  cell_ne (r k : NodeId) : (t.getD r ∅)[k]? ≠ some []

theorem getD_eq (t : Cells) (r : NodeId) : t.getD r ∅ = t[r]?.getD ∅ :=
  Std.ExtTreeMap.getD_eq_getD_getElem?

theorem list_eq (t : Cells) (r k : NodeId) : t.list r k = ((t.getD r ∅)[k]?).getD [] :=
  Std.ExtTreeMap.getD_eq_getD_getElem?

/-- The empty table has no empty rows and no empty cells. -/
theorem tight_empty : (∅ : Cells).Tight where
  row_ne r := by simp
  cell_ne r k := by simp

@[simp] theorem list_empty (r k : NodeId) : (∅ : Cells).list r k = [] := by
  simp [list]

/-- In a tight table a cell is there exactly if it lists an edge. -/
theorem Tight.getElem?_eq_some_iff (h : t.Tight) {es : List EdgeId} :
    (t.getD r ∅)[k]? = some es ↔ t.list r k = es ∧ es ≠ [] := by
  rw [list_eq]
  constructor
  · intro he
    refine ⟨by simp [he], ?_⟩
    rintro rfl
    exact h.cell_ne r k he
  · rintro ⟨rfl, hne⟩
    cases hc : (t.getD r ∅)[k]? with
    | none => simp [hc] at hne
    | some es => rfl

/-- In a tight table a cell is there if it holds edges. -/
theorem Tight.contains_iff (h : t.Tight) : (t.getD r ∅).contains k = true ↔ t.list r k ≠ [] := by
  rw [list_eq, Std.ExtTreeMap.contains_iff_mem, Std.ExtTreeMap.mem_iff_isSome_getElem?]
  cases hc : (t.getD r ∅)[k]? with
  | none => simp
  | some es =>
    have hne : es ≠ [] := by
      rintro rfl
      exact h.cell_ne r k hc
    simp [hne]

/-- Two tight tables with the same lists are the same. -/
theorem Tight.ext (h : t.Tight) (h' : u.Tight) (hl : ∀ r k, t.list r k = u.list r k) : t = u := by
  have hrow (r : NodeId) : t.getD r ∅ = u.getD r ∅ := by
    apply Std.ExtTreeMap.ext_getElem?
    intro k
    apply Option.ext
    intro es
    rw [h.getElem?_eq_some_iff, h'.getElem?_eq_some_iff, hl]
  apply Std.ExtTreeMap.ext_getElem?
  intro r
  have hr := hrow r
  rw [getD_eq, getD_eq] at hr
  have hc := h.row_ne r
  have hd := h'.row_ne r
  cases hcr : t[r]? with
  | none =>
    cases hdr : u[r]? with
    | none => rfl
    | some row =>
      simp only [hcr, hdr, Option.getD_none, Option.getD_some] at hr
      exact absurd (hr ▸ hdr) hd
  | some row =>
    cases hdr : u[r]? with
    | none =>
      simp only [hcr, hdr, Option.getD_none, Option.getD_some] at hr
      exact absurd (hr ▸ hcr) hc
    | some row' =>
      simp only [hcr, hdr, Option.getD_some] at hr
      rw [hr]

private theorem getD_insert (t : Cells) (r : NodeId) (row : Std.ExtTreeMap NodeId (List EdgeId))
    (r' : NodeId) : (t.insert r row).getD r' ∅ = if r = r' then row else t.getD r' ∅ := by
  simp [Std.ExtTreeMap.getD_insert]

private theorem list_insert (t : Cells) (r k : NodeId) (es : List EdgeId) (r' k' : NodeId) :
    Cells.list (t.insert r ((t.getD r ∅).insert k es)) r' k' =
      if r = r' ∧ k = k' then es else t.list r' k' := by
  rw [list, getD_insert]
  by_cases hr : r = r'
  · subst hr
    simp [Std.ExtTreeMap.getD_insert, list]
  · simp [hr, list]

private theorem tight_insert (h : t.Tight) (r k : NodeId) {es : List EdgeId} (hes : es ≠ []) :
    Tight (t.insert r ((t.getD r ∅).insert k es)) where
  row_ne r' := by
    rw [Std.ExtTreeMap.getElem?_insert]
    split
    · simp [Std.ExtTreeMap.insert_ne_empty]
    · exact h.row_ne r'
  cell_ne r' k' := by
    rw [getD_insert]
    split
    · rename_i hr
      subst hr
      rw [Std.ExtTreeMap.getElem?_insert]
      split
      · simpa using hes
      · exact h.cell_ne _ k'
    · exact h.cell_ne r' k'

/-- An edge is added at the end of its cell. -/
theorem list_push (t : Cells) (r k : NodeId) (e : EdgeId) (r' k' : NodeId) :
    (t.push r k e).list r' k' = if r = r' ∧ k = k' then t.list r k ++ [e] else t.list r' k' :=
  list_insert t r k _ r' k'

/-- Adding an edge to a cell keeps a table tight. -/
theorem Tight.push (h : t.Tight) (r k : NodeId) (e : EdgeId) : (t.push r k e).Tight :=
  tight_insert h r k (by simp)

/-- A cell that is put holds what was put into it. -/
theorem list_put (t : Cells) (r k : NodeId) (es : List EdgeId) (r' k' : NodeId) :
    (t.put r k es).list r' k' = if r = r' ∧ k = k' then es else t.list r' k' := by
  cases es with
  | cons e es => exact list_insert t r k _ r' k'
  | nil =>
    have hrow (r' : NodeId) : (t.put r k []).getD r' ∅ =
        if r = r' then (t.getD r ∅).erase k else t.getD r' ∅ := by
      unfold put
      dsimp only
      split
      · rename_i hempty
        rw [Std.ExtTreeMap.isEmpty_iff] at hempty
        rw [hempty, Std.ExtTreeMap.getD_erase]
        simp
      · rw [getD_insert]
    rw [list, hrow]
    by_cases hr : r = r'
    · subst hr
      simp [Std.ExtTreeMap.getD_erase, list]
    · simp [hr, list]

/-- Writing a cell, or taking it away if nothing is left in it, keeps a table tight. -/
theorem Tight.put (h : t.Tight) (r k : NodeId) (es : List EdgeId) : (t.put r k es).Tight := by
  cases es with
  | cons e es => exact tight_insert h r k (by simp)
  | nil =>
    unfold Cells.put
    dsimp only
    split
    · constructor
      · intro r'
        rw [Std.ExtTreeMap.getElem?_erase]
        split
        · simp
        · exact h.row_ne r'
      · intro r' k'
        rw [Std.ExtTreeMap.getD_erase]
        split
        · simp
        · exact h.cell_ne r' k'
    · rename_i hne
      constructor
      · intro r'
        rw [Std.ExtTreeMap.getElem?_insert]
        split
        · simpa [Std.ExtTreeMap.isEmpty_iff] using hne
        · exact h.row_ne r'
      · intro r' k'
        rw [getD_insert]
        split
        · rename_i hr
          subst hr
          rw [Std.ExtTreeMap.getElem?_erase]
          split
          · simp
          · exact h.cell_ne _ k'
        · exact h.cell_ne r' k'

/-- The cells of a row in a tight table are those that list an edge. -/
theorem Tight.mem_row (h : t.Tight) {es : List EdgeId} :
    (k, es) ∈ t.row r ↔ t.list r k = es ∧ es ≠ [] := by
  rw [row, Std.ExtTreeMap.mem_toList_iff_getElem?_eq_some, h.getElem?_eq_some_iff]

end Cells

/-- The identifiers of the edges from one node to another, in the order of a list. -/
def Edge.between (es : List Edge) (source target : NodeId) : List EdgeId :=
  (es.filter fun e => e.source = source ∧ e.target = target).map (·.id)

namespace Edge

variable {es : List Edge} {s t : NodeId} {id : EdgeId}

/-- The edges between two nodes are those that lead from the one to the other. -/
theorem mem_between : id ∈ between es s t ↔ ∃ e ∈ es, e.id = id ∧ e.source = s ∧ e.target = t := by
  simp only [between, List.mem_map, List.mem_filter, decide_eq_true_eq]
  constructor
  · rintro ⟨e, ⟨he, hst⟩, rfl⟩
    exact ⟨e, he, rfl, hst⟩
  · rintro ⟨e, he, rfl, hst⟩
    exact ⟨e, ⟨he, hst⟩, rfl⟩

/-- A new edge is listed last between its endpoints and nowhere else. -/
theorem between_append (es : List Edge) (e : Edge) (s t : NodeId) :
    between (es ++ [e]) s t =
      if e.source = s ∧ e.target = t then between es s t ++ [e.id] else between es s t := by
  unfold between
  split <;> simp_all

/-- Leaving out one edge takes its identifier out of its cell and out of no other. -/
theorem between_filter (hes : (es.map (·.id)).Nodup) {e : Edge} (he : e ∈ es) (s t : NodeId) :
    between (es.filter fun x => x.id ≠ e.id) s t =
      if e.source = s ∧ e.target = t then (between es s t).erase e.id else between es s t := by
  have hsub : (between es s t).Nodup := hes.sublist (List.filter_sublist.map _)
  have hfilter : between (es.filter fun x => x.id ≠ e.id) s t =
      (between es s t).filter (· ≠ e.id) := by
    unfold between
    rw [List.filter_map, List.filter_filter, List.filter_filter]
    congr 1
    apply List.filter_congr
    intro x _
    simp only [Function.comp_apply, Bool.and_comm]
  rw [hfilter]
  split
  · rw [hsub.erase_eq_filter]
    apply List.filter_congr
    intro x _
    simp [bne, decide_not, beq_eq_decide]
  · rename_i hst
    rw [List.filter_eq_self]
    intro id hid
    obtain ⟨x, hx, rfl, hxst⟩ := mem_between.1 hid
    have hne : x.id ≠ e.id := by
      intro h
      exact hst ((List.inj_on_of_nodup_map hes hx he h) ▸ hxst)
    simpa using hne

end Edge

namespace Matrix

variable {m n : Matrix} {es : List Edge}

/-- Both tables hold the listed edges and nothing empty, and the edges are counted. -/
structure Records (m : Matrix) (es : List Edge) : Prop where
  outgoing_tight : m.outgoing.Tight
  incoming_tight : m.incoming.Tight
  outgoing_list (s t : NodeId) : m.outgoing.list s t = Edge.between es s t
  incoming_list (s t : NodeId) : m.incoming.list t s = Edge.between es s t
  edgeCount_eq : m.edgeCount = es.length

namespace Records

/-- The empty matrix records no edges. -/
theorem empty : Matrix.empty.Records [] where
  outgoing_tight := Cells.tight_empty
  incoming_tight := Cells.tight_empty
  outgoing_list s t := Cells.list_empty s t
  incoming_list s t := Cells.list_empty t s
  edgeCount_eq := rfl

/-- A matrix is determined by the edges it records. -/
theorem unique (h : m.Records es) (h' : n.Records es) : m = n := by
  have hout : m.outgoing = n.outgoing := h.outgoing_tight.ext h'.outgoing_tight fun s t => by
    rw [h.outgoing_list, h'.outgoing_list]
  have hin : m.incoming = n.incoming := h.incoming_tight.ext h'.incoming_tight fun t s => by
    rw [h.incoming_list, h'.incoming_list]
  have hcount : m.edgeCount = n.edgeCount := h.edgeCount_eq.trans h'.edgeCount_eq.symm
  cases m
  cases n
  simp_all

/-- Inserting an edge into a matrix records it last. -/
theorem insert (h : m.Records es) (e : Edge) :
    (m.insert e.source e.target e.id).Records (es ++ [e]) where
  outgoing_tight := h.outgoing_tight.push _ _ _
  incoming_tight := h.incoming_tight.push _ _ _
  outgoing_list s t := by
    rw [Matrix.insert, Cells.list_push, Edge.between_append, h.outgoing_list, h.outgoing_list]
    split
    · rename_i hst
      rw [hst.1, hst.2]
    · rfl
  incoming_list s t := by
    rw [Matrix.insert, Cells.list_push, Edge.between_append, h.incoming_list, h.incoming_list]
    simp only [and_comm (a := e.target = t)]
    split
    · rename_i hst
      rw [hst.1, hst.2]
    · rfl
  edgeCount_eq := by simp [Matrix.insert, h.edgeCount_eq]

/-- Only identifiers and endpoints of the edges matter. -/
theorem map (h : m.Records es) {f : Edge → Edge}
    (hf : ∀ e ∈ es, (f e).id = e.id ∧ (f e).source = e.source ∧ (f e).target = e.target) :
    m.Records (es.map f) := by
  have hbetween (s t : NodeId) : Edge.between (es.map f) s t = Edge.between es s t := by
    rw [Edge.between, Edge.between, List.filter_map, List.map_map]
    have hfilter : (es.filter ((fun e => decide (e.source = s ∧ e.target = t)) ∘ f)) =
        es.filter fun e => decide (e.source = s ∧ e.target = t) := by
      apply List.filter_congr
      intro e he
      simp only [Function.comp_apply, (hf e he).2.1, (hf e he).2.2]
    rw [hfilter]
    exact List.map_congr_left fun e he => (hf e (List.mem_filter.1 he).1).1
  exact {
    outgoing_tight := h.outgoing_tight
    incoming_tight := h.incoming_tight
    outgoing_list := fun s t => (h.outgoing_list s t).trans (hbetween s t).symm
    incoming_list := fun s t => (h.incoming_list s t).trans (hbetween s t).symm
    edgeCount_eq := h.edgeCount_eq.trans (List.length_map f).symm }

/-- A recorded edge is found between its endpoints. -/
theorem mem_between (h : m.Records es) {e : Edge} (he : e ∈ es) :
    e.id ∈ m.between e.source e.target := by
  rw [Matrix.between, h.outgoing_list]
  exact Edge.mem_between.2 ⟨e, he, rfl, rfl, rfl⟩

/-- Removing a recorded edge leaves a matrix of the others. -/
theorem remove (h : m.Records es) (hes : (es.map (·.id)).Nodup) {e : Edge} (he : e ∈ es) :
    (m.remove e.source e.target e.id).1.Records (es.filter fun x => x.id ≠ e.id) := by
  unfold Matrix.remove
  rw [if_pos (h.mem_between he)]
  exact {
    outgoing_tight := h.outgoing_tight.put _ _ _
    incoming_tight := h.incoming_tight.put _ _ _
    outgoing_list := fun s t => by
      rw [Cells.remove, Cells.list_put, Edge.between_filter hes he, h.outgoing_list,
        h.outgoing_list]
      split
      · rename_i hst
        rw [hst.1, hst.2]
      · rfl
    incoming_list := fun s t => by
      simp only [Cells.remove, Cells.list_put, Edge.between_filter hes he, h.incoming_list]
      simp only [and_comm (a := e.target = t)]
      split
      · rename_i hst
        rw [hst.1, hst.2]
      · rfl
    edgeCount_eq := by
      have hfilter : (es.filter fun x => x.id ≠ e.id) = es.erase e := by
        rw [(List.Nodup.of_map _ hes).erase_eq_filter]
        apply List.filter_congr
        intro x hx
        have hiff : x.id = e.id ↔ x = e :=
          ⟨fun hid => List.inj_on_of_nodup_map hes hx he hid, fun hid => by rw [hid]⟩
        simp [bne, hiff, beq_eq_decide]
      rw [hfilter, List.length_erase_of_mem he]
      exact congrArg (· - 1) h.edgeCount_eq }

end Records

end Matrix

end Plexus
