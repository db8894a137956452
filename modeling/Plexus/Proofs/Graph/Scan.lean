import Mathlib.Data.List.Dedup
import Mathlib.Data.List.Flatten
import Plexus.Proofs.Graph.Reachable
import Plexus.Proofs.Relation

/-!
# Matrices against a scan

Whatever a graph reads off its matrices is what a scan over the live edges gives: the edges between
two nodes, the counts, the relations, and the edges and neighbours of a node, each in its order.
-/

namespace Plexus

/-- The nodes that an edge runs between. -/
def Edge.pair (e : Edge) : NodeId × NodeId := (e.source, e.target)

/-- An edge as it is listed at a node, with its other end: once for each way to follow it from
there, so an edge from the node to itself is listed twice if both ways are allowed. -/
def Edge.seenFrom (e : Edge) (node : NodeId) (dir : Direction) : List (EdgeId × NodeId) :=
  (if dir.forward ∧ e.source = node then [(e.id, e.target)] else []) ++
    if dir.backward ∧ e.target = node then [(e.id, e.source)] else []

/-- A matrix answers every question about its edges as a scan over them would. -/
structure Matrix.Answers (m : Matrix) (es : List Edge) : Prop where
  between_eq (s t : NodeId) : m.between s t = Edge.between es s t
  between_ascending (s t : NodeId) : (m.between s t).Pairwise (· < ·)
  contains_iff (s t : NodeId) : m.contains s t = true ↔ ∃ e ∈ es, e.source = s ∧ e.target = t
  edgeCount_eq : m.edgeCount = es.length
  pairCount_eq : m.pairCount = (es.map Edge.pair).dedup.length
  relation_holds : m.relation.Holds fun s t => ∃ e ∈ es, e.source = s ∧ e.target = t

namespace Graph

/-- The matrix of a type, which is empty if there is none. -/
def matrixOf (g : Graph) (type : TypeId) : Matrix := (g.matrix? type).getD .empty

/-- The edges of the allowed types at a node, found by a scan over the live edges. -/
def scanEdgesOf (g : Graph) (node : NodeId) (types : TypeFilter) (dir : Direction) :
    List (EdgeId × NodeId) :=
  (g.edges.records.filter fun e => types.allows e.relationType).flatMap (·.seenFrom node dir)

/-- The graph answers every question about its edges as a scan over them would. -/
structure AgreesWithScan (g : Graph) : Prop where
  matrix (type : TypeId) : (g.matrixOf type).Answers (g.edgesOfType type.index)
  relation_holds (type : TypeId) : (g.relation type).Holds fun s t =>
    ∃ e ∈ g.edges.records, e.relationType = type ∧ e.source = s ∧ e.target = t
  relation_size (type : TypeId) : (g.relation type).size = (g.matrixOf type).pairCount
  anyRelation_holds : g.anyRelation.Holds fun s t =>
    ∃ e ∈ g.edges.records, e.source = s ∧ e.target = t
  edgesOf_eq (node : NodeId) (types : TypeFilter) (dir : Direction) :
    g.edgesOf node types dir = g.scanEdgesOf node types dir
  edgesOf_ordered (node : NodeId) (types : TypeFilter) (dir : Direction) :
    (g.edgesOf node types dir).Pairwise fun a b => a.1.index ≤ b.1.index
  neighbors_ascending (node : NodeId) (types : TypeFilter) (dir : Direction) :
    (g.neighbors node types dir).Pairwise (· < ·)
  mem_neighbors (node : NodeId) (types : TypeFilter) (dir : Direction) (other : NodeId) :
    other ∈ g.neighbors node types dir ↔ other ∈ (g.scanEdgesOf node types dir).map Prod.snd

end Graph

namespace Edge

variable {e : Edge} {node other : NodeId} {dir : Direction} {id : EdgeId}

/-- An edge is seen from a node together with the nodes that it leads to from there. -/
theorem mem_seenFrom : (id, other) ∈ e.seenFrom node dir ↔ e.id = id ∧ e.Leads dir node other := by
  have hpart (p : Prop) [Decidable p] (a : NodeId) :
      (id, other) ∈ (if p then [(e.id, a)] else []) ↔ e.id = id ∧ p ∧ a = other := by
    split <;> simp_all [eq_comm]
  rw [seenFrom, List.mem_append, hpart, hpart, ← and_or_left]
  simp only [Leads, and_assoc]

/-- In both directions an edge is seen as going out and as coming in. -/
theorem seenFrom_both (e : Edge) (node : NodeId) :
    e.seenFrom node .both = e.seenFrom node .outgoing ++ e.seenFrom node .incoming := by
  simp [seenFrom, Direction.forward, Direction.backward]

/-- Followed in one direction, an edge is listed once at most. -/
theorem nodup_seenFrom (hdir : dir ≠ .both) : (e.seenFrom node dir).Nodup := by
  cases dir with
  | outgoing =>
    simp only [seenFrom, Direction.backward, Bool.false_eq_true, false_and, if_false]
    split <;> simp
  | incoming =>
    simp only [seenFrom, Direction.forward, Bool.false_eq_true, false_and, if_false]
    split <;> simp
  | both => exact absurd rfl hdir

/-- The other ends of one edge are the same. -/
theorem sorted_seenFrom (e : Edge) (node : NodeId) (dir : Direction) :
    (e.seenFrom node dir).Pairwise fun a b => Graph.before a b = true := by
  unfold seenFrom
  split
  · rename_i hforward
    split
    · rename_i hbackward
      have hloop : Graph.before (e.id, e.target) (e.id, e.source) = true := by
        rw [Graph.before_iff, hforward.2, hbackward.2]
        exact Or.inr ⟨rfl, Nat.le_refl _⟩
      simpa using hloop
    · simp
  · split <;> simp

end Edge

namespace Relation.Holds

variable {r : Relation} {P : NodeId → NodeId → Prop}

/-- The size of a relation is the number of its pairs. -/
theorem size_eq (h : r.Holds P) {l : List (NodeId × NodeId)} (hl : ∀ p, p ∈ l ↔ P p.1 p.2) :
    r.size = l.dedup.length := by
  obtain ⟨S, hS, hSP⟩ := h.counted
  have hfinset : S = l.toFinset := by
    ext p
    rw [List.mem_toFinset, hl, hSP]
  rw [← hS, hfinset, List.card_toFinset]

end Relation.Holds

namespace Cells

variable {c : Cells}

/-- The keys of all cells, row by row. -/
def keys (c : Cells) : List (NodeId × NodeId) :=
  c.toList.flatMap fun p => p.2.keys.map (p.1, ·)

theorem count_eq (c : Cells) : c.count = c.keys.length := by
  have hlist (rows : List (NodeId × Std.ExtTreeMap NodeId (List EdgeId))) :
      rows.foldr (fun p n => p.2.size + n) 0 =
        (rows.flatMap fun p => p.2.keys.map (p.1, ·)).length := by
    induction rows with
    | nil => rfl
    | cons p rest ih =>
      rw [List.foldr_cons, List.flatMap_cons, List.length_append, List.length_map,
        Std.ExtTreeMap.length_keys, ih]
  exact hlist c.toList

theorem nodup_keys (c : Cells) : c.keys.Nodup := by
  unfold keys
  rw [List.nodup_flatMap]
  constructor
  · intro p _
    have hkeys : p.2.keys.Nodup := Std.ExtTreeMap.nodup_keys
    exact hkeys.map fun a b hab => (Prod.ext_iff.1 hab).2
  · refine c.distinct_keys_toList.imp ?_
    rintro p q hpq x hx hy
    obtain ⟨_, -, rfl⟩ := List.mem_map.1 hx
    obtain ⟨_, -, hx⟩ := List.mem_map.1 hy
    rw [(Prod.ext_iff.1 hx).1] at hpq
    simp at hpq

/-- The listed cells are those that hold something. -/
theorem mem_keys {r k : NodeId} : (r, k) ∈ c.keys ↔ (c.getD r ∅).contains k = true := by
  simp only [keys, List.mem_flatMap, List.mem_map, Prod.exists, Prod.mk.injEq,
    Std.ExtTreeMap.mem_toList_iff_getElem?_eq_some, Std.ExtTreeMap.mem_keys, getD_eq]
  constructor
  · rintro ⟨_, row, hrow, _, hk, rfl, rfl⟩
    rw [hrow, Option.getD_some]
    exact Std.ExtTreeMap.contains_iff_mem.2 hk
  · intro hk
    cases hrow : getElem? c r with
    | none => simp [hrow] at hk
    | some row =>
      rw [hrow, Option.getD_some] at hk
      exact ⟨r, row, hrow, k, Std.ExtTreeMap.contains_iff_mem.1 hk, rfl, rfl⟩

end Cells

namespace Matrix

variable {m : Matrix} {es : List Edge}

theorem relation_eq (m : Matrix) : m.relation = Relation.ofPairs m.outgoing.keys := rfl

namespace Records

/-- A matrix of some edges has a cell where one of them leads. -/
theorem contains_iff (h : m.Records es) {s t : NodeId} :
    m.contains s t = true ↔ ∃ e ∈ es, e.source = s ∧ e.target = t := by
  unfold contains
  rw [h.outgoing_tight.contains_iff, h.outgoing_list]
  constructor
  · intro hne
    obtain ⟨id, hid⟩ := List.exists_mem_of_ne_nil _ hne
    obtain ⟨e, he, -, hends⟩ := Edge.mem_between.1 hid
    exact ⟨e, he, hends⟩
  · rintro ⟨e, he, hends⟩
    exact List.ne_nil_of_mem (Edge.mem_between.2 ⟨e, he, rfl, hends⟩)

/-- The cells of a matrix of some edges are those where one of them leads. -/
theorem mem_keys (h : m.Records es) (p : NodeId × NodeId) :
    p ∈ m.outgoing.keys ↔ ∃ e ∈ es, e.source = p.1 ∧ e.target = p.2 :=
  Cells.mem_keys.trans h.contains_iff

/-- The relation of a matrix of some edges holds where one of them leads. -/
theorem relation_holds (h : m.Records es) :
    m.relation.Holds fun s t => ∃ e ∈ es, e.source = s ∧ e.target = t := by
  rw [relation_eq]
  exact (Relation.Holds.ofPairs _).congr fun s t => h.mem_keys (s, t)

/-- Every cell is a pair of nodes that an edge connects. -/
theorem pairCount_eq (h : m.Records es) : m.pairCount = (es.map Edge.pair).dedup.length := by
  have hperm : m.outgoing.keys.Perm (es.map Edge.pair).dedup := by
    rw [List.perm_ext_iff_of_nodup m.outgoing.nodup_keys (List.nodup_dedup _)]
    intro p
    rw [h.mem_keys, List.mem_dedup, List.mem_map]
    refine exists_congr fun e => and_congr_right fun _ => ?_
    rw [Edge.pair, Prod.ext_iff]
  exact (Cells.count_eq _).trans hperm.length_eq

/-- A matrix of edges whose identifiers ascend answers as a scan over them would. -/
theorem answers (h : m.Records es) (hes : es.Pairwise fun e f => e.id < f.id) : m.Answers es where
  between_eq := h.outgoing_list
  between_ascending s t := by
    rw [between, h.outgoing_list, Edge.between, List.pairwise_map]
    exact hes.filter _
  contains_iff s t := h.contains_iff
  edgeCount_eq := h.edgeCount_eq
  pairCount_eq := h.pairCount_eq
  relation_holds := h.relation_holds

end Records

end Matrix

namespace Graph

variable {g : Graph} {types : TypeFilter} {dir : Direction} {node other : NodeId}

theorem relation_eq (g : Graph) (type : TypeId) : g.relation type = (g.matrixOf type).relation := by
  unfold relation matrixOf
  cases g.matrix? type <;> rfl

/-- The edges of a type are the live ones with that type. -/
theorem mem_edgesOfType {type : TypeId} {e : Edge} :
    e ∈ g.edgesOfType type.index ↔ e ∈ g.edges.records ∧ e.relationType = type := by
  rw [edgesOfType, List.mem_filter, decide_eq_true_eq]
  exact and_congr_right fun _ => ⟨Id.ext_index, congrArg Id.index⟩

/-- A scan of the edges of a node finds the live ones of an allowed type that lead away from it. -/
theorem mem_scanEdgesOf {id : EdgeId} :
    (id, other) ∈ g.scanEdgesOf node types dir ↔
      ∃ e ∈ g.edges.records, e.id = id ∧ types.allows e.relationType ∧ e.Leads dir node other := by
  simp only [scanEdgesOf, List.mem_flatMap, List.mem_filter, Edge.mem_seenFrom, and_assoc]
  exact exists_congr fun e => and_congr_right fun _ => and_left_comm

private theorem edgesIn_both (types : TypeFilter) (node : NodeId) (m : Matrix) (t : Nat) :
    edgesIn types node .both m t =
      edgesIn types node .outgoing m t ++ edgesIn types node .incoming m t := by
  unfold edgesIn
  split <;> simp [cellsAt, Direction.forward, Direction.backward]

/-- Listing in both directions is listing in each of them. -/
theorem edgesOf_both (g : Graph) (node : NodeId) (types : TypeFilter) :
    (g.edgesOf node types .both).Perm
      (g.edgesOf node types .outgoing ++ g.edgesOf node types .incoming) := by
  simp only [edgesOf_eq, edgesIn_both]
  refine (List.mergeSort_perm _ _).trans ?_
  refine (List.flatMap_append_perm _ _ _).symm.trans ?_
  exact ((List.mergeSort_perm _ _).symm).append (List.mergeSort_perm _ _).symm

private theorem scanEdgesOf_both (g : Graph) (node : NodeId) (types : TypeFilter) :
    (g.scanEdgesOf node types .both).Perm
      (g.scanEdgesOf node types .outgoing ++ g.scanEdgesOf node types .incoming) := by
  simp only [scanEdgesOf, Edge.seenFrom_both]
  exact (List.flatMap_append_perm _ _ _).symm

private theorem nodup_cells {cells : List (NodeId × List EdgeId)}
    (hkeys : cells.Pairwise fun a b => a.1 ≠ b.1) (hcells : ∀ c ∈ cells, c.2.Nodup) :
    (cells.flatMap fun c => c.2.map (·, c.1)).Nodup := by
  rw [List.nodup_flatMap]
  constructor
  · intro c hc
    exact (hcells c hc).map fun a b hab => (Prod.ext_iff.1 hab).1
  · refine hkeys.imp ?_
    rintro a b hab x hx hy
    obtain ⟨_, -, rfl⟩ := List.mem_map.1 hx
    obtain ⟨_, -, hx⟩ := List.mem_map.1 hy
    exact hab (Prod.ext_iff.1 hx).2.symm

namespace Sound

/-- Followed in one direction, no edge is listed twice in a matrix. -/
theorem nodup_edgesIn (h : g.Sound) {t : Nat} {m : Matrix}
    (hm : g.matrices[t]? = some m) (hdir : dir ≠ .both) : (edgesIn types node dir m t).Nodup := by
  have hrec := h.records hm
  have hbetween (s t' : NodeId) : (Edge.between (g.edgesOfType t) s t').Nodup := by
    rw [Edge.between, List.Nodup, List.pairwise_map]
    exact ((h.edges.ascending.filter _).filter _).imp Id.ne_of_lt
  have hkeys (c : Cells) (r : NodeId) : (c.row r).Pairwise fun a b => a.1 ≠ b.1 :=
    (c.getD r ∅).distinct_keys_toList.imp fun hne heq => hne (by simp [heq])
  unfold edgesIn
  split
  · cases dir with
    | outgoing =>
      simp only [cellsAt, Direction.forward, Direction.backward, if_true, List.append_nil,
        Bool.false_eq_true, if_false]
      refine nodup_cells (hkeys _ _) ?_
      rintro ⟨k, es⟩ hc
      obtain ⟨rfl, -⟩ := hrec.outgoing_tight.mem_row.1 hc
      rw [hrec.outgoing_list]
      exact hbetween _ _
    | incoming =>
      simp only [cellsAt, Direction.forward, Direction.backward, if_true, List.nil_append,
        Bool.false_eq_true, if_false]
      refine nodup_cells (hkeys _ _) ?_
      rintro ⟨k, es⟩ hc
      obtain ⟨rfl, -⟩ := hrec.incoming_tight.mem_row.1 hc
      rw [hrec.incoming_list]
      exact hbetween _ _
    | both => exact absurd rfl hdir
  · exact List.nodup_nil

private theorem nodup_edgesOf (h : g.Sound) (hdir : dir ≠ .both) :
    (g.edgesOf node types dir).Nodup := by
  have hmatrix {m : Matrix} {t : Nat} (hmt : (m, t) ∈ g.matrices.toList.zipIdx) :
      g.matrices[t]? = some m := by
    rwa [List.mk_mem_zipIdx_iff_getElem?, Array.getElem?_toList] at hmt
  have hindices : g.matrices.toList.zipIdx.Pairwise fun p q => p.2 ≠ q.2 := by
    rw [← List.pairwise_map (f := Prod.snd) (R := (· ≠ ·)), List.zipIdx_map_snd]
    exact List.nodup_range'
  rw [edgesOf_eq, (List.mergeSort_perm _ _).nodup_iff, List.nodup_flatMap]
  constructor
  · rintro ⟨m, t⟩ hmt
    exact h.nodup_edgesIn (hmatrix hmt) hdir
  · -- one edge has one type, so no two matrices list it
    refine hindices.imp_of_mem ?_
    rintro ⟨m, t⟩ ⟨n, u⟩ hm hn htu ⟨id, other⟩ hx hy
    obtain ⟨e, he, hid, ht, -⟩ := (h.mem_edgesIn (hmatrix hm)).1 hx
    obtain ⟨f, hf, hid', hu, -⟩ := (h.mem_edgesIn (hmatrix hn)).1 hy
    obtain rfl : e = f := h.edge_ext he hf (hid.trans hid'.symm)
    exact htu (ht.symm.trans hu)

private theorem nodup_scanEdgesOf (h : g.Sound) (hdir : dir ≠ .both) :
    (g.scanEdgesOf node types dir).Nodup := by
  rw [scanEdgesOf, List.nodup_flatMap]
  constructor
  · intro e _
    exact Edge.nodup_seenFrom hdir
  · refine (h.edges.ascending.filter _).imp ?_
    rintro e f hef ⟨id, other⟩ hx hy
    have hid := (Edge.mem_seenFrom.1 hx).1.trans (Edge.mem_seenFrom.1 hy).1.symm
    exact Id.ne_of_lt hef hid

private theorem edgesOf_perm (h : g.Sound) :
    (g.edgesOf node types dir).Perm (g.scanEdgesOf node types dir) := by
  have hone (dir : Direction) (hdir : dir ≠ .both) :
      (g.edgesOf node types dir).Perm (g.scanEdgesOf node types dir) := by
    rw [List.perm_ext_iff_of_nodup (h.nodup_edgesOf hdir) (h.nodup_scanEdgesOf hdir)]
    rintro ⟨id, other⟩
    rw [h.mem_edgesOf, mem_scanEdgesOf]
  cases dir with
  | outgoing => exact hone _ (by decide)
  | incoming => exact hone _ (by decide)
  | both =>
    have hboth := (hone .outgoing (by decide)).append (hone .incoming (by decide))
    exact (edgesOf_both g node types).trans (hboth.trans (scanEdgesOf_both g node types).symm)

/-- A scan lists the edges of a node in order. -/
theorem scanEdgesOf_sorted (h : g.Sound) :
    (g.scanEdgesOf node types dir).Pairwise fun a b => before a b = true := by
  rw [scanEdgesOf, List.pairwise_flatMap]
  constructor
  · intro e _
    exact e.sorted_seenFrom node dir
  · refine (h.edges.ascending.filter _).imp ?_
    rintro e f hef ⟨i, a⟩ hx ⟨j, b⟩ hy
    rw [before_iff, ← (Edge.mem_seenFrom.1 hx).1, ← (Edge.mem_seenFrom.1 hy).1]
    exact Or.inl hef

/-- The edges of a node are those that a scan finds, in the same order. -/
theorem edgesOf_eq_scan (h : g.Sound) :
    g.edgesOf node types dir = g.scanEdgesOf node types dir :=
  h.edgesOf_perm.eq_of_pairwise (fun _ _ _ _ => before_antisymm) (g.edgesOf_sorted node types dir)
    h.scanEdgesOf_sorted

/-- The matrix of a type records the live edges of that type. -/
theorem matrixOf_records (h : g.Sound) (type : TypeId) :
    (g.matrixOf type).Records (g.edgesOfType type.index) := by
  have hmatrix := h.matrices type.index
  rwa [Array.getD_eq_getD_getElem?] at hmatrix

/-- The relation of a type holds where a live edge of the type leads. -/
theorem relation_holds (h : g.Sound) (type : TypeId) : (g.relation type).Holds fun s t =>
    ∃ e ∈ g.edges.records, e.relationType = type ∧ e.source = s ∧ e.target = t := by
  rw [relation_eq]
  refine (h.matrixOf_records type).relation_holds.congr fun s t => ?_
  simp only [mem_edgesOfType, and_assoc]

/-- The relation of all types is the union of those of each. -/
theorem anyRelation_holds (h : g.Sound) :
    g.anyRelation.Holds fun s t => ∃ e ∈ g.edges.records, e.source = s ∧ e.target = t := by
  have hunion (ms : List Matrix) (hms : ∀ m ∈ ms, ∃ t : Nat, g.matrices[t]? = some m)
      {r : Relation} {P : NodeId → NodeId → Prop} (hr : r.Holds P) :
      (ms.foldl (fun r m => r.union m.relation) r).Holds fun s t =>
        P s t ∨ ∃ m ∈ ms, m.contains s t = true := by
    induction ms generalizing r P with
    | nil => exact hr.congr fun s t => by simp
    | cons m rest ih =>
      obtain ⟨k, hk⟩ := hms m List.mem_cons_self
      have hm := (h.records hk).relation_holds.congr fun s t => (h.records hk).contains_iff.symm
      rw [List.foldl_cons]
      refine (ih (fun n hn => hms n (List.mem_cons_of_mem _ hn)) (hr.union hm)).congr ?_
      intro s t
      simp only [List.mem_cons, or_and_right, exists_or, exists_eq_left, or_assoc]
  have hindex (m : Matrix) (hm : m ∈ g.matrices.toList) : ∃ t : Nat, g.matrices[t]? = some m :=
    Array.mem_iff_getElem?.1 (Array.mem_toList_iff.1 hm)
  refine (hunion _ hindex Relation.Holds.empty).congr fun s t => ?_
  rw [false_or]
  constructor
  · rintro ⟨m, hm, hcontains⟩
    obtain ⟨k, hk⟩ := hindex m hm
    obtain ⟨e, he, hends⟩ := (h.records hk).contains_iff.1 hcontains
    exact ⟨e, (List.mem_filter.1 he).1, hends⟩
  · rintro ⟨e, he, hends⟩
    obtain ⟨m, hm⟩ := h.matrix_of_edge he
    refine ⟨m, Array.mem_toList_iff.2 (Array.mem_of_getElem? hm), ?_⟩
    exact (h.records hm).contains_iff.2 ⟨e, List.mem_filter.2 ⟨he, decide_eq_true rfl⟩, hends⟩

end Sound

/-- In every reachable graph the matrices answer exactly what a scan over the live edges would. -/
theorem Reachable.agreesWithScan (hg : g.Reachable) : g.AgreesWithScan where
  matrix type := (hg.sound.matrixOf_records type).answers (hg.sound.edges.ascending.filter _)
  relation_holds := hg.sound.relation_holds
  relation_size type := by
    have hrec := hg.sound.matrixOf_records type
    rw [relation_eq, hrec.pairCount_eq]
    refine hrec.relation_holds.size_eq fun p => ?_
    simp only [List.mem_map, Edge.pair, Prod.ext_iff]
  anyRelation_holds := hg.sound.anyRelation_holds
  edgesOf_eq _ _ _ := hg.sound.edgesOf_eq_scan
  edgesOf_ordered := g.edgesOf_ascending
  neighbors_ascending node types dir := by
    unfold neighbors
    exact Id.ascending_toList _
  mem_neighbors node types dir other := by
    rw [← hg.sound.edgesOf_eq_scan, neighbors, Std.ExtTreeSet.mem_toList,
      Std.ExtTreeSet.mem_ofList, List.contains_iff_mem]

/-- Of two parallel edges the older is deleted; the loop is listed once for each way. -/
theorem agreesWithScan_after_deletion :
    let g := [Mutation.createNode [] [], .createNode [] [], .createEdge ⟨0⟩ ⟨1⟩ "R" [],
      .createEdge ⟨0⟩ ⟨1⟩ "R" [], .createEdge ⟨0⟩ ⟨0⟩ "R" [], .createEdge ⟨1⟩ ⟨0⟩ "S" [],
      .deleteEdge ⟨0⟩].foldl Graph.after (.empty {})
    g.Reachable ∧ g.AgreesWithScan ∧ (g.matrixOf ⟨0⟩).between ⟨0⟩ ⟨1⟩ = [⟨1⟩] ∧
      g.edgesOf ⟨0⟩ .any .both = [(⟨1⟩, ⟨1⟩), (⟨2⟩, ⟨0⟩), (⟨2⟩, ⟨0⟩), (⟨3⟩, ⟨1⟩)] := by
  have hreach := Reachable.foldl (.empty {}) [Mutation.createNode [] [], .createNode [] [],
    .createEdge ⟨0⟩ ⟨1⟩ "R" [], .createEdge ⟨0⟩ ⟨1⟩ "R" [], .createEdge ⟨0⟩ ⟨0⟩ "R" [],
    .createEdge ⟨1⟩ ⟨0⟩ "S" [], .deleteEdge ⟨0⟩]
  have hscan := Reachable.agreesWithScan hreach
  refine ⟨hreach, hscan, by decide +kernel, ?_⟩
  rw [hscan.edgesOf_eq]
  decide +kernel

end Graph

end Plexus
