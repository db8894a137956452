import Plexus.Proofs.Plan.Draft

/-!
# Walks from a node of a path

What a path asks for does not depend on the node from which it is seen: the steps that lead back to
its start ask the same of their ends as the steps that are written. So it does not matter where the
planner enters the path.
-/

namespace Plexus

variable {g : Graph} {ν : Valuation}

namespace Focus

/-- The node descriptors from left to right. -/
def nodes (f : Focus) : List NamedNode :=
  (f.before.map Prod.snd).reverse ++ f.node :: f.after.map Prod.snd

/-- The edge descriptors from left to right. -/
def edges (f : Focus) : List NamedEdge :=
  (f.before.map Prod.fst).reverse ++ f.after.map Prod.fst

/-- The variables that the planner binds for the path. -/
def names (f : Focus) : List String :=
  f.nodes.map NamedNode.name ++ f.edges.filterMap NamedEdge.name

/-- The node and every step of the walk outward from it are as the descriptors ask. -/
def Holds (g : Graph) (f : Focus) (ν : Valuation) : Prop :=
  f.node.Holds g ν ∧ ∀ s ∈ f.walk, s.Holds g ν

/-- The variables of the edges differ from each other and from those of the nodes, and only single
hops have one. -/
structure WellNamed (f : Focus) : Prop where
  plain : ∀ e ∈ f.edges, e.Plain
  nodup : (f.edges.filterMap NamedEdge.name).Nodup
  apart : ∀ y ∈ f.edges.filterMap NamedEdge.name, y ∉ f.nodes.map NamedNode.name

end Focus

private theorem holds_turn {node next : NamedNode} {edge : NamedEdge} {dir : Direction} :
    node.Holds g ν ∧ WalkStep.Holds g ⟨node, edge, next, dir⟩ ν ↔
      next.Holds g ν ∧ WalkStep.Holds g ⟨next, edge, node, dir.reverse⟩ ν := by
  constructor
  · rintro ⟨⟨a, ha, hfits⟩, a', b, ha', hb, hjoins, hnext⟩
    dsimp only at ha' hb hjoins hnext
    rw [ha, Option.some.injEq, Value.node.injEq] at ha'
    subst ha'
    exact ⟨⟨b, hb, hnext⟩, b, a, hb, ha, NamedEdge.joins_reverse.2 hjoins, hfits⟩
  · rintro ⟨⟨b, hb, hnext⟩, b', a, hb', ha, hjoins, hfits⟩
    dsimp only at hb' ha hjoins hfits
    rw [hb, Option.some.injEq, Value.node.injEq] at hb'
    subst hb'
    exact ⟨⟨a, ha, hfits⟩, a, b, ha, hb, NamedEdge.joins_reverse.1 hjoins, hnext⟩

namespace Focus

/-- Seen from the next node a path asks for the same. -/
theorem holds_shift {before after : List (NamedEdge × NamedNode)} {node next : NamedNode}
    {edge : NamedEdge} : Focus.Holds g ⟨(edge, node) :: before, next, after⟩ ν ↔
      Focus.Holds g ⟨before, node, (edge, next) :: after⟩ ν := by
  have hturn : node.Holds g ν ∧ WalkStep.Holds g ⟨node, edge, next, edge.pattern.direction⟩ ν ↔
      next.Holds g ν ∧ WalkStep.Holds g ⟨next, edge, node, edge.pattern.direction.reverse⟩ ν :=
    holds_turn
  simp only [Holds, walk, walkFrom, List.cons_append, List.forall_mem_append,
    List.forall_mem_cons, id_eq]
  tauto

private theorem mem_shiftAll {before after : List (NamedEdge × NamedNode)} {node : NamedNode}
    {f : Focus} (h : f ∈ shiftAll before node after) :
    f.nodes = (Focus.mk before node after).nodes ∧ f.edges = (Focus.mk before node after).edges ∧
      ∀ ν, f.Holds g ν ↔ (Focus.mk before node after).Holds g ν := by
  induction after generalizing before node with
  | nil => cases h
  | cons p after ih =>
    obtain ⟨edge, next⟩ := p
    have hnodes : (Focus.mk ((edge, node) :: before) next after).nodes =
        (Focus.mk before node ((edge, next) :: after)).nodes := by simp [nodes]
    have hedges : (Focus.mk ((edge, node) :: before) next after).edges =
        (Focus.mk before node ((edge, next) :: after)).edges := by simp [edges]
    rcases List.mem_cons.1 h with rfl | h
    · exact ⟨hnodes, hedges, fun ν => holds_shift⟩
    · obtain ⟨hn, he, hh⟩ := ih h
      exact ⟨hn.trans hnodes, he.trans hedges, fun ν => (hh ν).trans holds_shift⟩

/-- Seen from any of its nodes a path has the same descriptors and asks for the same. -/
theorem mem_all {f f' : Focus} (h : f' ∈ f.all) :
    f'.nodes = f.nodes ∧ f'.edges = f.edges ∧ ∀ ν, f'.Holds g ν ↔ f.Holds g ν := by
  rcases List.mem_cons.1 h with rfl | h
  · exact ⟨rfl, rfl, fun _ => Iff.rfl⟩
  · exact mem_shiftAll h

theorem nodes_of_mem_all {f f' : Focus} (h : f' ∈ f.all) : f'.nodes = f.nodes :=
  (mem_all (g := .empty {}) h).1

theorem edges_of_mem_all {f f' : Focus} (h : f' ∈ f.all) : f'.edges = f.edges :=
  (mem_all (g := .empty {}) h).2.1

/-- A path is seen from one of its nodes. -/
theorem node_mem_nodes {f f' : Focus} (h : f' ∈ f.all) : f'.node ∈ f.nodes := by
  rw [← nodes_of_mem_all h]
  exact List.mem_append_right _ List.mem_cons_self

end Focus

namespace Draft

variable {d : Draft} {nodes : List String} {D : Valuation → Prop}

/-- A walk binds the variables along it. -/
theorem bound_walkFrom (turn : Direction → Direction) (node : NamedNode)
    (rest : List (NamedEdge × NamedNode)) (x : String) :
    x ∈ ((walkFrom turn node rest).foldl (step g) d).bound ↔
      x ∈ d.bound ∨ x ∈ rest.map (fun p => p.2.name) ∨ x ∈ rest.filterMap (fun p => p.1.name) := by
  induction rest generalizing d node with
  | nil => simp [walkFrom]
  | cons p rest ih =>
    obtain ⟨edge, next⟩ := p
    simp only [walkFrom, List.foldl_cons, ih, step, bound_filterReady, List.mem_append,
      List.mem_cons, Option.mem_toList, List.map_cons, List.mem_filterMap, exists_eq_or_imp]
    tauto

/-- A walk adds what its steps ask for. -/
theorem solves_walkFrom (hg : g.Sound) (turn : Direction → Direction) {node : NamedNode}
    {rest : List (NamedEdge × NamedNode)} (h : d.Solves g nodes D) (hnode : node.name ∈ nodes)
    (hplain : ∀ p ∈ rest, p.1.Plain) (hnodup : (rest.filterMap fun p => p.1.name).Nodup)
    (hapart : ∀ y ∈ rest.filterMap (fun p => p.1.name),
      y ∉ d.bound ∧ y ∉ rest.map fun p => p.2.name) :
    ((walkFrom turn node rest).foldl (step g) d).Solves g
      ((rest.map fun p => p.2.name).reverse ++ nodes)
        fun ν => D ν ∧ ∀ s ∈ walkFrom turn node rest, s.Holds g ν := by
  induction rest generalizing d node nodes D with
  | nil => exact h.congr fun ν => (and_iff_left (List.forall_mem_nil _)).symm
  | cons p rest ih =>
    obtain ⟨edge, next⟩ := p
    have hedge : ∀ y, edge.name = some y → y ∉ d.bound ∧ y ≠ next.name := by
      intro y hy
      obtain ⟨hbound, hnames⟩ := hapart y (List.mem_filterMap.2 ⟨_, List.mem_cons_self, hy⟩)
      exact ⟨hbound, fun heq => hnames (heq ▸ List.mem_cons_self)⟩
    have hmem {y : String} (hy : y ∈ rest.filterMap fun p => p.1.name) :
        y ∈ ((edge, next) :: rest).filterMap fun p => p.1.name := by
      obtain ⟨p, hp, hname⟩ := List.mem_filterMap.1 hy
      exact List.mem_filterMap.2 ⟨p, List.mem_cons_of_mem _ hp, hname⟩
    have hstep := h.step (s := ⟨node, edge, next, turn edge.pattern.direction⟩) hg hnode
      (hplain _ List.mem_cons_self) hedge
    have hfresh : ∀ y ∈ rest.filterMap fun p => p.1.name,
        y ∉ (step g d ⟨node, edge, next, turn edge.pattern.direction⟩).bound ∧
          y ∉ rest.map fun p => p.2.name := by
      intro y hy
      obtain ⟨hbound, hnames⟩ := hapart y (hmem hy)
      refine ⟨?_, fun hy => hnames (List.mem_cons_of_mem _ hy)⟩
      simp only [step, bound_filterReady, List.mem_append, List.mem_cons, Option.mem_toList]
      rintro (hy' | rfl | hy')
      · exact hbound hy'
      · exact hnames List.mem_cons_self
      · have hcons : ((edge, next) :: rest).filterMap (fun p => p.1.name) =
            y :: rest.filterMap fun p => p.1.name := List.filterMap_cons_some hy'
        rw [hcons] at hnodup
        exact (List.nodup_cons.1 hnodup).1 hy
    have hrest := ih hstep List.mem_cons_self (fun p hp => hplain p (List.mem_cons_of_mem _ hp))
      (hnodup.sublist ((List.sublist_cons_self _ _).filterMap _)) hfresh
    rw [List.map_cons, List.reverse_cons, List.append_assoc]
    apply hrest.congr
    intro ν
    simp only [walkFrom, List.forall_mem_cons]
    exact and_assoc

private theorem filterMap_edges (f : Focus) : f.edges.filterMap NamedEdge.name =
    (f.before.filterMap fun p => p.1.name).reverse ++ f.after.filterMap fun p => p.1.name := by
  simp only [Focus.edges, List.filterMap_append, List.filterMap_reverse, List.filterMap_map]
  rfl

private theorem mem_map_nodes (f : Focus) (x : String) : x ∈ f.nodes.map NamedNode.name ↔
    x ∈ f.before.map (fun p => p.2.name) ∨ x = f.node.name ∨ x ∈ f.after.map fun p => p.2.name := by
  simp [Focus.nodes]

/-- The walk outward from a node binds the variables of its path. -/
theorem mem_bound_walk {f : Focus} (hbound : d.bound = [f.node.name]) (x : String) :
    x ∈ (f.walk.foldl (step g) d).bound ↔ x ∈ f.names := by
  rw [Focus.walk, List.foldl_append, bound_walkFrom, bound_walkFrom, hbound, List.mem_singleton,
    Focus.names, List.mem_append, mem_map_nodes, filterMap_edges, List.mem_append, List.mem_reverse]
  tauto

/-- The walk outward from a node adds what its path asks for. -/
theorem solves_walk (hg : g.Sound) {f : Focus} (hf : f.WellNamed) (hbound : d.bound = [f.node.name])
    (h : d.Solves g [f.node.name] fun ν => f.node.Holds g ν ∧ D ν) :
    ∃ nodes, (f.walk.foldl (step g) d).Solves g nodes fun ν => f.Holds g ν ∧ D ν := by
  have hplain := hf.plain
  have hnodup := hf.nodup
  have hapart := hf.apart
  rw [filterMap_edges, List.nodup_append, List.nodup_reverse] at hnodup
  obtain ⟨hnodupBefore, hnodupAfter, hdisjoint⟩ := hnodup
  simp only [filterMap_edges, mem_map_nodes, List.mem_append, List.mem_reverse, not_or] at hapart
  obtain ⟨before, node, after⟩ := f
  simp only [Focus.edges, List.mem_append, List.mem_reverse, List.mem_map] at hplain
  simp only [Focus.walk, List.foldl_append]
  have hafter := solves_walkFrom hg id h List.mem_cons_self
    (fun p hp => hplain p.1 (.inr ⟨p, hp, rfl⟩)) hnodupAfter fun y hy => by
      rw [hbound, List.mem_singleton]
      exact ⟨(hapart y (.inr hy)).2.1, (hapart y (.inr hy)).2.2⟩
  have hbefore := solves_walkFrom hg Direction.reverse hafter
    (List.mem_append_right _ List.mem_cons_self)
    (fun p hp => hplain p.1 (.inl ⟨p, hp, rfl⟩)) hnodupBefore fun y hy => by
      refine ⟨?_, (hapart y (.inl hy)).1⟩
      rw [bound_walkFrom, hbound, List.mem_singleton, not_or, not_or]
      refine ⟨(hapart y (.inl hy)).2.1, (hapart y (.inl hy)).2.2, fun hy' => ?_⟩
      exact hdisjoint y (List.mem_reverse.2 hy) y hy' rfl
  refine ⟨_, hbefore.congr ?_⟩
  intro ν
  simp only [Focus.Holds, Focus.walk, List.forall_mem_append]
  tauto

end Draft

end Plexus
