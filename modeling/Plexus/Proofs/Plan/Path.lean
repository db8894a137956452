import Plexus.Proofs.Plan.Entry

/-!
# Drafts of paths

The draft of a path lists the valuations of its variables that are as its descriptors ask. The draft
of a pattern does so for all paths at once, whatever was tested where.
-/

namespace Plexus

variable {g : Graph} {pending : List Expression}

/-- The named paths of a pattern, given the first free number. -/
def Focus.ofPaths (next : Nat) : List Path → List Focus
  | [] => []
  | p :: rest => (ofPath p next).1 :: ofPaths (ofPath p next).2 rest

/-- The properties of every node descriptor are a map. -/
def Focus.DistinctKeys (f : Focus) : Prop :=
  ∀ n ∈ f.nodes, (Assoc.keys n.pattern.properties).Nodup

namespace Draft

theorem addPaths_cons (g : Graph) (d : Draft) (next : Nat) (p : Path) (rest : List Path) :
    addPaths g d next (p :: rest) =
      addPaths g (d.combine (ofEntry g (Entry.choose g d.pending (Focus.ofPath p next).1)))
        (Focus.ofPath p next).2 rest :=
  rfl

theorem ofPaths?_cons (g : Graph) (pending : List Expression) (p : Path) (rest : List Path) :
    ofPaths? g pending (p :: rest) =
      some (addPaths g (ofEntry g (Entry.choose g pending (Focus.ofPath p 0).1))
        (Focus.ofPath p 0).2 rest) :=
  rfl

private theorem get?_scanned (name x : String) (id : NodeId) :
    (Row.empty.bind name (.node id)).get? x = if name = x then some (.node id) else none :=
  Row.get?_bind _ _ _ _

/-- A scan lists the valuations of one variable by the nodes that it finds. -/
theorem lists_scan {name : String} {ids : List NodeId} (hids : ids.Nodup) :
    Lists (ids.map fun id => Row.empty.bind name (.node id)) [name]
      fun ν => ∃ id, ν name = some (.node id) ∧ id ∈ ids where
  proper := by
    intro r hr
    obtain ⟨id, -, rfl⟩ := List.mem_map.1 hr
    exact Row.proper_empty.bind _ _
  nodup := by
    rw [List.map_map, List.Nodup, List.pairwise_map]
    apply hids.imp
    intro a b hne heq
    apply hne
    have hat := congrFun heq name
    simpa [get?_scanned] using hat
  mem ν := by
    have hbinds (id : NodeId) :
        Valuation.Binds (Row.empty.bind name (.node id)).get? [name] := by
      intro x
      rw [get?_scanned, List.mem_singleton]
      by_cases hx : name = x
      · simp [hx]
      · simp [hx, Ne.symm hx]
    rw [List.map_map, List.mem_map]
    constructor
    · rintro ⟨id, hid, rfl⟩
      exact ⟨hbinds id, id, (get?_scanned _ _ id).trans (if_pos rfl), hid⟩
    · rintro ⟨hν, id, hid, hmem⟩
      refine ⟨id, hmem, (hbinds id).ext hν ?_⟩
      intro x hx
      rw [List.mem_singleton.1 hx, hid]
      exact (get?_scanned _ _ id).trans (if_pos rfl)

private theorem tests_scan (hg : g.Sound) {access : Access} {name text : String}
    {pending : List Expression} (hlive : ∀ id ∈ access.nodes g, g.hasNode id = true) :
    Tests g ⟨.scan access name text, [name], pending⟩ [name]
      fun ν => ∃ id, ν name = some (.node id) ∧ id ∈ access.nodes g where
  depends := by
    intro ν μ hsame
    have hname : ν name = μ name := hsame _ List.mem_cons_self
    simp only [hname]
  bound := fun x hx => hx
  live := by
    rintro x hx ν ⟨id, hid, hmem⟩
    rw [List.mem_singleton.1 hx]
    exact ⟨id, hid, hlive id hmem⟩
  lists := by
    intro rows hrows
    rw [hrows.of_scan]
    exact lists_scan (hg.nodup_nodes access)

private theorem solves_leaf (hg : g.Sound) {e : Entry} (he : e.Covers g pending) (text : String) :
    (filterReady ⟨.scan e.access e.focus.node.name text, [e.focus.node.name],
      e.pending ++ e.conditions⟩).Solves g [e.focus.node.name]
        fun ν => e.focus.node.Holds g ν ∧ ∀ c ∈ pending, c.Holds g ν := by
  apply Solves.filterReady
  refine ⟨_, tests_scan hg he.live, ?_⟩
  intro ν
  dsimp only
  constructor
  · rintro ⟨⟨id, hid, hfits⟩, hpending⟩
    obtain ⟨hmem, hholds⟩ := (he.asks ν id hid).2 ⟨hfits, hpending⟩
    exact ⟨⟨id, hid, hmem⟩, hholds⟩
  · rintro ⟨⟨id, hid, hmem⟩, hholds⟩
    obtain ⟨hfits, hpending⟩ := (he.asks ν id hid).1 ⟨hmem, hholds⟩
    exact ⟨⟨id, hid, hfits⟩, hpending⟩

/-- The draft of a path binds the variables of the path, wherever it is entered. -/
theorem mem_bound_ofEntry (pending : List Expression) (f : Focus) (x : String) :
    x ∈ (ofEntry g (Entry.choose g pending f)).bound ↔ x ∈ f.names := by
  obtain ⟨f', hf', hchosen⟩ := Entry.chosen_choose g pending f
  have hnames : (Entry.choose g pending f).focus.names = f.names := by
    rw [hchosen.focus_eq, Focus.names, Focus.nodes_of_mem_all hf', Focus.edges_of_mem_all hf',
      Focus.names]
  rw [← hnames]
  exact mem_bound_walk (bound_filterReady _) x

/-- The draft of a path asks for what the path and the waiting conditions ask for. -/
theorem solves_ofEntry (hg : g.Sound) (pending : List Expression) {f : Focus} (hf : f.WellNamed)
    (hkeys : f.DistinctKeys) :
    ∃ nodes, (ofEntry g (Entry.choose g pending f)).Solves g nodes
      fun ν => f.Holds g ν ∧ ∀ c ∈ pending, c.Holds g ν := by
  obtain ⟨hcovers, hall⟩ := Entry.covers_choose hg pending hkeys
  generalize Entry.choose g pending f = e at hcovers hall
  obtain ⟨hnodes, hedges, hholds⟩ := Focus.mem_all (g := g) hall
  have hnamed : e.focus.WellNamed := by
    refine ⟨?_, ?_, ?_⟩
    · rw [hedges]
      exact hf.plain
    · rw [hedges]
      exact hf.nodup
    · rw [hedges, hnodes]
      exact hf.apart
  obtain ⟨nodes, hsolves⟩ := solves_walk hg hnamed
    (bound_filterReady _) (solves_leaf hg hcovers (e.focus.node.pattern.text e.focus.node.name))
  exact ⟨nodes, hsolves.congr fun ν => and_congr_left fun _ => hholds ν⟩

/-- Further paths bind their variables as well. -/
theorem mem_bound_addPaths (d : Draft) (next : Nat) (paths : List Path) (x : String) :
    x ∈ (addPaths g d next paths).bound ↔
      x ∈ d.bound ∨ ∃ f ∈ Focus.ofPaths next paths, x ∈ f.names := by
  induction paths generalizing d next with
  | nil => simp [addPaths, Focus.ofPaths]
  | cons p rest ih =>
    rw [addPaths_cons, ih, combine, bound_filterReady, List.mem_append, mem_bound_ofEntry,
      Focus.ofPaths, List.exists_mem_cons_iff, or_assoc]

/-- The draft of a pattern binds the variables of its paths. -/
theorem mem_bound_ofPaths? {paths : List Path} {draft : Draft}
    (h : ofPaths? g pending paths = some draft) (x : String) :
    x ∈ draft.bound ↔ ∃ f ∈ Focus.ofPaths 0 paths, x ∈ f.names := by
  cases paths with
  | nil => cases h
  | cons p rest =>
    rw [ofPaths?_cons, Option.some.injEq] at h
    rw [← h, mem_bound_addPaths, mem_bound_ofEntry, Focus.ofPaths, List.exists_mem_cons_iff]

/-- Further paths add what they ask for. -/
theorem solves_addPaths (hg : g.Sound) {d : Draft} {nodes : List String}
    {D : Valuation → Prop} {next : Nat} {paths : List Path} (h : d.Solves g nodes D)
    (hfs : ∀ f ∈ Focus.ofPaths next paths, f.WellNamed ∧ f.DistinctKeys)
    (hbound : ∀ f ∈ Focus.ofPaths next paths, ∀ x ∈ d.bound, x ∉ f.names)
    (hapart : (Focus.ofPaths next paths).Pairwise fun f f' => ∀ x ∈ f.names, x ∉ f'.names) :
    (addPaths g d next paths).Solves g nodes
      fun ν => D ν ∧ ∀ f ∈ Focus.ofPaths next paths, f.Holds g ν := by
  induction paths generalizing d D next with
  | nil =>
    apply h.congr
    simp [Focus.ofPaths]
  | cons p rest ih =>
    rw [Focus.ofPaths, List.forall_mem_cons] at hfs hbound
    rw [Focus.ofPaths, List.pairwise_cons] at hapart
    obtain ⟨nodes', hpath⟩ := solves_ofEntry hg d.pending hfs.1.1 hfs.1.2
    have hcombined := h.combine hpath fun x hx => by
      rw [mem_bound_ofEntry]
      exact hbound.1 x hx
    have hsolves := ih hcombined hfs.2 (fun f hf x hx => by
      rw [combine, bound_filterReady, List.mem_append, mem_bound_ofEntry] at hx
      rcases hx with hx | hx
      · exact hbound.2 f hf x hx
      · exact hapart.1 f hf x hx) hapart.2
    apply hsolves.congr
    intro ν
    rw [Focus.ofPaths, List.forall_mem_cons, and_assoc]

/-- The finished draft of a pattern lists the valuations of its variables that are as the paths
and the conditions ask. -/
theorem lists_ofPaths? (hg : g.Sound) {paths : List Path} {draft : Draft}
    (h : ofPaths? g pending paths = some draft)
    (hfs : ∀ f ∈ Focus.ofPaths 0 paths, f.WellNamed ∧ f.DistinctKeys)
    (hapart : (Focus.ofPaths 0 paths).Pairwise fun f f' => ∀ x ∈ f.names, x ∉ f'.names)
    {rows : List Row} (hrows : draft.finish.Gives g rows) :
    ∃ names, (∀ x, x ∈ names ↔ ∃ f ∈ Focus.ofPaths 0 paths, x ∈ f.names) ∧
      Lists rows names fun ν =>
        (∀ f ∈ Focus.ofPaths 0 paths, f.Holds g ν) ∧ ∀ c ∈ pending, c.Holds g ν := by
  refine ⟨draft.bound, mem_bound_ofPaths? h, ?_⟩
  cases paths with
  | nil => cases h
  | cons p rest =>
    cases h
    rw [Focus.ofPaths, List.forall_mem_cons] at hfs
    rw [Focus.ofPaths, List.pairwise_cons] at hapart
    obtain ⟨nodes, hpath⟩ := solves_ofEntry hg pending hfs.1.1 hfs.1.2
    have hsolves := solves_addPaths hg hpath hfs.2 (fun f hf x hx => by
      rw [mem_bound_ofEntry] at hx
      exact hapart.1 f hf x hx) hapart.2
    refine (hsolves.finish hrows).congr (fun x => Iff.rfl) fun ν _ => ?_
    rw [Focus.ofPaths, List.forall_mem_cons]
    tauto

end Draft

end Plexus
