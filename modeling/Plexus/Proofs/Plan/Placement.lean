import Plexus.Proofs.Operator.Placement
import Plexus.Proofs.Plan.Skeleton

/-!
# Every conjunct is used once

While a query is planned a conjunct of its condition is either in its place in the tree or waits
for a variable. An index may take it as the leaf of a path is chosen; otherwise it goes into the
filter on the first operator that binds the last of its variables. Nothing is left to wait once all
paths are planned, and what comes on top for the answer moves nothing.
-/

namespace Plexus

/-- What a node descriptor asks of the properties. -/
def NamedNode.equalities (n : NamedNode) : List Expression :=
  n.pattern.properties.map fun (key, value) => .propertyEquals n.name key value

/-- What an edge descriptor with a variable asks of the properties. -/
def NamedEdge.equalities (e : NamedEdge) : List Expression :=
  e.name.toList.flatMap fun name =>
    e.pattern.properties.map fun (key, value) => .propertyEquals name key value

namespace Focus

/-- What the descriptors of a path may leave to its filters: some labels of one node, and the
equalities on properties, each at most once. -/
def MayLeave (f : Focus) (es : List Expression) : Prop :=
  ∃ n ∈ f.nodes, ∃ labels, labels.Sublist n.pattern.labels ∧
    es.Subperm (.hasLabels n.name labels ::
      (f.nodes.flatMap NamedNode.equalities ++ f.edges.flatMap NamedEdge.equalities))

private theorem map_target_walkFrom (turn : Direction → Direction) (node : NamedNode)
    (rest : List (NamedEdge × NamedNode)) :
    (walkFrom turn node rest).map WalkStep.target = rest.map Prod.snd := by
  induction rest generalizing node with
  | nil => rfl
  | cons p rest ih => rw [walkFrom, List.map_cons, ih, List.map_cons]

/-- A walk leads to each node descriptor once, but for the one where it starts. -/
theorem perm_targets (f : Focus) :
    (f.node :: f.walk.map WalkStep.target).Perm f.nodes := by
  rw [walk, List.map_append, map_target_walkFrom, map_target_walkFrom, nodes]
  refine (List.Perm.cons _ List.perm_append_comm).trans ?_
  refine List.perm_middle.symm.trans (List.Perm.append_right _ ?_)
  exact (List.reverse_perm _).symm

/-- A walk asks what the descriptors along it ask. -/
theorem perm_equalities (f : Focus) :
    (f.node.equalities ++ f.walk.flatMap Draft.stepConditions).Perm
      (f.nodes.flatMap NamedNode.equalities ++ f.edges.flatMap NamedEdge.equalities) := by
  have hstep : Draft.stepConditions =
      fun s => s.target.equalities ++ s.edge.equalities := by
    funext s
    unfold Draft.stepConditions NamedEdge.equalities
    cases s.edge.name <;> simp [NamedNode.equalities]
  have hedges : (f.walk.map WalkStep.edge).Perm f.edges := by
    rw [walk_eq_outward]
    exact f.perm_outward _
  have htargets := f.perm_targets.flatMap_right NamedNode.equalities
  rw [List.flatMap_cons, List.flatMap_map] at htargets
  have hwalk := List.flatMap_append_perm f.walk (fun s => s.target.equalities)
    (fun s => s.edge.equalities)
  rw [hstep]
  refine (hwalk.symm.append_left _).trans ?_
  rw [← List.append_assoc]
  refine htargets.append ?_
  rw [← List.flatMap_map]
  exact hedges.flatMap_right _

/-- The entry of a path takes care of some of the labels of its node and leaves the other ones. -/
theorem mayLeave_of_chosen {g : Graph} {pending : List Expression} {f f' : Focus}
    {e : Entry} (hf' : f' ∈ f.all) (h : Entry.Chosen g pending f' e) :
    f.MayLeave (e.conditions ++ e.focus.walk.flatMap Draft.stepConditions) := by
  obtain rfl := h.focus_eq
  have hlabels : e.otherLabels.Sublist e.focus.node.pattern.labels := by
    unfold Entry.otherLabels
    split
    · exact List.erase_sublist
    · exact .refl _
  have hconditions : e.conditions.Sublist
      (.hasLabels e.focus.node.name e.otherLabels :: e.focus.node.equalities) := by
    unfold Entry.conditions
    dsimp only
    split
    · exact (List.filter_sublist.map _).cons _
    · exact (List.filter_sublist.map _).cons_cons _
  refine ⟨e.focus.node, node_mem_nodes hf', e.otherLabels, hlabels, ?_⟩
  rw [← nodes_of_mem_all hf', ← edges_of_mem_all hf']
  exact (hconditions.append_right _).subperm.trans ((perm_equalities _).cons _).subperm

end Focus

namespace Draft

open Operator

variable {g : Graph} {d d' : Draft} {given asks asks' used pending added : List Expression}
  {op : Operator} {bound : List String} {first second : String} {f : Focus}

/-- Of some given conjuncts each is in its place in the tree or waits for a variable, and beyond
these the filters test what descriptors ask for. -/
structure Places (g : Graph) (first : String) (given asks : List Expression) (d : Draft) :
    Prop where
  binds : d.bound ⊆ d.root.bindings
  within : d.root.Within d.bound
  waits : ∀ e ∈ d.pending, ¬e.reads ⊆ d.bound
  used : ∃ used, d.root.UsesOnce g first used asks ∧ (used ++ d.pending).Perm given

/-- A condition is ready once all variables that it reads are bound. -/
theorem isReady_iff_subset {e : Expression} : isReady bound e = true ↔ e.reads ⊆ bound := by
  simp only [isReady, List.all_eq_true, List.contains_iff_mem]
  exact Iff.rfl

/-- Conjuncts that could be tested above a new root, and not below it, are put into its filter. -/
theorem places_filterReady (hbinds : bound ⊆ op.bindings) (hwithin : op.Within bound)
    (hused : op.UsesOnce g first used asks) (hgiven : (used ++ pending).Perm given)
    (hlowest : ∀ e ∈ pending, e.reads ⊆ bound → op.Lowest first e.reads [])
    (hadded : ∀ e ∈ added, e.reads ⊆ bound)
    (hsplit : ∀ e ∈ pending ++ added, e.IsConjunct) :
    (filterReady ⟨op, bound, pending ++ added⟩).Places g first given (asks ++ added) := by
  have hready : (pending ++ added).filter (isReady bound) =
      pending.filter (isReady bound) ++ added := by
    rw [List.filter_append, List.filter_eq_self.2 fun e he => isReady_iff_subset.2 (hadded e he)]
  have hothers : (pending ++ added).filter (not ∘ isReady bound) =
      pending.filter (not ∘ isReady bound) := by
    rw [List.filter_append, List.append_right_eq_self, List.filter_eq_nil_iff]
    intro e he
    simp [isReady_iff_subset.2 (hadded e he)]
  have hwaits : ∀ e ∈ pending.filter (not ∘ isReady bound), ¬e.reads ⊆ bound := by
    intro e he
    rw [← isReady_iff_subset]
    simpa using (List.mem_filter.1 he).2
  have hperm : (used ++ pending.filter (isReady bound) ++
      pending.filter (not ∘ isReady bound)).Perm given := by
    rw [List.append_assoc]
    exact ((List.filter_append_perm _ _).append_left _).trans hgiven
  have hpending := pending_filterReady ⟨op, bound, pending ++ added⟩
  rw [hothers] at hpending
  rcases filterReady_cases ⟨op, bound, pending ++ added⟩ with ⟨hnone, heq⟩ | ⟨c, hc, heq⟩
  · rw [hready, List.append_eq_nil_iff] at hnone
    obtain ⟨hnone, rfl⟩ := hnone
    rw [hnone, List.append_nil, ← hpending, heq] at hperm
    rw [heq] at hpending ⊢
    exact ⟨hbinds, hwithin, hpending ▸ hwaits, used, by rwa [List.append_nil asks], hperm⟩
  · rw [hready] at hc
    rw [hothers] at heq
    have hconjuncts : c.conjuncts = pending.filter (isReady bound) ++ added :=
      Expression.conjuncts_conjunction? (fun e he => hsplit e (List.mem_append.2
        ((List.mem_append.1 he).imp_left List.mem_of_mem_filter))) hc
    rw [heq]
    refine ⟨hbinds, within_iff.2 ⟨(within_iff.1 hwithin).1, ?_⟩, hwaits, _,
      hused.filter hconjuncts fun e he => ?_, hperm⟩
    · exact List.forall_mem_singleton.2 hwithin
    · obtain ⟨hmem, hbound⟩ := List.mem_filter.1 he
      exact hlowest e hmem (isReady_iff_subset.1 hbound)

/-- A leaf looks up at most one of the conjuncts and leaves the others. -/
theorem exists_used_of_chosen {e : Entry} (h : Entry.Chosen g pending f e)
    (text : String) : ∃ used, (scan e.access e.focus.node.name text).UsesOnce g first used [] ∧
      (used ++ e.pending).Perm pending := by
  cases h with
  | conjunct hname hlabel hequality haccess hpending =>
    rename_i c front back
    obtain ⟨-, property, hkey, -, rfl⟩ := Entry.indexFor?_eq_some.1 haccess
    have hperm : (front ++ c :: back).Perm (c :: (front ++ back)) := List.perm_middle
    refine ⟨[c], usesOnce_index ?_, hpending ▸ hperm.symm⟩
    exact ⟨_, property, _, f.node.name, text, _, rfl, hkey, hequality⟩
  | all | label | property => exact ⟨[], usesOnce_scan .., .refl _⟩

private theorem reads_subset {e : Expression} {names : List String}
    (h : e.Evaluable (· ∈ names)) : e.reads ⊆ names :=
  fun x hx => h.reads x (Expression.mem_reads.1 hx)

private theorem isConjunct_conditions (e : Entry) : ∀ c ∈ e.conditions, c.IsConjunct := by
  unfold Entry.conditions
  refine List.forall_mem_append.2 ⟨?_, List.forall_mem_map.2 fun p _ => rfl⟩
  split
  · exact List.forall_mem_nil _
  · exact List.forall_mem_singleton.2 rfl

private theorem isConjunct_stepConditions (s : WalkStep) :
    ∀ c ∈ stepConditions s, c.IsConjunct := by
  unfold stepConditions
  refine List.forall_mem_append.2 ⟨List.forall_mem_map.2 fun p _ => rfl, ?_⟩
  split
  · exact List.forall_mem_map.2 fun p _ => rfl
  · exact List.forall_mem_nil _

/-- The first filter of a path tests the conjuncts on the variable of its leaf alone. -/
theorem places_leaf {e : Entry} (h : Entry.Chosen g pending f e) (text : String)
    (hsplit : ∀ c ∈ pending, c.IsConjunct) :
    (filterReady ⟨.scan e.access e.focus.node.name text, [e.focus.node.name],
      e.pending ++ e.conditions⟩).Places g e.focus.node.name pending e.conditions := by
  obtain ⟨used, hused, hgiven⟩ := exists_used_of_chosen h text
  refine places_filterReady (fun x hx => hx) (within_iff.2 ⟨fun x hx => hx, List.forall_mem_nil _⟩)
    hused hgiven (fun c _ hreads => lowest_scan hreads)
    (fun c hc => reads_subset (evaluable_conditions e c hc)) ?_
  exact List.forall_mem_append.2 ⟨fun c hc => hsplit c (h.pending_subset c hc),
    isConjunct_conditions e⟩

/-- What waits is one of the given conjuncts. -/
theorem Places.mem_given (h : d.Places g first given asks) {e : Expression} (he : e ∈ d.pending) :
    e ∈ given := by
  obtain ⟨used, -, hperm⟩ := h.used
  exact hperm.mem_iff.1 (List.mem_append_right _ he)

private theorem append_subset_append {k l m n : List String} (h : k ⊆ l) (h' : m ⊆ n) :
    k ++ m ⊆ l ++ n := List.append_subset.2
  ⟨List.subset_append_of_subset_left n h, List.subset_append_of_subset_right l h'⟩

/-- A traversal is put on what it starts from. -/
theorem traverse_spec (g : Graph) (op : Operator) {s : WalkStep} (hplain : s.edge.Plain) :
    (traverse g op s).bindings = op.bindings ++ s.target.name :: s.edge.name.toList ∧
      (traverse g op s).inputs = [op] ∧ ∀ c, traverse g op s ≠ .filter op c := by
  unfold traverse
  dsimp only
  split
  · exact ⟨rfl, rfl, nofun⟩
  · rename_i hmore
    have hname : s.edge.name = none := Option.not_isSome_iff_eq_none.1 fun hn => hmore (hplain hn)
    rw [hname]
    exact ⟨rfl, rfl, nofun⟩

/-- A step tests what waits for its target or its edge, and what it asks for itself. -/
theorem Places.step (h : d.Places g first given asks) (hsplit : ∀ e ∈ given, e.IsConjunct)
    {s : WalkStep} (hplain : s.edge.Plain) :
    (d.step g s).Places g first given (asks ++ stepConditions s) := by
  obtain ⟨hbindings, hinputs, hfilter⟩ := traverse_spec g d.root hplain
  obtain ⟨used, hused, hgiven⟩ := h.used
  have hmore : d.bound ⊆ d.bound ++ s.target.name :: s.edge.name.toList :=
    List.subset_append_left _ _
  have hroot : d.root.bindings ⊆ d.bound := (within_iff.1 h.within).1
  refine places_filterReady ?_ (within_iff.2 ⟨?_, ?_⟩) (hused.unary hinputs hfilter) hgiven
    (fun e he hreads => ?_) (fun e he => ?_) ?_
  · rw [hbindings]
    exact append_subset_append h.binds (List.Subset.refl _)
  · rw [hbindings]
    exact append_subset_append hroot (List.Subset.refl _)
  · rw [hinputs]
    exact List.forall_mem_singleton.2 (h.within.mono hmore)
  · refine lowest_nil ?_ ?_ ?_
    · rw [hbindings]
      exact List.Subset.trans hreads (append_subset_append h.binds (List.Subset.refl _))
    · rintro hnil
      exact h.waits e he (hnil ▸ List.nil_subset _)
    · rw [hinputs]
      exact List.forall_mem_singleton.2 fun a hbinds => h.waits e he (h.within a _ hbinds)
  · have hevaluable : e.Evaluable (· ∈ s.target.name :: s.edge.name.toList) :=
      evaluable_stepConditions List.mem_cons_self
        (fun y hy => List.mem_cons_of_mem _ (Option.mem_toList.2 hy)) e he
    exact List.subset_append_of_subset_right _ (reads_subset hevaluable)
  · exact List.forall_mem_append.2 ⟨fun e he => hsplit e (h.mem_given he),
      isConjunct_stepConditions s⟩

/-- A walk tests what waits for the variables of its steps, and what they ask for themselves. -/
theorem Places.steps (h : d.Places g first given asks) (hsplit : ∀ e ∈ given, e.IsConjunct)
    {steps : List WalkStep} (hplain : ∀ s ∈ steps, s.edge.Plain) :
    (steps.foldl (Draft.step g) d).Places g first given (asks ++ steps.flatMap stepConditions) := by
  induction steps generalizing d asks with
  | nil => rwa [List.flatMap_nil, List.append_nil]
  | cons s rest ih =>
    rw [List.forall_mem_cons] at hplain
    rw [List.flatMap_cons, ← List.append_assoc]
    exact ih (h.step hsplit hplain.1) hplain.2

/-- A product tests what waits for variables on both of its sides. -/
theorem Places.combine (h : d.Places g first given asks) (h' : d'.Places g second d.pending asks')
    (hsplit : ∀ e ∈ given, e.IsConjunct) (hdisjoint : ∀ x ∈ d.bound, x ∉ d'.bound) :
    (d.combine d').Places g first given (asks ++ asks') := by
  obtain ⟨used, hused, hgiven⟩ := h.used
  obtain ⟨used', hused', hgiven'⟩ := h'.used
  have hapart : ∀ a b names, d.root.BindsAt a names → d'.root.BindsAt b names → names = [] := by
    intro a b names hleft hright
    refine List.eq_nil_iff_forall_not_mem.2 fun x hx => ?_
    exact hdisjoint x (h.within a names hleft hx) (h'.within b names hright hx)
  have hne : ∀ e ∈ d.pending, e.reads ≠ [] :=
    fun e he hnil => h.waits e he (hnil ▸ List.nil_subset _)
  have hall : (used ++ used' ++ d'.pending).Perm given := by
    rw [List.append_assoc]
    exact (hgiven'.append_left _).trans hgiven
  have hmem : ∀ e ∈ d'.pending, e ∈ d.pending :=
    fun e he => hgiven'.mem_iff.1 (List.mem_append_right _ he)
  have hplaces : (filterReady ⟨.product d.root d'.root, d.bound ++ d'.bound,
      d'.pending ++ []⟩).Places g first given (asks ++ asks' ++ []) := by
    refine places_filterReady (append_subset_append h.binds h'.binds) (within_iff.2 ⟨?_, ?_⟩)
      (hused.product hused' hapart fun e he => hne e (hgiven'.mem_iff.1
        (List.mem_append_left _ he))) hall (fun e he hreads => ?_) (List.forall_mem_nil _) ?_
    · exact append_subset_append (within_iff.1 h.within).1 (within_iff.1 h'.within).1
    · exact List.forall_mem_cons.2 ⟨h.within.mono (List.subset_append_left _ _),
        List.forall_mem_singleton.2 (h'.within.mono (List.subset_append_right _ _))⟩
    · refine lowest_nil ?_ (hne e (hmem e he)) ?_
      · exact List.Subset.trans hreads (append_subset_append h.binds h'.binds)
      · exact List.forall_mem_cons.2 ⟨fun a ha => h.waits e (hmem e he) (h.within a _ ha),
          List.forall_mem_singleton.2 fun a ha => h'.waits e he (h'.within a _ ha)⟩
    · rw [List.append_nil]
      exact fun e he => hsplit e (h.mem_given (hmem e he))
  rwa [List.append_nil, List.append_nil] at hplaces

/-- The draft of a path has the given conjuncts in their places. -/
theorem places_ofEntry (g : Graph) (hsplit : ∀ e ∈ given, e.IsConjunct)
    (hplain : ∀ e ∈ f.edges, e.Plain) :
    ∃ n ∈ f.nodes, ∃ asks, f.MayLeave asks ∧
      (ofEntry g (Entry.choose g given f)).Places g n.name given asks := by
  obtain ⟨f', hf', hchosen⟩ := Entry.chosen_choose g given f
  refine ⟨_, Focus.node_mem_nodes (hchosen.focus_eq ▸ hf'), _,
    Focus.mayLeave_of_chosen hf' hchosen,
    (places_leaf hchosen _ hsplit).steps hsplit fun s hs => hplain _ ?_⟩
  rw [hchosen.focus_eq] at hs
  rw [← Focus.edges_of_mem_all hf']
  have hperm := f'.perm_outward f'.before.length
  rw [← f'.walk_eq_outward] at hperm
  exact hperm.mem_iff.1 (List.mem_map_of_mem hs)

/-- The drafts of further paths put the conjuncts that wait in their places. -/
theorem places_addPaths {next : Nat} {paths : List Path} (h : d.Places g first given asks)
    (hsplit : ∀ e ∈ given, e.IsConjunct)
    (hplain : ∀ f ∈ Focus.ofPaths next paths, ∀ e ∈ f.edges, e.Plain)
    (hfresh : ∀ f ∈ Focus.ofPaths next paths, ∀ x ∈ d.bound, x ∉ f.names)
    (hapart : (Focus.ofPaths next paths).Pairwise fun f f' => ∀ x ∈ f.names, x ∉ f'.names) :
    ∃ parts, List.Forall₂ Focus.MayLeave (Focus.ofPaths next paths) parts ∧
      (addPaths g d next paths).Places g first given (asks ++ parts.flatten) := by
  induction paths generalizing d next asks with
  | nil => exact ⟨[], .nil, by rwa [List.flatten_nil, List.append_nil]⟩
  | cons p rest ih =>
    rw [Focus.ofPaths, List.forall_mem_cons] at hplain hfresh
    rw [Focus.ofPaths, List.pairwise_cons] at hapart
    obtain ⟨_, -, part, hpart, hpath⟩ :=
      places_ofEntry g (fun e he => hsplit e (h.mem_given he)) hplain.1
    have hcombined := h.combine hpath hsplit fun x hx => by
      rw [mem_bound_ofEntry]
      exact hfresh.1 x hx
    obtain ⟨parts, hparts, hall⟩ := ih hcombined hplain.2 (fun f hf x hx => by
      rw [combine, bound_filterReady, List.mem_append, mem_bound_ofEntry] at hx
      rcases hx with hx | hx
      · exact hfresh.2 f hf x hx
      · exact hapart.1 f hf x hx) hapart.2
    rw [List.append_assoc, ← List.flatten_cons] at hall
    exact ⟨part :: parts, .cons hpart hparts, hall⟩

/-- The draft of a pattern has the given conjuncts in their places or waits for what no path
binds. -/
theorem places_ofPaths? {paths : List Path} {draft : Draft}
    (h : ofPaths? g given paths = some draft) (hsplit : ∀ e ∈ given, e.IsConjunct)
    (hplain : ∀ f ∈ Focus.ofPaths 0 paths, ∀ e ∈ f.edges, e.Plain)
    (hapart : (Focus.ofPaths 0 paths).Pairwise fun f f' => ∀ x ∈ f.names, x ∉ f'.names) :
    ∃ parts, List.Forall₂ Focus.MayLeave (Focus.ofPaths 0 paths) parts ∧
      ∃ f ∈ (Focus.ofPaths 0 paths).head?, ∃ n ∈ f.nodes,
        draft.Places g n.name given parts.flatten := by
  cases paths with
  | nil => cases h
  | cons p rest =>
    rw [ofPaths?_cons, Option.some.injEq] at h
    rw [Focus.ofPaths, List.forall_mem_cons] at hplain
    rw [Focus.ofPaths, List.pairwise_cons] at hapart
    obtain ⟨n, hn, part, hpart, hpath⟩ := places_ofEntry g hsplit hplain.1
    obtain ⟨parts, hparts, hall⟩ := places_addPaths hpath hsplit hplain.2 (fun f hf x hx => by
      rw [mem_bound_ofEntry] at hx
      exact hapart.1 f hf x hx) hapart.2
    exact ⟨part :: parts, .cons hpart hparts, _, rfl, n, hn, h ▸ hall⟩

end Draft

namespace Query

open Operator

variable {q : Query} {g : Graph} {op : Operator} {first : String}
  {conjuncts asks : List Expression}

/-- What comes on top for the answer tests nothing. -/
theorem usesOnce_planReturn (q : Query) (h : op.UsesOnce g first conjuncts asks) :
    (q.planReturn op).UsesOnce g first conjuncts asks := by
  unfold planReturn
  generalize orderKeys q.items q.columns [] q.orderBy = ordered
  obtain ⟨keys, hidden⟩ := ordered
  dsimp only
  have hshaped : (q.shape op hidden).UsesOnce g first conjuncts asks := by
    unfold shape
    dsimp only
    split <;> exact h.unary rfl nofun
  generalize q.shape op hidden = shaped at hshaped
  have hunique : (if q.isDistinct then shaped.distinct q.columns else shaped).UsesOnce g
      first conjuncts asks := by
    split
    · exact hshaped.unary rfl nofun
    · exact hshaped
  generalize (if q.isDistinct then shaped.distinct q.columns else shaped) = unique at hunique
  have hsorted : (if keys.isEmpty then unique else unique.sort keys).UsesOnce g
      first conjuncts asks := by
    split
    · exact hunique
    · exact hunique.unary rfl nofun
  generalize (if keys.isEmpty then unique else unique.sort keys) = sorted at hsorted
  have hskipped (k : Nat) : (sorted.skip k).UsesOnce g first conjuncts asks :=
    hsorted.unary rfl nofun
  cases q.skip with
  | none =>
    cases q.limit with
    | none => exact hsorted
    | some n => exact hsorted.unary rfl nofun
  | some k =>
    cases q.limit with
    | none => exact hskipped k
    | some n => exact (hskipped k).unary rfl nofun

/-- A valid query has a plan, and it takes care of each conjunct of the condition, as often as it
occurs, in one place: a leaf looks it up in an index, or a filter tests it, directly above the
lowest operator that binds the variables it reads, or on the leaf of the first path if it reads
none. Beyond these the filters test what the descriptors of the paths leave to them. When all paths
are planned nothing waits, so no filter is made for the rest. -/
theorem plan_uses_conjuncts_once (h : q.validate = .ok ()) (g : Graph) :
    ∃ p draft, q.plan g = .ok p ∧ Draft.ofPaths? g q.conjuncts q.paths = some draft ∧
      draft.pending = [] ∧ p.root = q.planReturn draft.root ∧
        ∃ fs parts, List.Forall₂ Focus.Names fs q.paths ∧ List.Forall₂ Focus.MayLeave fs parts ∧
          ∃ f ∈ fs.head?, ∃ n ∈ f.nodes, ∃ conjuncts, q.Splits conjuncts ∧
            p.root.UsesOnce g n.name conjuncts parts.flatten := by
  obtain ⟨draft, hdraft, hplan⟩ := plan_of_validate h g
  obtain ⟨hnames, -, hdisjoint, hreads⟩ := names_of_validate h
  have hsplit : ∀ e ∈ q.conjuncts, e.IsConjunct := by
    unfold conjuncts
    split
    · exact fun e he => Expression.isConjunct_of_mem_conjuncts he
    · exact List.forall_mem_nil _
  obtain ⟨parts, hparts, f, hf, n, hn, hplaces⟩ := Draft.places_ofPaths? hdraft hsplit
    (fun f hf => (wellNamed_of_validate h f hf).plain) hdisjoint
  -- a conjunct that waits reads a variable that no path binds, and the query names none such
  have hpending : draft.pending = [] := by
    refine List.eq_nil_iff_forall_not_mem.2 fun e he => hplaces.waits e he fun x hx => ?_
    exact mem_bound_of_declares h hdraft x (hreads e (hplaces.mem_given he) x hx)
  have hfinish : draft.finish = draft.root := by
    rw [Draft.finish, hpending]
    rfl
  obtain ⟨used, hused, hperm⟩ := hplaces.used
  rw [hpending, List.append_nil] at hperm
  refine ⟨_, draft, hplan, hdraft, hpending, congrArg q.planReturn hfinish, _, parts, hnames,
    hparts, f, hf, n, hn, exists_splits_iff.2 ?_⟩
  rw [hfinish]
  exact usesOnce_planReturn q (hused.perm hperm)

/-- The query of `chainAndEdge` with the equality on the middle node written twice and a condition
that reads nothing. -/
def repeatedConjunct : Query where
  paths := chainAndEdge.paths
  condition :=
    let looked := .binary .eq (.literal (.text "x")) (.property "b" "k")
    some (.binary .and (.binary .and (.binary .eq (.property "c" "k") (.property "b" "k")) looked)
      (.binary .and (.literal (.boolean true)) looked))
  returns := none
  orderBy := []
  skip := none
  limit := none

/-- The index takes the equality once. A filter on the leaf tests it the other time, with the
condition that reads nothing, and the conjunct on both paths is tested above their product. -/
theorem plan_uses_conjuncts_once_of_repeated :
    let q := repeatedConjunct
    let g := [Mutation.createNode ["A"] [], .createNode ["B"] [("k", .text "x")],
      .createNode ["B"] [], .createIndex "B" "k"].foldl Graph.after (.empty {})
    q.validate = .ok () ∧ ∃ p draft, q.plan g = .ok p ∧
      p.root.tests.map Placed.address = [[0], [0, 0, 0, 0, 0], [0, 0, 0, 0, 0]] ∧
        Draft.ofPaths? g q.conjuncts q.paths = some draft ∧
          draft.pending = [] ∧ p.root = q.planReturn draft.root ∧
            ∃ fs parts, List.Forall₂ Focus.Names fs q.paths ∧
              List.Forall₂ Focus.MayLeave fs parts ∧ ∃ f ∈ fs.head?, ∃ n ∈ f.nodes,
                ∃ conjuncts, q.Splits conjuncts ∧
                  p.root.UsesOnce g n.name conjuncts parts.flatten := by
  intro q g
  have hvalid : q.validate = .ok () := by decide +kernel
  have htests : (q.plan g).toOption.map (·.root.tests.map Placed.address) =
      some [[0], [0, 0, 0, 0, 0], [0, 0, 0, 0, 0]] := by decide +kernel
  obtain ⟨p, draft, hplan, hused⟩ := plan_uses_conjuncts_once hvalid g
  rw [hplan] at htests
  exact ⟨hvalid, p, draft, hplan, Option.some.inj htests, hused⟩

end Query

end Plexus
