import Plexus.Proofs.Operator.Safe
import Plexus.Proofs.Plan.Names

/-!
# Drafts that fail on kinds of values alone

The operators of a draft bind the variables that it says they bind, to nothing that is dead. Every
condition that waits can be evaluated once the variables of the query are bound too. Filters are
only made of conditions that read what is bound, and traversals start from variables that are.
-/

namespace Plexus

variable {g : Graph}

namespace Draft

/-- The operators bind the bound variables to nothing that is dead, and the conditions that wait can
be evaluated where some further names are bound as well. -/
structure Safe (g : Graph) (names : String → Prop) (d : Draft) : Prop where
  output : (d.root.output g).Safe g (Row.Provides g d.bound)
  pending : ∀ e ∈ d.pending, e.Evaluable fun x => x ∈ d.bound ∨ names x

variable {d d' : Draft} {names : String → Prop} {s : WalkStep}

/-- A safe draft stays safe when what is ready is tested. -/
theorem Safe.filterReady (h : d.Safe g names) : d.filterReady.Safe g names := by
  rcases d.filterReady_cases with ⟨-, heq⟩ | ⟨c, hc, heq⟩
  · rw [heq]
    exact h
  · rw [heq]
    refine ⟨Operator.safe_filter h.output ?_, fun e he => h.pending e (List.mem_filter.1 he).1⟩
    refine Expression.Evaluable.conjunction? (fun e he => ?_) hc
    obtain ⟨hmem, hready⟩ := List.mem_filter.1 he
    exact ⟨(h.pending e hmem).calls, isReady_iff.1 hready⟩

private theorem evaluable_propertyEquals {name key : String} {value : Scalar} (hname : names name) :
    (Expression.propertyEquals name key value).Evaluable names := by
  refine ⟨⟨trivial, trivial⟩, fun x hx => ?_⟩
  simp only [Expression.propertyEquals, Expression.occurrences, List.append_nil,
    List.mem_singleton] at hx
  exact hx ▸ hname

/-- The conditions of a step can be evaluated once its variables are bound. -/
theorem evaluable_stepConditions (htarget : names s.target.name)
    (hedge : ∀ y, s.edge.name = some y → names y) :
    ∀ e ∈ stepConditions s, e.Evaluable names := by
  unfold stepConditions
  rw [List.forall_mem_append]
  refine ⟨List.forall_mem_map.2 fun p _ => evaluable_propertyEquals htarget, ?_⟩
  split
  · rename_i y hy
    exact List.forall_mem_map.2 fun p _ => evaluable_propertyEquals (hedge y hy)
  · exact List.forall_mem_nil _

/-- A traversal from a bound variable binds its target and its edge. -/
theorem safe_traverse (hg : g.Sound) (h : (d.root.output g).Safe g (Row.Provides g d.bound))
    (hsource : s.source.name ∈ d.bound) (hplain : s.edge.Plain) :
    ((traverse g d.root s).output g).Safe g
      (Row.Provides g (d.bound ++ s.target.name :: s.edge.name.toList)) := by
  unfold traverse
  dsimp only
  split
  · exact h.spread fun r hr => hr.safe_expand (e := ⟨_, _, _, _, _, _, _⟩) hg hsource
  · rename_i hne
    have hname : s.edge.name = none := Option.not_isSome_iff_eq_none.1 fun hn => hne (hplain hn)
    rw [hname]
    exact h.reach (r := ⟨_, _, _, _, _, _⟩) hg hsource rfl

/-- A step from a bound variable keeps a draft safe. -/
theorem Safe.step (hg : g.Sound) (h : d.Safe g names) (hsource : s.source.name ∈ d.bound)
    (hplain : s.edge.Plain) : (d.step g s).Safe g names := by
  apply Safe.filterReady
  refine ⟨safe_traverse hg h.output hsource hplain, ?_⟩
  dsimp only
  rw [List.forall_mem_append]
  constructor
  · exact fun e he => (h.pending e he).mono fun x hx => hx.imp_left (List.mem_append_left _)
  · apply evaluable_stepConditions
    · exact .inl (List.mem_append_right _ List.mem_cons_self)
    · intro y hy
      rw [hy]
      exact .inl (List.mem_append_right _ (List.mem_cons_of_mem _ (List.mem_singleton_self y)))

private theorem Safe.walkFrom (hg : g.Sound) (turn : Direction → Direction) {node : NamedNode}
    {rest : List (NamedEdge × NamedNode)} (h : d.Safe g names) (hnode : node.name ∈ d.bound)
    (hplain : ∀ p ∈ rest, p.1.Plain) :
    ((Plexus.walkFrom turn node rest).foldl (Draft.step g) d).Safe g names ∧
      ∀ x ∈ d.bound, x ∈ ((Plexus.walkFrom turn node rest).foldl (Draft.step g) d).bound := by
  induction rest generalizing d node with
  | nil => exact ⟨h, fun x hx => hx⟩
  | cons p rest ih =>
    obtain ⟨edge, next⟩ := p
    rw [List.forall_mem_cons] at hplain
    have hstep := h.step (s := ⟨node, edge, next, turn edge.pattern.direction⟩) hg hnode hplain.1
    have hbound : ∀ x ∈ d.bound ++ next.name :: edge.name.toList,
        x ∈ (Draft.step g d ⟨node, edge, next, turn edge.pattern.direction⟩).bound := by
      rw [Draft.step, bound_filterReady]
      exact fun x hx => hx
    have hnext := hbound _ (List.mem_append_right _ List.mem_cons_self)
    obtain ⟨hsafe, hkeeps⟩ := ih hstep hnext hplain.2
    exact ⟨hsafe, fun x hx => hkeeps x (hbound x (List.mem_append_left _ hx))⟩

private theorem Safe.walk (hg : g.Sound) {f : Focus} (hplain : ∀ e ∈ f.edges, e.Plain)
    (h : d.Safe g names) (hnode : f.node.name ∈ d.bound) :
    (f.walk.foldl (Draft.step g) d).Safe g names := by
  simp only [Focus.edges, List.mem_append, List.mem_reverse, List.mem_map] at hplain
  obtain ⟨hafter, hkeeps⟩ :=
    h.walkFrom hg id hnode fun p hp => hplain p.1 (.inr ⟨p, hp, rfl⟩)
  rw [Focus.walk, List.foldl_append]
  exact (hafter.walkFrom hg Direction.reverse (hkeeps _ hnode)
    fun p hp => hplain p.1 (.inl ⟨p, hp, rfl⟩)).1

/-- What remains to be asked of the entry is asked of its variable alone. -/
theorem evaluable_conditions (e : Entry) :
    ∀ c ∈ e.conditions, c.Evaluable (· ∈ [e.focus.node.name]) := by
  unfold Entry.conditions
  rw [List.forall_mem_append]
  constructor
  · split
    · exact List.forall_mem_nil _
    · rw [List.forall_mem_singleton]
      exact ⟨trivial, fun x hx => hx⟩
  · exact List.forall_mem_map.2 fun p _ => evaluable_propertyEquals (List.mem_singleton_self _)

private theorem safe_leaf (hg : g.Sound) {e : Entry} (text : String)
    (hpending : ∀ c ∈ e.pending, c.Evaluable names) :
    Draft.Safe g names ⟨.scan e.access e.focus.node.name text, [e.focus.node.name],
      e.pending ++ e.conditions⟩ where
  output := by
    refine ⟨fun r hr => ?_, fun fault hf => by cases hf⟩
    obtain ⟨id, hid, rfl⟩ := List.mem_map.1 hr
    have hlive : (Value.node id).Live g := hg.hasNode_of_mem_nodes hid
    exact Row.Provides.empty.bind _ hlive
  pending := by
    rw [List.forall_mem_append]
    exact ⟨fun c hc => (hpending c hc).mono fun x hx => .inr hx,
      fun c hc => (evaluable_conditions e c hc).mono fun x hx => .inl hx⟩

/-- The draft of a path that is entered somewhere. -/
theorem safe_ofEntry (hg : g.Sound) {pending : List Expression} {f : Focus}
    (hplain : ∀ e ∈ f.edges, e.Plain) (hpending : ∀ c ∈ pending, c.Evaluable names) :
    (ofEntry g (Entry.choose g pending f)).Safe g names := by
  obtain ⟨f', hf', hchosen⟩ := Entry.chosen_choose g pending f
  generalize Entry.choose g pending f = e at hchosen
  have hedges : e.focus.edges = f.edges := by
    rw [hchosen.focus_eq]
    exact Focus.edges_of_mem_all hf'
  rw [← hedges] at hplain
  have hleaf := safe_leaf hg (e.focus.node.pattern.text e.focus.node.name)
    fun c hc => hpending c (hchosen.pending_subset c hc)
  refine hleaf.filterReady.walk hg hplain ?_
  rw [bound_filterReady]
  exact List.mem_singleton_self _

/-- A product with the draft of a further path, which has been given the conditions that wait. -/
theorem Safe.combine (h : d.Safe g names)
    (h' : d'.Safe g fun x => x ∈ d.bound ∨ names x) : (d.combine d').Safe g names := by
  apply Safe.filterReady
  refine ⟨h.output.product h'.output fun r s hr hs => hr.merge hs, fun e he => ?_⟩
  apply (h'.pending e he).mono
  intro x hx
  rw [List.mem_append]
  tauto

private theorem safe_addPaths (hg : g.Sound) {next : Nat} {paths : List Path}
    (hfs : ∀ f ∈ Focus.ofPaths next paths, ∀ e ∈ f.edges, e.Plain) (h : d.Safe g names) :
    (addPaths g d next paths).Safe g names := by
  induction paths generalizing d next with
  | nil => exact h
  | cons p rest ih =>
    rw [Focus.ofPaths, List.forall_mem_cons] at hfs
    rw [addPaths_cons]
    exact ih hfs.2 (h.combine (safe_ofEntry hg hfs.1 h.pending))

/-- The draft of a pattern. -/
theorem safe_ofPaths? (hg : g.Sound) {pending : List Expression} {paths : List Path}
    (hfs : ∀ f ∈ Focus.ofPaths 0 paths, ∀ e ∈ f.edges, e.Plain)
    (hpending : ∀ c ∈ pending, c.Evaluable names) (h : ofPaths? g pending paths = some d) :
    d.Safe g names := by
  cases paths with
  | nil => cases h
  | cons p rest =>
    rw [Focus.ofPaths, List.forall_mem_cons] at hfs
    rw [ofPaths?_cons, Option.some.injEq] at h
    rw [← h]
    exact safe_addPaths hg hfs.2 (safe_ofEntry hg hfs.1 hpending)

/-- With all variables bound, the conditions that are left over can be evaluated too. -/
theorem Safe.finish (h : d.Safe g names) (hnames : ∀ x, names x → x ∈ d.bound) :
    (d.finish.output g).Safe g (Row.Provides g d.bound) := by
  unfold Draft.finish
  split
  · rename_i c hc
    refine Operator.safe_filter h.output (Expression.Evaluable.conjunction? (fun e he => ?_) hc)
    exact (h.pending e he).mono fun x hx => hx.elim id (hnames x)
  · exact h.output

end Draft

end Plexus
