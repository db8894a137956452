import Plexus.Proofs.Plan.Traverse

/-!
# Drafts

What the operators of a draft list and what the conditions that wait still ask for make up one
condition on valuations. Moving conditions into a filter does not change it, a step adds what the
step asks for, and a product adds what the other draft asks for.
-/

namespace Plexus

namespace Draft

/-- The operators list the valuations of the bound variables that meet a condition, and under it
some of the variables stand for live nodes. -/
structure Tests (g : Graph) (d : Draft) (nodes : List String) (T : Valuation → Prop) : Prop where
  depends : DependsOn d.bound T
  bound : ∀ x ∈ nodes, x ∈ d.bound
  live : ∀ x ∈ nodes, ∀ ν, T ν → ∃ a, ν x = some (.node a) ∧ g.hasNode a = true
  lists : ∀ rows, d.root.Gives g rows → Lists rows d.bound T

/-- The operators and the conditions that wait ask for a condition together. -/
def Solves (g : Graph) (d : Draft) (nodes : List String) (D : Valuation → Prop) : Prop :=
  ∃ T, d.Tests g nodes T ∧ ∀ ν, D ν ↔ T ν ∧ ∀ e ∈ d.pending, e.Holds g ν

variable {g : Graph} {d d' : Draft} {nodes nodes' : List String} {C D T T' : Valuation → Prop}
  {s : WalkStep}

/-- What a draft solves may be said in any equivalent way. -/
theorem Solves.congr (h : d.Solves g nodes C) (hCD : ∀ ν, C ν ↔ D ν) : d.Solves g nodes D := by
  obtain ⟨T, htests, hT⟩ := h
  exact ⟨T, htests, fun ν => (hCD ν).symm.trans (hT ν)⟩

/-- A condition is ready once all variables that occur in it are bound. -/
theorem isReady_iff {bound : List String} {e : Expression} :
    isReady bound e = true ↔ ∀ x ∈ e.occurrences, x ∈ bound := by
  simp only [isReady, List.all_eq_true, List.contains_iff_mem, Expression.mem_reads]

private theorem forall_pending {P : Expression → Prop} (bound : List String)
    (pending : List Expression) : (∀ e ∈ pending, P e) ↔
      (∀ e ∈ pending.filter (isReady bound), P e) ∧
        ∀ e ∈ pending.filter (not ∘ isReady bound), P e := by
  simp only [List.mem_filter, Function.comp, Bool.not_eq_true']
  constructor
  · exact fun h => ⟨fun e he => h e he.1, fun e he => h e he.1⟩
  · rintro ⟨hready, hothers⟩ e he
    cases hr : isReady bound e with
    | true => exact hready e ⟨he, hr⟩
    | false => exact hothers e ⟨he, hr⟩

/-- Either no condition is ready, or those that are make up the condition of a filter. -/
theorem filterReady_cases (d : Draft) :
    (d.pending.filter (isReady d.bound) = [] ∧ d.filterReady = d) ∨
      ∃ c, Expression.conjunction? (d.pending.filter (isReady d.bound)) = some c ∧
        d.filterReady =
          ⟨.filter d.root c, d.bound, d.pending.filter (not ∘ isReady d.bound)⟩ := by
  unfold filterReady
  rw [List.partition_eq_filter_filter]
  dsimp only
  split
  · rename_i c hc
    exact .inr ⟨c, hc, rfl⟩
  · rename_i hnone
    exact .inl ⟨Expression.conjunction?_eq_none.1 hnone, rfl⟩

@[simp]
theorem bound_filterReady (d : Draft) : d.filterReady.bound = d.bound := by
  rcases d.filterReady_cases with ⟨-, h⟩ | ⟨c, -, h⟩ <;> rw [h]

/-- What is ready waits no longer, and everything else does. -/
theorem pending_filterReady (d : Draft) :
    d.filterReady.pending = d.pending.filter (not ∘ isReady d.bound) := by
  rcases d.filterReady_cases with ⟨hnone, h⟩ | ⟨c, -, h⟩
  · rw [h, eq_comm, List.filter_eq_self]
    intro e he
    have hready := List.filter_eq_nil_iff.1 hnone e he
    simpa using hready
  · rw [h]

/-- A filter tests the conditions that it is made of as well. -/
theorem Tests.filter (h : d.Tests g nodes T) {ready pending : List Expression}
    {c : Expression} (hc : Expression.conjunction? ready = some c)
    (hreads : ∀ e ∈ ready, ∀ x ∈ e.reads, x ∈ d.bound) :
    Tests g ⟨.filter d.root c, d.bound, pending⟩ nodes
      fun ν => T ν ∧ ∀ e ∈ ready, e.Holds g ν where
  depends := by
    intro ν μ hsame
    refine and_congr (h.depends ν μ hsame) (forall₂_congr ?_)
    intro e he
    exact Expression.holds_congr fun x hx => hsame x (hreads e he x hx)
  bound := h.bound
  live := by
    intro x hx ν hν
    exact h.live x hx ν hν.1
  lists := by
    intro rows hrows
    obtain ⟨ins, hins, hspreads⟩ := hrows.of_filter
    exact (h.lists ins hins).filter h.depends hc hspreads

/-- Moving the conditions that are ready into a filter changes nothing. -/
theorem Solves.filterReady (h : d.Solves g nodes D) : d.filterReady.Solves g nodes D := by
  rcases d.filterReady_cases with ⟨-, heq⟩ | ⟨c, hc, heq⟩
  · rw [heq]
    exact h
  · rw [heq]
    obtain ⟨T, htests, hT⟩ := h
    refine ⟨_, htests.filter hc ?_, ?_⟩
    · intro e he x hx
      exact isReady_iff.1 (List.mem_filter.1 he).2 x (Expression.mem_reads.1 hx)
    · intro ν
      rw [hT, forall_pending d.bound, and_assoc]

private theorem found_congr {ν μ : Valuation}
    (hsame : ∀ x ∈ s.source.name :: s.target.name :: s.edge.name.toList, ν x = μ x) :
    s.Found g ν ↔ s.Found g μ := by
  simp only [List.forall_mem_cons, Option.mem_toList] at hsame
  obtain ⟨hsource, htarget, hname⟩ := hsame
  have hedge (id : EdgeId) : (∀ y, s.edge.name = some y → ν y = some (.edge id)) ↔
      ∀ y, s.edge.name = some y → μ y = some (.edge id) :=
    forall₂_congr fun y hy => by rw [hname y hy]
  simp only [WalkStep.Found, hsource, htarget, hedge]

/-- A step tests what it finds as well, and its target stands for a live node. -/
theorem Tests.step (hg : g.Sound) (h : d.Tests g nodes T) (hsource : s.source.name ∈ nodes)
    (hplain : s.edge.Plain) (hedge : ∀ y, s.edge.name = some y → y ∉ d.bound ∧ y ≠ s.target.name)
    {pending : List Expression} :
    Tests g ⟨traverse g d.root s, d.bound ++ s.target.name :: s.edge.name.toList, pending⟩
      (s.target.name :: nodes) fun ν => T ν ∧ s.Found g ν where
  depends := by
    intro ν μ hsame
    have hleft : ∀ x ∈ d.bound, ν x = μ x := fun x hx => hsame x (List.mem_append_left _ hx)
    refine and_congr (h.depends ν μ hleft) (found_congr ?_)
    rw [List.forall_mem_cons]
    exact ⟨hleft _ (h.bound _ hsource), fun x hx => hsame x (List.mem_append_right _ hx)⟩
  bound := by
    intro x hx
    rcases List.mem_cons.1 hx with rfl | hx
    · exact List.mem_append_right _ List.mem_cons_self
    · exact List.mem_append_left _ (h.bound x hx)
  live := by
    intro x hx ν hν
    rcases List.mem_cons.1 hx with rfl | hx
    · obtain ⟨-, a, b, -, hb, hlive, -⟩ := hν
      exact ⟨b, hb, hlive⟩
    · exact h.live x hx ν hν.1
  lists := by
    intro rows hrows
    exact lists_traverse hg h.depends (h.bound _ hsource) (fun ν _ => h.live _ hsource ν) hplain
      hedge h.lists hrows

/-- A step adds what it asks for. -/
theorem Solves.step (hg : g.Sound) (h : d.Solves g nodes D) (hsource : s.source.name ∈ nodes)
    (hplain : s.edge.Plain)
    (hedge : ∀ y, s.edge.name = some y → y ∉ d.bound ∧ y ≠ s.target.name) :
    (d.step g s).Solves g (s.target.name :: nodes) fun ν => D ν ∧ s.Holds g ν := by
  obtain ⟨T, htests, hT⟩ := h
  apply Solves.filterReady
  refine ⟨_, htests.step hg hsource hplain hedge, ?_⟩
  intro ν
  simp only [hT, WalkStep.holds_iff hplain, List.forall_mem_append]
  tauto

/-- A product tests what both sides test. -/
theorem Tests.combine (h : d.Tests g nodes T) (h' : d'.Tests g nodes' T')
    (hdisjoint : ∀ x ∈ d.bound, x ∉ d'.bound) {pending : List Expression} :
    Tests g ⟨.product d.root d'.root, d.bound ++ d'.bound, pending⟩ nodes
      fun ν => T ν ∧ T' ν where
  depends := by
    intro ν μ hsame
    refine and_congr (h.depends ν μ ?_) (h'.depends ν μ ?_)
    · intro x hx
      exact hsame x (List.mem_append_left _ hx)
    · intro x hx
      exact hsame x (List.mem_append_right _ hx)
  bound := by
    intro x hx
    exact List.mem_append_left _ (h.bound x hx)
  live := by
    intro x hx ν hν
    exact h.live x hx ν hν.1
  lists := by
    intro rows hrows
    obtain ⟨rights, hrights, hempty, hne⟩ := hrows.of_product
    have hlisted := h'.lists rights hrights
    by_cases hnil : rights = []
    · -- the left input is not drained, but no valuation is left for the right one either
      rw [hempty hnil]
      apply Lists.nil
      intro ν hν hboth
      have hsame : ∀ x ∈ d'.bound, ν.only d'.bound x = ν x := fun x => Valuation.only_of_mem
      have hmem : ν.only d'.bound ∈ rights.map Row.get? := (hlisted.mem _).2
        ⟨hν.only fun x hx => List.mem_append_right _ hx, (h'.depends _ _ hsame).2 hboth.2⟩
      rw [hnil] at hmem
      cases hmem
    · obtain ⟨lefts, hlefts, rfl⟩ := hne hnil
      exact (h.lists lefts hlefts).product hlisted h.depends h'.depends hdisjoint

/-- A product with the draft of a further path, which has been given the conditions that wait, adds
what that path asks for. -/
theorem Solves.combine (h : d.Solves g nodes C)
    (h' : d'.Solves g nodes' fun ν => D ν ∧ ∀ e ∈ d.pending, e.Holds g ν)
    (hdisjoint : ∀ x ∈ d.bound, x ∉ d'.bound) :
    (d.combine d').Solves g nodes fun ν => C ν ∧ D ν := by
  obtain ⟨T, htests, hT⟩ := h
  obtain ⟨T', htests', hT'⟩ := h'
  apply Solves.filterReady
  refine ⟨_, htests.combine htests' hdisjoint, ?_⟩
  intro ν
  have hright := hT' ν
  have hleft := hT ν
  change _ ↔ _ ∧ ∀ e ∈ d'.pending, e.Holds g ν
  tauto

/-- The finished operators list the valuations that meet the condition. -/
theorem Solves.finish (h : d.Solves g nodes D) {rows : List Row} (hrows : d.finish.Gives g rows) :
    Lists rows d.bound D := by
  obtain ⟨T, htests, hT⟩ := h
  unfold Draft.finish at hrows
  split at hrows
  · rename_i c hc
    obtain ⟨ins, hins, hspreads⟩ := hrows.of_filter
    exact ((htests.lists ins hins).filter htests.depends hc hspreads).congr (fun _ => Iff.rfl)
      fun ν _ => (hT ν).symm
  · rename_i hnone
    have hpending : d.pending = [] := Expression.conjunction?_eq_none.1 hnone
    refine (htests.lists rows hrows).congr (fun _ => Iff.rfl) ?_
    intro ν _
    rw [hT, hpending]
    simp

end Draft

end Plexus
