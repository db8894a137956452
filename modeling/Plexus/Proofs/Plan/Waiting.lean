import Plexus.Proofs.Plan.Safe

/-!
# Conditions that wait

A draft tests a condition as soon as its variables are bound. What descriptors ask for reads what is
bound where it is asked, so it never waits, and a conjunct that an index answers would not have
waited either. So what waits at any time are the conjuncts of the condition that read a variable
which is not bound. Those on variables of a later path alone are all still there when that path is
planned.
-/

namespace Plexus.Draft

variable {g : Graph} {d d' : Draft} {conjuncts pending : List Expression}

/-- The conditions that wait are the conjuncts that read a variable which is not bound. -/
def Waits (conjuncts : List Expression) (d : Draft) : Prop :=
  d.pending = conjuncts.filter (not ∘ isReady d.bound)

private theorem filter_isReady {before after : List String} (h : ∀ x ∈ before, x ∈ after)
    (l : List Expression) : (l.filter (not ∘ isReady before)).filter (not ∘ isReady after) =
      l.filter (not ∘ isReady after) := by
  rw [List.filter_filter]
  refine List.filter_congr fun e _ => ?_
  have hmono : isReady before e = true → isReady after e = true := by
    rw [isReady_iff, isReady_iff]
    exact fun hready x hx => h x (hready x hx)
  cases hbefore : isReady before e <;> simp_all

/-- Once more variables are bound, what is added and can be decided waits no longer. -/
theorem waits_filterReady {before : List String} {added : List Expression}
    (hbefore : ∀ x ∈ before, x ∈ d.bound)
    (hpending : d.pending = conjuncts.filter (not ∘ isReady before) ++ added)
    (hadded : ∀ e ∈ added, isReady d.bound e = true) : d.filterReady.Waits conjuncts := by
  have hnone : added.filter (not ∘ isReady d.bound) = [] :=
    List.filter_eq_nil_iff.2 fun e he => by simp [hadded e he]
  rw [Waits, pending_filterReady, bound_filterReady, hpending, List.filter_append,
    filter_isReady hbefore, hnone, List.append_nil]

/-- A step binds more variables, and what has to wait for others still does. -/
theorem Waits.step (h : d.Waits conjuncts) (s : WalkStep) : (d.step g s).Waits conjuncts := by
  refine waits_filterReady (fun x => List.mem_append_left _) (congrArg (· ++ _) h) fun e he => ?_
  have hevaluable : e.Evaluable (· ∈ s.target.name :: s.edge.name.toList) :=
    evaluable_stepConditions List.mem_cons_self
      (fun y hy => List.mem_cons_of_mem _ (Option.mem_toList.2 hy)) e he
  exact isReady_iff.2 fun x hx => List.mem_append_right _ (hevaluable.reads x hx)

/-- The conditions of the entry are all on its variable, and so is a conjunct that its leaf takes
care of. -/
theorem filter_waiting {f : Focus} {e : Entry} (h : Entry.Chosen g pending f e) :
    (e.pending ++ e.conditions).filter (isReady [f.node.name]) =
        e.pending.filter (isReady [f.node.name]) ++ e.conditions ∧
      (e.pending ++ e.conditions).filter (not ∘ isReady [f.node.name]) =
        pending.filter (not ∘ isReady [f.node.name]) ∧
      Entry.Chosen g (pending.filter (isReady [f.node.name])) f
        { e with pending := e.pending.filter (isReady [f.node.name]) } := by
  have hconditions : ∀ c ∈ e.conditions, isReady [f.node.name] c = true := by
    rw [← h.focus_eq]
    exact fun c hc => isReady_iff.2 (evaluable_conditions e c hc).reads
  obtain ⟨hfiltered, hothers⟩ := h.filter fun c p hc => isReady_iff.2 fun x hx =>
    Expression.occurrences_of_equalityOn? hc ▸ hx
  refine ⟨?_, ?_, hfiltered⟩
  · rw [List.filter_append, List.filter_eq_self.2 hconditions]
  · rw [List.filter_append, hothers, List.append_right_eq_self, List.filter_eq_nil_iff]
    intro c hc
    simp [hconditions c hc]

/-- The draft of a path, given what waits. -/
theorem waits_ofEntry (g : Graph) (pending : List Expression) (f : Focus) :
    (ofEntry g (Entry.choose g pending f)).Waits pending := by
  obtain ⟨f', -, hchosen⟩ := Entry.chosen_choose g pending f
  generalize Entry.choose g pending f = e at hchosen
  obtain rfl := hchosen.focus_eq
  refine List.foldlRecOn e.focus.walk (step g) ?_ fun d hd s _ => hd.step s
  rw [Waits, pending_filterReady, bound_filterReady]
  exact (filter_waiting hchosen).2.1

/-- A product with the draft of a further path, which has been given the conditions that wait. -/
theorem Waits.combine (h : d.Waits conjuncts) (h' : d'.Waits d.pending) :
    (d.combine d').Waits conjuncts := by
  rw [Waits, Draft.combine, pending_filterReady, bound_filterReady]
  dsimp only
  rw [h', h, filter_isReady fun x => List.mem_append_right _,
    filter_isReady fun x => List.mem_append_left _]

/-- An equality on a property of a variable that is not bound waits if it is a conjunct. -/
theorem Waits.mem_pending_iff (h : d.Waits conjuncts) {x key : String} {value : Scalar}
    (hx : x ∉ d.bound) {e : Expression} (he : e.equalityOn? x = some (key, value)) :
    e ∈ d.pending ↔ e ∈ conjuncts := by
  have hready : isReady d.bound e = false := by
    rw [Bool.eq_false_iff, ne_eq, isReady_iff, Expression.occurrences_of_equalityOn? he]
    exact fun hall => hx (hall x List.mem_cons_self)
  rw [h, List.mem_filter]
  simp [hready]

end Plexus.Draft
