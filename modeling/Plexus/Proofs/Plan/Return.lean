import Plexus.Plan.Execution
import Plexus.Proofs.Operator.Gives
import Plexus.Proofs.Outcome

/-!
# From an answer back to the pattern

A query without a limit that has an answer has drained the operators for its pattern, since every
operator above them reads its input to the end.
-/

namespace Plexus

/-- A plan has an answer if its root can be drained, and it is the table of the rows. -/
theorem Plan.execute_eq_ok {p : Plan} {g : Graph} {t : Table} : p.execute g = .ok t ↔
    ∃ rows, p.root.Gives g rows ∧ t = ⟨rows.map (·.project p.columns), p.columns⟩ := by
  simp only [Plan.execute_eq, Operator.gives_iff]
  constructor
  · intro h
    generalize p.root.output g = o at h
    obtain ⟨rows, fault⟩ := o
    cases fault with
    | some fault => cases h
    | none =>
      cases h
      exact ⟨rows, rfl, rfl⟩
  · rintro ⟨rows, hrows, rfl⟩
    rw [hrows]
    rfl

namespace Query

variable {q : Query} {g : Graph} {op : Operator} {rows : List Row}

private theorem gives_of_shape {hidden : List NamedExpression}
    (h : (q.shape op hidden).Gives g rows) : ∃ ins, op.Gives g ins := by
  unfold shape at h
  dsimp only at h
  split at h
  · obtain ⟨ins, -, hins, -⟩ := Operator.gives_aggregate_iff.1 h
    exact ⟨ins, hins⟩
  · obtain ⟨ins, hins, -⟩ := Operator.gives_project_iff.1 h
    exact ⟨ins, hins⟩

/-- Without a limit, what comes after the pattern reads all rows of the pattern. -/
theorem gives_of_planReturn (hlimit : q.limit = none) (h : (q.planReturn op).Gives g rows) :
    ∃ ins, op.Gives g ins := by
  unfold planReturn at h
  simp only [hlimit] at h
  have hsort {below : Operator} {keys : List OrderItem} {rows : List Row}
      (hs : (if keys.isEmpty = true then below else below.sort keys).Gives g rows) :
      ∃ ins, below.Gives g ins := by
    split at hs
    · exact ⟨rows, hs⟩
    · obtain ⟨ins, -, hins, -⟩ := Operator.gives_sort_iff.1 hs
      exact ⟨ins, hins⟩
  have hdistinct {below : Operator} {rows : List Row}
      (hs : (if q.isDistinct = true then below.distinct q.columns else below).Gives g rows) :
      ∃ ins, below.Gives g ins := by
    split at hs
    · obtain ⟨ins, hins, -⟩ := Operator.gives_distinct_iff.1 hs
      exact ⟨ins, hins⟩
    · exact ⟨rows, hs⟩
  cases hskip : q.skip with
  | none =>
    rw [hskip] at h
    obtain ⟨unique, hunique⟩ := hsort h
    obtain ⟨shaped, hshaped⟩ := hdistinct hunique
    exact gives_of_shape hshaped
  | some count =>
    rw [hskip] at h
    obtain ⟨sorted, hsorted, -⟩ := Operator.gives_skip_iff.1 h
    obtain ⟨unique, hunique⟩ := hsort hsorted
    obtain ⟨shaped, hshaped⟩ := hdistinct hunique
    exact gives_of_shape hshaped

/-- The plan of a valid query. -/
theorem plan_of_draft (hvalid : q.validate = .ok ()) {draft : Draft}
    (hdraft : Draft.ofPaths? g q.conjuncts q.paths = some draft) :
    q.plan g = .ok ⟨q.planReturn draft.finish, q.columns⟩ := by
  rw [plan, hvalid, hdraft]
  rfl

/-- Running a query is working out the output of its plan. -/
theorem execute_of_plan {p : Plan} (hp : q.plan g = .ok p) :
    q.execute g = (p.root.output g).toTable p.columns := by
  simp only [execute, hp, Plan.execute_eq]

/-- A query has an answer if it is valid and its plan can be drained. -/
theorem execute_eq_ok {t : Table} : q.execute g = .ok t ↔
    q.validate = .ok () ∧ ∃ draft rows, Draft.ofPaths? g q.conjuncts q.paths = some draft ∧
      (q.planReturn draft.finish).Gives g rows ∧
        t = ⟨rows.map (·.project q.columns), q.columns⟩ := by
  constructor
  · intro h
    unfold execute at h
    split at h
    · rename_i p hplan
      obtain ⟨⟨⟩, hvalid, hpaths⟩ := bind_eq_ok.1 hplan
      refine ⟨hvalid, ?_⟩
      split at hpaths
      · rename_i draft hdraft
        cases hpaths
        obtain ⟨rows, hrows, ht⟩ := Plan.execute_eq_ok.1 h
        exact ⟨draft, rows, hdraft, hrows, ht⟩
      · cases hpaths
    · cases h
  · rintro ⟨hvalid, draft, rows, hdraft, hrows, ht⟩
    rw [execute, plan_of_draft hvalid hdraft]
    exact Plan.execute_eq_ok.2 ⟨rows, hrows, ht⟩

end Query

end Plexus
