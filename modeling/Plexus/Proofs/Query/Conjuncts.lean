import Plexus.Query.Pattern

/-!
# The conjuncts of a condition

What the condition of a query consists of, whatever is made of it: it comes apart at every
conjunction that is at its top or reached from there through conjunctions alone. It does so in one
way, which gives the conjuncts that are planned with.
-/

namespace Plexus

namespace Expression

/-- A condition comes apart into expressions that are no conjunctions, from left to right. -/
inductive Splits : Expression → List Expression → Prop where
  | single {e : Expression} : (∀ left right, e ≠ .binary .and left right) → Splits e [e]
  | and {left right : Expression} {es es' : List Expression} :
      Splits left es → Splits right es' → Splits (.binary .and left right) (es ++ es')

/-- Every condition comes apart, and in one way only. -/
theorem splits_iff {e : Expression} {es : List Expression} : e.Splits es ↔ es = e.conjuncts := by
  constructor
  · intro h
    induction h with
    | single hne => exact (conjuncts.eq_2 _ hne).symm
    | and _ _ hleft hright => rw [conjuncts, hleft, hright]
  · rintro rfl
    induction e using conjuncts.induct with
    | case1 left right hleft hright => exact .and hleft hright
    | case2 e hne =>
      rw [conjuncts.eq_2 _ hne]
      exact .single hne

/-- The expression is not a conjunction itself. -/
def IsConjunct (e : Expression) : Prop := e.conjuncts = [e]

/-- What a condition comes apart into does not come apart any further. -/
theorem isConjunct_of_mem_conjuncts {p e : Expression} (he : e ∈ p.conjuncts) : e.IsConjunct := by
  induction p using conjuncts.induct with
  | case1 left right hleft hright =>
    rw [conjuncts] at he
    exact (List.mem_append.1 he).elim hleft hright
  | case2 p hne =>
    have hself := conjuncts.eq_2 p hne
    rw [hself, List.mem_singleton] at he
    exact he ▸ hself

/-- A conjunction is split into what it was made of. -/
theorem conjuncts_conjunction? {es : List Expression} {c : Expression}
    (h : ∀ e ∈ es, e.IsConjunct) (hc : conjunction? es = some c) : c.conjuncts = es := by
  have hfold (first : Expression) (rest : List Expression) (hrest : ∀ e ∈ rest, e.IsConjunct) :
      (rest.foldl (binary .and) first).conjuncts = first.conjuncts ++ rest := by
    induction rest generalizing first with
    | nil => exact (List.append_nil _).symm
    | cons e rest ih =>
      rw [List.forall_mem_cons] at hrest
      rw [List.foldl_cons, ih _ hrest.2, conjuncts, hrest.1, List.append_assoc]
      rfl
  cases es with
  | nil => cases hc
  | cons first rest =>
    cases hc
    rw [List.forall_mem_cons] at h
    rw [hfold first rest h.2, h.1]
    rfl

end Expression

namespace Query

/-- The conjuncts that the condition of a query comes apart into; without a condition none. -/
def Splits (q : Query) (es : List Expression) : Prop :=
  match q.condition with
  | some e => e.Splits es
  | none => es = []

/-- The conjuncts that a query is planned with are those of its condition. -/
theorem splits_iff {q : Query} {es : List Expression} : q.Splits es ↔ es = q.conjuncts := by
  unfold Splits conjuncts
  cases q.condition with
  | some e => exact Expression.splits_iff
  | none => exact Iff.rfl

/-- What holds of the conjuncts of the condition is asked of those that a query is planned with. -/
theorem exists_splits_iff {q : Query} {P : List Expression → Prop} :
    (∃ es, q.Splits es ∧ P es) ↔ P q.conjuncts := by
  simp only [splits_iff, exists_eq_left]

end Query

end Plexus
