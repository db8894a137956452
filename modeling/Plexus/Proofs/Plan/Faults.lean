import Plexus.Demonstration
import Plexus.Proofs.Graph.Reachable
import Plexus.Proofs.Plan.Return
import Plexus.Proofs.Plan.Returned
import Plexus.Proofs.Plan.Safe

/-!
# Valid queries fail on kinds of values alone

A query is planned if it is valid, and its plan gives an answer or meets a value of the wrong kind,
unless the settings ask for batches for which there cannot be room. What is returned, grouped,
aggregated and sorted by is read from the variables of the pattern, or, above these operators, from
the columns that they bind.
-/

namespace Plexus

namespace Query

variable {q : Query} {g : Graph} {op : Operator} {names : List String}

/-- Grouping by what is not aggregated binds the returned columns. -/
theorem safe_grouped (hq : q.Returns) (hnames : ∀ x, q.Declares x → x ∈ names)
    (h : (op.output g).Safe g (Row.Provides g names)) :
    ((op.aggregate (q.returned.filter fun e => !e.expression.isAggregate)
      ((q.items.zip q.columns).filterMap fun p => aggregateColumn? p.1 p.2)).output g).Safe g
        (Row.Provides g q.columns) := by
  have hitem : ∀ p ∈ q.items.zip q.columns, p.1.expression.Returnable q.Declares :=
    fun p hp => hq.items p.1 (List.of_mem_zip hp).1
  refine (Operator.safe_aggregate h (fun k hk => ?_) fun column hcolumn e he => ?_).mono
    fun r hr => hr.mono fun c hc => ?_
  · obtain ⟨hk, hplain⟩ := List.mem_filter.1 hk
    obtain ⟨p, hp, rfl⟩ := List.mem_map.1 hk
    rw [Bool.not_eq_true'] at hplain
    exact ((hitem p hp).plain hplain).mono hnames
  · obtain ⟨p, hp, hcolumn⟩ := List.mem_filterMap.1 hcolumn
    obtain ⟨hagg, f, args, heq, harg⟩ := isAggregate_of_aggregateColumn? hcolumn
    exact ((hitem p hp).argument f args heq hagg e (harg ▸ he)).mono hnames
  · obtain ⟨item, -, hmem⟩ := exists_item_of_mem_columns hc
    rw [List.mem_append]
    cases hagg : item.expression.isAggregate with
    | true =>
      obtain ⟨column, hcolumn, rfl⟩ := exists_aggregateColumn? c hagg
      exact .inl (List.mem_map_of_mem (List.mem_filterMap.2 ⟨_, hmem, hcolumn⟩))
    | false =>
      have hkey : (⟨item.expression, c⟩ : NamedExpression) ∈
          q.returned.filter fun e => !e.expression.isAggregate :=
        List.mem_filter.2 ⟨List.mem_map_of_mem hmem, by rw [hagg]; rfl⟩
      exact .inr (List.mem_map_of_mem hkey)

/-- Projecting binds the returned columns and the hidden ones. -/
theorem safe_projected (hq : q.Returns) (hnames : ∀ x, q.Declares x → x ∈ names)
    (h : (op.output g).Safe g (Row.Provides g names)) (hplain : q.isAggregating = false)
    {hidden : List NamedExpression} (hhidden : ∀ n ∈ hidden, n.expression.Evaluable q.Declares) :
    ((op.project (q.returned ++ hidden)).output g).Safe g
      (Row.Provides g (q.columns ++ hidden.map (·.column))) := by
  have hprojected := Operator.safe_project (q.returned ++ hidden) h ?_
  · rw [List.map_append, columns_returned] at hprojected
    exact hprojected
  · refine List.forall_mem_append.2 ⟨fun n hn => ?_, fun n hn => (hhidden n hn).mono hnames⟩
    obtain ⟨p, hp, rfl⟩ := List.mem_map.1 hn
    have hmem := (List.of_mem_zip hp).1
    have hagg := List.any_eq_false.1 hplain p.1 hmem
    exact ((hq.items p.1 hmem).plain (Bool.eq_false_iff.2 hagg)).mono hnames

/-- Grouping or projecting binds the returned columns, and projecting the hidden ones as well. -/
theorem safe_shape (hidden : List NamedExpression) (hq : q.Returns)
    (hnames : ∀ x, q.Declares x → x ∈ names) (h : (op.output g).Safe g (Row.Provides g names))
    (hhidden : ∀ n ∈ hidden, q.isAggregating = false ∧ n.expression.Evaluable q.Declares) :
    ((q.shape op hidden).output g).Safe g
      (Row.Provides g (q.columns ++ hidden.map (·.column))) := by
  unfold shape
  dsimp only
  split
  · rename_i haggregating
    have hnone : hidden = [] := by
      rw [List.eq_nil_iff_forall_not_mem]
      intro n hn
      rw [(hhidden n hn).1] at haggregating
      cases haggregating
    rw [hnone, List.map_nil, List.append_nil]
    exact safe_grouped hq hnames h
  · rename_i hplain
    exact safe_projected hq hnames h (Bool.eq_false_iff.2 hplain) fun n hn => (hhidden n hn).2

/-- What comes after the pattern fails on values of the wrong kind alone. -/
theorem Returns.safe (hq : q.Returns) (hnames : ∀ x, q.Declares x → x ∈ names)
    (h : (op.output g).Safe g (Row.Provides g names)) :
    ((q.planReturn op).output g).Safe g fun _ => True := by
  obtain ⟨hkeys, -, added, hhidden, hadded⟩ :=
    orderKeys_spec q.items q.columns (show Numbered [] from rfl) q.orderBy
  unfold planReturn
  generalize orderKeys q.items q.columns [] q.orderBy = ordered at hkeys hhidden
  obtain ⟨keys, hidden⟩ := ordered
  dsimp only at hkeys hhidden ⊢
  have hshape := safe_shape hidden hq hnames h fun n hn => by
    rw [hhidden, List.nil_append] at hn
    obtain ⟨item, hitem, hnone, heq⟩ := hadded n hn
    obtain ⟨hplain, -, hevaluable⟩ := hq.order item hitem hnone
    exact ⟨hplain, heq ▸ hevaluable⟩
  generalize q.shape op hidden = shaped at hshape
  have hunique : ((if q.isDistinct then shaped.distinct q.columns else shaped).output g).Safe g
      (Row.Provides g (q.columns ++ hidden.map (·.column))) := by
    split
    · exact Operator.safe_distinct hshape
    · exact hshape
  generalize (if q.isDistinct then shaped.distinct q.columns else shaped) = unique at hunique
  have hsorted : ((if keys.isEmpty then unique else unique.sort keys).output g).Safe g
      (Row.Provides g (q.columns ++ hidden.map (·.column))) := by
    split
    · exact hunique
    · refine Operator.safe_sort hunique fun key hkey => ?_
      obtain ⟨item, -, hrefers⟩ := exists_of_forall₂ hkeys.flip hkey
      obtain ⟨c, hc, hmem⟩ := hrefers.exists_mem
      rw [hc]
      refine ⟨trivial, fun x hx => ?_⟩
      rw [Expression.occurrences, List.mem_singleton] at hx
      exact hx ▸ List.mem_append.2 hmem
  generalize (if keys.isEmpty then unique else unique.sort keys) = sorted at hsorted
  have hall := hsorted.mono fun _ _ => trivial
  cases q.skip with
  | none =>
    cases q.limit with
    | none => exact hall
    | some n => exact Operator.safe_limit hall
  | some k =>
    cases q.limit with
    | none => exact Operator.safe_skip hall
    | some n => exact Operator.safe_limit (Operator.safe_skip hall)

/-- A valid query has a pattern, and so it has a plan. -/
theorem plan_of_validate (h : q.validate = .ok ()) (g : Graph) :
    ∃ draft, Draft.ofPaths? g q.conjuncts q.paths = some draft ∧
      q.plan g = .ok ⟨q.planReturn draft.finish, q.columns⟩ := by
  obtain ⟨scope, hscope, -⟩ := bind_eq_ok.1 h
  obtain ⟨draft, hdraft⟩ : ∃ draft, Draft.ofPaths? g q.conjuncts q.paths = some draft := by
    cases hpaths : q.paths with
    | nil =>
      rw [hpaths] at hscope
      cases hscope
    | cons p rest => exact ⟨_, Draft.ofPaths?_cons g q.conjuncts p rest⟩
  exact ⟨draft, hdraft, plan_of_draft h hdraft⟩

/-- A query that is not valid has no plan, for the same reason. -/
theorem plan_eq_error_iff (q : Query) (g : Graph) {reason : Malformed} :
    q.plan g = .error reason ↔ q.validate = .error reason := by
  cases h : q.validate with
  | error other =>
    have hplan : q.plan g = .error other := by
      rw [plan, h]
      rfl
    rw [hplan]
    simp
  | ok u =>
    obtain ⟨draft, -, hplan⟩ := plan_of_validate h g
    rw [hplan]
    simp

/-- The paths of a valid query bind the variables that it names. -/
theorem mem_bound_of_declares (h : q.validate = .ok ()) {pending : List Expression} {draft : Draft}
    (hdraft : Draft.ofPaths? g pending q.paths = some draft) :
    ∀ x, q.Declares x → x ∈ draft.bound := by
  rintro x ⟨p, hp, hdeclares⟩
  obtain ⟨f, hf, hname⟩ := exists_of_forall₂ (names_of_validate h).1.flip hp
  rw [Draft.mem_bound_ofPaths? hdraft]
  exact ⟨f, (List.of_mem_zip hf).2, hname.mem_names hdeclares⟩

/-- The plan of a valid query fails on values of the wrong kind, or for want of room for a batch. -/
theorem safe_planReturn (hg : g.Sound) (h : q.validate = .ok ()) {draft : Draft}
    (hdraft : Draft.ofPaths? g q.conjuncts q.paths = some draft) :
    ((q.planReturn draft.finish).output g).Safe g fun _ => True := by
  have hbound := mem_bound_of_declares h hdraft
  have hsafe := Draft.safe_ofPaths? hg (fun f hf => (wellNamed_of_validate h f hf).plain)
    (evaluable_conjuncts h) hdraft
  exact (returns_of_validate h).safe hbound (hsafe.finish hbound)

/-- The query for the nodes on which the negation of a property is true. -/
def negatedProperty : Query where
  paths := [⟨⟨some "n", [], []⟩, []⟩]
  condition := some (.unary .not (.property "n" "name"))
  returns := none
  orderBy := []
  skip := none
  limit := none

end Query

namespace Graph

/-- Planning a query fails exactly if the query is not valid, and for the same reason. Running the
plan of a valid query to the end gives an answer or meets a value of the wrong kind: no variable is
unbound, no call is malformed, and no node or edge is dead. Only if there cannot be room for a batch
of the size that is set may it break off for that. -/
theorem Reachable.fails_on_kinds_alone {g : Graph} (hg : g.Reachable) (q : Query) :
    (∀ reason, q.plan g = .error reason ↔ q.validate = .error reason) ∧
      (q.validate = .ok () → ∃ p, q.plan g = .ok p ∧
        ((∃ t, p.execute g = .ok t) ∨ (∃ fault, p.execute g = .error (.type fault)) ∨
          Batch.fits g.settings.batchSize = false ∧ p.execute g = .error .noRoom)) := by
  refine ⟨fun reason => q.plan_eq_error_iff g, fun hvalid => ?_⟩
  obtain ⟨draft, hdraft, hplan⟩ := Query.plan_of_validate hvalid g
  refine ⟨_, hplan, ?_⟩
  have hsafe := Query.safe_planReturn hg.sound hvalid hdraft
  rw [Plan.execute_eq, Output.toTable]
  cases hfault : ((q.planReturn draft.finish).output g).fault with
  | none => exact .inl ⟨_, rfl⟩
  | some fault =>
    cases hsafe.fault fault hfault with
    | type type => exact .inr (.inl ⟨type, rfl⟩)
    | noRoom hlarge => exact .inr (.inr ⟨hlarge, rfl⟩)

/-- A text is not negated: the query is valid and meets a value of the wrong kind. -/
theorem fails_on_kinds_alone_of_negated_text :
    let g := [Mutation.createNode [] [("name", .text "a")]].foldl Graph.after (.empty {})
    ∃ p, Query.negatedProperty.plan g = .ok p ∧
      p.execute g = .error (.type (.notBoolean "NOT" "Text")) ∧
        ((∃ t, p.execute g = .ok t) ∨ ∃ fault, p.execute g = .error (.type fault)) := by
  have hreach := Reachable.foldl (.empty {}) [Mutation.createNode [] [("name", .text "a")]]
  obtain ⟨p, hplan, hruns⟩ := (Reachable.fails_on_kinds_alone hreach Query.negatedProperty).2 rfl
  refine ⟨p, hplan, ?_, hruns.imp_right fun h => h.resolve_right fun hlarge => ?_⟩
  · cases hplan
    rw [Plan.execute_eq]
    decide +kernel
  · exact absurd hlarge.1 (by decide)

/-- A valid query for the cities that are reached from others meets no value of the wrong kind. It
breaks off because there is no block of memory for a batch of 2⁶⁴ - 1 rows. -/
theorem breaks_off_on_large_batch :
    let g := Graph.after (.empty { batchSize := 18446744073709551615 })
      (.createNode ["City"] [("name", .text "Pune")])
    let q := Demonstration.reachQuery ⟨some 2, some 2⟩
    g.Reachable ∧ q.validate = .ok () ∧
      ∃ p, q.plan g = .ok p ∧ p.execute g = .error .noRoom := by
  intro g q
  refine ⟨.after (.empty _) _, by decide +kernel, _, rfl, ?_⟩
  rw [Plan.execute_eq]
  rfl

end Graph

end Plexus
