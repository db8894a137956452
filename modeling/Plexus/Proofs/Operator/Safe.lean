import Plexus.Proofs.Operator.Matching
import Plexus.Proofs.Operator.Output
import Plexus.Proofs.Query.Safe

/-!
# Outputs that fail on kinds of values alone

Every operator passes on that its rows provide what is read above it, and that the only faults are a
value of the wrong kind, and batches for which there cannot be room. Traversals bind live nodes and
edges because edges have live ends.
-/

namespace Plexus

/-- What can still go wrong on a graph when the query itself is in order. -/
inductive QueryFault.PossibleOn (g : Graph) : QueryFault → Prop where
  | type (fault : TypeFault) : PossibleOn g (.type fault)
  /-- The settings ask for batches for which there cannot be room. -/
  | noRoom : Batch.fits g.settings.batchSize = false → PossibleOn g .noRoom

namespace Output

/-- All rows have a property, and the fault is one of those that are possible. -/
structure Safe (g : Graph) (P : Row → Prop) (o : Output) : Prop where
  rows : ∀ r ∈ o.rows, P r
  fault : ∀ fault, o.fault = some fault → fault.PossibleOn g

variable {g : Graph} {P Q R : Row → Prop} {o o' : Output}

/-- A safe output is safe for any weaker demand on its rows. -/
theorem Safe.mono (h : o.Safe g P) (hPQ : ∀ r, P r → Q r) : o.Safe g Q :=
  ⟨fun r hr => hPQ r (h.rows r hr), h.fault⟩

/-- Some of the rows, up to the same fault or without it. -/
theorem Safe.of_subset (h : o.Safe g P) (hrows : ∀ r ∈ o'.rows, r ∈ o.rows)
    (hfault : o'.fault = o.fault ∨ o'.fault = none) : o'.Safe g P := by
  refine ⟨fun r hr => h.rows r (hrows r hr), fun fault hf => ?_⟩
  rcases hfault with heq | hnone
  · exact h.fault fault (heq ▸ hf)
  · rw [hnone] at hf
    cases hf

/-- Rows as demanded may be put in front of a safe output. -/
theorem Safe.prepend (h : o.Safe g P) {rows : List Row} (hrows : ∀ r ∈ rows, P r) :
    (o.prepend rows).Safe g P :=
  ⟨List.forall_mem_append.2 ⟨hrows, h.rows⟩, h.fault⟩

/-- A fault that is possible on the graph is safe on its own. -/
theorem safe_failed {fault : QueryFault} (h : fault.PossibleOn g) : (failed fault).Safe g P :=
  ⟨List.forall_mem_nil _, fun _ hf => Option.some.inj hf ▸ h⟩

/-- The fault of a safe computation is safe. -/
theorem safe_of_error {α : Type} {I : α → Prop} {fault : QueryFault}
    (h : Plexus.Safe I (.error fault)) : (failed fault).Safe g P := by
  cases h with
  | type type => exact safe_failed (.type type)

/-- Spreading a safe output safely gives a safe output. -/
theorem Safe.spread {f : Row → Except QueryFault (List Row)} (h : o.Safe g P)
    (hf : ∀ r, P r → Plexus.Safe (fun rows => ∀ s ∈ rows, Q s) (f r)) : (o.spread f).Safe g Q := by
  obtain ⟨rows, fault⟩ := o
  obtain ⟨hrows, hfault⟩ := h
  induction rows with
  | nil => exact ⟨List.forall_mem_nil _, hfault⟩
  | cons r rest ih =>
    rw [List.forall_mem_cons] at hrows
    have hspread := spread_cons f r ⟨rest, fault⟩
    have hr := hf r hrows.1
    cases hout : f r with
    | error fault' =>
      rw [hout] at hspread hr
      exact hspread ▸ safe_of_error hr
    | ok out =>
      rw [hout] at hspread hr
      cases hr with
      | ok hout => exact hspread ▸ (ih hrows.2 hfault).prepend hout

/-- The product of safe outputs is safe. -/
theorem Safe.product (h : o.Safe g P) (h' : o'.Safe g Q) (hR : ∀ r s, P r → Q s → R (r.merge s)) :
    (o.product o').Safe g R := by
  unfold Output.product
  split
  · rename_i fault hfault
    exact safe_failed (h'.fault fault hfault)
  · split
    · exact ⟨List.forall_mem_nil _, fun fault hf => by cases hf⟩
    · refine ⟨fun row hrow => ?_, h.fault⟩
      obtain ⟨r, hr, hrow⟩ := List.mem_flatMap.1 hrow
      obtain ⟨s, hs, rfl⟩ := List.mem_map.1 hrow
      exact hR r s (h.rows r hr) (h'.rows s hs)

/-- Gathering a safe output under an invariant gives a safe output. -/
theorem Safe.gather {α : Type} {I : α → Prop} {initial : α}
    {take : α → Row → Except QueryFault α} {finish : α → List Row} (h : o.Safe g P)
    (hinitial : I initial) (htake : ∀ a r, I a → P r → Plexus.Safe I (take a r))
    (hfinish : ∀ a, I a → ∀ r ∈ finish a, Q r) : (o.gather initial take finish).Safe g Q := by
  have hfold := Plexus.Safe.foldlM h.rows htake hinitial
  unfold Output.gather
  split
  · rename_i fault heq
    exact safe_of_error (heq ▸ hfold)
  · rename_i a fault heq hfault
    exact safe_failed (h.fault fault hfault)
  · rename_i a heq hfault
    rw [heq] at hfold
    cases hfold with
    | ok ha => exact ⟨hfinish a ha, fun fault hf => by cases hf⟩

/-- A step that passes on the row that it looks at makes no new rows. -/
theorem mem_of_mem_passed {α : Type} {step : α → Row → α × Option Row}
    (hstep : ∀ a r b s, step a r = (b, some s) → s = r) (a : α) {rows : List Row} :
    ∀ r ∈ passed step a rows, r ∈ rows := by
  induction rows generalizing a with
  | nil => exact List.forall_mem_nil _
  | cons r rest ih =>
    intro s hs
    rw [passed] at hs
    split at hs
    · rename_i b row heq
      rcases List.mem_cons.1 hs with rfl | hs
      · rw [hstep _ _ _ _ heq]
        exact List.mem_cons_self
      · exact List.mem_cons_of_mem _ (ih b s hs)
    · exact List.mem_cons_of_mem _ (ih _ s hs)

/-- Sifting a safe output is safe if rows are let through as they are. -/
theorem Safe.sift {α : Type} {step : α → Row → α × Option Row} (h : o.Safe g P)
    (hstep : ∀ a r b s, step a r = (b, some s) → s = r) (a : α) : (o.sift step a).Safe g P :=
  h.of_subset (mem_of_mem_passed hstep a) (.inl rfl)

/-- The first rows of a safe output are safe. -/
theorem Safe.limit (h : o.Safe g P) (count : Nat) : (o.limit count).Safe g P := by
  refine h.of_subset (fun r hr => List.mem_of_mem_take hr) ?_
  unfold Output.limit
  dsimp only
  split
  · exact .inr rfl
  · exact .inl rfl

end Output

namespace Row.Provides

variable {g : Graph} {names : List String} {r : Row}

/-- A variable that is bound has a start, unless it is bound to something else than a node. -/
theorem safe_startNode (h : r.Provides g names) {x : String} (hx : x ∈ names) :
    Safe (fun start => ∀ a, start = some a → g.hasNode a = true) (r.startNode x) := by
  obtain ⟨v, hv⟩ := h.bound x hx
  have hlive := h.live _ (Assoc.mem_of_get? hv)
  unfold startNode
  rw [hv]
  cases v with
  | node id =>
    refine .ok fun a ha => ?_
    cases ha
    exact hlive
  | edge id => exact .type _
  | scalar s =>
    cases s with
    | null =>
      refine .ok fun a ha => ?_
      cases ha
    | _ => exact .type _

private theorem extend (h : r.Provides g names) (hg : g.Sound) {e : Expansion} {a : NodeId}
    {found : Option EdgeId × NodeId} (hfound : found ∈ e.ends g a) :
    (e.extend r found).Provides g (names ++ e.target :: e.edge.toList) := by
  obtain ⟨id?, b⟩ := found
  obtain ⟨x, hx, -, hleads, hid⟩ := (Expansion.mem_ends hg).1 hfound
  have hedge : g.hasEdge x.id = true := hg.hasEdge_iff.2 ⟨x, hx, rfl⟩
  have htarget := h.bind e.target (v := .node b) (hg.hasNode_of_leads hx hleads)
  cases hname : e.edge with
  | none =>
    have hextend : e.extend r (id?, b) = r.bind e.target (.node b) := by
      simp only [Expansion.extend, hname]
    rw [hextend]
    apply htarget.mono
    simp [or_comm]
  | some name =>
    rw [hname] at hid
    have hsome : id? = some x.id := hid
    have hextend : e.extend r (id?, b) = (r.bind e.target (.node b)).bind name (.edge x.id) := by
      simp only [Expansion.extend, hname, hsome]
    rw [hextend]
    apply (htarget.bind name (v := .edge x.id) hedge).mono
    simp only [Option.toList_some, List.mem_append, List.mem_cons, List.not_mem_nil, or_false]
    tauto

/-- A row is extended by one hop to rows that bind the target and the edge as well. -/
theorem safe_expand (h : r.Provides g names) (hg : g.Sound) {e : Expansion}
    (hsource : e.source ∈ names) :
    Safe (fun rows => ∀ s ∈ rows, s.Provides g (names ++ e.target :: e.edge.toList))
      (e.rows g r) := by
  refine (h.safe_startNode hsource).bind fun start _ => ?_
  cases start with
  | none => exact .ok (List.forall_mem_nil _)
  | some a =>
    refine .ok fun s hs => ?_
    obtain ⟨found, hfound, rfl⟩ := List.mem_map.1 hs
    exact h.extend hg (List.mem_filter.1 hfound).1

end Row.Provides

namespace Reach

variable {g : Graph} {r : Reach} {names : List String}

/-- A traversal from a live node ends at live nodes. -/
theorem hasNode_of_from (hg : g.Sound) {a b : NodeId} (h : r.From g a b) :
    g.hasNode b = true := by
  obtain ⟨ha, k, -, -, hwalk⟩ := h
  cases hwalk with
  | refl => exact ha
  | snoc _ hstep =>
    obtain ⟨x, hx, -, hleads⟩ := hstep
    exact hg.hasNode_of_leads hx hleads

/-- The rows that a batch is extended to bind the target as well. -/
theorem provides_rows (hg : g.Sound) {batch : List (Row × Option NodeId)}
    (hbatch : ∀ p ∈ batch, p.1.Provides g names) :
    ∀ s ∈ r.rows g batch, s.Provides g (names ++ [r.target]) := by
  intro s hs
  rw [r.rows_eq_flatMap hg] at hs
  obtain ⟨⟨row, start⟩, hp, hs⟩ := List.mem_flatMap.1 hs
  cases start with
  | none => simp [rows] at hs
  | some a =>
    obtain ⟨ends, -, hends, heq⟩ := exists_rows_eq hg r row a
    rw [heq] at hs
    obtain ⟨b, hb, rfl⟩ := List.mem_map.1 hs
    have hlive : (Value.node b).Live g :=
      hasNode_of_from hg ((hends b).1 (List.mem_filter.1 hb).1)
    apply ((hbatch _ hp).bind r.target hlive).mono
    simp [or_comm]

end Reach

private theorem Output.Safe.reachFrom {g : Graph} (hg : g.Sound) {r : Reach} {names : List String}
    {o : Output} (h : o.Safe g (Row.Provides g names)) (hsource : r.source ∈ names)
    {batch : List (Row × Option NodeId)} (hbatch : ∀ p ∈ batch, p.1.Provides g names) :
    (o.reachFrom g r batch).Safe g (Row.Provides g (names ++ [r.target])) := by
  obtain ⟨rows, fault⟩ := o
  obtain ⟨hrows, hfault⟩ := h
  unfold Output.reachFrom
  dsimp only at hrows hfault ⊢
  induction rows generalizing batch with
  | nil =>
    unfold batches
    split
    · exact ⟨Reach.provides_rows hg hbatch, fun fault hf => by cases hf⟩
    · rename_i fault
      exact safe_failed (hfault fault rfl)
  | cons row rest ih =>
    rw [List.forall_mem_cons] at hrows
    have hstart := hrows.1.safe_startNode hsource
    unfold batches
    split
    · rename_i heq
      exact safe_of_error (heq ▸ hstart)
    · rename_i start heq
      have hnext : ∀ p ∈ batch ++ [(row, start)], p.1.Provides g names := by
        rw [List.forall_mem_append, List.forall_mem_singleton]
        exact ⟨hbatch, hrows.1⟩
      dsimp only
      split
      · exact ih hnext hrows.2
      · exact (ih (List.forall_mem_nil _) hrows.2).prepend (Reach.provides_rows hg hnext)

/-- Batch by batch, rows are extended to rows that bind the target as well. -/
theorem Output.Safe.reach {g : Graph} (hg : g.Sound) {r : Reach} {names : List String} {o : Output}
    (h : o.Safe g (Row.Provides g names)) (hsource : r.source ∈ names)
    (hsize : r.batchSize = g.settings.batchSize) :
    (o.reach g r).Safe g (Row.Provides g (names ++ [r.target])) := by
  unfold Output.reach
  split
  · exact h.reachFrom hg hsource (List.forall_mem_nil _)
  · rename_i hlarge
    exact safe_failed (.noRoom (hsize ▸ Bool.eq_false_iff.2 hlarge))

namespace Operator

variable {g : Graph} {op : Operator} {names : List String} {P : Row → Prop}

/-- A filter can be decided where its condition can be evaluated. -/
theorem safe_filter {c : Expression} (h : (op.output g).Safe g (Row.Provides g names))
    (hc : c.Evaluable (· ∈ names)) :
    ((filter op c).output g).Safe g (Row.Provides g names) := by
  refine h.spread fun r hr => (Expression.safe_isMatch hr hc).map fun b _ => ?_
  split
  · exact List.forall_mem_singleton.2 hr
  · exact List.forall_mem_nil _

/-- A projection binds its columns. -/
theorem safe_project (items : List NamedExpression)
    (h : (op.output g).Safe g (Row.Provides g names))
    (hitems : ∀ item ∈ items, item.expression.Evaluable (· ∈ names)) :
    ((project op items).output g).Safe g (Row.Provides g (items.map (·.column))) :=
  h.spread fun _ hr =>
    (safe_projectRow hr hitems).map fun _ hrow => List.forall_mem_singleton.2 hrow

/-- Groups bind the columns of their keys and aggregates. -/
theorem safe_aggregate {keys : List NamedExpression} {columns : List AggregateColumn}
    (h : (op.output g).Safe g (Row.Provides g names))
    (hkeys : ∀ k ∈ keys, k.expression.Evaluable (· ∈ names))
    (hcolumns : ∀ c ∈ columns, ∀ e, c.argument = some e → e.Evaluable (· ∈ names)) :
    ((aggregate op keys columns).output g).Safe g
      (Row.Provides g (columns.map (·.column) ++ keys.map (·.column))) :=
  h.gather (I := Groups.Complete g keys columns) (List.forall_mem_nil _)
    (fun _ _ hgroups hr => Groups.safe_add hr hkeys hcolumns hgroups)
    fun _ hgroups => Groups.provides_rows hgroups

/-- Sorted rows bind what they bound before. -/
theorem safe_sort {keys : List OrderItem} (h : (op.output g).Safe g (Row.Provides g names))
    (hkeys : ∀ key ∈ keys, key.expression.Evaluable (· ∈ names)) :
    ((sort op keys).output g).Safe g (Row.Provides g names) := by
  refine h.gather (I := fun rows => ∀ k ∈ rows.toList, k.row.Provides g names)
    (List.forall_mem_nil _) (fun rows r hrows hr => ?_) fun rows hrows r hr => ?_
  · refine (safe_keyedRow hr hkeys).map fun k hk => ?_
    rw [Array.toList_push, List.forall_mem_append, List.forall_mem_singleton]
    exact ⟨hrows, hk⟩
  · obtain ⟨k, hk, rfl⟩ := List.mem_map.1 hr
    exact hrows k (List.mem_mergeSort.1 hk)

/-- A row that is seen for the first time is let through as it is. -/
theorem eq_of_distinctStep {columns : List String} (seen : List (List Value)) (r : Row)
    (seen' : List (List Value)) (s : Row)
    (h : Machine.distinctStep columns seen r = (seen', some s)) : s = r := by
  unfold Machine.distinctStep at h
  dsimp only at h
  split at h
  · cases h
  · cases h
    rfl

/-- A row behind those that are skipped is let through as it is. -/
theorem eq_of_skipStep {count : Nat} (before : Nat) (r : Row) (after : Nat) (s : Row)
    (h : Machine.skipStep count before r = (after, some s)) : s = r := by
  unfold Machine.skipStep at h
  split at h
  · cases h
  · cases h
    rfl

/-- Distinct rows of a safe operator are safe. -/
theorem safe_distinct {columns : List String} (h : (op.output g).Safe g P) :
    ((distinct op columns).output g).Safe g P := h.sift eq_of_distinctStep []

/-- Skipping rows of a safe operator is safe. -/
theorem safe_skip {count : Nat} (h : (op.output g).Safe g P) :
    ((skip op count).output g).Safe g P := h.sift eq_of_skipStep 0

/-- The first rows of a safe operator are safe. -/
theorem safe_limit {count : Nat} (h : (op.output g).Safe g P) :
    ((limit op count).output g).Safe g P :=
  Output.Safe.limit h count

end Operator

end Plexus
