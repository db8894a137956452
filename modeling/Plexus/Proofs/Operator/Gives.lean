import Plexus.Proofs.Operator.Output
import Plexus.Proofs.Outcome

/-!
# What operators give

What an operator gives when it can be drained, in terms of what its inputs give. That it can be
drained means that there is no fault at the end of its output, and then there was none at the end of
what was made into it.
-/

namespace Plexus

/-- Every row is replaced by some rows, in order. -/
inductive Spreads (F : Row → List Row → Prop) : List Row → List Row → Prop where
  | nil : Spreads F [] []
  | cons {r : Row} {out ins outs : List Row} :
      F r out → Spreads F ins outs → Spreads F (r :: ins) (out ++ outs)

namespace Spreads

variable {F F' : Row → List Row → Prop}

/-- Rows that are spread in one way are spread in any way that allows it. -/
theorem imp {ins outs : List Row} (h : Spreads F ins outs) (hF : ∀ r o, F r o → F' r o) :
    Spreads F' ins outs := by
  induction h with
  | nil => exact .nil
  | cons hr _ ih => exact .cons (hF _ _ hr) ih

/-- Rows that are spread one after the other are spread together. -/
theorem append {ins outs ins' outs' : List Row} (h : Spreads F ins outs)
    (h' : Spreads F ins' outs') : Spreads F (ins ++ ins') (outs ++ outs') := by
  induction h with
  | nil => exact h'
  | cons hr _ ih =>
    rw [List.cons_append, List.append_assoc]
    exact .cons hr ih

/-- Replacing every row by some rows spreads them. -/
theorem flatMap (f : Row → List Row) (ins : List Row) :
    Spreads (fun r o => o = f r) ins (ins.flatMap f) := by
  induction ins with
  | nil => exact .nil
  | cons r rest ih => exact .cons rfl ih

end Spreads

/-- What a traversal by an interval of hops makes of one row, given where it starts. -/
def Machine.ReachesFrom (g : Graph) (r : Reach) (row : Row) (out : List Row) : Prop :=
  ∃ start, row.startNode r.source = .ok start ∧ out = r.rows g [(row, start)]

namespace Output

variable {o left right : Output} {out : List Row}

private theorem eq_of_spread {f : Row → Except QueryFault (List Row)}
    (h : o.spread f = ⟨out, none⟩) :
    ∃ ins, o = ⟨ins, none⟩ ∧ Spreads (fun r o => f r = .ok o) ins out := by
  obtain ⟨ins, fault⟩ := o
  refine ⟨ins, ?_⟩
  induction ins generalizing out with
  | nil =>
    cases h
    exact ⟨rfl, .nil⟩
  | cons r rest ih =>
    have hcons := (spread_cons f r ⟨rest, fault⟩).symm.trans h
    cases hr : f r with
    | error fault' =>
      rw [hr] at hcons
      cases hcons
    | ok rows =>
      rw [hr] at hcons
      generalize hrest : spread f ⟨rest, fault⟩ = more at hcons
      obtain ⟨outs, last⟩ := more
      cases hcons
      obtain ⟨heq, hspreads⟩ := ih hrest
      cases heq
      exact ⟨rfl, .cons hr hspreads⟩

section

variable {g : Graph} {r : Reach}
  (hrows : ∀ batch, r.rows g batch = batch.flatMap fun p => r.rows g [p])

include hrows

private theorem spreads_batch {batch : List (Row × Option NodeId)}
    (h : ∀ p ∈ batch, p.1.startNode r.source = .ok p.2) :
    Spreads (Machine.ReachesFrom g r) (batch.map Prod.fst) (r.rows g batch) := by
  rw [hrows]
  induction batch with
  | nil => exact .nil
  | cons p rest ih =>
    rw [List.forall_mem_cons] at h
    exact .cons ⟨p.2, h.1, rfl⟩ (ih h.2)

/-- The rows of a batch that is begun are spread together with those that follow. -/
theorem spreads_of_batches {fault : Option QueryFault} {batch : List (Row × Option NodeId)}
    {ins : List Row} (hbatch : ∀ p ∈ batch, p.1.startNode r.source = .ok p.2)
    (h : batches g r fault batch ins = ⟨out, none⟩) :
    fault = none ∧ Spreads (Machine.ReachesFrom g r) (batch.map Prod.fst ++ ins) out := by
  induction ins generalizing batch out with
  | nil =>
    cases fault with
    | some fault => cases h
    | none =>
      cases h
      rw [List.append_nil]
      exact ⟨rfl, spreads_batch hrows hbatch⟩
  | cons row rest ih =>
    rw [batches] at h
    cases hstart : row.startNode r.source with
    | error fault' =>
      rw [hstart] at h
      cases h
    | ok start =>
      rw [hstart] at h
      dsimp only at h
      have hnext : ∀ p ∈ batch ++ [(row, start)], p.1.startNode r.source = .ok p.2 :=
        List.forall_mem_append.2 ⟨hbatch, List.forall_mem_singleton.2 hstart⟩
      have hmap : batch.map Prod.fst ++ row :: rest =
          (batch ++ [(row, start)]).map Prod.fst ++ rest := by simp
      rw [hmap]
      split at h
      · exact ih hnext h
      · generalize hrest : batches g r fault [] rest = more at h
        obtain ⟨outs, last⟩ := more
        cases h
        obtain ⟨hfault, hspreads⟩ := ih (List.forall_mem_nil _) hrest
        exact ⟨hfault, (spreads_batch hrows hnext).append hspreads⟩

private theorem eq_of_reach (h : o.reach g r = ⟨out, none⟩) :
    ∃ ins, o = ⟨ins, none⟩ ∧ Spreads (Machine.ReachesFrom g r) ins out := by
  obtain ⟨ins, fault⟩ := o
  unfold Output.reach at h
  split at h
  · obtain ⟨hfault, hspreads⟩ := spreads_of_batches hrows (List.forall_mem_nil _) h
    dsimp only at hfault
    exact ⟨ins, hfault ▸ rfl, hspreads⟩
  · cases h

end

private theorem eq_of_product (h : left.product right = ⟨out, none⟩) :
    ∃ rights, right = ⟨rights, none⟩ ∧ (rights = [] → out = []) ∧
      (rights ≠ [] → ∃ lefts, left = ⟨lefts, none⟩ ∧
        out = lefts.flatMap fun l => rights.map l.merge) := by
  obtain ⟨lefts, fault⟩ := left
  obtain ⟨rights, last⟩ := right
  cases last with
  | some fault' => cases h
  | none =>
    refine ⟨rights, rfl, ?_⟩
    cases rights with
    | nil =>
      cases h
      exact ⟨fun _ => rfl, fun hne => absurd rfl hne⟩
    | cons r rest =>
      cases h
      exact ⟨fun hnil => (by cases hnil), fun _ => ⟨lefts, rfl, rfl⟩⟩

/-- Rows that are all replaced by one row each. -/
theorem spread_single_iff {f : Row → Except QueryFault Row} :
    o.spread (fun r => (f r).map ([·])) = ⟨out, none⟩ ↔
      ∃ ins, o = ⟨ins, none⟩ ∧ ins.mapM f = .ok out := by
  constructor
  · intro h
    obtain ⟨ins, rfl, hspreads⟩ := eq_of_spread h
    refine ⟨ins, rfl, mapM_eq_ok.2 ?_⟩
    clear h
    induction hspreads with
    | nil => exact .nil
    | @cons r _ _ _ hr _ ih =>
      cases hf : f r with
      | error fault =>
        rw [hf] at hr
        cases hr
      | ok row =>
        rw [hf] at hr
        cases hr
        exact .cons hf ih
  · rintro ⟨ins, rfl, h⟩
    induction ins generalizing out with
    | nil =>
      cases h
      rfl
    | cons r rest ih =>
      rw [List.mapM_cons] at h
      obtain ⟨first, hfirst, h⟩ := bind_eq_ok.1 h
      obtain ⟨others, hothers, ⟨⟩⟩ := bind_eq_ok.1 h
      have hcons := spread_cons (fun r => (f r).map ([·])) r ⟨rest, none⟩
      rw [hfirst, ih hothers] at hcons
      exact hcons

/-- Gathering gives rows without a fault if all input rows are there and can be taken in. -/
theorem gather_iff {α : Type} {initial : α} {take : α → Row → Except QueryFault α}
    {finish : α → List Row} : o.gather initial take finish = ⟨out, none⟩ ↔
      ∃ ins a, o = ⟨ins, none⟩ ∧ ins.foldlM take initial = .ok a ∧ finish a = out := by
  constructor
  · intro h
    obtain ⟨ins, fault⟩ := o
    unfold gather at h
    split at h
    · cases h
    · cases h
    · rename_i a hfold hfault
      dsimp only at hfold hfault
      cases h
      exact ⟨ins, a, hfault ▸ rfl, hfold, rfl⟩
  · rintro ⟨ins, a, rfl, hfold, rfl⟩
    simp only [gather, hfold]

/-- Sifting gives rows without a fault if all input rows are there. -/
theorem sift_iff {α : Type} {step : α → Row → α × Option Row} {a : α} :
    o.sift step a = ⟨out, none⟩ ↔ ∃ ins, o = ⟨ins, none⟩ ∧ passed step a ins = out := by
  obtain ⟨ins, fault⟩ := o
  constructor
  · intro h
    cases h
    exact ⟨ins, rfl, rfl⟩
  · rintro ⟨_, ⟨⟩, rfl⟩
    rfl

/-- The rows after the first ones are let through. -/
theorem passed_skip {count before : Nat} (h : before ≤ count) (rows : List Row) :
    passed (Machine.skipStep count) before rows = rows.drop (count - before) := by
  induction rows generalizing before with
  | nil => simp [passed]
  | cons r rest ih =>
    rcases Nat.lt_or_eq_of_le h with hlt | rfl
    · have hleft : count - before = count - (before + 1) + 1 := by omega
      simp only [passed, Machine.skipStep, if_pos hlt, ih hlt, hleft, List.drop_succ_cons]
    · simp [passed, Machine.skipStep, ih]

end Output

namespace Machine

variable {m : Machine} {g : Graph} {s : m.State}

/-- A machine in one state has one output. -/
theorem Outputs.unique {o o' : Output} (h : m.Outputs g s o) (h' : m.Outputs g s o') : o = o' := by
  induction h generalizing o' with
  | done hpull =>
    cases h' with
    | done _ => rfl
    | failed hpull' => cases hpull.symm.trans hpull'
    | row hpull' _ => cases hpull.symm.trans hpull'
  | failed hpull =>
    cases h' with
    | done hpull' => cases hpull.symm.trans hpull'
    | failed hpull' =>
      cases hpull.symm.trans hpull'
      rfl
    | row hpull' _ => cases hpull.symm.trans hpull'
  | row hpull _ ih =>
    cases h' with
    | done hpull' => cases hpull.symm.trans hpull'
    | failed hpull' => cases hpull.symm.trans hpull'
    | row hpull' hrest =>
      cases hpull.symm.trans hpull'
      rw [ih hrest]

/-- A machine can be drained if it has an output without a fault. -/
theorem gives_iff_outputs {rows : List Row} : m.Gives g s rows ↔ m.Outputs g s ⟨rows, none⟩ := by
  constructor
  · intro h
    induction h with
    | done hpull => exact .done hpull
    | row hpull _ ih => exact .row hpull ih
  · intro h
    generalize ho : Output.mk rows none = o at h
    induction h generalizing rows with
    | done hpull =>
      cases ho
      exact .done hpull
    | failed hpull => cases ho
    | row hpull _ ih =>
      rename_i o _
      obtain ⟨more, last⟩ := o
      cases ho
      exact .row hpull (ih rfl)

end Machine

namespace Operator

/-- The rows that an operator gives when it is run from its start and can be drained. -/
def Gives (g : Graph) (op : Operator) (rows : List Row) : Prop :=
  op.machine.Gives g op.machine.start rows

variable {g : Graph} {op left right : Operator} {out : List Row}

/-- An operator can be drained if there is no fault at the end of its output. -/
theorem gives_iff : op.Gives g out ↔ op.output g = ⟨out, none⟩ := by
  rw [Gives, Machine.gives_iff_outputs]
  constructor
  · exact (op.outputs g).unique
  · intro h
    rw [← h]
    exact op.outputs g

/-- A leaf gives a row for each of its nodes. -/
theorem Gives.of_scan {access : Access} {name text : String}
    (h : (scan access name text).Gives g out) :
    out = (access.nodes g).map fun id => Row.empty.bind name (.node id) := by
  cases gives_iff.1 h
  rfl

/-- A traversal by one hop spreads every input row to the rows that it is extended to. -/
theorem Gives.of_expand {e : Expansion} (h : (op.expand e).Gives g out) :
    ∃ ins, op.Gives g ins ∧ Spreads (fun r o => e.rows g r = .ok o) ins out := by
  obtain ⟨ins, hins, hspreads⟩ := Output.eq_of_spread (gives_iff.1 h)
  exact ⟨ins, gives_iff.2 hins, hspreads⟩

/-- A filter keeps the rows on which its condition is true; it can be decided on every row. -/
theorem Gives.of_filter {condition : Expression} (h : (op.filter condition).Gives g out) :
    ∃ ins, op.Gives g ins ∧ Spreads (fun r o => ∃ b, condition.isMatch g r = .ok b ∧
      o = if b then [r] else []) ins out := by
  obtain ⟨ins, hins, hspreads⟩ := Output.eq_of_spread (gives_iff.1 h)
  refine ⟨ins, gives_iff.2 hins, hspreads.imp fun r o hr => ?_⟩
  cases hb : condition.isMatch g r with
  | error fault =>
    rw [hb] at hr
    cases hr
  | ok b =>
    rw [hb] at hr
    cases hr
    exact ⟨b, rfl, rfl⟩

/-- A traversal by an interval of hops spreads every input row to the rows that it is extended to,
whatever the batches are. -/
theorem Gives.of_reach {r : Reach}
    (hrows : ∀ batch, r.rows g batch = batch.flatMap fun p => r.rows g [p])
    (h : (op.reach r).Gives g out) :
    ∃ ins, op.Gives g ins ∧ Spreads (Machine.ReachesFrom g r) ins out := by
  obtain ⟨ins, hins, hspreads⟩ := Output.eq_of_reach hrows (gives_iff.1 h)
  exact ⟨ins, gives_iff.2 hins, hspreads⟩

/-- A product gives every left row with every right row. Its left input is not read if the right
one gives nothing. -/
theorem Gives.of_product (h : (left.product right).Gives g out) :
    ∃ rights, right.Gives g rights ∧ (rights = [] → out = []) ∧
      (rights ≠ [] → ∃ lefts, left.Gives g lefts ∧
        out = lefts.flatMap fun l => rights.map l.merge) := by
  obtain ⟨rights, hrights, hnil, hne⟩ := Output.eq_of_product (gives_iff.1 h)
  refine ⟨rights, gives_iff.2 hrights, hnil, fun hr => ?_⟩
  obtain ⟨lefts, hlefts, hout⟩ := hne hr
  exact ⟨lefts, gives_iff.2 hlefts, hout⟩

/-- A projection gives what it makes of each row. -/
theorem gives_project_iff {items : List NamedExpression} : (op.project items).Gives g out ↔
    ∃ ins, op.Gives g ins ∧ List.Forall₂ (fun r o => projectRow g items r = .ok o) ins out := by
  simp only [gives_iff, output, Output.spread_single_iff, mapM_eq_ok]

/-- Grouping gives the rows of the groups into which all rows are taken. -/
theorem gives_aggregate_iff {keys : List NamedExpression} {columns : List AggregateColumn} :
    (op.aggregate keys columns).Gives g out ↔ ∃ ins groups, op.Gives g ins ∧
      ins.foldlM (Groups.add g keys columns) [] = .ok groups ∧
        Groups.rows keys columns groups = out := by
  simp only [gives_iff, output, Output.gather_iff]

/-- Leaving out equal rows gives those that are let through. -/
theorem gives_distinct_iff {columns : List String} : (op.distinct columns).Gives g out ↔
    ∃ ins, op.Gives g ins ∧ Output.passed (Machine.distinctStep columns) [] ins = out := by
  simp only [gives_iff, output, Output.sift_iff]

/-- Sorting gives the rows in the order of their keys. -/
theorem gives_sort_iff {keys : List OrderItem} : (op.sort keys).Gives g out ↔
    ∃ ins keyed, op.Gives g ins ∧ List.Forall₂ (fun r k => KeyedRow.of g keys r = .ok k) ins keyed ∧
      sortRows keys keyed = out := by
  simp only [gives_iff, output, Output.gather_iff, foldlM_push_eq_ok, mapM_eq_ok]
  constructor
  · rintro ⟨ins, _, hins, ⟨keyed, hkeyed, rfl⟩, rfl⟩
    exact ⟨ins, keyed, hins, hkeyed, by simp⟩
  · rintro ⟨ins, keyed, hins, hkeyed, rfl⟩
    exact ⟨ins, _, hins, ⟨keyed, hkeyed, rfl⟩, by simp⟩

/-- Leaving out the first rows gives the others. -/
theorem gives_skip_iff {count : Nat} : (op.skip count).Gives g out ↔
    ∃ ins, op.Gives g ins ∧ ins.drop count = out := by
  simp only [gives_iff, output, Output.sift_iff, Output.passed_skip (Nat.zero_le count),
    Nat.sub_zero]

/-- If the input can be drained, its first rows can be drained as well, though it is not pulled for
the rest. -/
theorem Gives.limit {ins : List Row} (h : op.Gives g ins) (count : Nat) :
    (op.limit count).Gives g (ins.take count) := by
  rw [gives_iff] at h ⊢
  rw [output, h]
  simp [Output.limit]

end Operator

end Plexus
