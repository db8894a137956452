import Plexus.Proofs.OneByOne
import Plexus.Proofs.Operator.Address
import Plexus.Proofs.Operator.Aggregated
import Plexus.Proofs.Operator.Safe

/-!
# What the rows of an operator bind

Which variables the rows of an operator bind does not depend on the graph: every row binds the
variables that can be read off the tree, and nothing else, also when the operator fails later.
-/

namespace Plexus

/-- After keys are set, those are there that were set or were there before. -/
theorem Assoc.isSome_get?_setAll {κ α : Type} [DecidableEq κ] (pairs more : Assoc κ α) (key : κ) :
    ((pairs.setAll more).get? key).isSome ↔ (pairs.get? key).isSome ∨ key ∈ more.keys := by
  unfold setAll
  induction more generalizing pairs with
  | nil => simp [keys]
  | cons p rest ih =>
    have hset : ((pairs.set p.1 p.2).get? key).isSome ↔ (pairs.get? key).isSome ∨ key = p.1 := by
      rw [get?_set]
      by_cases hkey : p.1 = key
      · simp [hkey]
      · simp [hkey, Ne.symm hkey]
    rw [List.foldl_cons, ih, hset, keys, keys, List.map_cons, List.mem_cons, or_assoc]

namespace Row

variable {r s : Row} {names more : List String}

private theorem binds_bind (h : Valuation.Binds r.get? names) (x : String) (v : Value) :
    Valuation.Binds (r.bind x v).get? (names ++ [x]) := by
  intro y
  rw [get?_bind, List.mem_append, List.mem_singleton, ← h y]
  by_cases hx : x = y
  · simp [hx]
  · simp [hx, Ne.symm hx]

private theorem binds_merge (h : Valuation.Binds r.get? names) (h' : Valuation.Binds s.get? more) :
    Valuation.Binds (r.merge s).get? (names ++ more) := by
  intro x
  rw [List.mem_append, ← h x, ← h' x]
  exact (Assoc.isSome_get?_setAll _ _ x).trans (or_congr_right (Assoc.get?_isSome_iff _ x).symm)

private theorem binds_ofColumns {columns : List String} {values : List Value}
    (h : columns.length = values.length) :
    Valuation.Binds (ofColumns columns values).get? columns := by
  intro x
  refine (Assoc.isSome_get?_setAll [] _ x).trans ?_
  rw [Assoc.keys, List.map_fst_zip h.le]
  simp [Assoc.get?]

end Row

namespace Output

variable {P Q : Row → Prop} {o : Output}

private theorem rows_spread {f : Row → Except QueryFault (List Row)} (h : ∀ r ∈ o.rows, P r)
    (hf : ∀ r rows, P r → f r = .ok rows → ∀ s ∈ rows, Q s) : ∀ s ∈ (o.spread f).rows, Q s := by
  obtain ⟨rows, fault⟩ := o
  induction rows with
  | nil => exact List.forall_mem_nil _
  | cons r rest ih =>
    rw [List.forall_mem_cons] at h
    have hspread := spread_cons f r ⟨rest, fault⟩
    cases hout : f r with
    | error fault' =>
      rw [hout] at hspread
      exact hspread ▸ List.forall_mem_nil _
    | ok out =>
      rw [hout] at hspread
      exact hspread ▸ List.forall_mem_append.2 ⟨hf r out h.1 hout, ih h.2⟩

private theorem exists_of_mem_gather {α : Type} {initial : α} {take : α → Row → Except QueryFault α}
    {finish : α → List Row} {s : Row} (hs : s ∈ (o.gather initial take finish).rows) :
    ∃ a, o.rows.foldlM take initial = .ok a ∧ s ∈ finish a := by
  unfold Output.gather at hs
  split at hs
  · cases hs
  · cases hs
  · rename_i a hfold hfault
    exact ⟨a, hfold, hs⟩

private theorem exists_of_mem_product {o' : Output} {s : Row} (hs : s ∈ (o.product o').rows) :
    ∃ l ∈ o.rows, ∃ r ∈ o'.rows, l.merge r = s := by
  unfold Output.product at hs
  split at hs
  · cases hs
  · split at hs
    · cases hs
    · obtain ⟨l, hl, hs⟩ := List.mem_flatMap.1 hs
      obtain ⟨r, hr, heq⟩ := List.mem_map.1 hs
      exact ⟨l, hl, r, hr, heq⟩

private theorem rows_reachFrom {g : Graph} {r : Reach} {batch : List (Row × Option NodeId)}
    (h : ∀ row ∈ o.rows, P row) (hbatch : ∀ p ∈ batch, P p.1)
    (hrows : ∀ batch, (∀ p ∈ batch, P p.1) → ∀ s ∈ r.rows g batch, Q s) :
    ∀ s ∈ (o.reachFrom g r batch).rows, Q s := by
  obtain ⟨rows, fault⟩ := o
  unfold Output.reachFrom
  dsimp only at h ⊢
  induction rows generalizing batch with
  | nil =>
    unfold batches
    split
    · exact hrows batch hbatch
    · exact List.forall_mem_nil _
  | cons row rest ih =>
    rw [List.forall_mem_cons] at h
    unfold batches
    split
    · exact List.forall_mem_nil _
    · rename_i start heq
      have hnext : ∀ p ∈ batch ++ [(row, start)], P p.1 :=
        List.forall_mem_append.2 ⟨hbatch, List.forall_mem_singleton.2 h.1⟩
      dsimp only
      split
      · exact ih hnext h.2
      · exact List.forall_mem_append.2 ⟨hrows _ hnext, ih (List.forall_mem_nil _) h.2⟩

private theorem rows_reach {g : Graph} {r : Reach} (h : ∀ row ∈ o.rows, P row)
    (hrows : ∀ batch, (∀ p ∈ batch, P p.1) → ∀ s ∈ r.rows g batch, Q s) :
    ∀ s ∈ (o.reach g r).rows, Q s := by
  unfold Output.reach
  split
  · exact rows_reachFrom h (List.forall_mem_nil _) hrows
  · exact List.forall_mem_nil _

end Output

namespace Operator

variable {g : Graph} {op : Operator} {names : List String} {row s : Row}

private theorem binds_expand {e : Expansion} {rows : List Row}
    (h : Valuation.Binds row.get? names) (hrows : e.rows g row = .ok rows) (hs : s ∈ rows) :
    Valuation.Binds s.get? (names ++ e.target :: e.edge.toList) := by
  obtain ⟨start, -, hrows⟩ := bind_eq_ok.1 hrows
  cases start with
  | none =>
    cases hrows
    cases hs
  | some a =>
    cases hrows
    obtain ⟨found, hfound, rfl⟩ := List.mem_map.1 hs
    have hends := (List.mem_filter.1 hfound).1
    have htarget := Row.binds_bind h e.target (.node found.2)
    obtain ⟨id?, b⟩ := found
    unfold Expansion.ends at hends
    cases hname : e.edge with
    | none =>
      have hextend : e.extend row (id?, b) = row.bind e.target (.node b) := by
        simp only [Expansion.extend, hname]
      rw [hextend]
      exact htarget
    | some name =>
      rw [hname] at hends
      obtain ⟨⟨id, c⟩, -, heq⟩ := List.mem_map.1 hends
      cases heq
      have hextend : e.extend row (some id, b) = (row.bind e.target (.node b)).bind name
          (.edge id) := by
        simp only [Expansion.extend, hname]
      have hboth := Row.binds_bind htarget name (.edge id)
      rw [List.append_assoc] at hboth
      rw [hextend]
      exact hboth

private theorem binds_reach {r : Reach} {batch : List (Row × Option NodeId)}
    (h : ∀ p ∈ batch, Valuation.Binds p.1.get? names) (hs : s ∈ r.rows g batch) :
    Valuation.Binds s.get? (names ++ [r.target]) := by
  obtain ⟨⟨row, start⟩, hp, hs⟩ := List.mem_flatMap.1 hs
  cases start with
  | none => cases hs
  | some a =>
    obtain ⟨b, -, rfl⟩ := List.mem_map.1 hs
    exact Row.binds_bind (h _ hp) _ _

private theorem binds_project {items : List NamedExpression} (h : projectRow g items row = .ok s) :
    Valuation.Binds s.get? (items.map (·.column)) := by
  obtain ⟨values, hvalues, ⟨⟩⟩ := bind_eq_ok.1 h
  have hlength := (evaluateAll_eq_ok.1 hvalues).length_eq
  have hrow := Row.foldl_bind_values items values (·.column) .empty
  rw [List.length_map] at hlength
  refine hrow ▸ Row.binds_ofColumns ?_
  rw [List.length_map, hlength]

private theorem binds_aggregate {keys : List NamedExpression} {columns : List AggregateColumn}
    {rows : List Row} {groups : Groups}
    (h : rows.foldlM (Groups.add g keys columns) [] = .ok groups)
    (hs : s ∈ Groups.rows keys columns groups) :
    Valuation.Binds s.get? (keys.map (·.column) ++ columns.map (·.column)) := by
  obtain ⟨keyed, -, hkeyed, hcharged⟩ := Groups.charged_of_foldlM h
  obtain ⟨tuples, hdivides⟩ := hcharged.divides hkeyed
  obtain ⟨t, hmem, values, hvalues, rfl⟩ := exists_of_forall₂ hdivides.shown.flip hs
  have ht : t ∈ tuples := (List.of_mem_zip hmem).2
  have hlength : keys.length = t.length := by
    by_cases hkeys : keys = []
    · rw [hdivides.single hkeys, List.mem_singleton] at ht
      rw [hkeys, ht]
      rfl
    · obtain ⟨p, hp, rfl⟩ := List.mem_map.1 ((hdivides.seen hkeys).mem_of_found ht)
      exact (hdivides.evaluated p hp).length_eq
  refine Row.binds_ofColumns ?_
  rw [List.length_append, List.length_append, List.length_map, List.length_map, hlength,
    hvalues.length_eq]

private theorem mem_of_mem_sortRows {keys : List OrderItem} {rows : List Row}
    {keyed : Array KeyedRow}
    (h : rows.foldlM (fun keyed row => (KeyedRow.of g keys row).map keyed.push) #[] = .ok keyed)
    (hs : s ∈ sortRows keys keyed.toList) : s ∈ rows := by
  obtain ⟨ks, hks, rfl⟩ := foldlM_push_eq_ok.1 h
  obtain ⟨k, hk, rfl⟩ := List.mem_map.1 hs
  have hk : k ∈ ks := by simpa using List.mem_mergeSort.1 hk
  obtain ⟨row, hrow, hkeyed⟩ := exists_of_forall₂ (mapM_eq_ok.1 hks).flip hk
  rw [(KeyedRow.of_eq_ok.1 hkeyed).1]
  exact (List.of_mem_zip hrow).2

/-- Every row that an operator gives binds the variables of the operator and no others. -/
theorem binds_output (op : Operator) (g : Graph) :
    ∀ row ∈ (op.output g).rows, Valuation.Binds row.get? op.bindings := by
  induction op with
  | scan access name text =>
    intro row hrow
    obtain ⟨id, -, rfl⟩ := List.mem_map.1 hrow
    have hempty : Valuation.Binds Row.empty.get? [] := fun x => by simp [Row.get?_empty]
    exact Row.binds_bind hempty name _
  | expand input e ih =>
    exact Output.rows_spread ih fun row rows hbinds hrows s hs => binds_expand hbinds hrows hs
  | reach input r ih =>
    exact Output.rows_reach ih fun batch hbatch s => binds_reach hbatch
  | filter input c ih =>
    refine Output.rows_spread ih fun row rows hbinds hrows s hs => ?_
    cases hb : c.isMatch g row with
    | error fault =>
      rw [hb] at hrows
      cases hrows
    | ok b =>
      rw [hb] at hrows
      cases hrows
      cases b with
      | false => cases hs
      | true => exact List.mem_singleton.1 hs ▸ hbinds
  | product left right ihl ihr =>
    intro row hrow
    obtain ⟨l, hl, r, hr, rfl⟩ := Output.exists_of_mem_product hrow
    exact Row.binds_merge (ihl l hl) (ihr r hr)
  | project input items ih =>
    refine Output.rows_spread ih fun row rows _ hrows s hs => ?_
    cases hout : projectRow g items row with
    | error fault =>
      rw [hout] at hrows
      cases hrows
    | ok out =>
      rw [hout] at hrows
      cases hrows
      exact List.mem_singleton.1 hs ▸ binds_project hout
  | aggregate input keys columns ih =>
    intro row hrow
    obtain ⟨groups, hgroups, hmem⟩ := Output.exists_of_mem_gather hrow
    exact binds_aggregate hgroups hmem
  | distinct input columns ih =>
    exact fun row hrow => ih row (Output.mem_of_mem_passed eq_of_distinctStep [] row hrow)
  | sort input keys ih =>
    intro row hrow
    obtain ⟨keyed, hkeyed, hmem⟩ := Output.exists_of_mem_gather hrow
    exact ih row (mem_of_mem_sortRows hkeyed hmem)
  | skip input count ih =>
    exact fun row hrow => ih row (Output.mem_of_mem_passed eq_of_skipStep 0 row hrow)
  | limit input count ih => exact fun row hrow => ih row (List.mem_of_mem_take hrow)

end Operator

end Plexus
