import Plexus.Proofs.Operator.Batches
import Plexus.Proofs.Operator.Gives
import Plexus.Proofs.Operator.Grouping
import Plexus.Proofs.Operator.Leaf
import Plexus.Proofs.Operator.Sorting

/-!
# Operators on lists

What an operator tree lists is worked out list by list: each operator makes a list of rows of the
lists of its inputs, and a fault anywhere is a fault of the whole. If there is none, and there can
be room for the batches of the tree, its output is the list.
-/

namespace Plexus

/-- Two rows have the same values in some columns. -/
def Row.sameIn (columns : List String) (a b : Row) : Bool :=
  sameKey (a.values columns) (b.values columns)

/-- The rows in order of their keys, a row after those that it is tied with and that came before. -/
def KeyedRow.sorted (keys : List OrderItem) (rows : List KeyedRow) : List Row :=
  (rows.insertionSort fun a b => compareKeys keys a.key b.key ≠ .gt).map (·.row)

namespace Operator

/-- The rows that an operator tree lists. -/
def listed (g : Graph) : Operator → Except QueryFault (List Row)
  | scan access name _ => return (access.listed g).map fun id => Row.empty.bind name (.node id)
  | expand input e => do (← input.listed g).flatMapM (e.rows g)
  | reach input r => do (← input.listed g).flatMapM (r.rowsOf g)
  | filter input condition => do (← input.listed g).filterM (condition.isMatch g)
  | product left right => do
    let lefts ← left.listed g
    let rights ← right.listed g
    return lefts.flatMap fun l => rights.map l.merge
  | project input items => do (← input.listed g).mapM (projectRow g items)
  | aggregate input keys columns => do Groups.listed g keys columns (← input.listed g)
  | distinct input columns => return (← input.listed g).eraseDupsBy (Row.sameIn columns)
  | sort input keys => do
    return KeyedRow.sorted keys (← (← input.listed g).mapM (KeyedRow.of g keys))
  | skip input count => return (← input.listed g).drop count
  | limit input count => return (← input.listed g).take count

end Operator

namespace Output

variable {rows out : List Row}

/-- If all rows can be replaced, spreading them gives what they are replaced by. -/
theorem spread_of_flatMapM {f : Row → Except QueryFault (List Row)}
    (h : rows.flatMapM f = .ok out) : spread f ⟨rows, none⟩ = ⟨out, none⟩ := by
  induction rows generalizing out with
  | nil =>
    cases h
    rfl
  | cons r rest ih =>
    rw [List.flatMapM_cons] at h
    obtain ⟨first, hfirst, h⟩ := bind_eq_ok.1 h
    obtain ⟨others, hothers, ⟨⟩⟩ := bind_eq_ok.1 h
    have hcons := spread_cons f r ⟨rest, none⟩
    rw [hfirst, ih hothers] at hcons
    exact hcons

private theorem spread_of_filterAuxM {test : Row → Except QueryFault Bool} {before : List Row}
    (h : rows.filterAuxM test before = .ok out) : ∃ kept, out = kept.reverse ++ before ∧
      spread (fun r => (test r).map fun b => if b then [r] else []) ⟨rows, none⟩ =
        ⟨kept, none⟩ := by
  induction rows generalizing before with
  | nil =>
    cases h
    exact ⟨[], rfl, rfl⟩
  | cons r rest ih =>
    obtain ⟨b, hb, h⟩ := bind_eq_ok.1 h
    obtain ⟨kept, rfl, hkept⟩ := ih h
    have hcons := spread_cons (fun r => (test r).map fun b => if b then [r] else []) r ⟨rest, none⟩
    rw [hb, hkept] at hcons
    cases b with
    | false => exact ⟨kept, rfl, hcons⟩
    | true => exact ⟨r :: kept, by simp, hcons⟩

/-- If all rows can be tested, spreading them gives those that pass. -/
theorem spread_of_filterM {test : Row → Except QueryFault Bool}
    (h : rows.filterM test = .ok out) :
    spread (fun r => (test r).map fun b => if b then [r] else []) ⟨rows, none⟩ = ⟨out, none⟩ := by
  obtain ⟨kept, hkept, ⟨⟩⟩ := bind_eq_ok.1 h
  obtain ⟨_, rfl, hspread⟩ := spread_of_filterAuxM hkept
  rw [hspread, List.append_nil, List.reverse_reverse]

/-- Batches do not show: each row is extended on its own. -/
theorem reachFrom_of_flatMapM {g : Graph} (hg : g.Sound) {r : Reach}
    (h : rows.flatMapM (r.rowsOf g) = .ok out) :
    reachFrom g r [] ⟨rows, none⟩ = ⟨out, none⟩ := by
  have hcut := Cut.reachFrom hg r ⟨rows, none⟩
  have hfault := fault_reachFrom g r [] ⟨rows, none⟩
  rw [spread_of_flatMapM h] at hcut hfault
  exact hcut.eq_of_fault (hfault.2 rfl)

private theorem product_of_lists (lefts rights : List Row) :
    product ⟨lefts, none⟩ ⟨rights, none⟩ =
      ⟨lefts.flatMap fun l => rights.map l.merge, none⟩ := by
  cases rights with
  | nil => simp [product]
  | cons r rest => rfl

/-- Of the rows whose values were not seen before, the first with each values are let through. -/
theorem passed_distinct (columns : List String) (seen : List (List Value))
    (rows : List Row) : passed (Machine.distinctStep columns) seen rows =
      (rows.filter fun r => (r.values columns).map Value.canonical ∉ seen).eraseDupsBy
        (Row.sameIn columns) := by
  induction rows generalizing seen with
  | nil => rfl
  | cons r rest ih =>
    by_cases hseen : (r.values columns).map Value.canonical ∈ seen
    · simp [passed, Machine.distinctStep, hseen, ih]
    · simp only [passed, Machine.distinctStep, hseen, if_false, ih, List.filter_cons,
        not_false_eq_true, decide_true, if_true, List.eraseDupsBy_cons, List.filter_filter]
      congr 3
      funext other
      simp [Row.sameIn, sameKey]

end Output

namespace Operator

variable {g : Graph} {op : Operator} {rows : List Row}

/-- If nothing goes wrong anywhere and there can be room for the batches, the output of an operator
tree is what it lists. -/
theorem output_of_listed (hg : g.Sound) (hfits : op.batchesFit = true)
    (h : op.listed g = .ok rows) : op.output g = ⟨rows, none⟩ := by
  induction op generalizing rows with
  | scan access name pattern =>
    cases h
    rw [output, hg.nodes_eq_listed]
  | expand input e ih =>
    obtain ⟨ins, hins, h⟩ := bind_eq_ok.1 h
    rw [output, ih hfits hins]
    exact Output.spread_of_flatMapM h
  | reach input r ih =>
    obtain ⟨hr, hinput⟩ := Bool.and_eq_true_iff.1 hfits
    obtain ⟨ins, hins, h⟩ := bind_eq_ok.1 h
    rw [output, ih hinput hins, Output.reach_of_fits hr]
    exact Output.reachFrom_of_flatMapM hg h
  | filter input condition ih =>
    obtain ⟨ins, hins, h⟩ := bind_eq_ok.1 h
    rw [output, ih hfits hins]
    exact Output.spread_of_filterM h
  | product left right ihl ihr =>
    obtain ⟨lefts, hlefts, h⟩ := bind_eq_ok.1 h
    obtain ⟨rights, hrights, ⟨⟩⟩ := bind_eq_ok.1 h
    obtain ⟨hl, hr⟩ := Bool.and_eq_true_iff.1 hfits
    rw [output, ihl hl hlefts, ihr hr hrights]
    exact Output.product_of_lists lefts rights
  | project input items ih =>
    obtain ⟨ins, hins, h⟩ := bind_eq_ok.1 h
    rw [output, ih hfits hins]
    exact Output.spread_single_iff.2 ⟨ins, rfl, h⟩
  | aggregate input keys columns ih =>
    obtain ⟨ins, hins, h⟩ := bind_eq_ok.1 h
    obtain ⟨groups, hgroups, rfl⟩ := Groups.foldlM_add_of_listed h
    rw [output, ih hfits hins]
    simp only [Output.gather, hgroups]
  | distinct input columns ih =>
    obtain ⟨ins, hins, ⟨⟩⟩ := bind_eq_ok.1 h
    rw [output, ih hfits hins]
    simp [Output.sift, Output.passed_distinct]
  | sort input keys ih =>
    obtain ⟨ins, hins, h⟩ := bind_eq_ok.1 h
    obtain ⟨keyed, hkeyed, ⟨⟩⟩ := bind_eq_ok.1 h
    have hsorted : sortRows keys keyed = KeyedRow.sorted keys keyed :=
      sortRows_eq keys (forall_of_mapM hkeyed fun _ _ => KeyedRow.length_of)
    rw [output, ih hfits hins, ← hsorted]
    simp only [Output.gather, foldlM_push_eq_ok.2 ⟨keyed, hkeyed, rfl⟩, Array.empty_append]
  | skip input count ih =>
    obtain ⟨ins, hins, ⟨⟩⟩ := bind_eq_ok.1 h
    rw [output, ih hfits hins]
    simp [Output.sift, Output.passed_skip]
  | limit input count ih =>
    obtain ⟨ins, hins, ⟨⟩⟩ := bind_eq_ok.1 h
    rw [output, ih hfits hins]
    simp [Output.limit]

end Operator

end Plexus
