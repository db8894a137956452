import Plexus.Graph.Change
import Plexus.Proofs.Operator.Gives
import Plexus.Proofs.Operator.Sorting

/-!
# What sorting gives

A sort compares the tuples of key values that its rows evaluate to. They all have a value for every
key, and on such tuples the comparison is a total preorder, built from the total preorders on values
and on property values. So nothing hangs on the order in which the sort asks for comparisons: what
it gives is the one stable way to sort its input.
-/

namespace Plexus.Operator

/-- The comparison of tuples with a value for every key is a total preorder, in which the first key
that tells two tuples apart decides and null comes last; the comparisons of values and of property
values are total preorders too. A sort that gives some rows has compared tuples of this kind alone,
and its rows are those of its input, sorted in the one way that keeps tied rows in order. -/
theorem sort_by_preorder (keys : List OrderItem) :
    TotalPreorder (compareKeys keys) (fun as => as.length = keys.length) ∧
      TotalPreorder Value.order (fun _ => True) ∧ TotalPreorder Scalar.order (fun _ => True) ∧
      (∀ as bs, compareKeys keys as bs = .lt ↔ KeysBefore keys as bs) ∧
      ∀ (g : Graph) (input : Operator) (out : List Row), (input.sort keys).Gives g out →
        ∃ rows keyed sorted, input.Gives g rows ∧
          List.Forall₂ (fun r k => KeyedRow.of g keys r = .ok k) rows keyed ∧
          (∀ k ∈ keyed, k.key.length = keys.length) ∧
          Sorts keys KeyedRow.key keyed sorted ∧
          (∀ other, Sorts keys KeyedRow.key keyed other → other = sorted) ∧
          out = sorted.map (·.row) := by
  refine ⟨totalPreorder_compareKeys keys, totalPreorder_of_transCmp _ _,
    totalPreorder_of_transCmp _ _, fun as bs => compareKeys_eq_lt_iff, fun g input out hout => ?_⟩
  obtain ⟨rows, keyed, hrows, hkeyed, rfl⟩ := gives_sort_iff.1 hout
  have hlength : ∀ k ∈ keyed, k.key.length = keys.length :=
    forall_of_mapM (mapM_eq_ok.2 hkeyed) fun _ _ => KeyedRow.length_of
  have hsorts := sorts_mergeSort hlength
  exact ⟨rows, keyed, _, hrows, hkeyed, hlength, hsorts, fun other => hsorts.unique hlength, rfl⟩

/-- The nodes of a graph in the descending order of a property: a NaN, both zeros, a boolean, and at
the end the two nodes without the property, as they came. -/
theorem sort_by_preorder_of_zeros :
    let g := [[("k", .number (.ofMagnitude true 0))], [], [("k", .number .nan)],
      [("k", .boolean true)], [("k", .number .zero)], []].foldl
        (fun g properties => (Graph.createNode g [] properties).1) (.empty {})
    let keys : List OrderItem := [⟨.property "a" "k", false⟩]
    let input := scan .all "a" "(a)"
    let row (id : Nat) : Row := ⟨[("a", .node ⟨id⟩)]⟩
    let out := [row 2, row 4, row 0, row 3, row 1, row 5]
    (input.sort keys).Gives g out ∧
      ∃ rows keyed sorted, input.Gives g rows ∧
        List.Forall₂ (fun r k => KeyedRow.of g keys r = .ok k) rows keyed ∧
        (∀ k ∈ keyed, k.key.length = keys.length) ∧ Sorts keys KeyedRow.key keyed sorted ∧
        (∀ other, Sorts keys KeyedRow.key keyed other → other = sorted) ∧
        out = sorted.map (·.row) := by
  intro g keys input row out
  let keyed (id : Nat) (v : Value) : KeyedRow := ⟨[v], row id⟩
  have hsorted : sortRows keys [keyed 0 (.scalar (.number (.ofMagnitude true 0))), keyed 1 .null,
      keyed 2 (.scalar (.number .nan)), keyed 3 (.boolean true),
      keyed 4 (.scalar (.number .zero)), keyed 5 .null] = out := by
    rw [sortRows_eq _ (by decide)]
    decide +kernel
  have hgives : (input.sort keys).Gives g out := by
    refine gives_sort_iff.2 ⟨[row 0, row 1, row 2, row 3, row 4, row 5], _, gives_iff.2 rfl, ?_,
      hsorted⟩
    exact .cons rfl (.cons rfl (.cons rfl (.cons rfl (.cons rfl (.cons rfl .nil)))))
  exact ⟨hgives, (sort_by_preorder keys).2.2.2.2 g input out hgives⟩

end Plexus.Operator
