import Plexus.Plan.Execution
import Plexus.Proofs.Operator.Ended
import Plexus.Proofs.Operator.Gives
import Plexus.Proofs.Operator.Listed

/-!
# Pulling what is listed

A cursor whose operator tree lists some rows gives these rows pull by pull and then nothing more, if
there can be room for the batches of the tree. It may be pulled any number of times before the rest
is drained.
-/

namespace Plexus

/-- What a number of pulls give if there are some rows: these rows, and then none. -/
def Pull.ofRows (rows : List Row) (count : Nat) : List Pull :=
  (rows.take count).map .row ++ List.replicate (count - rows.length) .done

/-- A machine that has ended gives no rows. -/
theorem Machine.Ended.gives {m : Machine} {s : m.State} (h : m.Ended s) (g : Graph) :
    m.Gives g s [] := by
  obtain ⟨s', hpull, -⟩ := h.pull g
  exact .done hpull

namespace Cursor

variable {c : Cursor} {g : Graph} {rows : List Row} {r : Row}

/-- From here on the cursor gives exactly these rows and is then drained. -/
def Gives (c : Cursor) (g : Graph) (rows : List Row) : Prop :=
  c.root.machine.Gives g c.state rows

/-- Without rows the cursor is drained, and stays so. -/
theorem Gives.pull_nil (h : c.Gives g []) : (c.pull g).1 = .done ∧ (c.pull g).2.Gives g [] := by
  cases h with
  | done hpull =>
    rw [Cursor.pull, hpull]
    exact ⟨rfl, (c.root.endsForGood g _ _ hpull).gives g⟩

/-- A cursor that gives some rows gives the first of them at a pull, and then the others. -/
theorem Gives.pull_cons (h : c.Gives g (r :: rows)) :
    (c.pull g).1 = .row r ∧ (c.pull g).2.Gives g rows := by
  cases h with
  | row hpull hrest =>
    rw [Cursor.pull, hpull]
    exact ⟨rfl, hrest⟩

theorem pullMany_succ (c : Cursor) (g : Graph) (count : Nat) :
    c.pullMany g (count + 1) =
      ((c.pull g).1 :: ((c.pull g).2.pullMany g count).1, ((c.pull g).2.pullMany g count).2) :=
  rfl

/-- Some pulls give the first rows, and leave the others. -/
theorem Gives.pullMany (h : c.Gives g rows) (count : Nat) :
    (c.pullMany g count).1 = Pull.ofRows rows count ∧
      (c.pullMany g count).2.Gives g (rows.drop count) := by
  induction count generalizing c rows with
  | zero => exact ⟨by simp [Cursor.pullMany, Pull.ofRows], h⟩
  | succ count ih =>
    rw [pullMany_succ]
    cases rows with
    | nil =>
      obtain ⟨hgiven, hnext⟩ := h.pull_nil
      obtain ⟨hothers, hlast⟩ := ih hnext
      refine ⟨?_, by simpa using hlast⟩
      rw [hgiven, hothers]
      simp [Pull.ofRows, List.replicate_succ]
    | cons r rest =>
      obtain ⟨hgiven, hnext⟩ := h.pull_cons
      obtain ⟨hothers, hlast⟩ := ih hnext
      refine ⟨?_, hlast⟩
      rw [hgiven, hothers]
      simp [Pull.ofRows]

/-- Draining the cursor gives all rows that are left. -/
theorem Gives.finish (h : c.Gives g rows) :
    c.finish g = .ok ⟨rows.map (·.project c.columns), c.columns⟩ := by
  obtain ⟨s, hs⟩ := Machine.collect_of_outputs (Machine.gives_iff_outputs.1 h) #[]
  simp [Cursor.finish, hs]

/-- Pulls leave the columns of a cursor as they are. -/
theorem columns_pullMany (c : Cursor) (g : Graph) (count : Nat) :
    (c.pullMany g count).2.columns = c.columns := by
  induction count generalizing c with
  | zero => rfl
  | succ count ih => exact ih _

end Cursor

namespace Graph

variable {g : Graph} {op : Operator} {rows : List Row}

/-- Pulling an operator tree that lists some rows on a reachable graph gives these rows in order,
and then none, if there can be room for its batches. After any number of pulls, the others are still
to be given, by pulls or at once. -/
theorem Reachable.pulls_listed (hg : g.Reachable) (hfits : op.batchesFit = true)
    (h : op.listed g = .ok rows) (columns : List String) (before count : Nat) :
    let start : Cursor := ⟨op, columns, op.machine.start⟩
    let stopped := (start.pullMany g before).2
    (start.pullMany g count).1 = Pull.ofRows rows count ∧
      (stopped.pullMany g count).1 = Pull.ofRows (rows.drop before) count ∧
        stopped.finish g = .ok ⟨(rows.drop before).map (·.project columns), columns⟩ := by
  intro start stopped
  have hgives : start.Gives g rows :=
    Operator.gives_iff.2 (Operator.output_of_listed hg.sound hfits h)
  have hstopped := (hgives.pullMany before).2
  refine ⟨(hgives.pullMany count).1, (hstopped.pullMany count).1, ?_⟩
  have hcolumns : stopped.columns = columns := start.columns_pullMany g before
  rw [hstopped.finish, hcolumns]

/-- A tree over two batches of a traversal in a cycle, with a product, an aggregate and a sort. -/
theorem pulls_listed_of_cycle :
    let g := [Mutation.createNode ["A"] [], .createNode [] [], .createNode [] [],
      .createEdge ⟨0⟩ ⟨1⟩ "R" [], .createEdge ⟨1⟩ ⟨2⟩ "R" [], .createEdge ⟨2⟩ ⟨0⟩ "R" []].foldl
        Graph.after (.empty {})
    let paths := (Operator.scan .all "a" "(a)").reach
      ⟨"a", "b", ⟨.any, .outgoing, ⟨1, some 2⟩⟩, .any, 2, "(a)-[*1..2]->(b)"⟩
    let counted := (paths.product (.scan (.label (some ⟨0⟩)) "c" "(c:A)")).aggregate
      [⟨.ref "b", "b"⟩] [⟨.count, none, "n"⟩]
    let op := (counted.sort [⟨.ref "b", false⟩]).skip 1
    let row (b : Nat) : Row := ⟨[("b", .node ⟨b⟩), ("n", .scalar (.number (.ofNat 2)))]⟩
    g.Reachable ∧ op.batchesFit = true ∧ op.listed g = .ok [row 1, row 0] ∧
      ((Cursor.mk op [] op.machine.start).pullMany g 3).1 =
        [.row (row 1), .row (row 0), .done] := by
  intro g paths counted op row
  have hreach : g.Reachable := Reachable.foldl (.empty {}) _
  have hlisted : op.listed g = .ok [row 1, row 0] := by decide +kernel
  have hfits : op.batchesFit = true := by decide +kernel
  exact ⟨hreach, hfits, hlisted, (Reachable.pulls_listed hreach hfits hlisted [] 0 3).1⟩

/-- A tree that lists a row and fails at the first pull: there is no block of memory for a batch of
2⁶⁴ - 1 rows. -/
theorem pull_fails_on_large_batch :
    let g := Graph.after (.empty {}) (.createNode [] [])
    let op := (Operator.scan .all "a" "(a)").reach
      ⟨"a", "b", ⟨.any, .outgoing, ⟨0, some 1⟩⟩, .any, 18446744073709551615, "(a)-[*0..1]->(b)"⟩
    g.Reachable ∧ op.listed g = .ok [⟨[("a", .node ⟨0⟩), ("b", .node ⟨0⟩)]⟩] ∧
      ((Cursor.mk op [] op.machine.start).pullMany g 1).1 = [.failed .noRoom] :=
  ⟨.after (.empty {}) _, by decide +kernel, rfl⟩

end Graph

end Plexus
