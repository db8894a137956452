import Plexus.Plan.Execution
import Plexus.Proofs.Operator.Machine

/-!
# Outputs

What an operator gives on a graph that does not change, from its start until it is drained or
fails, as a list of rows with the fault at its end. It is worked out from the outputs of its inputs
alone, whatever its machine keeps for later pulls, and running a plan is working out its output.
-/

namespace Plexus

/-- The rows that something gives, and the fault that it then fails with, if it does. -/
structure Output where
  rows : List Row
  fault : Option QueryFault

namespace Output

/-- Nothing but a fault. -/
def failed (fault : QueryFault) : Output := ⟨[], some fault⟩

/-- Some rows before all others. -/
def prepend (o : Output) (rows : List Row) : Output := ⟨rows ++ o.rows, o.fault⟩

/-- Every row is replaced by some rows, up to the first for which this fails. -/
def spread (f : Row → Except QueryFault (List Row)) (o : Output) : Output :=
  o.rows.foldr (fun r rest =>
    match f r with
    | .ok rows => rest.prepend rows
    | .error fault => failed fault) ⟨[], o.fault⟩

/-- Rows are gathered in a batch with the nodes that they start from, and a full batch is replaced
by the rows that it is extended to. A fault at the end loses the batch. -/
def batches (g : Graph) (r : Reach) (fault : Option QueryFault) :
    List (Row × Option NodeId) → List Row → Output
  | batch, [] =>
    match fault with
    | none => ⟨r.rows g batch, none⟩
    | some fault => failed fault
  | batch, row :: rest =>
    match row.startNode r.source with
    | .error fault => failed fault
    | .ok start =>
      let batch := batch ++ [(row, start)]
      if batch.length < r.batchSize then batches g r fault batch rest
      else (batches g r fault [] rest).prepend (r.rows g batch)

/-- Batch by batch, from a batch that is begun. -/
def reachFrom (g : Graph) (r : Reach) (batch : List (Row × Option NodeId)) (o : Output) : Output :=
  batches g r o.fault batch o.rows

/-- Batch by batch, if there can be room for a batch. -/
def reach (g : Graph) (r : Reach) (o : Output) : Output :=
  if Batch.fits r.batchSize then o.reachFrom g r [] else failed .noRoom

/-- Every left row with all right rows, which have to be there first. -/
def product (left right : Output) : Output :=
  match right.fault with
  | some fault => failed fault
  | none =>
    if right.rows = [] then ⟨[], none⟩
    else ⟨left.rows.flatMap fun l => right.rows.map l.merge, left.fault⟩

/-- Rows that are made of all rows, which have to be taken in first. -/
def gather {α : Type} (initial : α) (take : α → Row → Except QueryFault α) (finish : α → List Row)
    (o : Output) : Output :=
  match o.rows.foldlM take initial, o.fault with
  | .error fault, _ => failed fault
  | .ok _, some fault => failed fault
  | .ok a, none => ⟨finish a, none⟩

/-- The rows that a step lets through as it goes on from row to row. -/
def passed {α : Type} (step : α → Row → α × Option Row) : α → List Row → List Row
  | _, [] => []
  | a, r :: rest =>
    match step a r with
    | (a, some row) => row :: passed step a rest
    | (a, none) => passed step a rest

/-- Only the rows that a step lets through. -/
def sift {α : Type} (step : α → Row → α × Option Row) (a : α) (o : Output) : Output :=
  ⟨passed step a o.rows, o.fault⟩

/-- The first rows alone; the fault is not met if these are enough. -/
def limit (count : Nat) (o : Output) : Output :=
  ⟨o.rows.take count, if count ≤ o.rows.length then none else o.fault⟩

theorem prepend_append (o : Output) (rows more : List Row) :
    (o.prepend more).prepend rows = o.prepend (rows ++ more) := by
  simp only [prepend, List.append_assoc]

/-- The first row is spread before the others, and a fault in it is the end. -/
theorem spread_cons (f : Row → Except QueryFault (List Row)) (r : Row) (o : Output) :
    (o.prepend [r]).spread f = match f r with
      | .ok rows => (o.spread f).prepend rows
      | .error fault => failed fault :=
  rfl

/-- The first row is sifted before the others. -/
theorem sift_cons {α : Type} (step : α → Row → α × Option Row) (a : α) (r : Row) (o : Output) :
    (o.prepend [r]).sift step a = match step a r with
      | (a, some row) => (o.sift step a).prepend [row]
      | (a, none) => o.sift step a := by
  simp only [sift, prepend, List.singleton_append, passed]
  split <;> rfl

section

variable {g : Graph} {r : Reach} {row : Row} {start : Option NodeId}
  {batch : List (Row × Option NodeId)}

/-- A row without a node to start from is the end of a traversal. -/
theorem reachFrom_cons_error {fault : QueryFault} (h : row.startNode r.source = .error fault)
    (o : Output) : (o.prepend [row]).reachFrom g r batch = failed fault := by
  simp only [reachFrom, prepend, List.singleton_append, batches, h]

/-- A row joins a batch that stays open. -/
theorem reachFrom_cons_of_lt (h : row.startNode r.source = .ok start)
    (hlt : (batch ++ [(row, start)]).length < r.batchSize) (o : Output) :
    (o.prepend [row]).reachFrom g r batch = o.reachFrom g r (batch ++ [(row, start)]) := by
  simp only [reachFrom, prepend, List.singleton_append, batches, h, if_pos hlt]

/-- A row makes a batch full. -/
theorem reachFrom_cons_of_not_lt (h : row.startNode r.source = .ok start)
    (hlt : ¬(batch ++ [(row, start)]).length < r.batchSize) (o : Output) :
    (o.prepend [row]).reachFrom g r batch =
      (o.reachFrom g r []).prepend (r.rows g (batch ++ [(row, start)])) := by
  simp only [reachFrom, prepend, List.singleton_append, batches, h, if_neg hlt]

/-- Where there can be room for batches, their size shows in the batches alone. -/
theorem reach_of_fits (hfits : Batch.fits r.batchSize = true) (o : Output) :
    o.reach g r = o.reachFrom g r [] :=
  if_pos hfits

end

theorem limit_zero (o : Output) : o.limit 0 = ⟨[], none⟩ := by
  simp [limit]

theorem limit_nil (count : Nat) : limit count ⟨[], none⟩ = ⟨[], none⟩ := by
  simp [limit]

theorem limit_failed {count : Nat} (hcount : 0 < count) (fault : QueryFault) :
    (failed fault).limit count = failed fault := by
  simp [limit, failed, Nat.not_le_of_lt hcount]

/-- The first row counts towards the limit. -/
theorem limit_cons (count : Nat) (r : Row) (o : Output) :
    (o.prepend [r]).limit (count + 1) = (o.limit count).prepend [r] := by
  simp [limit, prepend]

end Output

namespace Machine

variable {m n : Machine} {g : Graph} {s : m.State} {o : Output}

/-- From a state on, a machine gives exactly this and then stops. -/
inductive Outputs (m : Machine) (g : Graph) : m.State → Output → Prop where
  | done {s s' : m.State} : m.pull g s = (.done, s') → Outputs m g s ⟨[], none⟩
  | failed {s s' : m.State} {fault : QueryFault} :
      m.pull g s = (.failed fault, s') → Outputs m g s (.failed fault)
  | row {s s' : m.State} {r : Row} {o : Output} :
      m.pull g s = (.row r, s') → Outputs m g s' o → Outputs m g s (o.prepend [r])

/-- Only what the next pull gives and leads to counts. -/
theorem Outputs.of_pull_eq {s' : m.State} (h : m.Outputs g s o)
    (hpull : m.pull g s' = m.pull g s) : m.Outputs g s' o := by
  cases h with
  | done hp => exact .done (hpull.trans hp)
  | failed hp => exact .failed (hpull.trans hp)
  | row hp hrest => exact .row (hpull.trans hp) hrest

private theorem outputs_waiting {state : List Row → m.State}
    (hstate : ∀ r rest, m.pull g (state (r :: rest)) = (.row r, state rest))
    (h : m.Outputs g (state []) o) (rows : List Row) :
    m.Outputs g (state rows) (o.prepend rows) := by
  induction rows with
  | nil => exact h
  | cons r rest ih =>
    rw [← List.singleton_append, ← Output.prepend_append]
    exact .row (hstate r rest) ih

private theorem outputs_giveFirst (state : List Row → m.State)
    (hstate : ∀ rows, m.pull g (state rows) = giveFirst rows state) (rows : List Row) :
    m.Outputs g (state rows) ⟨rows, none⟩ := by
  induction rows with
  | nil => exact .done (hstate [])
  | cons r rest ih => exact .row (hstate (r :: rest)) ih

/-- A leaf gives a row for each of its nodes. -/
theorem outputs_scan (access : Access) (name : String) (g : Graph) :
    (scan access name).Outputs g none
      ⟨(access.nodes g).map fun id => Row.empty.bind name (.node id), none⟩ := by
  have hrest (ids : List NodeId) : (scan access name).Outputs g (some ids)
      ⟨ids.map fun id => Row.empty.bind name (.node id), none⟩ := by
    induction ids with
    | nil => exact .done rfl
    | cons id rest ih => exact .row rfl ih
  exact (hrest (access.nodes g)).of_pull_eq rfl

/-- A traversal by one hop spreads its input. -/
theorem Outputs.expand {e : Expansion} (h : m.Outputs g s o) :
    (m.expand e).Outputs g (ExpandState.mk s []) (o.spread (e.rows g)) := by
  induction h with
  | done hpull =>
    rename_i s s'
    have hend : (m.expand e).pull g (ExpandState.mk s []) = (.done, ExpandState.mk s' []) := by
      simp only [Machine.expand, run_of_done hpull]
    exact .done hend
  | failed hpull =>
    rename_i s s' fault
    have hend : (m.expand e).pull g (ExpandState.mk s []) =
        (.failed fault, ExpandState.mk s' []) := by
      simp only [Machine.expand, run_of_failed hpull]
    exact .failed hend
  | row hpull _ ih =>
    rename_i s s' r o _
    rw [Output.spread_cons]
    cases hrows : e.rows g r with
    | error fault =>
      have hstep : expandStep e g () r = ((), some (.error fault)) := by
        simp only [expandStep, hrows]
      have hfail : (m.expand e).pull g (ExpandState.mk s []) =
          (.failed fault, ExpandState.mk s' []) := by
        simp only [Machine.expand, run_of_enough hpull hstep]
      exact .failed hfail
    | ok out =>
      cases out with
      | nil =>
        have hstep : expandStep e g () r = ((), none) := by simp only [expandStep, hrows]
        have hsame : (m.expand e).pull g (ExpandState.mk s []) =
            (m.expand e).pull g (ExpandState.mk s' []) := by
          simp only [Machine.expand, run_of_more hpull hstep]
        exact ih.of_pull_eq hsame
      | cons first rest =>
        have hstep : expandStep e g () r = ((), some (.ok (first, rest))) := by
          simp only [expandStep, hrows]
        have hgive : (m.expand e).pull g (ExpandState.mk s []) =
            (.row first, ExpandState.mk s' rest) := by
          simp only [Machine.expand, run_of_enough hpull hstep]
        have hrest : (m.expand e).Outputs g (ExpandState.mk s' rest)
            ((o.spread (e.rows g)).prepend rest) :=
          outputs_waiting (m := m.expand e) (fun _ _ => rfl) ih rest
        exact .row hgive hrest

/-- A filter keeps the rows on which its condition is true, up to the first that it cannot be
decided on. -/
theorem Outputs.filter {condition : Expression} (h : m.Outputs g s o) :
    (m.filter condition).Outputs g s
      (o.spread fun r => (condition.isMatch g r).map fun b => if b then [r] else []) := by
  induction h with
  | done hpull =>
    rename_i s s'
    have hend : (m.filter condition).pull g s = (.done, s') := by
      simp only [Machine.filter, run_of_done hpull]
    exact .done hend
  | failed hpull =>
    rename_i s s' fault
    have hend : (m.filter condition).pull g s = (.failed fault, s') := by
      simp only [Machine.filter, run_of_failed hpull]
    exact .failed hend
  | row hpull _ ih =>
    rename_i s s' r o _
    rw [Output.spread_cons]
    cases hmatch : condition.isMatch g r with
    | error fault =>
      have hstep : filterStep condition g () r = ((), some (.error fault)) := by
        simp only [filterStep, hmatch]
      have hfail : (m.filter condition).pull g s = (.failed fault, s') := by
        simp only [Machine.filter, run_of_enough hpull hstep]
      exact .failed hfail
    | ok b =>
      cases b with
      | false =>
        have hstep : filterStep condition g () r = ((), none) := by simp only [filterStep, hmatch]
        have hsame : (m.filter condition).pull g s = (m.filter condition).pull g s' := by
          simp only [Machine.filter, run_of_more hpull hstep]
        exact ih.of_pull_eq hsame
      | true =>
        have hstep : filterStep condition g () r = ((), some (.ok r)) := by
          simp only [filterStep, hmatch]
        have hgive : (m.filter condition).pull g s = (.row r, s') := by
          simp only [Machine.filter, run_of_enough hpull hstep]
        exact .row hgive ih

/-- A projection replaces every row by one. -/
theorem Outputs.project {items : List NamedExpression} (h : m.Outputs g s o) :
    (m.project items).Outputs g s (o.spread fun r => (projectRow g items r).map ([·])) := by
  induction h with
  | done hpull =>
    rename_i s s'
    have hend : (m.project items).pull g s = (.done, s') := by
      simp only [Machine.project, hpull]
    exact .done hend
  | failed hpull =>
    rename_i s s' fault
    have hend : (m.project items).pull g s = (.failed fault, s') := by
      simp only [Machine.project, hpull]
    exact .failed hend
  | row hpull _ ih =>
    rename_i s s' r o _
    rw [Output.spread_cons]
    cases hrow : projectRow g items r with
    | error fault =>
      have hfail : (m.project items).pull g s = (.failed fault, s') := by
        simp only [Machine.project, hpull, hrow]
      exact .failed hfail
    | ok row =>
      have hgive : (m.project items).pull g s = (.row row, s') := by
        simp only [Machine.project, hpull, hrow]
      exact .row hgive ih

/-- What a pull gives, and then everything from the state that it leads to. -/
private def Continues (m : Machine) (g : Graph) (o : Output) : Pull × m.State → Prop
  | (.done, _) => o = ⟨[], none⟩
  | (.failed fault, _) => o = .failed fault
  | (.row r, s) => ∃ rest, m.Outputs g s rest ∧ o = rest.prepend [r]

private theorem outputs_iff_continues : m.Outputs g s o ↔ m.Continues g o (m.pull g s) := by
  constructor
  · intro h
    cases h with
    | done hpull => rw [hpull]; rfl
    | failed hpull => rw [hpull]; rfl
    | row hpull hrest => rw [hpull]; exact ⟨_, hrest, rfl⟩
  · intro h
    cases hpull : m.pull g s with
    | mk given s' =>
      rw [hpull] at h
      cases given with
      | done =>
        cases h
        exact .done hpull
      | failed fault =>
        cases h
        exact .failed hpull
      | row r =>
        obtain ⟨rest, hrest, rfl⟩ := h
        exact .row hpull hrest

private theorem pull_reach {r : Reach} (hfits : Batch.fits r.batchSize = true) :
    (m.reach r).pull g (ReachState.mk s false []) = m.reachPull r g #[] s :=
  if_pos hfits

/-- After the end of the input the last batch is all that is left. -/
theorem continues_reachPull_done {r : Reach} {s' : m.State}
    (hpull : m.pull g s = (.done, s')) (batch : Array (Row × Option NodeId)) :
    (m.reach r).Continues g ⟨r.rows g batch.toList, none⟩ (m.reachPull r g batch s) := by
  have hlast : m.reachPull r g batch s =
      giveFirst (r.rows g batch.toList) fun rest => ReachState.mk s' true rest := by
    simp only [reachPull, run_of_done hpull]
  have hstate (rows : List Row) : (m.reach r).pull g (ReachState.mk s' true rows) =
      giveFirst rows fun rest => ReachState.mk s' true rest := by
    cases rows <;> rfl
  rw [hlast, ← hstate]
  exact outputs_iff_continues.1 (outputs_giveFirst _ hstate (r.rows g batch.toList))

/-- A full batch is replaced, and the next one is begun. -/
theorem continues_reachPull_full {r : Reach} {s' : m.State} {row : Row}
    {start : Option NodeId} {batch : Array (Row × Option NodeId)}
    (hfits : Batch.fits r.batchSize = true) (hpull : m.pull g s = (.row row, s'))
    (hstart : row.startNode r.source = .ok start)
    (hfull : ¬(batch.push (row, start)).size < r.batchSize)
    (ih : (m.reach r).Continues g (o.reachFrom g r []) (m.reachPull r g #[] s')) :
    (m.reach r).Continues g
      ((o.reachFrom g r []).prepend (r.rows g (batch.push (row, start)).toList))
      (m.reachPull r g batch s) := by
  cases hrows : r.rows g (batch.push (row, start)).toList with
  | nil =>
    have hstep : reachStep r g batch row = (#[], none) := by
      simp only [reachStep, hstart, if_neg hfull, hrows]
    have hmore : m.reachPull r g batch s = m.reachPull r g #[] s' := by
      simp only [reachPull, run_of_more hpull hstep]
    rw [hmore]
    exact ih
  | cons first rest =>
    have hstep : reachStep r g batch row = (#[], some (.ok (first, rest))) := by
      simp only [reachStep, hstart, if_neg hfull, hrows]
    have hgive : m.reachPull r g batch s = (.row first, ReachState.mk s' false rest) := by
      simp only [reachPull, run_of_enough hpull hstep]
    have hnext : (m.reach r).Outputs g (ReachState.mk s' false []) (o.reachFrom g r []) :=
      outputs_iff_continues.2 (pull_reach hfits ▸ ih)
    rw [hgive]
    exact ⟨_, outputs_waiting (m := m.reach r) (fun _ _ => rfl) hnext rest, rfl⟩

private theorem continues_reachPull {r : Reach} (hfits : Batch.fits r.batchSize = true)
    (h : m.Outputs g s o) (batch : Array (Row × Option NodeId)) :
    (m.reach r).Continues g (o.reachFrom g r batch.toList) (m.reachPull r g batch s) := by
  induction h generalizing batch with
  | done hpull => exact continues_reachPull_done hpull batch
  | failed hpull =>
    rename_i s s' fault
    have hfail : m.reachPull r g batch s = (.failed fault, ReachState.mk s' false []) := by
      simp only [reachPull, run_of_failed hpull]
    rw [hfail]
    rfl
  | row hpull _ ih =>
    rename_i s s' row o _
    cases hstart : row.startNode r.source with
    | error fault =>
      have hstep : reachStep r g batch row = (#[], some (.error fault)) := by
        simp only [reachStep, hstart]
      have hfail : m.reachPull r g batch s = (.failed fault, ReachState.mk s' false []) := by
        simp only [reachPull, run_of_enough hpull hstep]
      rw [hfail, Output.reachFrom_cons_error hstart]
      rfl
    | ok start =>
      have hbatch : (batch.push (row, start)).toList = batch.toList ++ [(row, start)] :=
        Array.toList_push
      have hlength : (batch.push (row, start)).size = (batch.toList ++ [(row, start)]).length := by
        simp
      by_cases hfull : (batch.push (row, start)).size < r.batchSize
      · have hstep : reachStep r g batch row = (batch.push (row, start), none) := by
          simp only [reachStep, hstart, if_pos hfull]
        have hmore : m.reachPull r g batch s = m.reachPull r g (batch.push (row, start)) s' := by
          simp only [reachPull, run_of_more hpull hstep]
        rw [hmore, Output.reachFrom_cons_of_lt hstart (hlength ▸ hfull), ← hbatch]
        exact ih _
      · rw [Output.reachFrom_cons_of_not_lt hstart (hlength ▸ hfull), ← hbatch]
        exact continues_reachPull_full hfits hpull hstart hfull (ih #[])

/-- A traversal by an interval of hops replaces batch by batch, or fails for want of room. -/
theorem Outputs.reach {r : Reach} (h : m.Outputs g s o) :
    (m.reach r).Outputs g (ReachState.mk s false []) (o.reach g r) := by
  unfold Output.reach
  split
  · rename_i hfits
    exact outputs_iff_continues.2 (pull_reach hfits ▸ continues_reachPull hfits h #[])
  · rename_i hlarge
    exact .failed (if_neg hlarge)

/-- Collecting a machine appends the rows that it gives, and tells how it stops. -/
theorem collect_of_outputs (h : m.Outputs g s o) (before : Array Row) :
    ∃ s', m.collect g before s =
      (o.fault.elim .drained .failed, before ++ o.rows.toArray, s') := by
  induction h generalizing before with
  | done hpull =>
    rw [Array.append_empty]
    exact ⟨_, run_of_done hpull⟩
  | failed hpull =>
    rw [Output.failed, Array.append_empty]
    exact ⟨_, run_of_failed hpull⟩
  | row hpull _ ih =>
    rename_i r o _
    obtain ⟨s', hs'⟩ := ih (before.push r)
    refine ⟨s', (run_of_more hpull rfl).trans (hs'.trans ?_)⟩
    simp [Output.prepend]

private theorem outputs_complete (h : m.Outputs g s o) (right : n.State) {collected : Array Row}
    (hne : collected.isEmpty = false) :
    (m.product n).Outputs g (ProductState.mk s right collected true [])
      ⟨o.rows.flatMap fun l => collected.toList.map l.merge, o.fault⟩ := by
  induction h with
  | done hpull =>
    rename_i s s'
    have hend : (m.product n).pull g (ProductState.mk s right collected true []) =
        (.done, ProductState.mk s' right collected true []) := by
      simp only [Machine.product, if_true, pairNext, hne, Bool.false_eq_true, if_false, hpull]
    exact .done hend
  | failed hpull =>
    rename_i s s' fault
    have hend : (m.product n).pull g (ProductState.mk s right collected true []) =
        (.failed fault, ProductState.mk s' right collected true []) := by
      simp only [Machine.product, if_true, pairNext, hne, Bool.false_eq_true, if_false, hpull]
    exact .failed hend
  | row hpull _ ih =>
    rename_i s s' l o _
    have hpair : (m.product n).pull g (ProductState.mk s right collected true []) =
        giveFirst (collected.toList.map l.merge)
          fun rest => ProductState.mk s' right collected true rest := by
      simp only [Machine.product, if_true, pairNext, hne, Bool.false_eq_true, if_false, hpull]
    cases hrows : collected.toList.map l.merge with
    | nil =>
      rw [List.map_eq_nil_iff, Array.toList_eq_nil_iff] at hrows
      rw [hrows] at hne
      cases hne
    | cons first rest =>
      rw [hrows] at hpair
      have hnext := outputs_waiting (m := m.product n) (fun _ _ => rfl) ih rest
      have hall := Outputs.row hpair hnext
      simpa [Output.prepend, hrows] using hall

/-- A product has all rows of its right input before it reads the left one. -/
theorem Outputs.product {t : n.State} {right : Output} (h : m.Outputs g s o)
    (h' : n.Outputs g t right) :
    (m.product n).Outputs g (ProductState.mk s t #[] false []) (o.product right) := by
  obtain ⟨t', hcollect⟩ := collect_of_outputs h' #[]
  rw [Array.empty_append] at hcollect
  obtain ⟨rights, fault⟩ := right
  cases fault with
  | some fault =>
    have hfail : (m.product n).pull g (ProductState.mk s t #[] false []) =
        (.failed fault, ProductState.mk s t' rights.toArray false []) := by
      simp only [Machine.product, Bool.false_eq_true, if_false, hcollect, Option.elim_some]
    exact .failed hfail
  | none =>
    have hnext : (m.product n).pull g (ProductState.mk s t #[] false []) =
        (m.product n).pull g (ProductState.mk s t' rights.toArray true []) := by
      simp only [Machine.product, Bool.false_eq_true, if_false, if_true, hcollect,
        Option.elim_none]
    apply Outputs.of_pull_eq _ hnext
    cases rights with
    | nil => exact .done rfl
    | cons first rest => exact outputs_complete h t' (by simp)

/-- Taking in the rows of a machine ends with the first that cannot be taken in, or else as the
machine does. -/
theorem run_gatherStep {α : Type} (take : α → Row → Except QueryFault α)
    (h : m.Outputs g s o) (a : α) :
    ∃ b s', m.run g (gatherStep take) a s = match o.rows.foldlM take a with
      | .error fault => (.enough fault, b, s')
      | .ok a => (o.fault.elim .drained .failed, a, s') := by
  induction h generalizing a with
  | done hpull => exact ⟨a, _, run_of_done hpull⟩
  | failed hpull => exact ⟨a, _, run_of_failed hpull⟩
  | row hpull _ ih =>
    rename_i r o _
    simp only [Output.prepend, List.singleton_append, List.foldlM_cons]
    cases hr : take a r with
    | error fault =>
      have hstep : gatherStep take a r = (a, some fault) := by simp only [gatherStep, hr]
      exact ⟨a, _, run_of_enough hpull hstep⟩
    | ok next =>
      have hstep : gatherStep take a r = (next, none) := by simp only [gatherStep, hr]
      obtain ⟨b, s', hrun⟩ := ih next
      exact ⟨b, s', (run_of_more hpull hstep).trans hrun⟩

/-- An operator that needs all its input first gives what it makes of all its rows. -/
theorem Outputs.gather {α : Type} {initial : α} {take : Graph → α → Row → Except QueryFault α}
    {finish : α → List Row} (h : m.Outputs g s o) :
    (m.gather initial take finish).Outputs g (GatherState.mk s none)
      (o.gather initial (take g) finish) := by
  obtain ⟨b, s', hrun⟩ := run_gatherStep (take g) h initial
  unfold Output.gather
  cases hrows : o.rows.foldlM (take g) initial with
  | error fault =>
    rw [hrows] at hrun
    have hfail : (m.gather initial take finish).pull g (GatherState.mk s none) =
        (.failed fault, GatherState.mk s' none) := by
      simp only [Machine.gather, hrun]
    exact .failed hfail
  | ok a =>
    rw [hrows] at hrun
    cases hfault : o.fault with
    | some fault =>
      simp only [hfault, Option.elim_some] at hrun
      have hfail : (m.gather initial take finish).pull g (GatherState.mk s none) =
          (.failed fault, GatherState.mk s' none) := by
        simp only [Machine.gather, hrun]
      exact .failed hfail
    | none =>
      simp only [hfault, Option.elim_none] at hrun
      have hfirst : (m.gather initial take finish).pull g (GatherState.mk s none) =
          (m.gather initial take finish).pull g (GatherState.mk s' (some (finish a))) := by
        simp only [Machine.gather, hrun]
      apply Outputs.of_pull_eq _ hfirst
      exact outputs_giveFirst (m := m.gather initial take finish)
        (fun rows => GatherState.mk s' (some rows)) (fun _ => rfl) (finish a)

/-- A machine that pulls its input until a step lets a row through sifts it. -/
theorem Outputs.sift {α : Type} {step : α → Row → α × Option Row}
    (state : m.State → α → n.State)
    (hdone : ∀ a b s s', m.run g step a s = (.drained, b, s') →
      n.pull g (state s a) = (.done, state s' b))
    (hfailed : ∀ a b s s' fault, m.run g step a s = (.failed fault, b, s') →
      n.pull g (state s a) = (.failed fault, state s' b))
    (hgive : ∀ a b s s' row, m.run g step a s = (.enough row, b, s') →
      n.pull g (state s a) = (.row row, state s' b))
    (hskip : ∀ a b s s', m.run g step a s = m.run g step b s' →
      n.pull g (state s a) = n.pull g (state s' b))
    (h : m.Outputs g s o) (a : α) : n.Outputs g (state s a) (o.sift step a) := by
  induction h generalizing a with
  | done hpull => exact .done (hdone _ _ _ _ (run_of_done hpull))
  | failed hpull => exact .failed (hfailed _ _ _ _ _ (run_of_failed hpull))
  | row hpull _ ih =>
    rename_i s s' r o _
    rw [Output.sift_cons]
    cases hstep : step a r with
    | mk next given =>
      cases given with
      | none => exact (ih next).of_pull_eq (hskip _ _ _ _ (run_of_more hpull hstep))
      | some row => exact .row (hgive _ _ _ _ _ (run_of_enough hpull hstep)) (ih next)

/-- Leaving out equal rows sifts the input. -/
theorem Outputs.distinct {columns : List String} (h : m.Outputs g s o) (seen : List (List Value)) :
    (m.distinct columns).Outputs g (DistinctState.mk s seen)
      (o.sift (distinctStep columns) seen) := by
  refine Outputs.sift (n := m.distinct columns) DistinctState.mk ?_ ?_ ?_ ?_ h seen
  all_goals
    intros
    simp only [Machine.distinct, *]

/-- Leaving out the first rows sifts the input. -/
theorem Outputs.skip {count : Nat} (h : m.Outputs g s o) (before : Nat) :
    (m.skip count).Outputs g (CountState.mk s before) (o.sift (skipStep count) before) := by
  refine Outputs.sift (n := m.skip count) CountState.mk ?_ ?_ ?_ ?_ h before
  all_goals
    intros
    simp only [Machine.skip, *]

/-- After enough rows there are no more, whatever the input would give. -/
theorem outputs_limit_full {count before : Nat} (hfull : count ≤ before) (o : Output) :
    (m.limit count).Outputs g (CountState.mk s before) (o.limit (count - before)) := by
  have hend : (m.limit count).pull g (CountState.mk s before) =
      (.done, CountState.mk s before) := by
    simp only [Machine.limit, if_pos hfull]
  rw [Nat.sub_eq_zero_of_le hfull, Output.limit_zero]
  exact .done hend

/-- The first rows are given without a look at what comes after them. -/
theorem Outputs.limit {count : Nat} (h : m.Outputs g s o) (before : Nat) :
    (m.limit count).Outputs g (CountState.mk s before) (o.limit (count - before)) := by
  induction h generalizing before with
  | done hpull =>
    rename_i s s'
    by_cases hfull : count ≤ before
    · exact outputs_limit_full hfull _
    · have hend : (m.limit count).pull g (CountState.mk s before) =
          (.done, CountState.mk s' before) := by
        simp only [Machine.limit, if_neg hfull, hpull]
      rw [Output.limit_nil]
      exact .done hend
  | failed hpull =>
    rename_i s s' fault
    by_cases hfull : count ≤ before
    · exact outputs_limit_full hfull _
    · have hfail : (m.limit count).pull g (CountState.mk s before) =
          (.failed fault, CountState.mk s' before) := by
        simp only [Machine.limit, if_neg hfull, hpull]
      rw [Output.limit_failed (Nat.sub_pos_of_lt (Nat.lt_of_not_le hfull))]
      exact .failed hfail
  | row hpull _ ih =>
    rename_i s s' r o _
    by_cases hfull : count ≤ before
    · exact outputs_limit_full hfull _
    · have hgive : (m.limit count).pull g (CountState.mk s before) =
          (.row r, CountState.mk s' (before + 1)) := by
        simp only [Machine.limit, if_neg hfull, hpull]
      have hleft : count - before = count - (before + 1) + 1 := by omega
      rw [hleft, Output.limit_cons]
      exact .row hgive (ih _)

end Machine

namespace Operator

/-- What an operator gives on a graph, worked out from what its inputs give. -/
def output (g : Graph) : Operator → Output
  | scan access name _ => ⟨(access.nodes g).map fun id => Row.empty.bind name (.node id), none⟩
  | expand input e => (input.output g).spread (e.rows g)
  | reach input r => (input.output g).reach g r
  | filter input condition =>
    (input.output g).spread fun r => (condition.isMatch g r).map fun b => if b then [r] else []
  | product left right => (left.output g).product (right.output g)
  | project input items => (input.output g).spread fun r => (projectRow g items r).map ([·])
  | aggregate input keys columns =>
    (input.output g).gather [] (Groups.add g keys columns) (Groups.rows keys columns)
  | distinct input columns => (input.output g).sift (Machine.distinctStep columns) []
  | sort input keys =>
    (input.output g).gather #[] (fun rows row => (KeyedRow.of g keys row).map rows.push)
      fun rows => sortRows keys rows.toList
  | skip input count => (input.output g).sift (Machine.skipStep count) 0
  | limit input count => (input.output g).limit count

/-- The machine of an operator gives the output of the operator. -/
theorem outputs (op : Operator) (g : Graph) :
    op.machine.Outputs g op.machine.start (op.output g) := by
  induction op with
  | scan access name pattern => exact Machine.outputs_scan access name g
  | expand input e ih => exact ih.expand
  | reach input r ih => exact ih.reach
  | filter input condition ih => exact ih.filter
  | product left right ihl ihr => exact ihl.product ihr
  | project input items ih => exact ih.project
  | aggregate input keys columns ih => exact ih.gather
  | distinct input columns ih => exact ih.distinct []
  | sort input keys ih => exact ih.gather
  | skip input count ih => exact ih.skip 0
  | limit input count ih => exact ih.limit 0

end Operator

/-- The result of a plan: the table of the rows, or the fault at their end. -/
def Output.toTable (o : Output) (columns : List String) : Except QueryFault Table :=
  match o.fault with
  | none => .ok ⟨o.rows.map (·.project columns), columns⟩
  | some fault => .error fault

/-- Running a plan is working out the output of its root. -/
theorem Plan.execute_eq (p : Plan) (g : Graph) :
    p.execute g = (p.root.output g).toTable p.columns := by
  obtain ⟨s, hs⟩ := Machine.collect_of_outputs (p.root.outputs g) #[]
  unfold execute Cursor.finish Output.toTable
  simp only [Cursor.ofPlan, hs]
  cases (p.root.output g).fault <;> simp

end Plexus
