import Plexus.Proofs.Operator.Cuts
import Plexus.Proofs.Operator.Matching

/-!
# Batches of another size

How many rows a traversal gathers before it extends them decides which rows are out before a fault
is met, and nothing else: whatever the size, the rows are a beginning of those that come from
extending each row on its own. So a tree of operators with other batches agrees with it up to
faults, and if no operator in it stops early, the one fails exactly if the other does, as long as
there can be room for the batches of both.
-/

namespace Plexus

namespace Output

variable {o o' p p' : Output} {g : Graph} {r : Reach}

/-- Batches are filled and extended one after the other, in the order of the rows. -/
theorem cut_reachFrom_batch (hg : g.Sound) (r : Reach) (batch : List (Row × Option NodeId))
    (rows : List Row) (fault : Option QueryFault) :
    (Output.prepend (spread (r.rowsOf g) ⟨rows, fault⟩) (r.rows g batch)).Cut
      (reachFrom g r batch ⟨rows, fault⟩) := by
  induction rows generalizing batch with
  | nil =>
    cases fault with
    | some fault => exact .failed _ fault
    | none =>
      have hall : Output.prepend (spread (r.rowsOf g) ⟨[], none⟩) (r.rows g batch) =
          reachFrom g r batch ⟨[], none⟩ := by
        simp [spread, prepend, reachFrom, batches]
      exact hall ▸ .whole
  | cons row rest ih =>
    have hspread := spread_cons (r.rowsOf g) row ⟨rest, fault⟩
    cases hstart : row.startNode r.source with
    | error fault' =>
      have hreach : reachFrom g r batch ⟨row :: rest, fault⟩ = failed fault' :=
        reachFrom_cons_error hstart ⟨rest, fault⟩
      exact hreach ▸ .failed _ fault'
    | ok start =>
      have hbatch : r.rows g (batch ++ [(row, start)]) =
          r.rows g batch ++ r.rows g [(row, start)] := by
        rw [Reach.rows_eq_flatMap hg, List.flatMap_append, ← Reach.rows_eq_flatMap hg,
          ← Reach.rows_eq_flatMap hg]
      rw [Reach.rowsOf_of_start hstart] at hspread
      dsimp only at hspread
      change (Output.prepend (spread (r.rowsOf g) (Output.prepend ⟨rest, fault⟩ [row])) _).Cut
        ((Output.prepend ⟨rest, fault⟩ [row]).reachFrom g r batch)
      rw [hspread, prepend_append, ← hbatch]
      by_cases hlt : (batch ++ [(row, start)]).length < r.batchSize
      · rw [reachFrom_cons_of_lt hstart hlt]
        exact ih _
      · have hempty : r.rows g [] = [] := Reach.rows_eq_flatMap hg r []
        have hnext := ih []
        rw [hempty] at hnext
        rw [reachFrom_cons_of_not_lt hstart hlt]
        exact hnext.prepend _

/-- Extending rows in batches is a cut of extending each row on its own. -/
theorem Cut.reachFrom (hg : g.Sound) (r : Reach) (o : Output) :
    (o.spread (r.rowsOf g)).Cut (o.reachFrom g r []) := by
  have hcut := cut_reachFrom_batch hg r [] o.rows o.fault
  have hempty : r.rows g [] = [] := Reach.rows_eq_flatMap hg r []
  rw [hempty] at hcut
  exact hcut

/-- So is not extending any, where there cannot be room for a batch. -/
theorem Cut.reach (hg : g.Sound) (r : Reach) (o : Output) :
    (o.spread (r.rowsOf g)).Cut (o.reach g r) := by
  unfold Output.reach
  split
  · exact Cut.reachFrom hg r o
  · exact .failed _ _

/-- Batches of different sizes, filled with rows that agree. -/
theorem Agrees.reach (hg : g.Sound) (h : o.Agrees o') (r : Reach) (n : Nat) :
    (o.reach g r).Agrees (o'.reach g { r with batchSize := n }) := by
  obtain ⟨u, hcut, hcut'⟩ := h
  exact ⟨u.spread (r.rowsOf g), (hcut.spread _).trans (Cut.reach hg r o),
    (hcut'.spread _).trans (Cut.reach hg { r with batchSize := n } o')⟩

/-- Batches do not decide whether there is a fault. -/
theorem fault_reachFrom (g : Graph) (r : Reach) (batch : List (Row × Option NodeId)) (o : Output) :
    (o.reachFrom g r batch).fault = none ↔ (o.spread (r.rowsOf g)).fault = none := by
  obtain ⟨rows, fault⟩ := o
  induction rows generalizing batch with
  | nil => cases fault <;> exact Iff.rfl
  | cons row rest ih =>
    have hspread := spread_cons (r.rowsOf g) row ⟨rest, fault⟩
    change ((Output.prepend ⟨rest, fault⟩ [row]).reachFrom g r batch).fault = none ↔
      (spread (r.rowsOf g) (Output.prepend ⟨rest, fault⟩ [row])).fault = none
    rw [hspread]
    cases hstart : row.startNode r.source with
    | error fault' =>
      rw [reachFrom_cons_error hstart, Reach.rowsOf_of_error hstart]
    | ok start =>
      rw [Reach.rowsOf_of_start hstart]
      by_cases hlt : (batch ++ [(row, start)]).length < r.batchSize
      · rw [reachFrom_cons_of_lt hstart hlt]
        exact ih _
      · rw [reachFrom_cons_of_not_lt hstart hlt]
        exact ih []

/-- A fault of the input is met by all that read it to the end. -/
theorem spread_fails {f : Row → Except QueryFault (List Row)} (h : o.fault ≠ none) :
    (o.spread f).fault ≠ none := by
  obtain ⟨rows, fault⟩ := o
  induction rows with
  | nil => exact h
  | cons r rest ih =>
    have hcons := spread_cons f r ⟨rest, fault⟩
    cases hr : f r with
    | error fault' =>
      rw [hr] at hcons
      exact hcons ▸ nofun
    | ok out =>
      rw [hr] at hcons
      exact hcons ▸ ih h

/-- If the input fails, so does what gathers it. -/
theorem gather_fails {α : Type} {initial : α} {take : α → Row → Except QueryFault α}
    {finish : α → List Row} (h : o.fault ≠ none) :
    (o.gather initial take finish).fault ≠ none := by
  obtain ⟨fault, hfault⟩ := Option.ne_none_iff_exists'.1 h
  unfold Output.gather
  rw [hfault]
  cases o.rows.foldlM take initial <;> simp [failed]

/-- If neither input fails they are the same; else whatever reads them to the end fails twice. -/
theorem Agrees.fails_iff (h : o.Agrees o') (hiff : o.fault = none ↔ o'.fault = none)
    {f : Output → Output} (hf : ∀ p : Output, p.fault ≠ none → (f p).fault ≠ none) :
    (f o).fault = none ↔ (f o').fault = none := by
  by_cases ho : o.fault = none
  · rw [h.eq_of_fault ho (hiff.1 ho)]
  · exact iff_of_false (hf _ ho) (hf _ fun ho' => ho (hiff.2 ho'))

/-- The right input is read to the end, and then the left one if there are right rows. -/
theorem Agrees.product_fails_iff (h : p.Agrees p') (hleft : o.fault = none ↔ o'.fault = none)
    (hiff : p.fault = none ↔ p'.fault = none) :
    (o.product p).fault = none ↔ (o'.product p').fault = none := by
  by_cases hright : p.fault = none
  · rw [← h.eq_of_fault hright (hiff.1 hright)]
    unfold Output.product
    rw [hright]
    dsimp only
    split
    · rfl
    · exact hleft
  · have hfails {left right : Output} (hne : right.fault ≠ none) :
        (left.product right).fault ≠ none := by
      obtain ⟨fault, hfault⟩ := Option.ne_none_iff_exists'.1 hne
      simp [Output.product, hfault, failed]
    exact iff_of_false (hfails hright) (hfails fun hright' => hright (hiff.2 hright'))

end Output

namespace Operator

/-- The same tree with batches of one size throughout. -/
def batched (n : Nat) : Operator → Operator
  | scan access name pattern => scan access name pattern
  | expand input e => expand (input.batched n) e
  | reach input r => reach (input.batched n) { r with batchSize := n }
  | filter input condition => filter (input.batched n) condition
  | product left right => product (left.batched n) (right.batched n)
  | project input items => project (input.batched n) items
  | aggregate input keys columns => aggregate (input.batched n) keys columns
  | distinct input columns => distinct (input.batched n) columns
  | sort input keys => sort (input.batched n) keys
  | skip input count => skip (input.batched n) count
  | limit input count => limit (input.batched n) count

/-- No operator in the tree ends the run before its input does. -/
def isUnlimited : Operator → Bool
  | scan _ _ _ => true
  | product left right => left.isUnlimited && right.isUnlimited
  | limit _ _ => false
  | expand input _ | reach input _ | filter input _ | project input _ | aggregate input _ _
  | distinct input _ | sort input _ | skip input _ => input.isUnlimited

/-- There can be room for the batches of every traversal in the tree. -/
def batchesFit : Operator → Bool
  | scan _ _ _ => true
  | reach input r => Batch.fits r.batchSize && input.batchesFit
  | product left right => left.batchesFit && right.batchesFit
  | expand input _ | filter input _ | project input _ | aggregate input _ _ | distinct input _
  | sort input _ | skip input _ | limit input _ => input.batchesFit

variable {g : Graph}

/-- Where there can be room for a batch of one size, there is for all of that size. -/
theorem batchesFit_batched {n : Nat} (hn : Batch.fits n = true) (op : Operator) :
    (op.batched n).batchesFit = true := by
  induction op with
  | scan access name pattern => rfl
  | reach input r ih => exact Bool.and_eq_true_iff.2 ⟨hn, ih⟩
  | product left right ihl ihr => exact Bool.and_eq_true_iff.2 ⟨ihl, ihr⟩
  | expand input _ ih | filter input _ ih | project input _ ih | aggregate input _ _ ih
  | distinct input _ ih | sort input _ ih | skip input _ ih | limit input _ ih => exact ih

/-- Trees that differ in their batches agree up to faults. -/
theorem agrees_batched (hg : g.Sound) (n : Nat) (op : Operator) :
    (op.output g).Agrees ((op.batched n).output g) := by
  induction op with
  | scan access name pattern => exact .refl _
  | expand input e ih => exact ih.spread _
  | reach input r ih => exact ih.reach hg r n
  | filter input condition ih => exact ih.spread _
  | product left right ihl ihr => exact ihl.product ihr
  | project input items ih => exact ih.spread _
  | aggregate input keys columns ih => exact ih.gather _ _ _
  | distinct input columns ih => exact ih.sift _ _
  | sort input keys ih => exact ih.gather _ _ _
  | skip input count ih => exact ih.sift _ _
  | limit input count ih => exact ih.limit _

/-- If no operator ends the run early and there can be room for the batches, a tree fails exactly if
it does with other batches for which there can be room. -/
theorem fails_iff_batched (hg : g.Sound) {n : Nat} (hn : Batch.fits n = true) {op : Operator}
    (hfits : op.batchesFit = true) (hop : op.isUnlimited = true) :
    (op.output g).fault = none ↔ ((op.batched n).output g).fault = none := by
  induction op with
  | scan access name pattern => rfl
  | expand input e ih =>
    exact (agrees_batched hg n input).fails_iff (ih hfits hop) fun _ => Output.spread_fails
  | reach input r ih =>
    obtain ⟨hr, hinput⟩ := Bool.and_eq_true_iff.1 hfits
    have hspread := (agrees_batched hg n input).fails_iff (ih hinput hop)
      (f := Output.spread (r.rowsOf g)) fun _ => Output.spread_fails
    rw [output, batched, output, Output.reach_of_fits hr,
      Output.reach_of_fits (r := { r with batchSize := n }) hn]
    exact (Output.fault_reachFrom g r [] _).trans
      (hspread.trans (Output.fault_reachFrom g { r with batchSize := n } [] _).symm)
  | filter input condition ih =>
    exact (agrees_batched hg n input).fails_iff (ih hfits hop) fun _ => Output.spread_fails
  | product left right ihl ihr =>
    obtain ⟨hleft, hright⟩ := Bool.and_eq_true_iff.1 hop
    obtain ⟨hl, hr⟩ := Bool.and_eq_true_iff.1 hfits
    exact (agrees_batched hg n right).product_fails_iff (ihl hl hleft) (ihr hr hright)
  | project input items ih =>
    exact (agrees_batched hg n input).fails_iff (ih hfits hop) fun _ => Output.spread_fails
  | aggregate input keys columns ih =>
    exact (agrees_batched hg n input).fails_iff (ih hfits hop) fun _ => Output.gather_fails
  | distinct input columns ih => exact ih hfits hop
  | sort input keys ih =>
    exact (agrees_batched hg n input).fails_iff (ih hfits hop) fun _ => Output.gather_fails
  | skip input count ih => exact ih hfits hop
  | limit input count ih => cases hop

end Operator

end Plexus
