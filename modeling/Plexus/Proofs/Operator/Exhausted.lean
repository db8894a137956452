import Plexus.Proofs.Operator.Ended
import Plexus.Proofs.Operator.Reset

/-!
# Exhausted operators stay exhausted

Operators read the graph while they are pulled, and pull their inputs again after the end. Nodes,
relationships and index entries that come in between do not bring an exhausted tree back: only a
reset does.
-/

namespace Plexus

namespace Machine

variable {m : Machine} {s : m.State}

/-- A machine that has ended gives nothing at any later pull. -/
theorem Ended.pulls (h : m.Ended s) (graphs : List Graph) :
    m.pulls s graphs = List.replicate graphs.length .done := by
  induction graphs generalizing s with
  | nil => rfl
  | cons g rest ih =>
    obtain ⟨s', hpull, hs'⟩ := h.pull g
    calc m.pulls s (g :: rest)
        = .done :: m.pulls s' rest := by rw [Machine.pulls, hpull]
      _ = .done :: List.replicate rest.length .done := by rw [ih hs']
      _ = List.replicate (g :: rest).length .done := rfl

/-- After its end a machine that ends for good answers every later pull with the end. -/
theorem EndsForGood.pulls (h : m.EndsForGood) {g : Graph} (hdone : (m.pull g s).1 = .done)
    (later : List Graph) :
    m.pulls (m.pull g s).2 later = List.replicate later.length .done :=
  (h g s _ (Prod.ext hdone rfl)).pulls later

end Machine

/-- If what the fields show has ended for good, so have the fields. -/
theorem Mechanism.ended {m : Machine} (k : Mechanism m) {f : k.Fields} (h : m.Ended (k.view f)) :
    k.toMachine.Ended f := by
  refine ⟨fun f => m.Ended (k.view f), h, fun f hf g => ?_⟩
  obtain ⟨s', hpull, hs'⟩ := hf.pull g
  have hview : Prod.map id k.view (k.next g f) = (.done, s') := (k.pull_view g f).symm.trans hpull
  obtain ⟨hdone, rfl⟩ := Prod.mk.inj hview
  exact ⟨(k.next g f).2, Prod.ext hdone rfl, hs'⟩

/-- A mechanism ends for good if the machine that it stands for does. -/
theorem Mechanism.endsForGood {m : Machine} (k : Mechanism m) (h : m.EndsForGood) :
    k.toMachine.EndsForGood :=
  fun g _ _ hpull => k.ended (h g _ _ (k.pull_of_next hpull))

/-- An input that ends before enough rows are left out ends an operator that leaves out rows. -/
theorem Mechanism.skipNext_of_drained {m : Machine} (k : Mechanism m) {n count count' : Nat}
    {g : Graph} {f f' : k.Fields} (hcount : count < n)
    (hrun : k.toMachine.run g (dropStep n) count f = (.drained, count', f')) :
    k.skipNext n g ⟨f, count⟩ = (.done, ⟨f', count'⟩) := by
  simp only [skipNext, if_pos hcount, hrun]

namespace Operator

/-- Whatever calls an operator tree has had, and on whatever graphs: once a pull has given nothing,
every later pull gives nothing, on any graphs, as long as there is no reset. It is the same for the
machine of the tree. -/
theorem pulls_after_done (op : Operator) (earlier : List Call) (g : Graph) (later : List Graph) :
    let tree := op.mechanism.toMachine
    (tree.pull g (tree.after tree.start earlier)).1 = .done →
      tree.pulls (tree.pull g (tree.after tree.start earlier)).2 later =
          List.replicate later.length .done ∧
        op.machine.pulls (op.machine.pull g (op.machine.after op.machine.start earlier)).2 later =
          List.replicate later.length .done := by
  intro tree hdone
  have hafter : op.machine.after op.machine.start earlier =
      op.mechanism.view (tree.after tree.start earlier) := by
    rw [← op.mechanism.view_fresh]
    exact op.mechanism.after_view _ earlier
  have hshown : (op.machine.pull g (op.machine.after op.machine.start earlier)).1 = .done := by
    rw [hafter]
    exact (congrArg Prod.fst (op.mechanism.pull_view g _)).trans hdone
  exact ⟨(op.mechanism.endsForGood op.endsForGood).pulls hdone later,
    op.endsForGood.pulls hshown later⟩

/-- A graph of unlabelled nodes without relationships. -/
def scattered (count : Nat) : Graph :=
  count.repeat (fun g => (g.createNode [] []).1) (Graph.empty {})

/-- Two nodes are to be left out and there is one. The other is not left out of the three that
there are later, and the third is not given. -/
theorem pulls_after_done_skip :
    let tree := (Operator.skip (.scan .all "a" "(a)") 2).mechanism.toMachine
    (tree.pull (scattered 1) (tree.after tree.start [.reset])).1 = .done ∧
      tree.pulls (tree.pull (scattered 1) (tree.after tree.start [.reset])).2
        [scattered 3, scattered 4] = [.done, .done] := by
  intro tree
  have hrun : (Operator.scan .all "a" "(a)").mechanism.toMachine.run (scattered 1)
      (Mechanism.dropStep 2) 0 (Operator.scan .all "a" "(a)").mechanism.fresh =
        (.drained, 1, _) :=
    (Machine.run_of_more rfl rfl).trans (Machine.run_of_done rfl)
  have hdone : (tree.pull (scattered 1) (tree.after tree.start [.reset])).1 = .done :=
    congrArg Prod.fst (Mechanism.skipNext_of_drained _ (by decide) hrun)
  exact ⟨hdone, (pulls_after_done _ [.reset] (scattered 1) [scattered 3, scattered 4] hdone).1⟩

end Operator

end Plexus
