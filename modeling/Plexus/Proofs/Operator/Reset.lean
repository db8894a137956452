import Plexus.Graph.Change
import Plexus.Proofs.Operator.Mechanism

/-!
# Resetting operators

After a reset an operator tree gives what it gave when it had just been built, whatever was pulled
before and on whatever graphs, past its end and past faults. A reset need not bring back the fields
of the new tree; it brings back what they show.
-/

namespace Plexus

/-- A call of an operator that may change what it keeps. -/
inductive Call where
  | next (g : Graph)
  | reset

namespace Machine

/-- The state after a call. -/
def call (m : Machine) (s : m.State) : Call → m.State
  | .next g => (m.pull g s).2
  | .reset => m.rewind s

/-- The state after some calls. -/
def after (m : Machine) (s : m.State) : List Call → m.State
  | [] => s
  | c :: rest => m.after (m.call s c) rest

/-- What pulls on some graphs give, one after the other. -/
def pulls (m : Machine) (s : m.State) : List Graph → List Pull
  | [] => []
  | g :: rest => (m.pull g s).1 :: m.pulls (m.pull g s).2 rest

end Machine

namespace Mechanism

variable {m : Machine} (k : Mechanism m) (f : k.Fields)

/-- A call on the fields of an operator shows as the call on its machine. -/
theorem call_view (c : Call) : m.call (k.view f) c = k.view (k.toMachine.call f c) := by
  cases c with
  | next g => exact congrArg Prod.snd (k.pull_view g f)
  | reset => exact k.rewind_view f

/-- Calls change what is shown as they change the state that it is. -/
theorem after_view (calls : List Call) :
    m.after (k.view f) calls = k.view (k.toMachine.after f calls) := by
  induction calls generalizing f with
  | nil => rfl
  | cons c rest ih => exact (congrArg (m.after · rest) (k.call_view f c)).trans (ih _)

/-- What pulls give depends on what is shown alone. -/
theorem pulls_view (graphs : List Graph) :
    m.pulls (k.view f) graphs = k.toMachine.pulls f graphs := by
  induction graphs generalizing f with
  | nil => rfl
  | cons g rest ih =>
    have hpull := k.pull_view g f
    calc m.pulls (k.view f) (g :: rest)
        = (m.pull g (k.view f)).1 :: m.pulls (m.pull g (k.view f)).2 rest := rfl
      _ = (k.next g f).1 :: m.pulls (k.view (k.next g f).2) rest := by rw [hpull]; rfl
      _ = (k.next g f).1 :: k.toMachine.pulls (k.next g f).2 rest := by rw [ih]
      _ = k.toMachine.pulls f (g :: rest) := rfl

end Mechanism

namespace Operator

/-- An operator tree with all that its operators keep. -/
def mechanism : (op : Operator) → Mechanism op.machine
  | scan access name _ => .scan access name
  | expand input e => input.mechanism.expand e
  | reach input r => input.mechanism.reach r
  | filter input condition => input.mechanism.filter condition
  | product left right => left.mechanism.product right.mechanism
  | project input items => input.mechanism.project items
  | aggregate input keys columns => input.mechanism.aggregate keys columns
  | distinct input columns => input.mechanism.distinct columns
  | sort input keys => input.mechanism.sort keys
  | skip input count => input.mechanism.skip count
  | limit input count => input.mechanism.limit count

/-- Rewinding gives the state before the first pull, down to the leaves. -/
theorem rewind_machine (op : Operator) (s : op.machine.State) :
    op.machine.rewind s = op.machine.start := by
  induction op with
  | scan access name pattern => rfl
  | expand input e ih => exact congrArg (Machine.ExpandState.mk · []) (ih s.input)
  | reach input r ih => exact congrArg (Machine.ReachState.mk · false []) (ih s.input)
  | filter input condition ih => exact ih s
  | product left right ihl ihr =>
    show Machine.ProductState.mk (left.machine.rewind s.left) (right.machine.rewind s.right) #[]
      false [] = _
    rw [ihl, ihr]
    rfl
  | project input items ih => exact ih s
  | aggregate input keys columns ih => exact congrArg (Machine.GatherState.mk · none) (ih s.input)
  | distinct input columns ih => exact congrArg (Machine.DistinctState.mk · []) (ih s.input)
  | sort input keys ih => exact congrArg (Machine.GatherState.mk · none) (ih s.input)
  | skip input count ih => exact congrArg (Machine.CountState.mk · 0) (ih s.input)
  | limit input count ih => exact congrArg (Machine.CountState.mk · 0) (ih s.input)

/-- Whatever the fields are, after a reset they show the state before the first pull. -/
theorem view_reset (op : Operator) (f : op.mechanism.Fields) :
    op.mechanism.view (op.mechanism.reset f) = op.mechanism.view op.mechanism.fresh := by
  rw [← op.mechanism.rewind_view, op.rewind_machine, op.mechanism.view_fresh]

/-- After any calls and a reset, an operator tree gives on any graphs what it gives when it has just
been built. So does its machine, which gives the same as the tree at any time. -/
theorem pulls_reset (op : Operator) (earlier : List Call) (later : List Graph) :
    let tree := op.mechanism.toMachine
    tree.pulls (tree.rewind (tree.after tree.start earlier)) later = tree.pulls tree.start later ∧
      op.machine.pulls (op.machine.rewind (op.machine.after op.machine.start earlier)) later =
        op.machine.pulls op.machine.start later ∧
      op.machine.pulls (op.machine.after op.machine.start earlier) later =
        tree.pulls (tree.after tree.start earlier) later := by
  intro tree
  have hpulls (f : op.mechanism.Fields) :
      op.machine.pulls (op.mechanism.view f) later = tree.pulls f later :=
    op.mechanism.pulls_view f later
  have hafter : op.machine.after op.machine.start earlier =
      op.mechanism.view (tree.after tree.start earlier) := by
    rw [← op.mechanism.view_fresh]
    exact op.mechanism.after_view _ earlier
  refine ⟨?_, ?_, ?_⟩
  · calc tree.pulls (tree.rewind (tree.after tree.start earlier)) later
        = op.machine.pulls (op.mechanism.view (op.mechanism.reset (tree.after tree.start earlier)))
            later := (hpulls _).symm
      _ = op.machine.pulls (op.mechanism.view op.mechanism.fresh) later :=
        congrArg (op.machine.pulls · later) (op.view_reset _)
      _ = tree.pulls tree.start later := hpulls _
  · rw [op.rewind_machine]
  · rw [hafter]
    exact hpulls _

/-- A reset leaf keeps its old list, which is not seen any more. -/
example : ((Operator.scan .all "n" "(n)").mechanism.toMachine.after
    (Operator.scan .all "n" "(n)").mechanism.fresh
      [.next (Graph.empty {} |>.createNode [] []).1, .reset]).nodes = [⟨0⟩] := by
  decide +kernel

end Operator

end Plexus
