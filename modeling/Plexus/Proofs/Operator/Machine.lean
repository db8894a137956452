import Plexus.Operator.Machine

/-!
# Runs of machines

A run goes on as the next pull says: it ends when the machine does, and a row that is not enough
is followed by the run from the state after it. A machine that can be drained gives a list of rows.
-/

namespace Plexus.Machine

variable {m : Machine} {g h : Graph} {α β : Type} {step : α → Row → α × Option β} {a a' : α}
variable {s s' : m.State} {r : Row} {b : β}

/-- A run ends when the machine has no more rows. -/
theorem run_of_done (hp : m.pull g s = (.done, s')) : m.run g step a s = (.drained, a, s') := by
  rw [run]
  split
  · rename_i heq
    cases hp.symm.trans heq
    rfl
  · rename_i heq
    cases hp.symm.trans heq
  · rename_i heq
    cases hp.symm.trans heq

/-- A run fails when a pull of the machine does. -/
theorem run_of_failed {fault : QueryFault} (hp : m.pull g s = (.failed fault, s')) :
    m.run g step a s = (.failed fault, a, s') := by
  rw [run]
  split
  · rename_i heq
    cases hp.symm.trans heq
  · rename_i heq
    cases hp.symm.trans heq
    rfl
  · rename_i heq
    cases hp.symm.trans heq

/-- A row that is enough ends the run. -/
theorem run_of_enough (hp : m.pull g s = (.row r, s')) (hstep : step a r = (a', some b)) :
    m.run g step a s = (.enough b, a', s') := by
  rw [run]
  split
  · rename_i heq
    cases hp.symm.trans heq
  · rename_i heq
    cases hp.symm.trans heq
  · rename_i heq
    cases hp.symm.trans heq
    simp only [hstep]

/-- A row that is not enough is followed by the run from there. -/
theorem run_of_more (hp : m.pull g s = (.row r, s')) (hstep : step a r = (a', none)) :
    m.run g step a s = m.run g step a' s' := by
  rw [run]
  split
  · rename_i heq
    cases hp.symm.trans heq
  · rename_i heq
    cases hp.symm.trans heq
  · rename_i heq
    cases hp.symm.trans heq
    simp only [hstep]

/-- What holds of the accumulated value at the end of a run: one thing if the rows were not enough,
and another if they were. -/
def Accumulates {σ : Type} (P : α → Prop) (Q : α → β → Prop) : Halt β × α × σ → Prop
  | (.enough b, a, _) => Q a b
  | (.drained, a, _) | (.failed _, a, _) => P a

/-- What a step carries on as long as the rows are not enough holds at the end of a run. -/
theorem accumulates_run {P : α → Prop} {Q : α → β → Prop} (ha : P a)
    (hmore : ∀ a r a', P a → step a r = (a', none) → P a')
    (henough : ∀ a r a' b, P a → step a r = (a', some b) → Q a' b) :
    Accumulates P Q (m.run g step a s) := by
  fun_induction m.run g step a s with
  | case1 => exact ha
  | case2 => exact ha
  | case3 a s r s' hp a' b hstep => exact henough a r a' b ha hstep
  | case4 a s r s' hp a' hstep ih => exact ih (hmore a r a' ha hstep)

/-- From a state on, a machine gives exactly these rows and is then drained. -/
inductive Gives (m : Machine) (g : Graph) : m.State → List Row → Prop where
  | done {s s' : m.State} : m.pull g s = (.done, s') → Gives m g s []
  | row {s s' : m.State} {r : Row} {rows : List Row} :
      m.pull g s = (.row r, s') → Gives m g s' rows → Gives m g s (r :: rows)

end Plexus.Machine
