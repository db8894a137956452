import Plexus.Query.Evaluation

/-!
# Machines that give rows

A machine gives its rows one by one and can be continued later, perhaps on a changed graph. What
makes running one total is its order on states: on one graph, giving a row leads to a state
strictly ahead, and no state is ahead of another for ever. `run` pulls a machine until it is
drained, fails, or the rows seen so far are enough.
-/

namespace Plexus

/-- What a machine gives when it is pulled. -/
inductive Pull where
  | row (r : Row)
  /-- There are no more rows. -/
  | done
  | failed (fault : QueryFault)

/-- A resumable source of rows. -/
structure Machine where
  State : Type
  /-- The state before the first pull. -/
  start : State
  pull : Graph → State → Pull × State
  /-- The state from which the rows are given again. -/
  rewind : State → State
  /-- On a graph, the first state is closer to the last row than the second. -/
  Ahead : Graph → State → State → Prop
  ahead_wf : ∀ g, WellFounded (Ahead g)
  ahead_trans : ∀ g s t u, Ahead g s t → Ahead g t u → Ahead g s u
  ahead_of_pull : ∀ {g s r s'}, pull g s = (.row r, s') → Ahead g s' s

/-- Why a run of a machine ended. -/
inductive Halt (β : Type) where
  | drained
  | failed (fault : QueryFault)
  /-- The rows seen were enough for a result. -/
  | enough (result : β)

namespace Machine

variable {α β : Type}

/-- Pull rows and feed them to a step until it has a result. Gives the reason for the end, what
the step accumulated, and the state reached. -/
def run (m : Machine) (g : Graph) (step : α → Row → α × Option β) (a : α) (s : m.State) :
    Halt β × α × m.State :=
  match _h : m.pull g s with
  | (.done, s') => (.drained, a, s')
  | (.failed fault, s') => (.failed fault, a, s')
  | (.row r, s') =>
    match step a r with
    | (a', some b) => (.enough b, a', s')
    | (a', none) => m.run g step a' s'
termination_by (m.ahead_wf g).wrap s
decreasing_by exact m.ahead_of_pull _h

/-- A run that stops on a row ends strictly ahead. -/
theorem ahead_of_run (m : Machine) {g : Graph} {step : α → Row → α × Option β} {a a' : α}
    {s s' : m.State} {b : β} (h : m.run g step a s = (.enough b, a', s')) : m.Ahead g s' s := by
  fun_induction m.run g step a s with
  | case1 => simp at h
  | case2 => simp at h
  | case3 a s r t hp c b' hs =>
    simp only [Prod.mk.injEq] at h
    exact h.2.2 ▸ m.ahead_of_pull hp
  | case4 a s r t hp c hs ih => exact m.ahead_trans _ _ _ _ (ih h) (m.ahead_of_pull hp)

/-- Pull all rows and put them together. -/
def collect (m : Machine) (g : Graph) (rows : Array Row) (s : m.State) :
    Halt Empty × Array Row × m.State :=
  m.run g (fun rows r => (rows.push r, none)) rows s

end Machine

end Plexus
