import Plexus.Operator.Stage
import Plexus.Plan.Build
import Plexus.Text.Literal

/-!
# Running plans

A plan is run by pulling its root until it is drained; a fault ends the run without an answer.
A cursor is a plan that is being run: it can be pulled row by row while the graph changes in
between, rewound, and at last run to its end.
-/

namespace Plexus

/-- A plan that is being run. -/
structure Cursor where
  root : Operator
  columns : List String
  state : root.machine.State

namespace Cursor

/-- A plan before its first row. -/
def ofPlan (p : Plan) : Cursor := ⟨p.root, p.columns, p.root.machine.start⟩

/-- Pull the root once. -/
def pull (c : Cursor) (g : Graph) : Pull × Cursor :=
  let (given, state) := c.root.machine.pull g c.state
  (given, { c with state })

/-- Pull the root a number of times, also past its end and past faults. -/
def pullMany (c : Cursor) (g : Graph) : Nat → List Pull × Cursor
  | 0 => ([], c)
  | n + 1 =>
    let (given, c) := c.pull g
    let (others, c) := pullMany c g n
    (given :: others, c)

/-- Start again from the first row. -/
def rewind (c : Cursor) : Cursor := { c with state := c.root.machine.rewind c.state }

/-- All rows that are left, under the columns; helper columns are dropped. -/
def finish (c : Cursor) (g : Graph) : Except QueryFault Table :=
  match c.root.machine.collect g #[] c.state with
  | (.drained, rows, _) => .ok ⟨rows.toList.map (·.project c.columns), c.columns⟩
  | (.failed fault, _, _) => .error fault

end Cursor

namespace Plan

/-- Run a plan from its start. -/
def execute (p : Plan) (g : Graph) : Except QueryFault Table := (Cursor.ofPlan p).finish g

/-- The outline of the operators. -/
def explain (p : Plan) : String := p.root.explain

/-- The names of the operators and the columns on one line. -/
def dump (p : Plan) : String :=
  "ExecutionPlan \x7b operators: " ++ Text.literals p.root.names ++ ", output_columns: " ++
    Text.literals p.columns ++ " \x7d"

end Plan

namespace Query

/-- Plan a query and run it. -/
def execute (q : Query) (g : Graph) : Except QueryFault Table :=
  match q.plan g with
  | .ok p => p.execute g
  | .error reason => .error (.malformed reason)

/-- The outline of the plan of a query. -/
def explain (q : Query) (g : Graph) : Except QueryFault String :=
  match q.plan g with
  | .ok p => .ok p.explain
  | .error reason => .error (.malformed reason)

end Query

end Plexus
