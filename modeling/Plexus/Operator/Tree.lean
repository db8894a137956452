import Plexus.Query.Pattern
import Plexus.Query.Row

/-!
# Operator trees

The tree that a query is planned into. Leaves list nodes; every other operator transforms the
rows of its inputs. The outline of a tree has one line per operator, the root first and inputs
indented below the operator that reads them.
-/

namespace Plexus

/-- How a leaf finds its nodes. -/
inductive Access where
  /-- Every live node. -/
  | all
  /-- The members of a label, of which there are none if the label is unknown. -/
  | label (label : Option LabelId)
  /-- The members of a label whose property equals a value. -/
  | index (label : LabelId) (property : PropertyId) (value : Scalar)
  deriving DecidableEq, Repr

/-- The labels that a traversal's end must have. -/
inductive LabelTest where
  | any
  | every (labels : List LabelId)
  /-- A label without a name in the schema, so that no node can have it. -/
  | never
  deriving DecidableEq, Repr

/-- A traversal by one hop. -/
structure Expansion where
  source : String
  target : String
  /-- The variable for the edge. Without one, parallel edges make one row. -/
  edge : Option String
  types : TypeFilter
  direction : Direction
  labels : LabelTest
  pattern : String
  deriving DecidableEq, Repr

/-- A traversal by an interval of hops. -/
structure Reach where
  source : String
  target : String
  traversal : Traversal
  labels : LabelTest
  /-- How many input rows start together; none is taken as one. -/
  batchSize : Nat
  pattern : String
  deriving DecidableEq, Repr

/-- One aggregate column. -/
structure AggregateColumn where
  function : AggregateFunction
  /-- What is aggregated; absent when rows are counted. -/
  argument : Option Expression
  column : String

/-- An expression and the column it is shown under. -/
structure NamedExpression where
  expression : Expression
  column : String

/-- A tree of operators. -/
inductive Operator where
  | scan (access : Access) (name pattern : String)
  | expand (input : Operator) (expansion : Expansion)
  | reach (input : Operator) (reach : Reach)
  | filter (input : Operator) (condition : Expression)
  /-- Every row of the left input with every row of the right one. -/
  | product (left right : Operator)
  | project (input : Operator) (items : List NamedExpression)
  | aggregate (input : Operator) (keys : List NamedExpression) (columns : List AggregateColumn)
  | distinct (input : Operator) (columns : List String)
  | sort (input : Operator) (keys : List OrderItem)
  | skip (input : Operator) (count : Nat)
  | limit (input : Operator) (count : Nat)

namespace Operator

/-- The name of the operator at the root. -/
def name : Operator → String
  | scan .all _ _ => "All Node Scan"
  | scan (.label _) _ _ => "Label Scan"
  | scan (.index _ _ _) _ _ => "Index Scan"
  | expand _ _ => "Conditional Traverse"
  | reach _ _ => "Variable Length Traverse"
  | filter _ _ => "Filter"
  | product _ _ => "Cartesian Product"
  | project _ _ => "Project"
  | aggregate _ _ _ => "Aggregate"
  | distinct _ _ => "Distinct"
  | sort _ _ => "Sort"
  | skip _ _ => "Skip"
  | limit _ _ => "Limit"

/-- The part of the pattern that the root finds, if it is a leaf or a traversal. -/
def pattern? : Operator → Option String
  | scan _ _ pattern => some pattern
  | expand _ e => some e.pattern
  | reach _ r => some r.pattern
  | _ => none

/-- One line on the root. -/
def describe (op : Operator) : String :=
  match op.pattern? with
  | some pattern => op.name ++ " | " ++ pattern
  | none => op.name

/-- The lines of the outline, each with its depth. -/
def outline (depth : Nat) : Operator → List (Nat × Operator)
  | op@(scan _ _ _) => [(depth, op)]
  | op@(product left right) => (depth, op) :: outline (depth + 1) left ++ outline (depth + 1) right
  | op@(expand input _) | op@(reach input _) | op@(filter input _) | op@(project input _)
  | op@(aggregate input _ _) | op@(distinct input _) | op@(sort input _) | op@(skip input _)
  | op@(limit input _) => (depth, op) :: outline (depth + 1) input

/-- All operators, each before its inputs and these from left to right. -/
def preorder (op : Operator) : List Operator := (op.outline 0).map Prod.snd

/-- The names of all operators, each before its inputs. -/
def names (op : Operator) : List String := op.preorder.map name

/-- Some operator in the tree has the name. -/
def uses (op : Operator) (name : String) : Bool := op.names.contains name

/-- One line of the outline, indented by four blanks per level. -/
def outlineLine (depth : Nat) (op : Operator) : String :=
  String.ofList (List.replicate (4 * depth) ' ') ++ op.describe ++ "\n"

/-- The outline as text; every line ends with a line break. -/
def explain (op : Operator) : String :=
  String.join ((op.outline 0).map fun (depth, op) => outlineLine depth op)

end Operator

end Plexus
