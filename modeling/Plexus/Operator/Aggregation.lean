import Plexus.Double.Arithmetic
import Plexus.Operator.Tree
import Plexus.Query.Evaluation

/-!
# Grouping and aggregates

Rows with the same values of the grouping keys form a group; groups are kept in the order in
which they were first seen, each with the key values seen first. Every aggregate column has an
accumulator per group. Nulls leave an accumulator alone.
-/

namespace Plexus

/-- What an aggregate has gathered so far. -/
inductive Accumulator where
  | count (n : Nat)
  | sum (total : Double)
  | avg (total : Double) (n : Nat)
  | min (least : Option Scalar)
  | max (greatest : Option Scalar)
  deriving DecidableEq, Repr

namespace Accumulator

/-- The accumulator of an empty group. -/
def fresh : AggregateFunction → Accumulator
  | .count => count 0
  | .sum => sum .zero
  | .avg => avg .zero 0
  | .min => min none
  | .max => max none

/-- The function an accumulator belongs to. -/
def function : Accumulator → AggregateFunction
  | count _ => .count
  | sum _ => .sum
  | avg _ _ => .avg
  | min _ => .min
  | max _ => .max

/-- The value as a number. -/
def numberOf (function : AggregateFunction) (v : Value) : Except QueryFault Double :=
  match v with
  | .scalar (.number x) => .ok x
  | other => .error (.type (.badArgument function.text other.kindName))

/-- The value as a property value. -/
def scalarOf (function : AggregateFunction) (v : Value) : Except QueryFault Scalar :=
  match v with
  | .scalar s => .ok s
  | other => .error (.type (.badArgument function.text other.kindName))

/-- The value to keep of an old one and a new one, which wins if it compares as wanted. -/
def keep (wanted : Ordering) (old : Option Scalar) (new : Scalar) : Option Scalar :=
  match old with
  | some s => if new.order s = wanted then some new else some s
  | none => some new

/-- Take in a row without looking at it. -/
def tick : Accumulator → Accumulator
  | count n => count (n + 1)
  | acc => acc

/-- Take in a value. -/
def add (acc : Accumulator) (v : Value) : Except QueryFault Accumulator :=
  if v.isNull then .ok acc
  else
    match acc with
    | count n => .ok (count (n + 1))
    | sum total => do return sum (total + (← numberOf .sum v))
    | avg total n => do return avg (total + (← numberOf .avg v)) (n + 1)
    | min least => do return min (keep .lt least (← scalarOf .min v))
    | max greatest => do return max (keep .gt greatest (← scalarOf .max v))

/-- The value of the aggregate. -/
def result : Accumulator → Value
  | count n => .scalar (.number (.ofNat n))
  | sum total => .scalar (.number total)
  | avg total n => if n = 0 then .null else .scalar (.number (total / .ofNat n))
  | min least => .scalar (least.getD .null)
  | max greatest => .scalar (greatest.getD .null)

end Accumulator

/-- The values of some expressions on a row, from left to right. -/
def evaluateAll (g : Graph) (row : Row) : List Expression → Except QueryFault (List Value)
  | [] => .ok []
  | e :: rest => do
    let v ← e.evaluate g row
    let vs ← evaluateAll g row rest
    return v :: vs

/-- A group: the key values seen first, and one accumulator per aggregate column. -/
structure Group where
  key : List Value
  accumulators : List Accumulator
  deriving DecidableEq, Repr

/-- Groups in the order in which they were first seen, by canonical key values. -/
abbrev Groups := Assoc (List Value) Group

namespace Groups

/-- Take a row into the accumulators of its group. -/
def addRow (g : Graph) (row : Row) :
    List AggregateColumn → List Accumulator → Except QueryFault (List Accumulator)
  | column :: columns, acc :: accs => do
    let acc ← match column.argument with
      | some e => do acc.add (← e.evaluate g row)
      | none => .ok acc.tick
    let accs ← addRow g row columns accs
    return acc :: accs
  | _, accs => .ok accs

/-- Take a row into its group, which is made if the row is its first. -/
def add (g : Graph) (keys : List NamedExpression) (columns : List AggregateColumn)
    (groups : Groups) (row : Row) : Except QueryFault Groups := do
  let key ← evaluateAll g row (keys.map (·.expression))
  let name := key.map Value.canonical
  let group := (groups.get? name).getD ⟨key, columns.map fun c => .fresh c.function⟩
  let accumulators ← addRow g row columns group.accumulators
  return groups.set name { group with accumulators }

/-- The row of a group. -/
def toRow (keys : List NamedExpression) (columns : List AggregateColumn) (group : Group) : Row :=
  let row := (keys.zip group.key).foldl (fun r (k, v) => r.bind k.column v) Row.empty
  (columns.zip group.accumulators).foldl (fun r (c, acc) => r.bind c.column acc.result) row

/-- The rows of all groups. Without keys there is one group even if there are no rows. -/
def rows (keys : List NamedExpression) (columns : List AggregateColumn) (groups : Groups) :
    List Row :=
  let groups := if groups.isEmpty && keys.isEmpty then
      [([], ⟨[], columns.map fun c => .fresh c.function⟩)]
    else groups
  groups.map fun (_, group) => toRow keys columns group

end Groups

end Plexus
