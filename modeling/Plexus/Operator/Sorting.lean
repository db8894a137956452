import Plexus.Operator.Aggregation

/-!
# Sorting rows

Rows are ordered by the values of their sort keys, the first key first. A null comes last whether
a key ascends or descends. Rows with equal keys stay in the order in which they came.
-/

namespace Plexus

/-- A row with the values of its sort keys. -/
structure KeyedRow where
  key : List Value
  row : Row
  deriving DecidableEq, Repr

/-- The order of two values of one sort key. -/
def compareKey (ascending : Bool) (a b : Value) : Ordering :=
  match a.isNull, b.isNull with
  | true, false => .gt
  | false, true => .lt
  | _, _ => if ascending then a.order b else (a.order b).swap

/-- The order of two lists of key values: the first key that tells them apart decides. -/
def compareKeys : List OrderItem → List Value → List Value → Ordering
  | item :: items, a :: as, b :: bs =>
    (compareKey item.ascending a b).then (compareKeys items as bs)
  | _, _, _ => .eq

/-- The row with the values of its sort keys. -/
def KeyedRow.of (g : Graph) (keys : List OrderItem) (row : Row) : Except QueryFault KeyedRow := do
  return ⟨← evaluateAll g row (keys.map (·.expression)), row⟩

/-- The rows in order, equal ones as they came. -/
def sortRows (keys : List OrderItem) (rows : List KeyedRow) : List Row :=
  (rows.mergeSort fun a b => compareKeys keys a.key b.key ≠ .gt).map (·.row)

/-- The row of some expressions, each under its column. -/
def projectRow (g : Graph) (items : List NamedExpression) (row : Row) : Except QueryFault Row := do
  let values ← evaluateAll g row (items.map (·.expression))
  return (items.zip values).foldl (fun r (item, v) => r.bind item.column v) Row.empty

end Plexus
