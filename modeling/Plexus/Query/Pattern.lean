import Plexus.Assoc
import Plexus.Query.Expression
import Plexus.Traversal

/-!
# Patterns and queries

A query matches a pattern of paths, filters the matches, and returns, orders and pages them. A
path alternates between node and edge descriptors. An edge descriptor without hop bounds stands
for exactly one hop; with bounds, an absent lower bound is one and an absent upper bound is none.
-/

namespace Plexus

/-- What a node on a path must look like. -/
structure NodePattern where
  /-- The variable it is bound to. -/
  name : Option String
  /-- The node has all of these. -/
  labels : List String
  /-- Each property equals its value. -/
  properties : Assoc String Scalar

/-- The bounds written on an edge descriptor. -/
structure HopBounds where
  least : Option UInt32
  most : Option UInt32
  deriving DecidableEq, Repr

/-- What an edge on a path must look like. -/
structure EdgePattern where
  /-- The variable it is bound to. -/
  name : Option String
  /-- The edge has one of these, or any type if there are none. -/
  types : List String
  direction : Direction
  bounds : Option HopBounds
  /-- Each property equals its value. -/
  properties : Assoc String Scalar

/-- The numbers of hops an edge descriptor stands for. -/
def EdgePattern.hops (e : EdgePattern) : HopInterval :=
  match e.bounds with
  | none => .single
  | some b => ⟨b.least.getD 1, b.most⟩

/-- Exactly one hop, by default or by its bounds. -/
def EdgePattern.isSingle (e : EdgePattern) : Bool := e.hops.isSingle

/-- A path: a node, then edges that each lead to another node. -/
structure Path where
  start : NodePattern
  steps : List (EdgePattern × NodePattern)

/-- The node descriptors from left to right. -/
def Path.nodes (p : Path) : List NodePattern := p.start :: p.steps.map Prod.snd

/-- The edge descriptors from left to right. -/
def Path.edges (p : Path) : List EdgePattern := p.steps.map Prod.fst

/-- One column to return. -/
structure ReturnItem where
  expression : Expression
  /-- The column name that the query gives it. -/
  givenName : Option String

/-- What a query returns. -/
structure Return where
  items : List ReturnItem
  /-- Equal rows are returned once. -/
  distinct : Bool

/-- One key to order by. -/
structure OrderItem where
  expression : Expression
  ascending : Bool

/-- A query. Without a return clause it returns every variable that its pattern names. -/
structure Query where
  paths : List Path
  condition : Option Expression
  returns : Option Return
  orderBy : List OrderItem
  skip : Option Nat
  limit : Option Nat

namespace ReturnItem

/-- The column of an item: its alias, the name of its expression, or its position. -/
def column (item : ReturnItem) (position : Nat) : String :=
  match item.givenName with
  | some name => name
  | none => item.expression.columnName?.getD s!"col_{position}"

end ReturnItem

/-- The columns of some items. -/
def columnsOf (items : List ReturnItem) : List String :=
  items.zipIdx.map fun (item, position) => item.column position

namespace Query

/-- The variables that the pattern names, in the order in which they are written. -/
def namedVariables (q : Query) : List String :=
  (q.paths.flatMap fun p =>
    p.start.name.toList ++
      p.steps.flatMap fun (e, n) => e.name.toList ++ n.name.toList).eraseDups

/-- The items a query returns; without a return clause, its named variables. -/
def items (q : Query) : List ReturnItem :=
  match q.returns with
  | some r => r.items
  | none => q.namedVariables.map fun v => ⟨.ref v, none⟩

/-- Equal rows are returned once. -/
def isDistinct (q : Query) : Bool := q.returns.any (·.distinct)

/-- The columns a query returns. -/
def columns (q : Query) : List String := columnsOf q.items

/-- Some returned column is an aggregate. -/
def isAggregating (q : Query) : Bool := q.items.any (·.expression.isAggregate)

/-- The conjuncts of the condition. -/
def conjuncts (q : Query) : List Expression :=
  match q.condition with
  | some e => e.conjuncts
  | none => []

end Query

end Plexus
