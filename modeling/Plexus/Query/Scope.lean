import Plexus.Query.Malformed
import Plexus.Query.Pattern

/-!
# Scope of a query

The pattern of a query declares its variables, and everything else may only use those. A node
variable may appear again in its own path, an edge variable may not, and no variable spans two
paths. Names that start with the reserved mark are left to the planner.
-/

namespace Plexus

/-- What a variable stands for. -/
inductive Role where
  /-- A node of the path at the given position. -/
  | node (path : Nat)
  | edge
  deriving DecidableEq, Repr

/-- The declared variables with their roles. -/
abbrev Scope := Assoc String Role

/-- The mark that begins every name made by the planner. -/
def reservedMark : Char := '@'

/-- The name is one the planner could have made. -/
def isReserved (name : String) : Bool := name.toList.head? = some reservedMark

/-- Names given by a query are not reserved. -/
def checkName (name : String) : Except Malformed Unit :=
  if isReserved name then .error (.reservedName name) else .ok ()

namespace Scope

/-- Declare the variable of a node descriptor on a path. -/
def declareNode (path : Nat) (scope : Scope) (n : NodePattern) : Except Malformed Scope :=
  match n.name with
  | none => .ok scope
  | some name => do
    checkName name
    match scope.get? name with
    | some .edge => throw (.conflictingRoles name)
    | some (.node owner) =>
      if owner = path then return scope else throw (.sharedBetweenPaths name)
    | none => return scope.set name (.node path)

/-- The hop bounds leave a number of hops, and a variable-length descriptor is neither named nor
filtered. -/
def checkHops (e : EdgePattern) : Except Malformed Unit :=
  if e.hops.isEmpty then .error (.hopBounds e.hops.least (e.hops.most.getD 0))
  else if e.isSingle then .ok ()
  else if e.name.isSome then .error .namedVariableLength
  else if !e.properties.isEmpty then .error .filteredVariableLength
  else .ok ()

/-- Declare the variable of an edge descriptor. -/
def declareEdge (scope : Scope) (e : EdgePattern) : Except Malformed Scope := do
  checkHops e
  match e.name with
  | none => return scope
  | some name =>
    checkName name
    match scope.get? name with
    | some _ => throw (.conflictingRoles name)
    | none => return scope.set name .edge

/-- Declare the variables of a path, those of its nodes before those of its edges. -/
def declarePath (scope : Scope) (path : Path) (position : Nat) : Except Malformed Scope := do
  let scope ← path.nodes.foldlM (declareNode position) scope
  path.edges.foldlM declareEdge scope

/-- The variables that a pattern declares. -/
def ofPaths (paths : List Path) : Except Malformed Scope :=
  if paths.isEmpty then .error .noPaths
  else paths.zipIdx.foldlM (fun scope (path, position) => declarePath scope path position) []

/-- An expression uses declared variables in their roles, known functions, and no aggregate. The
enclosing aggregate, if any, is named in the error. -/
def checkExpression (scope : Scope) (inside : Option String) :
    Expression → Except Malformed Unit
  | .ref name | .property name _ =>
    match scope.get? name with
    | some _ => .ok ()
    | none => .error (.undefined name)
  | .hasLabels name _ =>
    match scope.get? name with
    | some (.node _) => .ok ()
    | some .edge => .error (.labelsOfEdge name)
    | none => .error (.undefined name)
  | .literal _ => .ok ()
  | .binary _ left right => do
    checkExpression scope inside left
    checkExpression scope inside right
  | .unary _ operand => checkExpression scope inside operand
  | .call function arguments =>
    if (AggregateFunction.ofName? function).isSome then
      .error (.misplacedAggregate function inside)
    else
      let lowered := function.map Char.toLower
      if lowered ≠ "id" ∧ lowered ≠ "type" then .error (.unknownFunction function)
      else
        match arguments with
        | [.ref name] =>
          match scope.get? name with
          | none => .error (.undefined name)
          | some (.node _) =>
            if lowered = "type" then .error (.badArguments function) else .ok ()
          | some .edge => .ok ()
        | _ => .error (.badArguments function)

/-- The arguments of an aggregate: one expression, or none when counting rows. -/
def checkAggregate (scope : Scope) (function : String) (aggregate : AggregateFunction) :
    List Expression → Except Malformed Unit
  | [] => if aggregate = .count then .ok () else .error (.badArguments function)
  | [e] => checkExpression scope (some function) e
  | _ => .error (.badArguments function)

/-- A returned expression: an aggregate at the top, or an expression without one. -/
def checkReturned (scope : Scope) (e : Expression) : Except Malformed Unit :=
  match e with
  | .call function arguments =>
    match AggregateFunction.ofName? function with
    | some aggregate => checkAggregate scope function aggregate arguments
    | none => checkExpression scope none e
  | _ => checkExpression scope none e

/-- Check the returned items from left to right; columns must not repeat. -/
def checkItems (scope : Scope) (columns : List String) :
    List (ReturnItem × Nat) → Except Malformed (List String)
  | [] => .ok columns
  | (item, position) :: rest => do
    if let some name := item.givenName then checkName name
    checkReturned scope item.expression
    let column := item.column position
    if column ∈ columns then throw (.duplicateColumn column)
    checkItems scope (columns ++ [column]) rest

/-- The columns of the return clause, or else the declared variables. -/
def checkReturn (scope : Scope) : Option Return → Except Malformed (List String)
  | none => if scope.isEmpty then .error .nothingNamed else .ok scope.keys
  | some r =>
    if r.items.isEmpty then .error .nothingReturned else checkItems scope [] r.items.zipIdx

/-- A key to order by is a column, a returned expression, or an expression on the matches, which
are gone after aggregation and after removing equal rows. -/
def checkOrder (scope : Scope) (q : Query) (columns : List String) (item : OrderItem) :
    Except Malformed Unit :=
  let isColumn := match item.expression with
    | .ref name => name ∈ columns
    | _ => false
  let isReturned := q.returns.any fun r => r.items.any fun i =>
    i.expression.isSame item.expression
  if isColumn || isReturned then .ok ()
  else if q.isAggregating || q.isDistinct then .error .orderByUnreturned
  else checkExpression scope none item.expression

end Scope

/-- Check a query without looking at any graph. -/
def Query.validate (q : Query) : Except Malformed Unit := do
  let scope ← Scope.ofPaths q.paths
  if let some condition := q.condition then scope.checkExpression none condition
  let columns ← scope.checkReturn q.returns
  q.orderBy.forM (scope.checkOrder q columns)

end Plexus
