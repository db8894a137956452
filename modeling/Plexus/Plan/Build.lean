import Plexus.Plan.Entry

/-!
# Planning

A query is planned path by path. Each path is entered at one node and walked outward, one
traversal per edge descriptor; paths are combined by products. What the pattern and the condition
ask beyond that waits until its variables are bound and is then put into a filter right away.
On top come aggregation or projection, the removal of equal rows, sorting, and paging.
-/

namespace Plexus

/-- A tree of operators and the columns it is run for. -/
structure Plan where
  root : Operator
  columns : List String

/-- A plan in the making. -/
structure Draft where
  root : Operator
  /-- The variables that the root binds. -/
  bound : List String
  /-- The conditions that no filter tests yet. -/
  pending : List Expression

namespace Draft

/-- All variables that a condition reads are bound. -/
def isReady (bound : List String) (e : Expression) : Bool := e.reads.all (bound.contains ·)

/-- Filter by the conditions that are ready, in order. -/
def filterReady (d : Draft) : Draft :=
  let (ready, others) := d.pending.partition (isReady d.bound)
  match Expression.conjunction? ready with
  | some condition => ⟨.filter d.root condition, d.bound, others⟩
  | none => d

/-- The test that a node has labels, known by their names. -/
def labelTest (schema : Schema) (labels : List String) : LabelTest :=
  if labels.isEmpty then .any
  else
    match labels.mapM schema.labelId? with
    | some ids => .every ids
    | none => .never

/-- The filter for relationship types, known by their names; unknown ones add nothing. -/
def typeFilter (schema : Schema) (types : List String) : TypeFilter :=
  if types.isEmpty then .any else .only (types.filterMap schema.typeId?)

/-- What the pattern asks of the properties along a step. -/
def stepConditions (s : WalkStep) : List Expression :=
  let target := s.target.pattern.properties.map fun (key, value) =>
    Expression.propertyEquals s.target.name key value
  let edge := match s.edge.name with
    | some name => s.edge.pattern.properties.map fun (key, value) =>
      Expression.propertyEquals name key value
    | none => []
  target ++ edge

/-- The traversal for a step. -/
def traverse (g : Graph) (input : Operator) (s : WalkStep) : Operator :=
  let types := typeFilter g.schema s.edge.pattern.types
  let labels := labelTest g.schema s.target.pattern.labels
  if s.edge.pattern.isSingle then
    .expand input
      ⟨s.source.name, s.target.name, s.edge.name, types, s.direction, labels, s.text⟩
  else
    .reach input
      ⟨s.source.name, s.target.name, ⟨types, s.direction, s.edge.pattern.hops⟩, labels,
        g.settings.batchSize, s.text⟩

/-- Walk one step along a path. -/
def step (g : Graph) (d : Draft) (s : WalkStep) : Draft :=
  filterReady
    ⟨traverse g d.root s, d.bound ++ s.target.name :: s.edge.name.toList,
      d.pending ++ stepConditions s⟩

/-- Enter a path and walk it outward. -/
def ofEntry (g : Graph) (entry : Entry) : Draft :=
  let node := entry.focus.node
  let leaf := Operator.scan entry.access node.name (node.pattern.text node.name)
  entry.focus.walk.foldl (step g)
    (filterReady ⟨leaf, [node.name], entry.pending ++ entry.conditions⟩)

/-- Combine with the draft of the next path. -/
def combine (d e : Draft) : Draft :=
  filterReady ⟨.product d.root e.root, d.bound ++ e.bound, e.pending⟩

/-- Combine with the drafts of some further paths, given the first free number for names. -/
def addPaths (g : Graph) (d : Draft) (next : Nat) : List Path → Draft
  | [] => d
  | path :: rest =>
    let (focus, next) := Focus.ofPath path next
    addPaths g (d.combine (ofEntry g (Entry.choose g d.pending focus))) next rest

/-- The draft of a pattern; none without paths. -/
def ofPaths? (g : Graph) (pending : List Expression) : List Path → Option Draft
  | [] => none
  | path :: rest =>
    let (focus, next) := Focus.ofPath path 0
    some (addPaths g (ofEntry g (Entry.choose g pending focus)) next rest)

/-- The operators for the pattern, with a filter for any conditions left over. -/
def finish (d : Draft) : Operator :=
  match Expression.conjunction? d.pending with
  | some condition => .filter d.root condition
  | none => d.root

end Draft

/-- The column that a key to order by refers to, if one is returned. -/
def orderColumn? (items : List ReturnItem) (columns : List String) (e : Expression) :
    Option String :=
  let returned := ((items.zip columns).find? fun (item, _) => item.expression.isSame e).map Prod.snd
  match e with
  | .ref name => if name ∈ columns then some name else returned
  | _ => returned

/-- Refer every key to a column; one that is not returned gets a hidden column. -/
def orderKeys (items : List ReturnItem) (columns : List String) (hidden : List NamedExpression) :
    List OrderItem → List OrderItem × List NamedExpression
  | [] => ([], hidden)
  | item :: rest =>
    match orderColumn? items columns item.expression with
    | some column =>
      let (keys, hidden) := orderKeys items columns hidden rest
      (⟨.ref column, item.ascending⟩ :: keys, hidden)
    | none =>
      let column := internalName "sort" hidden.length
      let (keys, hidden) :=
        orderKeys items columns (hidden ++ [⟨item.expression, column⟩]) rest
      (⟨.ref column, item.ascending⟩ :: keys, hidden)

/-- The aggregate column of a returned item, if it is one. -/
def aggregateColumn? (item : ReturnItem) (column : String) : Option AggregateColumn :=
  match item.expression with
  | .call function arguments =>
    (AggregateFunction.ofName? function).map fun f => ⟨f, arguments.head?, column⟩
  | _ => none

namespace Query

/-- Aggregate or project to the returned columns and the hidden ones. -/
def shape (q : Query) (input : Operator) (hidden : List NamedExpression) : Operator :=
  let named := q.items.zip q.columns
  let expressions := named.map fun (item, column) => NamedExpression.mk item.expression column
  if q.isAggregating then
    .aggregate input (expressions.filter fun e => !e.expression.isAggregate)
      (named.filterMap fun (item, column) => aggregateColumn? item column)
  else .project input (expressions ++ hidden)

/-- The operators for what comes after the pattern. -/
def planReturn (q : Query) (input : Operator) : Operator :=
  let (keys, hidden) := orderKeys q.items q.columns [] q.orderBy
  let shaped := q.shape input hidden
  let unique := if q.isDistinct then shaped.distinct q.columns else shaped
  let sorted := if keys.isEmpty then unique else unique.sort keys
  let skipped := match q.skip with
    | some n => sorted.skip n
    | none => sorted
  match q.limit with
  | some n => skipped.limit n
  | none => skipped

/-- Plan a query for a graph. -/
def plan (q : Query) (g : Graph) : Except Malformed Plan := do
  q.validate
  match Draft.ofPaths? g q.conjuncts q.paths with
  | some draft => return ⟨q.planReturn draft.finish, q.columns⟩
  | none => throw .noPaths

end Query

end Plexus
