/-!
# Malformed queries

Why a query is rejected before it is planned.
-/

namespace Plexus

/-- Why a query is malformed. -/
inductive Malformed where
  | noPaths
  | hopBounds (least most : UInt32)
  | undefined (name : String)
  /-- A variable stands for a node in one place and for an edge in another, or for two edges. -/
  | conflictingRoles (name : String)
  | sharedBetweenPaths (name : String)
  | unknownFunction (name : String)
  | badArguments (function : String)
  /-- An aggregate stands where rows are looked at one by one, perhaps inside another one. -/
  | misplacedAggregate (function : String) (inside : Option String)
  | duplicateColumn (column : String)
  /-- Labels are asked of a variable that stands for an edge. -/
  | labelsOfEdge (name : String)
  | nothingNamed
  | nothingReturned
  | orderByUnreturned
  | namedVariableLength
  | filteredVariableLength
  | reservedName (name : String)
  deriving DecidableEq, Repr

def Malformed.message : Malformed → String
  | noPaths => "Pattern has no paths"
  | hopBounds least most =>
    s!"Invalid hop bounds: minimum {least} is above maximum {most}"
  | undefined name => "Variable `" ++ name ++ "` is not defined"
  | conflictingRoles name =>
    "Variable `" ++ name ++ "` is already declared with a different role"
  | sharedBetweenPaths name => "Variable `" ++ name ++ "` appears in more than one path"
  | unknownFunction name => s!"Unknown function: {name}"
  | badArguments function => s!"Invalid arguments to {function}"
  | misplacedAggregate function none => s!"Aggregate function not allowed here: {function}"
  | misplacedAggregate function (some outer) =>
    s!"Aggregate function not allowed here: {function} inside {outer}"
  | duplicateColumn column => s!"Duplicate column name: {column}"
  | labelsOfEdge name =>
    "Semantic error: label predicate on relationship `" ++ name ++ "`"
  | nothingNamed => "Semantic error: query without RETURN must name at least one variable"
  | nothingReturned => "Semantic error: RETURN needs at least one item"
  | orderByUnreturned =>
    "Semantic error: ORDER BY after aggregation or DISTINCT may only use returned columns"
  | namedVariableLength =>
    "Unsupported feature: binding a variable-length relationship to a variable"
  | filteredVariableLength =>
    "Unsupported feature: property filters on a variable-length relationship"
  | reservedName name => "Name `" ++ name ++ "` uses the reserved prefix '@'"

end Plexus
