import Plexus.Query.Malformed
import Plexus.Query.Row

/-!
# Evaluation of expressions

An expression has a value on a row. Logic is three-valued: a comparison with null is unknown, and
so is what depends on it, except that false decides a conjunction and true a disjunction. A left
operand that decides leaves the right one unread. Asking for a boolean, a property or labels of
something that has none is a type fault, which ends the query.
-/

namespace Plexus

/-- An operation met a value of the wrong kind, whose name comes last. -/
inductive TypeFault where
  /-- The place that wants a boolean. -/
  | notBoolean (context kind : String)
  | noLabels (kind : String)
  | noProperties (key kind : String)
  | badArgument (function kind : String)
  /-- A traversal starts from the variable. -/
  | notNode (name kind : String)
  deriving DecidableEq, Repr

def TypeFault.message : TypeFault → String
  | notBoolean context kind => s!"{context} expects a boolean, got {kind}"
  | noLabels kind => s!"label predicate on a {kind}"
  | noProperties key kind => "cannot read property `" ++ key ++ "` of a " ++ kind
  | badArgument function kind => s!"{function}() of a {kind}"
  | notNode name kind => s!"{name} is a {kind}, not a node"

/-- A call that no row can answer. -/
inductive CallFault where
  | argumentCount (function : String) (count : Nat)
  /-- The function has no value on a single row. -/
  | notPerRow (function : String)
  deriving DecidableEq, Repr

def CallFault.message : CallFault → String
  | argumentCount function count => s!"{function} expects one argument, got {count}"
  | notPerRow function => s!"function {function} cannot be evaluated per record"

/-- Why a query gives no answer. -/
inductive QueryFault where
  | malformed (reason : Malformed)
  | graph (fault : GraphFault)
  | type (fault : TypeFault)
  | call (fault : CallFault)
  | unbound (name : String)
  /-- There can be no block of memory for a batch of rows. The run breaks off. -/
  | noRoom
  deriving DecidableEq, Repr

def QueryFault.message : QueryFault → String
  | malformed reason => s!"Parse error: {reason.message}"
  | graph fault => s!"Graph error: {fault.message}"
  | type fault => s!"Type error: {fault.message}"
  | call fault => s!"Runtime error: {fault.message}"
  | unbound name => s!"Variable not found: {name}"
  | noRoom => "capacity overflow"

/-- A truth value, absent when unknown. -/
abbrev Truth := Option Bool

namespace Truth

def not (a : Truth) : Truth := a.map (!·)

/-- False decides; otherwise unknown wins over true. -/
def and : Truth → Truth → Truth
  | some false, _ | _, some false => some false
  | some true, some true => some true
  | _, _ => none

/-- True decides; otherwise unknown wins over false. -/
def or : Truth → Truth → Truth
  | some true, _ | _, some true => some true
  | some false, some false => some false
  | _, _ => none

/-- The truth value as a value. -/
def toValue : Truth → Value
  | some b => .boolean b
  | none => .null

end Truth

namespace Value

/-- The truth value that a value stands for where a boolean is wanted. -/
def truth (v : Value) (context : String) : Except QueryFault Truth :=
  match v with
  | scalar .null => .ok none
  | scalar (.boolean b) => .ok (some b)
  | other => .error (.type (.notBoolean context other.kindName))

end Value

/-- A result of the graph as a result of the query. -/
def liftGraph {α : Type} : Except GraphFault α → Except QueryFault α
  | .ok a => .ok a
  | .error fault => .error (.graph fault)

namespace Expression

/-- The value of a variable. -/
def lookup (row : Row) (name : String) : Except QueryFault Value :=
  match row.get? name with
  | some v => .ok v
  | none => .error (.unbound name)

/-- A property of a value by name; null if it has none. -/
def readProperty (g : Graph) (target : Value) (key : String) : Except QueryFault Value :=
  match target with
  | .node id => do
    let n ← liftGraph (g.node id)
    return .scalar (((g.schema.propertyId? key).bind n.property?).getD .null)
  | .edge id => do
    let e ← liftGraph (g.edge id)
    return .scalar (((g.schema.propertyId? key).bind e.property?).getD .null)
  | .scalar .null => .ok .null
  | .scalar s => .error (.type (.noProperties key s.kindName))

/-- A node has every one of the named labels. -/
def readLabels (g : Graph) (target : Value) (labels : List String) : Except QueryFault Value :=
  match target with
  | .node id => do
    let n ← liftGraph (g.node id)
    return .boolean (labels.all fun l => (g.schema.labelId? l).any n.hasLabel)
  | .scalar .null => .ok .null
  | other => .error (.type (.noLabels other.kindName))

/-- The value of a function on the value of its argument; null on null. -/
def callOn (g : Graph) (function : String) (argument : Value) : Except QueryFault Value :=
  let lowered := function.map Char.toLower
  match argument with
  | .scalar .null => .ok .null
  | .node id =>
    if lowered = "id" then .ok (.scalar (.number (.ofNat id.index)))
    else if lowered = "type" then .error (.type (.badArgument lowered argument.kindName))
    else .error (.call (.notPerRow function))
  | .edge id =>
    if lowered = "id" then .ok (.scalar (.number (.ofNat id.index)))
    else if lowered = "type" then do
      let e ← liftGraph (g.edge id)
      return .scalar (.text ((g.schema.typeName? e.relationType).getD ""))
    else .error (.call (.notPerRow function))
  | .scalar _ =>
    if lowered = "id" ∨ lowered = "type" then
      .error (.type (.badArgument lowered argument.kindName))
    else .error (.call (.notPerRow function))

mutual

/-- The value of an expression on a row. -/
def evaluate (g : Graph) (row : Row) : Expression → Except QueryFault Value
  | ref name => lookup row name
  | property name key => do readProperty g (← lookup row name) key
  | literal value => .ok (.scalar value)
  | hasLabels name labels => do readLabels g (← lookup row name) labels
  | binary .and left right => do
    let l ← (← evaluate g row left).truth "AND"
    if l = some false then return .boolean false
    let r ← (← evaluate g row right).truth "AND"
    return (Truth.and l r).toValue
  | binary .or left right => do
    let l ← (← evaluate g row left).truth "OR"
    if l = some true then return .boolean true
    let r ← (← evaluate g row right).truth "OR"
    return (Truth.or l r).toValue
  | binary op left right => do
    let l ← evaluate g row left
    let r ← evaluate g row right
    return Truth.toValue (l.holds? op r)
  | unary .not operand => do
    return (Truth.not (← (← evaluate g row operand).truth "NOT")).toValue
  | unary .isNull operand => do return .boolean (← evaluate g row operand).isNull
  | unary .isNotNull operand => do return .boolean !(← evaluate g row operand).isNull
  | call function arguments => evaluateCall g row function arguments

/-- The value of a call on a row; only calls with one argument have one. -/
def evaluateCall (g : Graph) (row : Row) (function : String) :
    List Expression → Except QueryFault Value
  | [e] => do callOn g function (← evaluate g row e)
  | arguments => .error (.call (.argumentCount function arguments.length))

end

/-- The condition is true on a row; unknown is not enough. -/
def isMatch (g : Graph) (row : Row) (condition : Expression) : Except QueryFault Bool := do
  return (← (← condition.evaluate g row).truth "WHERE").getD false

end Expression

end Plexus
