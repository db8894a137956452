import Plexus.Scalar

/-!
# Expressions

The expressions of a query: variables, their properties and labels, literals, comparisons, the
three-valued logic, and calls. The functions here read an expression without evaluating it: which
variables it reads, whether it aggregates, and what its column is called.
-/

namespace Plexus

/-- An operator with two operands. -/
inductive BinaryOp where
  | eq
  | ne
  | lt
  | le
  | gt
  | ge
  | and
  | or
  deriving DecidableEq, Repr

/-- The operator compares values and is not a connective. -/
def BinaryOp.isComparison : BinaryOp → Bool
  | .and | .or => false
  | _ => true

/-- An operator with one operand. -/
inductive UnaryOp where
  | not
  | isNull
  | isNotNull
  deriving DecidableEq, Repr

/-- A function over all rows of a group. -/
inductive AggregateFunction where
  | count
  | sum
  | avg
  | min
  | max
  deriving DecidableEq, Repr

namespace AggregateFunction

/-- The name of a function in lower case. -/
def text : AggregateFunction → String
  | count => "count"
  | sum => "sum"
  | avg => "avg"
  | min => "min"
  | max => "max"

/-- All functions. -/
def all : List AggregateFunction := [count, sum, avg, min, max]

/-- The function with a name, in which the case of the letters A to Z does not matter. -/
def ofName? (name : String) : Option AggregateFunction :=
  all.find? fun f => f.text = name.map Char.toLower

end AggregateFunction

/-- Two literals stand for the same column: they are of one kind and equal as predicates say,
except that null is the same as null. -/
def Scalar.isSameLiteral : Scalar → Scalar → Bool
  | .null, .null => true
  | a, b => a.equals b = some true

/-- An expression of a query. -/
inductive Expression where
  /-- The value of a variable. -/
  | ref (name : String)
  /-- A property of the node or edge that a variable stands for. -/
  | property (name key : String)
  | literal (value : Scalar)
  | binary (op : BinaryOp) (left right : Expression)
  | unary (op : UnaryOp) (operand : Expression)
  /-- A call; counting rows has no arguments. -/
  | call (name : String) (arguments : List Expression)
  /-- The node has every listed label. -/
  | hasLabels (name : String) (labels : List String)

namespace Expression

/-- The property of a variable equals a literal. -/
def propertyEquals (name key : String) (value : Scalar) : Expression :=
  binary .eq (property name key) (literal value)

/-- The conjunction of a list of expressions, nested to the left. -/
def conjunction? : List Expression → Option Expression
  | [] => none
  | e :: rest => some (rest.foldl (binary .and) e)

/-- The expressions that a predicate is a conjunction of, from left to right. -/
def conjuncts : Expression → List Expression
  | binary .and left right => conjuncts left ++ conjuncts right
  | e => [e]

/-- The expression is a call of an aggregate function. -/
def aggregate? : Expression → Option AggregateFunction
  | call name _ => AggregateFunction.ofName? name
  | _ => none

def isAggregate (e : Expression) : Bool := e.aggregate?.isSome

mutual

/-- The variables an expression reads, with repeats. -/
def occurrences : Expression → List String
  | ref name => [name]
  | property name _ => [name]
  | hasLabels name _ => [name]
  | literal _ => []
  | binary _ left right => occurrences left ++ occurrences right
  | unary _ operand => occurrences operand
  | call _ arguments => occurrencesAll arguments

/-- The variables that some expressions read, with repeats. -/
def occurrencesAll : List Expression → List String
  | [] => []
  | e :: rest => occurrences e ++ occurrencesAll rest

end

/-- The variables an expression reads, in order of first appearance. -/
def reads (e : Expression) : List String := e.occurrences.eraseDups

mutual

/-- An aggregate function is called somewhere in the expression. -/
def containsAggregate : Expression → Bool
  | call name arguments =>
    (AggregateFunction.ofName? name).isSome || anyContainsAggregate arguments
  | binary _ left right => containsAggregate left || containsAggregate right
  | unary _ operand => containsAggregate operand
  | ref _ | property _ _ | literal _ | hasLabels _ _ => false

/-- An aggregate function is called somewhere in some of the expressions. -/
def anyContainsAggregate : List Expression → Bool
  | [] => false
  | e :: rest => containsAggregate e || anyContainsAggregate rest

end

mutual

/-- What a column with the expression is called, if it has a name of its own. -/
def columnName? : Expression → Option String
  | ref name => some name
  | property name key => some s!"{name}.{key}"
  | call name [] => some s!"{name}(*)"
  | call name arguments => (columnNames? arguments).map fun names =>
    name ++ "(" ++ ", ".intercalate names ++ ")"
  | literal _ | binary _ _ _ | unary _ _ | hasLabels _ _ => none

/-- The column names of all expressions, if each has one. -/
def columnNames? : List Expression → Option (List String)
  | [] => some []
  | e :: rest =>
    match columnName? e, columnNames? rest with
    | some name, some names => some (name :: names)
    | _, _ => none

end

mutual

/-- Both expressions are written the same way. A literal NaN is never the same as itself. -/
def isSame : Expression → Expression → Bool
  | ref a, ref b => a = b
  | property a k, property b l => a = b && k = l
  | literal a, literal b => a.isSameLiteral b
  | binary o a b, binary p c d => o = p && isSame a c && isSame b d
  | unary o a, unary p b => o = p && isSame a b
  | call f as, call g bs => f = g && areSame as bs
  | hasLabels a ls, hasLabels b ms => a = b && ls = ms
  | _, _ => false

/-- The expressions of both lists are written the same way, one by one. -/
def areSame : List Expression → List Expression → Bool
  | [], [] => true
  | a :: as, b :: bs => isSame a b && areSame as bs
  | _, _ => false

end

end Expression

end Plexus
