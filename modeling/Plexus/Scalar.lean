import Plexus.Json

/-!
# Property values

A property value is null, a boolean, a number or a text. Predicates compare values with
`equals` and `compare?`: a null makes the answer unknown, values of different kinds are unequal
and unordered, and numbers compare numerically. Sorting uses `order`, which is total: booleans,
numbers by rank, texts by code point, and null last.
-/

namespace Plexus

/-- A value stored as a property of a node or an edge. -/
inductive Scalar where
  | null
  | boolean (b : Bool)
  | number (x : Double)
  | text (s : String)
  deriving DecidableEq, Repr

namespace Scalar

def isNull : Scalar → Bool
  | null => true
  | _ => false

def boolean? : Scalar → Option Bool
  | boolean b => some b
  | _ => none

def number? : Scalar → Option Double
  | number x => some x
  | _ => none

def text? : Scalar → Option String
  | text s => some s
  | _ => none

/-- The name of a value's kind in messages. -/
def kindName : Scalar → String
  | null => "Null"
  | boolean _ => "Boolean"
  | number _ => "Number"
  | text _ => "Text"

/-- Predicate equality; unknown when an operand is null. -/
def equals : Scalar → Scalar → Option Bool
  | null, _ | _, null => none
  | boolean a, boolean b => some (a == b)
  | number x, number y => some (x.equals y)
  | text s, text t => some (s == t)
  | _, _ => some false

/-- Predicate order; unknown for nulls, NaNs and values of different kinds. -/
def compare? : Scalar → Scalar → Option Ordering
  | boolean a, boolean b => some (compare a b)
  | number x, number y => x.compare? y
  | text s, text t => some (compare s t)
  | _, _ => none

/-- Place of a value's kind in the sort order. -/
def sortRank : Scalar → Nat
  | boolean _ => 0
  | number _ => 1
  | text _ => 2
  | null => 3

/-- The total order that sorting uses. -/
def order : Scalar → Scalar → Ordering
  | boolean a, boolean b => compare a b
  | number x, number y => compare x y
  | text s, text t => compare s t
  | a, b => compare a.sortRank b.sortRank

/-- One value for all that grouping does not tell apart: the zeros, and the NaNs. -/
def canonical : Scalar → Scalar
  | number x => number x.canonical
  | a => a

/-- A value as messages show it; a text stands between quotes and is not escaped. -/
def display : Scalar → String
  | null => "null"
  | boolean b => if b then "true" else "false"
  | number x => x.text
  | text s => "\"" ++ s ++ "\""

/-- A value as a literal of a pattern, where texts are escaped. -/
def literal : Scalar → String
  | text s => Text.quoted s
  | a => a.display

/-- A value as hosts see it; infinities and NaN have no rendering but null. -/
def toJson : Scalar → Json
  | null => .null
  | boolean b => .boolean b
  | number x => if x.isFinite then .number x else .null
  | text s => .text s

end Scalar

end Plexus
