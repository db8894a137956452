import Plexus.Graph.Basic
import Plexus.Query.Expression

/-!
# Query values

What a variable of a query can stand for: a node, an edge, or a property value, of which null is
also the value of a variable that has none. Nodes and edges travel as identifiers; their data
stays in the graph. Three notions of sameness live here. Predicates compare with `holds?`, which
is unknown for null. Grouping uses `isSame`, an equivalence that folds the two zeros and all NaNs,
and hashes what `hashed` lists. Sorting uses `order`, which is total.
-/

namespace Plexus

/-- The value of a variable. -/
inductive Value where
  | node (id : NodeId)
  | edge (id : EdgeId)
  | scalar (s : Scalar)
  deriving DecidableEq, Repr

/-- One item that a hasher is fed. -/
inductive HashItem where
  /-- Which alternative something is, counted from zero. -/
  | alternative (position : Nat)
  | word (w : Nat)
  | flag (b : Bool)
  | text (s : String)
  deriving DecidableEq, Repr

/-- What a hasher is fed for a property value. Numbers that grouping folds are fed as one. -/
def Scalar.hashed : Scalar → List HashItem
  | null => [.alternative 0]
  | boolean b => [.alternative 1, .flag b]
  | number x => [.alternative 2, .word x.canonical.bits.toNat]
  | text s => [.alternative 3, .text s]

namespace Value

def null : Value := scalar .null

def boolean (b : Bool) : Value := scalar (.boolean b)

def isNull : Value → Bool
  | scalar s => s.isNull
  | _ => false

def node? : Value → Option NodeId
  | node id => some id
  | _ => none

def edge? : Value → Option EdgeId
  | edge id => some id
  | _ => none

/-- The property value, if there is one that is not null. -/
def scalar? : Value → Option Scalar
  | scalar .null => none
  | scalar s => some s
  | _ => none

/-- The name of a value's kind in messages. -/
def kindName : Value → String
  | node _ => "Node"
  | edge _ => "Relationship"
  | scalar s => s.kindName

/-- One value for all that grouping does not tell apart. -/
def canonical : Value → Value
  | scalar s => scalar s.canonical
  | v => v

/-- Grouping does not tell the values apart. -/
def isSame (a b : Value) : Bool := a.canonical = b.canonical

/-- What a hasher is fed for a value. -/
def hashed : Value → List HashItem
  | node id => [.alternative 0, .word id.index]
  | edge id => [.alternative 1, .word id.index]
  | scalar .null => [.alternative 3]
  | scalar s => .alternative 2 :: s.hashed

/-- Place of a value's kind in the sort order. -/
def sortRank : Value → Nat
  | node _ => 0
  | edge _ => 1
  | scalar .null => 3
  | scalar _ => 2

/-- The total order that sorting uses: nodes, edges, property values, and null last. -/
def order : Value → Value → Ordering
  | node a, node b => compare a b
  | edge a, edge b => compare a b
  | scalar a, scalar b => a.order b
  | a, b => compare a.sortRank b.sortRank

/-- An ordering is one that the operator asks for. -/
def fits (op : BinaryOp) (o : Ordering) : Bool :=
  match op with
  | .eq => o = .eq
  | .ne => o ≠ .eq
  | .lt => o = .lt
  | .le => o ≠ .gt
  | .gt => o = .gt
  | .ge => o ≠ .lt
  | .and | .or => false

/-- The answer of an equality operator, given whether the operands are equal. Nodes and edges
have no order, so that every other operator has no answer. -/
def ofEquality (op : BinaryOp) (equal : Bool) : Option Bool :=
  match op with
  | .eq => some equal
  | .ne => some !equal
  | _ => none

/-- The answer of a comparison of property values. -/
def compareScalars (op : BinaryOp) (a b : Scalar) : Option Bool :=
  match op with
  | .eq => a.equals b
  | .ne => (a.equals b).map (!·)
  | _ => (a.compare? b).map (fits op)

/-- The answer of a comparison; unknown if an operand is null or the operands have no order. -/
def holds? (op : BinaryOp) : Value → Value → Option Bool
  | scalar .null, _ | _, scalar .null => none
  | node a, node b => ofEquality op (a = b)
  | edge a, edge b => ofEquality op (a = b)
  | scalar a, scalar b => compareScalars op a b
  | _, _ => ofEquality op false

/-- The fields of a property map by name. -/
def propertiesToJson (schema : Schema) (properties : PropertyMap) : Json :=
  Json.ofFields (properties.toList.map fun (key, value) =>
    ((schema.propertyName? key).getD "", value.toJson))

/-- A value as hosts see it: nodes and edges with their stored data, and null for dead ones. -/
def toJson (g : Graph) : Value → Json
  | node id =>
    match g.node? id with
    | none => .null
    | some n => Json.ofFields [
        ("id", .natural id.index),
        ("labels", .array ((n.labels.toList.filterMap g.schema.labelName?).map .text)),
        ("properties", propertiesToJson g.schema n.properties)]
  | edge id =>
    match g.edge? id with
    | none => .null
    | some e => Json.ofFields [
        ("id", .natural id.index),
        ("type", ((g.schema.typeName? e.relationType).map .text).getD .null),
        ("source", .natural e.source.index),
        ("target", .natural e.target.index),
        ("properties", propertiesToJson g.schema e.properties)]
  | scalar s => s.toJson

end Value

end Plexus
