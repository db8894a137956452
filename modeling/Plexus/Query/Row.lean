import Plexus.Assoc
import Plexus.Query.Value

/-!
# Rows and tables

A row binds names to values in the order in which they were bound. A table is what a query
returns: rows under columns, in which a column that a row does not bind is null.
-/

namespace Plexus

/-- Names bound to values. -/
structure Row where
  bindings : Assoc String Value
  deriving DecidableEq, Repr

namespace Row

def empty : Row := ⟨[]⟩

def get? (r : Row) (name : String) : Option Value := r.bindings.get? name

def binds (r : Row) (name : String) : Bool := (r.get? name).isSome

/-- The row with a name bound to a value, in its old place if it was bound before. -/
def bind (r : Row) (name : String) (value : Value) : Row := ⟨r.bindings.set name value⟩

/-- The bindings of both rows, of which the second one's count for names bound in both. -/
def merge (r s : Row) : Row := ⟨r.bindings.setAll s.bindings⟩

/-- The value of a name, or null. -/
def value (r : Row) (name : String) : Value := (r.get? name).getD .null

/-- The values of some columns. -/
def values (r : Row) (columns : List String) : List Value := columns.map r.value

/-- The bound ones among some columns, in their order. -/
def project (r : Row) (columns : List String) : Row :=
  columns.foldl (fun acc c =>
    match r.get? c with
    | some v => acc.bind c v
    | none => acc) .empty

def size (r : Row) : Nat := r.bindings.length

def isEmpty (r : Row) : Bool := r.bindings.isEmpty

end Row

/-- Rows under columns. -/
structure Table where
  rows : List Row
  columns : List String
  deriving DecidableEq, Repr

namespace Table

/-- The values of every row in column order. -/
def cells (t : Table) : List (List Value) := t.rows.map (·.values t.columns)

/-- One column across all rows. -/
def column (t : Table) (name : String) : List Value := t.rows.map (·.value name)

/-- The rows as objects keyed by column. -/
def toJson (g : Graph) (t : Table) : Json :=
  .array (t.rows.map fun r => Json.ofFields (t.columns.map fun c => (c, (r.value c).toJson g)))

end Table

end Plexus
