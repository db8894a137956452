import Plexus.Identifier

/-!
# Schema

Labels, relationship types and property names are interned: each of the three parts of the
schema has its own name table, which only grows, and an identifier is the position of a name in
its table. No table repeats a name, so looking up a name and resolving an identifier undo each
other.
-/

namespace Plexus

/-- Distinct names in the order in which they were first seen. -/
structure NameTable where
  names : List String
  nodup : names.Nodup
  deriving DecidableEq

namespace NameTable

def empty : NameTable := ⟨[], List.nodup_nil⟩

/-- The table of a list of names, unless a name repeats. -/
def ofList? (names : List String) : Option NameTable :=
  if h : names.Nodup then some ⟨names, h⟩ else none

def size (t : NameTable) : Nat := t.names.length

/-- The position of a name. -/
def lookup? (t : NameTable) (name : String) : Option Nat := t.names.idxOf? name

/-- The name at a position. -/
def resolve? (t : NameTable) (position : Nat) : Option String := t.names[position]?

/-- The table with a name at its end, if it is new. -/
def insert (t : NameTable) (name : String) : NameTable :=
  if h : name ∈ t.names then t
  else ⟨t.names ++ [name], by
    rw [List.nodup_append]
    exact ⟨t.nodup, by simp, fun a ha b hb e => h (by simp_all)⟩⟩

/-- The position of a name, which is added at the end if it is new. -/
def intern (t : NameTable) (name : String) : NameTable × Nat :=
  match t.lookup? name with
  | some position => (t, position)
  | none => (t.insert name, t.size)

end NameTable

/-- The names that a graph uses, in three parts. -/
structure Schema where
  labels : NameTable
  relationTypes : NameTable
  properties : NameTable
  deriving DecidableEq

namespace Schema

/-- The parts of a schema. -/
inductive Part where
  | label
  | relationType
  | property
  deriving DecidableEq, Repr

/-- What the identifiers of a part stand for. -/
@[reducible] def Part.kind : Part → Kind
  | .label => .label
  | .relationType => .relationType
  | .property => .property

/-- What the names of a part are called. -/
def Part.text : Part → String
  | .label => "label"
  | .relationType => "relationship type"
  | .property => "property"

def empty : Schema := ⟨.empty, .empty, .empty⟩

/-- The schema with the given tables, unless one of them repeats a name. -/
def ofTables? (labels relationTypes properties : List String) : Option Schema := do
  return ⟨← NameTable.ofList? labels, ← NameTable.ofList? relationTypes,
    ← NameTable.ofList? properties⟩

/-- The name table of a part. -/
def table (s : Schema) : Part → NameTable
  | .label => s.labels
  | .relationType => s.relationTypes
  | .property => s.properties

/-- The schema with another name table for a part. -/
def withTable (s : Schema) (part : Part) (t : NameTable) : Schema :=
  match part with
  | .label => { s with labels := t }
  | .relationType => { s with relationTypes := t }
  | .property => { s with properties := t }

/-- The identifier of a name in a part. -/
def lookup? (s : Schema) (part : Part) (name : String) : Option (Id part.kind) :=
  ((s.table part).lookup? name).map Id.mk

/-- The name of an identifier of a part. -/
def resolve? (s : Schema) (part : Part) (id : Id part.kind) : Option String :=
  (s.table part).resolve? id.index

/-- The identifier of a name, which is added to its part if it is new. -/
def intern (s : Schema) (part : Part) (name : String) : Schema × Id part.kind :=
  let (t, position) := (s.table part).intern name
  (s.withTable part t, ⟨position⟩)

def labelId? (s : Schema) (name : String) : Option LabelId := s.lookup? .label name

def typeId? (s : Schema) (name : String) : Option TypeId := s.lookup? .relationType name

def propertyId? (s : Schema) (name : String) : Option PropertyId := s.lookup? .property name

def labelName? (s : Schema) (id : LabelId) : Option String := s.resolve? .label id

def typeName? (s : Schema) (id : TypeId) : Option String := s.resolve? .relationType id

def propertyName? (s : Schema) (id : PropertyId) : Option String := s.resolve? .property id

end Schema

end Plexus
