import Std.Data.ExtTreeSet

/-!
# Identifiers

Every identifier is a position: of a record in its arena, or of a name in its name table. The
kind of thing it stands for is part of its type, so a node's identifier cannot be used for an
edge. Identifiers are ordered by position, and that order is lawful, so that they can key the
ordered maps and sets of the store.
-/

namespace Plexus

/-- What an identifier stands for. -/
inductive Kind where
  | node
  | edge
  | label
  | relationType
  | property
  deriving DecidableEq, Repr

/-- How identifiers of a kind are called in messages. -/
def Kind.idName : Kind → String
  | .node => "NodeId"
  | .edge => "EdgeId"
  | .label => "LabelId"
  | .relationType => "RelationTypeId"
  | .property => "PropertyId"

/-- The identifier of one thing of the given kind. -/
structure Id (kind : Kind) where
  /-- Position in the arena or name table of that kind. -/
  index : Nat
  deriving DecidableEq, Repr

/-- Identifies a node record. -/
abbrev NodeId := Id .node

/-- Identifies an edge record. -/
abbrev EdgeId := Id .edge

/-- Identifies an interned node label. -/
abbrev LabelId := Id .label

/-- Identifies an interned relationship type. -/
abbrev TypeId := Id .relationType

/-- Identifies an interned property name. -/
abbrev PropertyId := Id .property

namespace Id

variable {kind : Kind}

/-- Identifiers are ordered by position. -/
instance : Ord (Id kind) := ⟨compareOn Id.index⟩

instance : Std.TransOrd (Id kind) :=
  inferInstanceAs (Std.TransCmp (compareOn (@Id.index kind)))

instance : Std.LawfulEqOrd (Id kind) where
  eq_of_compare {a b} h := by
    cases a
    cases b
    exact congrArg Id.mk (Std.LawfulEqOrd.eq_of_compare h)

instance : LT (Id kind) := ⟨fun a b => a.index < b.index⟩

instance : LE (Id kind) := ⟨fun a b => a.index ≤ b.index⟩

instance (a b : Id kind) : Decidable (a < b) := inferInstanceAs (Decidable (a.index < b.index))

instance (a b : Id kind) : Decidable (a ≤ b) := inferInstanceAs (Decidable (a.index ≤ b.index))

/-- The identifier as messages show it, such as NodeId(3). -/
def text (id : Id kind) : String := s!"{kind.idName}({id.index})"

end Id

end Plexus
