import Plexus.Graph.Fault

/-!
# Arenas

Records live in numbered slots. A slot is reserved, live or a tombstone; it only ever moves
forward in that list, so the number of a deleted record is never given out again. The number of
live slots is kept beside the slots.
-/

namespace Plexus

/-- One place for a record. -/
inductive Slot (α : Type) where
  /-- Allocated and not yet written. -/
  | reserved
  | live (record : α)
  /-- Retired for good. -/
  | tombstone
  deriving DecidableEq, Repr

/-- The record of a live slot. -/
def Slot.record? {α : Type} : Slot α → Option α
  | .live r => some r
  | .reserved | .tombstone => none

/-- Slots in order of allocation. -/
structure Arena (α : Type) where
  slots : Array (Slot α)
  /-- How many slots are live. -/
  live : Nat
  deriving DecidableEq, Repr

namespace Arena

variable {α : Type}

def empty : Arena α := ⟨#[], 0⟩

/-- How many slots were ever allocated; the number of the next one. -/
def capacity (a : Arena α) : Nat := a.slots.size

/-- The record in a slot, if it is live. -/
def get? (a : Arena α) (slot : Nat) : Option α := a.slots[slot]?.bind Slot.record?

def isLive (a : Arena α) (slot : Nat) : Bool := (a.get? slot).isSome

def isTombstone (a : Arena α) (slot : Nat) : Bool :=
  match a.slots[slot]? with
  | some .tombstone => true
  | _ => false

/-- Allocate a slot without a record. -/
def allocate (a : Arena α) : Arena α × Nat := (⟨a.slots.push .reserved, a.live⟩, a.capacity)

/-- Allocate a slot that holds a record. -/
def insert (a : Arena α) (record : α) : Arena α × Nat :=
  (⟨a.slots.push (.live record), a.live + 1⟩, a.capacity)

/-- Allocate a slot that is retired from the start. -/
def pushTombstone (a : Arena α) : Arena α × Nat := (⟨a.slots.push .tombstone, a.live⟩, a.capacity)

/-- The record in a slot. -/
def read (a : Arena α) (slot : Nat) : Except GraphFault α :=
  match a.get? slot with
  | some r => .ok r
  | none => .error (.outOfRange slot)

/-- Change the record of a live slot. -/
def modify (a : Arena α) (slot : Nat) (f : α → α) : Except GraphFault (Arena α) :=
  match a.get? slot with
  | some r => .ok { a with slots := a.slots.setIfInBounds slot (.live (f r)) }
  | none => .error (.outOfRange slot)

/-- Put a record into a reserved or live slot; gives the record that was there. -/
def write (a : Arena α) (slot : Nat) (record : α) : Except GraphFault (Arena α × Option α) :=
  match a.slots[slot]? with
  | some (.live old) =>
    .ok ({ a with slots := a.slots.setIfInBounds slot (.live record) }, some old)
  | some .reserved => .ok (⟨a.slots.setIfInBounds slot (.live record), a.live + 1⟩, none)
  | some .tombstone | none => .error (.outOfRange slot)

/-- Retire a reserved or live slot; gives the record that was there. -/
def free (a : Arena α) (slot : Nat) : Except GraphFault (Arena α × Option α) :=
  match a.slots[slot]? with
  | some (.live old) => .ok (⟨a.slots.setIfInBounds slot .tombstone, a.live - 1⟩, some old)
  | some .reserved => .ok ({ a with slots := a.slots.setIfInBounds slot .tombstone }, none)
  | some .tombstone | none => .error (.outOfRange slot)

/-- The live slots with their records, in ascending order. -/
def entries (a : Arena α) : List (Nat × α) :=
  a.slots.toList.zipIdx.filterMap fun (s, i) => s.record?.map (i, ·)

/-- The live records in ascending order of slot. -/
def records (a : Arena α) : List α := a.slots.toList.filterMap Slot.record?

end Arena

end Plexus
