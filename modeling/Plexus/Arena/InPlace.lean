import Plexus.Arena

/-!
# Changing an arena in place

The operations once more, as programs that work on one arena step by step. What is put into a slot
is there before anyone looks at what it held, and the live slots are counted by that. A fault undoes
nothing, so that a refused operation leaves the arena as it was is not built in here.
-/

namespace Plexus

/-- A program that changes an arena in place. Where it fails, the changes made so far remain. -/
abbrev Action (α : Type) := EStateM GraphFault (Arena α)

namespace Action

variable {α : Type}

/-- Count one more live slot. -/
def gain : Action α Unit := modify fun a => { a with live := a.live + 1 }

/-- Count one live slot less. -/
def lose : Action α Unit := modify fun a => { a with live := a.live - 1 }

/-- Add a slot at the end. -/
def push (s : Slot α) : Action α Unit := modify fun a => { a with slots := a.slots.push s }

/-- The number of the slot that was added last. -/
def latest : Action α Nat := return (← get).slots.size - 1

/-- Put something into a slot that is reserved or live; gives what was there. -/
def replace (slot : Nat) (s : Slot α) : Action α (Slot α) := do
  match (← get).slots[slot]? with
  | none | some .tombstone => throw (.outOfRange slot)
  | some old =>
    modify fun a => { a with slots := a.slots.setIfInBounds slot s }
    return old

def allocate : Action α Nat := do
  push .reserved
  latest

def insert (record : α) : Action α Nat := do
  push (.live record)
  gain
  latest

def pushTombstone : Action α Nat := do
  push .tombstone
  latest

def free (slot : Nat) : Action α (Option α) := do
  match ← replace slot .tombstone with
  | .live old =>
    lose
    return some old
  | .reserved | .tombstone => return none

def write (slot : Nat) (record : α) : Action α (Option α) := do
  match ← replace slot (.live record) with
  | .live old => return some old
  | .reserved | .tombstone =>
    gain
    return none

def read (slot : Nat) : Action α α := do
  match (← get).slots[slot]? with
  | some (.live record) => return record
  | _ => throw (.outOfRange slot)

/-- Change the record that is read; gives it as it was. -/
def alter (slot : Nat) (f : α → α) : Action α α := do
  let record ← read slot
  modify fun a => { a with slots := a.slots.setIfInBounds slot (.live (f record)) }
  return record

end Action

end Plexus
