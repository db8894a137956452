import Plexus.Matrix

/-!
# Traversals

A traversal follows edges of some types in one direction and pairs each start with every node
that it reaches in a number of hops from an interval. Levels below the least number of hops are
computed exactly. From there on only pairs not seen before are followed further, because where a
pair leads depends on its end alone. Every round adds a pair or is the last one, so the number of
possible pairs bounds the number of rounds.
-/

namespace Plexus

/-- Which relationship types a traversal follows. -/
inductive TypeFilter where
  /-- Every type. -/
  | any
  /-- The listed types; none if the list is empty. -/
  | only (types : List TypeId)
  deriving DecidableEq, Repr

def TypeFilter.allows : TypeFilter → TypeId → Bool
  | any, _ => true
  | only types, t => types.contains t

/-- How many hops a traversal takes. -/
structure HopInterval where
  least : UInt32
  /-- No upper bound if absent. -/
  most : Option UInt32
  deriving DecidableEq, Repr

namespace HopInterval

/-- Exactly one hop. -/
def single : HopInterval := ⟨1, some 1⟩

def isSingle (i : HopInterval) : Bool := i = single

/-- No number of hops is in the interval. -/
def isEmpty (i : HopInterval) : Bool := i.most.any (· < i.least)

/-- More hops than the given number are allowed. -/
def allowsMoreThan (i : HopInterval) (hops : UInt32) : Bool := i.most.all (hops < ·)

end HopInterval

/-- What a traversal follows, and how far. -/
structure Traversal where
  types : TypeFilter
  direction : Direction
  hops : HopInterval
  deriving DecidableEq, Repr

/-- One hop from source to target. -/
def Traversal.singleHop (types : TypeFilter) : Traversal := ⟨types, .outgoing, .single⟩

namespace Relation

/-- Follow every pair by exactly the given number of hops. -/
def advanceBy (hop : Hop) (sharingThreshold : Nat) : Nat → Relation → Relation
  | 0, r => r
  | n + 1, r =>
    if r.isEmpty then r else advanceBy hop sharingThreshold n (r.compose hop sharingThreshold)

/-- Add what the frontier leads to until nothing is new or the interval ends. The hop count is a
machine word, and the first argument bounds the number of rounds. -/
def saturate (hop : Hop) (sharingThreshold : Nat) (interval : HopInterval) :
    Nat → UInt32 → Relation → Relation → Relation
  | 0, _, result, _ => result
  | rounds + 1, hops, result, frontier =>
    if frontier.isEmpty || !interval.allowsMoreThan hops then result
    else
      let next := (frontier.compose hop sharingThreshold).difference result
      if next.isEmpty then result
      else saturate hop sharingThreshold interval rounds (hops + 1) (result.union next) next

end Relation

/-- The pairs of a start and a node that it reaches within an interval of hops. -/
def MatrixView.reach (v : MatrixView) (starts : List NodeId) (interval : HopInterval)
    (sharingThreshold : Nat) : Relation :=
  if interval.isEmpty then .empty
  else
    let level := (Relation.identity starts).advanceBy v.hop sharingThreshold interval.least.toNat
    level.saturate v.hop sharingThreshold interval (level.rows.size * v.endBound) interval.least
      level

end Plexus
