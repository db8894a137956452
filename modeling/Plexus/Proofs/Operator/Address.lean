import Mathlib.Data.List.Nodup
import Plexus.Operator.Tree

/-!
# Places in a tree of operators

An operator in a tree is found by the inputs that lead to it from the root. So one can say of a tree
what its operators bind, which conditions its filters test, and which of two operators is above the
other, without taking equal operators in different places for one.
-/

namespace Plexus

/-- The way from the root of a tree to one of its operators, as the position of an input at each
operator on the way. -/
abbrev Address := List Nat

/-- A condition and the operator that takes care of it. -/
structure Placed where
  address : Address
  condition : Expression

/-- The same operator seen from one that has the tree as an input. -/
def Placed.below (position : Nat) (p : Placed) : Placed := ⟨position :: p.address, p.condition⟩

namespace Placed

variable {l : List Placed} {a : Address} {e : Expression} {i position : Nat}

/-- Nothing that is placed below an operator is placed at it. -/
@[simp]
theorem not_mem_map_below : ⟨[], e⟩ ∉ l.map (below position) := by
  rw [List.mem_map]
  rintro ⟨p, -, heq⟩
  cases heq

/-- What is placed below an operator is placed in the input that its address names first. -/
@[simp]
theorem mem_map_below : ⟨i :: a, e⟩ ∈ l.map (below position) ↔ i = position ∧ ⟨a, e⟩ ∈ l := by
  rw [List.mem_map]
  constructor
  · rintro ⟨p, hp, heq⟩
    cases heq
    exact ⟨rfl, hp⟩
  · rintro ⟨rfl, hmem⟩
    exact ⟨_, hmem, rfl⟩

/-- Placing conditions further down does not change the conditions. -/
theorem map_condition_below : (l.map (below position)).map condition = l.map condition := by
  rw [List.map_map]
  rfl

theorem map_condition_root (es : List Expression) :
    (es.map (Placed.mk [])).map condition = es := by
  rw [List.map_map]
  exact List.map_id es

/-- Addresses stay distinct when all of them go one input further down. -/
theorem nodup_address_below :
    ((l.map (below position)).map address).Nodup ↔ (l.map address).Nodup := by
  have hcons : ((l.map (below position)).map address) = (l.map address).map (position :: ·) := by
    rw [List.map_map, List.map_map]
    rfl
  rw [hcons, List.nodup_map_iff List.cons_injective]

end Placed

namespace Operator

/-- The inputs of the root, from left to right. -/
def inputs : Operator → List Operator
  | scan _ _ _ => []
  | product left right => [left, right]
  | expand input _ | reach input _ | filter input _ | project input _ | aggregate input _ _
  | distinct input _ | sort input _ | skip input _ | limit input _ => [input]

/-- The operator at an address, if there is one. -/
def at? (op : Operator) : Address → Option Operator
  | [] => some op
  | i :: rest => op.inputs[i]?.bind (at? · rest)

/-- The variables that the rows of a tree bind. -/
def bindings : Operator → List String
  | scan _ name _ => [name]
  | expand input e => input.bindings ++ e.target :: e.edge.toList
  | reach input r => input.bindings ++ [r.target]
  | product left right => left.bindings ++ right.bindings
  | project _ items => items.map (·.column)
  | aggregate _ keys columns => keys.map (·.column) ++ columns.map (·.column)
  | filter input _ | distinct input _ | sort input _ | skip input _ | limit input _ =>
    input.bindings

/-- The conditions that the filters of a tree test, conjunct by conjunct. -/
def tests : Operator → List Placed
  | scan _ _ _ => []
  | filter input condition => condition.conjuncts.map (⟨[], ·⟩) ++ input.tests.map (.below 0)
  | product left right => left.tests.map (.below 0) ++ right.tests.map (.below 1)
  | expand input _ | reach input _ | project input _ | aggregate input _ _ | distinct input _
  | sort input _ | skip input _ | limit input _ => input.tests.map (.below 0)

variable {op input : Operator} {a : Address} {e : Expression}

theorem at?_cons (op : Operator) (i : Nat) (rest : Address) :
    op.at? (i :: rest) = op.inputs[i]?.bind (at? · rest) := rfl

/-- An operator other than a filter tests what its only input tests. -/
theorem tests_of_inputs (h : op.inputs = [input]) (hfilter : ∀ c, op ≠ .filter input c) :
    op.tests = input.tests.map (.below 0) := by
  cases op <;> cases h <;> first | rfl | exact absurd rfl (hfilter _)

private theorem mem_tests_nil :
    ⟨[], e⟩ ∈ op.tests ↔ ∃ input c, op = .filter input c ∧ e ∈ c.conjuncts := by
  cases op <;> simp [tests, and_assoc]

private theorem mem_tests_cons {i : Nat} :
    ⟨i :: a, e⟩ ∈ op.tests ↔ ∃ input, op.inputs[i]? = some input ∧ ⟨a, e⟩ ∈ input.tests := by
  cases op with
  | scan access name text => simp [tests, inputs]
  | product left right =>
    rcases i with _ | _ | i <;> simp [tests, inputs]
  | _ => cases i <;> simp [tests, inputs]

/-- A condition is tested at an address if there is a filter with the condition as a conjunct. -/
theorem mem_tests : ⟨a, e⟩ ∈ op.tests ↔
    ∃ input c, op.at? a = some (.filter input c) ∧ e ∈ c.conjuncts := by
  induction a generalizing op with
  | nil => simp only [mem_tests_nil, at?, Option.some.injEq]
  | cons i rest ih =>
    simp only [mem_tests_cons, ih, at?_cons, Option.bind_eq_some_iff]
    constructor
    · rintro ⟨next, hnext, input, c, hat, he⟩
      exact ⟨input, c, ⟨next, hnext, hat⟩, he⟩
    · rintro ⟨input, c, ⟨next, hnext, hat⟩, he⟩
      exact ⟨next, hnext, input, c, hat, he⟩

end Operator

end Plexus
