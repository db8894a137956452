import Plexus.Proofs.Graph.Reachable
import Plexus.Proofs.Operator.Gives
import Plexus.Proofs.Query.Valuation

/-!
# Conditions in several filters

A condition is true on a row exactly if all its conjuncts are, although a conjunct that is false can
keep others from failing. Filters above one another test a row condition by condition, up to the
first one that is not true. So if the conjuncts are shared out among filters in any way, these let
through what the condition lets through, as far as none of them fails.
-/

namespace Plexus

namespace Expression

variable {g : Graph} {r : Row}

/-- A row passes a condition exactly if it passes each of its conjuncts. -/
theorem isMatch_iff_conjuncts (p : Expression) :
    p.isMatch g r = .ok true ↔ ∀ c ∈ p.conjuncts, c.isMatch g r = .ok true := by
  simp only [isMatch_eq_true]
  induction p using conjuncts.induct with
  | case1 left right hleft hright =>
    rw [conjuncts, List.forall_mem_append, evaluate_and, hleft, hright]
  | case2 p hne => rw [conjuncts.eq_2 _ hne, List.forall_mem_singleton]

/-- A row passes the conjunction of some conditions exactly if it passes each of them. -/
theorem isMatch_conjunction? {es : List Expression} {c : Expression}
    (h : conjunction? es = some c) :
    c.isMatch g r = .ok true ↔ ∀ e ∈ es, e.isMatch g r = .ok true := by
  simp only [isMatch_eq_true, evaluate_conjunction? h]

/-- A row passes conjunctions of some conditions exactly if it passes each of these. -/
theorem isMatch_conjunctions {shares : List (List Expression)} {conditions : List Expression}
    (h : List.Forall₂ (fun es c => conjunction? es = some c) shares conditions) :
    (∀ c ∈ conditions, c.isMatch g r = .ok true) ↔
      ∀ e ∈ shares.flatten, e.isMatch g r = .ok true := by
  induction h with
  | nil => simp
  | cons hc _ ih =>
    rw [List.forall_mem_cons, List.flatten_cons, List.forall_mem_append, ih,
      isMatch_conjunction? hc]

end Expression

namespace Row

/-- The row is tested by one condition after the other, up to the first that is not true on it. -/
def meets (g : Graph) (r : Row) : List Expression → Except QueryFault Bool
  | [] => .ok true
  | c :: rest => do
    if ← c.isMatch g r then r.meets g rest else return false

/-- A row that can be tested passes if all conditions are true on it. -/
theorem meets_eq_ok {g : Graph} {r : Row} {conditions : List Expression} {b : Bool}
    (h : r.meets g conditions = .ok b) :
    b = true ↔ ∀ c ∈ conditions, c.isMatch g r = .ok true := by
  induction conditions with
  | nil =>
    cases h
    exact iff_of_true rfl (List.forall_mem_nil _)
  | cons c rest ih =>
    rw [List.forall_mem_cons]
    obtain ⟨passed, hpassed, hrest⟩ := bind_eq_ok.1 h
    rw [hpassed, Except.ok.injEq]
    cases passed with
    | true => exact (ih hrest).trans (and_iff_right rfl).symm
    | false =>
      cases hrest
      exact iff_of_false Bool.false_ne_true fun hall => Bool.false_ne_true hall.1

end Row

namespace Output

variable {o : Output} {test next : Row → Except QueryFault Bool}

/-- The rows that pass a test, up to the first that cannot be tested. -/
def keep (test : Row → Except QueryFault Bool) (o : Output) : Output :=
  o.spread fun r => (test r).map fun b => if b then [r] else []

private theorem keep_cons (test : Row → Except QueryFault Bool) (r : Row) (o : Output) :
    (o.prepend [r]).keep test = match test r with
      | .ok true => (o.keep test).prepend [r]
      | .ok false => o.keep test
      | .error fault => failed fault := by
  rw [keep, spread_cons]
  cases test r with
  | ok b => cases b <;> rfl
  | error fault => rfl

private theorem keep_true (o : Output) : (o.keep fun _ => .ok true) = o := by
  obtain ⟨rows, fault⟩ := o
  induction rows with
  | nil => rfl
  | cons r rest ih =>
    have hcons : Output.mk (r :: rest) fault = (Output.mk rest fault).prepend [r] := rfl
    rw [hcons, keep_cons, ih]

/-- A test after another one is one test, which asks for the second if the first is passed. -/
theorem keep_keep (o : Output) (test next : Row → Except QueryFault Bool) :
    (o.keep test).keep next = o.keep fun r => do if ← test r then next r else return false := by
  obtain ⟨rows, fault⟩ := o
  induction rows with
  | nil => rfl
  | cons r rest ih =>
    have hcons : Output.mk (r :: rest) fault = (Output.mk rest fault).prepend [r] := rfl
    rw [hcons, keep_cons, keep_cons]
    cases test r with
    | error fault' => rfl
    | ok b =>
      cases b with
      | false => exact ih
      | true =>
        dsimp only
        rw [keep_cons, ih]
        rfl

/-- If all rows can be tested, those that pass are there in their order. -/
theorem eq_of_keep {out : List Row} (h : o.keep test = ⟨out, none⟩) :
    ∃ ins, o = ⟨ins, none⟩ ∧ (∀ r ∈ ins, ∃ b, test r = .ok b) ∧
      out = ins.filter fun r => test r = .ok true := by
  obtain ⟨rows, fault⟩ := o
  induction rows generalizing out with
  | nil =>
    cases h
    exact ⟨[], rfl, List.forall_mem_nil _, rfl⟩
  | cons r rest ih =>
    have hcons : Output.mk (r :: rest) fault = (Output.mk rest fault).prepend [r] := rfl
    rw [hcons, keep_cons] at h
    generalize hmore : keep test ⟨rest, fault⟩ = more at h
    obtain ⟨others, last⟩ := more
    cases hr : test r with
    | error fault' =>
      rw [hr] at h
      cases h
    | ok b =>
      rw [hr] at h
      have hlast : last = none := by cases b <;> exact congrArg Output.fault h
      obtain ⟨ins, heq, htested, rfl⟩ := ih (hlast ▸ hmore)
      cases heq
      refine ⟨r :: rest, rfl, List.forall_mem_cons.2 ⟨⟨b, hr⟩, htested⟩, ?_⟩
      cases b <;> cases h <;> simp [hr]

end Output

namespace Operator

variable {g : Graph} {op : Operator}

/-- Filters above one another, the first condition lowest. -/
def filterBy (op : Operator) (conditions : List Expression) : Operator :=
  conditions.foldl filter op

/-- Filters above one another test each row by one condition after the other. -/
theorem output_filterBy (g : Graph) (op : Operator) (conditions : List Expression) :
    (op.filterBy conditions).output g = (op.output g).keep (·.meets g conditions) := by
  induction conditions generalizing op with
  | nil => exact (Output.keep_true _).symm
  | cons c rest ih => exact (ih (op.filter c)).trans (Output.keep_keep _ _ _)

/-- A row passes a condition exactly if it passes all its conjuncts. Hence filters above one another
whose conditions are conjunctions of these, shared out in any way, let through the rows that pass
the condition, both of a row that each filter it comes to can decide and of all rows if none
fails. -/
theorem filters_share_conjuncts (g : Graph) (p : Expression) :
    (∀ r, p.isMatch g r = .ok true ↔ ∀ c ∈ p.conjuncts, c.isMatch g r = .ok true) ∧
      ∀ shares conditions,
        List.Forall₂ (fun es c => Expression.conjunction? es = some c) shares conditions →
          (∀ e, e ∈ shares.flatten ↔ e ∈ p.conjuncts) →
            (∀ op : Operator, (op.filterBy conditions).output g =
              (op.output g).keep (·.meets g conditions)) ∧
            (∀ r b, r.meets g conditions = .ok b → (b = true ↔ p.isMatch g r = .ok true)) ∧
            ∀ (op : Operator) (out : List Row), (op.filterBy conditions).Gives g out →
              ∃ ins, op.Gives g ins ∧ out = ins.filter fun r => p.isMatch g r = .ok true := by
  refine ⟨fun r => p.isMatch_iff_conjuncts, fun shares conditions hconditions hshared => ?_⟩
  have hall (r : Row) : (∀ c ∈ conditions, c.isMatch g r = .ok true) ↔
      p.isMatch g r = .ok true := by
    simp only [Expression.isMatch_conjunctions hconditions, hshared, p.isMatch_iff_conjuncts]
  have hmeets {r : Row} {b : Bool} (h : r.meets g conditions = .ok b) :
      b = true ↔ p.isMatch g r = .ok true := (Row.meets_eq_ok h).trans (hall r)
  refine ⟨fun op => output_filterBy g op conditions, fun r b => hmeets, fun op out hgives => ?_⟩
  rw [gives_iff, output_filterBy] at hgives
  obtain ⟨ins, hins, htested, rfl⟩ := Output.eq_of_keep hgives
  refine ⟨ins, gives_iff.2 hins, List.filter_congr fun r hr => ?_⟩
  obtain ⟨b, hb⟩ := htested r hr
  rw [decide_eq_decide, hb, Except.ok.injEq]
  exact hmeets hb

/-- Three conjuncts in two filters, the last one with the first and lower: the nodes without the
label are kept from the equality, and so is the node on which the last conjunct is unknown. -/
theorem filters_share_conjuncts_of_three :
    let label : Expression := .hasLabels "n" ["A"]
    let equal : Expression := .propertyEquals "n" "k" (.number .zero)
    let known : Expression := .unary .not (.property "n" "b")
    let p : Expression := .binary .and label (.binary .and equal known)
    let conditions : List Expression := [.binary .and known label, equal]
    let g := [Mutation.createNode ["A"] [("k", .number .zero), ("b", .boolean false)],
      .createNode ["A"] [("k", .number .zero)], .createNode [] [("b", .boolean false)]].foldl
        Graph.after (.empty {})
    let op : Operator := .scan .all "n" ""
    let row (id : Nat) : Row := Row.empty.bind "n" (.node ⟨id⟩)
    List.Forall₂ (fun es c => Expression.conjunction? es = some c) [[known, label], [equal]]
        conditions ∧
      (∀ e, e ∈ [[known, label], [equal]].flatten ↔ e ∈ p.conjuncts) ∧
        (row 0).meets g conditions = .ok true ∧ p.isMatch g (row 0) = .ok true ∧
          (op.filterBy conditions).Gives g [row 0] ∧
            ∃ ins, op.Gives g ins ∧ [row 0] = ins.filter fun r => p.isMatch g r = .ok true := by
  intro label equal known p conditions g op row
  have hconditions : List.Forall₂ (fun es c => Expression.conjunction? es = some c)
      [[known, label], [equal]] conditions := .cons rfl (.cons rfl .nil)
  have hshared : ∀ e, e ∈ [[known, label], [equal]].flatten ↔ e ∈ p.conjuncts := by
    have hconjuncts : p.conjuncts = [label, equal, known] := by rfl
    rw [hconjuncts]
    simp only [List.flatten_cons, List.flatten_nil, List.mem_append, List.mem_cons,
      List.not_mem_nil, or_false]
    tauto
  have hgives : (op.filterBy conditions).Gives g [row 0] := by
    have houtput : ((op.filterBy conditions).output g).rows = [row 0] ∧
        ((op.filterBy conditions).output g).fault = none := by decide +kernel
    rw [gives_iff, ← houtput.1, ← houtput.2]
  have hmeets : (row 0).meets g conditions = .ok true := by decide +kernel
  obtain ⟨-, hpass, hrows⟩ := (filters_share_conjuncts g p).2 _ conditions hconditions hshared
  exact ⟨hconditions, hshared, hmeets, (hpass _ _ hmeets).1 rfl, hgives, hrows op _ hgives⟩

end Operator

end Plexus
