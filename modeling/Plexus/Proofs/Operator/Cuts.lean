import Mathlib.Data.List.Infix
import Plexus.Proofs.Operator.Output
import Plexus.Proofs.Query.Reads

/-!
# Outputs that differ by when they fail

Two outputs agree if both are beginnings of one output, each of which either is all of it or ends
with a fault. What an operator makes of inputs that agree agrees again, since no operator gives a
row that depends on rows further on; so if neither output fails, they are the same.
-/

namespace Plexus.Output

/-- The output as a whole, or a beginning of it that ends with a fault. -/
inductive Cut (u : Output) : Output → Prop where
  | whole : Cut u u
  | early {rows : List Row} (fault : QueryFault) : rows <+: u.rows → Cut u ⟨rows, some fault⟩

namespace Cut

variable {o u v : Output}

/-- Any output may be cut off before its first row. -/
theorem failed (u : Output) (fault : QueryFault) : u.Cut (.failed fault) :=
  .early fault List.nil_prefix

/-- A beginning without a fault is all of it. -/
theorem eq_of_fault (h : u.Cut o) (hfault : o.fault = none) : o = u := by
  cases h with
  | whole => rfl
  | early fault hprefix => cases hfault

theorem trans (h : u.Cut v) (h' : v.Cut o) : u.Cut o := by
  cases h' with
  | whole => exact h
  | early fault hbefore =>
    cases h with
    | whole => exact .early fault hbefore
    | early fault' hbefore' => exact .early fault (hbefore.trans hbefore')

/-- Rows that are given first are given first before the cut as well. -/
theorem prepend (h : u.Cut o) (rows : List Row) : (u.prepend rows).Cut (o.prepend rows) := by
  cases h with
  | whole => exact .whole
  | early fault hprefix => exact .early fault (List.prefix_append_right_inj rows |>.2 hprefix)

/-- Spreading the rows of a cut output gives a cut output. -/
theorem spread (h : u.Cut o) (f : Row → Except QueryFault (List Row)) :
    (u.spread f).Cut (o.spread f) := by
  cases h with
  | whole => exact .whole
  | early fault hprefix =>
    rename_i rows
    obtain ⟨all, last⟩ := u
    obtain ⟨more, rfl⟩ := hprefix
    induction rows with
    | nil => exact .failed _ fault
    | cons r rest ih =>
      have hcut := spread_cons f r ⟨rest, some fault⟩
      have hall := spread_cons f r ⟨rest ++ more, last⟩
      cases hr : f r with
      | error fault' =>
        rw [hr] at hcut hall
        exact hcut ▸ .failed _ fault'
      | ok out =>
        rw [hr] at hcut hall
        exact hcut ▸ hall ▸ ih.prepend out

/-- The product of cut outputs is cut. -/
theorem product {o' : Output} (h : u.Cut o) (h' : v.Cut o') :
    (u.product v).Cut (o.product o') := by
  cases h' with
  | early fault hprefix => exact .failed _ fault
  | whole =>
    obtain ⟨rights, last⟩ := v
    cases last with
    | some fault => exact .whole
    | none =>
      cases rights with
      | nil => exact .whole
      | cons r rest =>
        cases h with
        | whole => exact .whole
        | early fault hprefix =>
          obtain ⟨more, hmore⟩ := hprefix
          refine .early fault ⟨more.flatMap fun l => (r :: rest).map l.merge, ?_⟩
          change _ = u.rows.flatMap _
          rw [← hmore, List.flatMap_append]

/-- Gathering a cut output gives a cut output. -/
theorem gather {α : Type} (h : u.Cut o) (initial : α) (take : α → Row → Except QueryFault α)
    (finish : α → List Row) :
    (u.gather initial take finish).Cut (o.gather initial take finish) := by
  cases h with
  | whole => exact .whole
  | early fault hprefix =>
    rename_i rows
    have hfails : ∃ fault', Output.gather initial take finish ⟨rows, some fault⟩ =
        .failed fault' := by
      unfold Output.gather
      cases rows.foldlM take initial with
      | error fault' => exact ⟨fault', rfl⟩
      | ok a => exact ⟨fault, rfl⟩
    obtain ⟨fault', heq⟩ := hfails
    rw [heq]
    exact .failed _ fault'

private theorem passed_prefix {α : Type} (step : α → Row → α × Option Row) (a : α)
    (rows more : List Row) : passed step a rows <+: passed step a (rows ++ more) := by
  induction rows generalizing a with
  | nil => exact List.nil_prefix
  | cons r rest ih =>
    rw [List.cons_append, passed, passed]
    split
    · exact List.cons_prefix_cons.2 ⟨rfl, ih _⟩
    · exact ih _

/-- Sifting a cut output gives a cut output. -/
theorem sift {α : Type} (h : u.Cut o) (step : α → Row → α × Option Row) (a : α) :
    (u.sift step a).Cut (o.sift step a) := by
  cases h with
  | whole => exact .whole
  | early fault hprefix =>
    obtain ⟨more, hmore⟩ := hprefix
    refine .early fault ?_
    change _ <+: passed step a u.rows
    rw [← hmore]
    exact passed_prefix step a _ more

/-- With enough rows before the fault it is not met. -/
theorem limit (h : u.Cut o) (count : Nat) : (u.limit count).Cut (o.limit count) := by
  cases h with
  | whole => exact .whole
  | early fault hprefix =>
    rename_i rows
    obtain ⟨more, hmore⟩ := hprefix
    by_cases henough : count ≤ rows.length
    · have hall : count ≤ u.rows.length := by
        rw [← hmore, List.length_append]
        omega
      have htake : u.rows.take count = rows.take count := by
        rw [← hmore, List.take_append_of_le_length henough]
      have heq : Output.limit count ⟨rows, some fault⟩ = u.limit count := by
        simp only [Output.limit, htake, if_pos henough, if_pos hall]
      rw [heq]
      exact .whole
    · have heq : Output.limit count ⟨rows, some fault⟩ = ⟨rows, some fault⟩ := by
        simp only [Output.limit, if_neg henough, List.take_of_length_le (Nat.le_of_not_le henough)]
      rw [heq]
      refine .early fault ?_
      change rows <+: u.rows.take count
      rw [← hmore, List.take_append, List.take_of_length_le (Nat.le_of_not_le henough)]
      exact List.prefix_append _ _

/-- Keeping the rows that pass a test is a cut of keeping those for which the test says so. -/
theorem keep (test : Row → Except QueryFault Bool) (rows : List Row) :
    Cut ⟨rows.filter fun r => (test r).toOption = some true, none⟩
      (Output.spread (fun r => (test r).map fun b => if b then [r] else []) ⟨rows, none⟩) := by
  induction rows with
  | nil => exact .whole
  | cons r rest ih =>
    have hcut := spread_cons (fun r => (test r).map fun b => if b then [r] else []) r ⟨rest, none⟩
    rw [List.filter_cons]
    cases hr : test r with
    | error fault =>
      rw [hr] at hcut
      exact hcut ▸ .failed _ fault
    | ok b =>
      rw [hr] at hcut
      cases b with
      | false => exact hcut ▸ ih
      | true => exact hcut ▸ ih.prepend [r]

end Cut

/-- Both are beginnings of one output, and a fault follows if there is more of it. -/
def Agrees (o o' : Output) : Prop := ∃ u : Output, u.Cut o ∧ u.Cut o'

namespace Agrees

variable {o o' p p' : Output}

theorem refl (o : Output) : o.Agrees o := ⟨o, .whole, .whole⟩

/-- Outputs that agree are the same if neither fails. -/
theorem eq_of_fault (h : o.Agrees o') (hfault : o.fault = none) (hfault' : o'.fault = none) :
    o = o' := by
  obtain ⟨u, hcut, hcut'⟩ := h
  exact (hcut.eq_of_fault hfault).trans (hcut'.eq_of_fault hfault').symm

/-- Outputs that agree are spread to outputs that agree. -/
theorem spread (h : o.Agrees o') (f : Row → Except QueryFault (List Row)) :
    (o.spread f).Agrees (o'.spread f) := by
  obtain ⟨u, hcut, hcut'⟩ := h
  exact ⟨u.spread f, hcut.spread f, hcut'.spread f⟩

/-- Products of outputs that agree do so as well. -/
theorem product (h : o.Agrees o') (h' : p.Agrees p') : (o.product p).Agrees (o'.product p') := by
  obtain ⟨u, hcut, hcut'⟩ := h
  obtain ⟨v, hright, hright'⟩ := h'
  exact ⟨u.product v, hcut.product hright, hcut'.product hright'⟩

/-- What is gathered from outputs that agree does so as well. -/
theorem gather {α : Type} (h : o.Agrees o') (initial : α)
    (take : α → Row → Except QueryFault α) (finish : α → List Row) :
    (o.gather initial take finish).Agrees (o'.gather initial take finish) := by
  obtain ⟨u, hcut, hcut'⟩ := h
  exact ⟨u.gather initial take finish, hcut.gather initial take finish,
    hcut'.gather initial take finish⟩

/-- What is sifted from outputs that agree does so as well. -/
theorem sift {α : Type} (h : o.Agrees o') (step : α → Row → α × Option Row) (a : α) :
    (o.sift step a).Agrees (o'.sift step a) := by
  obtain ⟨u, hcut, hcut'⟩ := h
  exact ⟨u.sift step a, hcut.sift step a, hcut'.sift step a⟩

/-- The first rows of outputs that agree do so as well. -/
theorem limit (h : o.Agrees o') (count : Nat) : (o.limit count).Agrees (o'.limit count) := by
  obtain ⟨u, hcut, hcut'⟩ := h
  exact ⟨u.limit count, hcut.limit count, hcut'.limit count⟩

end Agrees

end Plexus.Output

namespace Plexus.Operator

variable {g h : Graph} {op op' left left' right right' : Operator}

/-- Filters on one condition over inputs that agree give outputs that agree. -/
theorem agrees_filter (hr : g.SameReads h) (ho : (op.output g).Agrees (op'.output h))
    (condition : Expression) :
    ((op.filter condition).output g).Agrees ((op'.filter condition).output h) := by
  simp only [output, hr.isMatch]
  exact ho.spread _

/-- Products of operators that agree give outputs that agree. -/
theorem agrees_product (hl : (left.output g).Agrees (left'.output h))
    (hr : (right.output g).Agrees (right'.output h)) :
    ((left.product right).output g).Agrees ((left'.product right').output h) :=
  hl.product hr

/-- Projections to the same columns over inputs that agree give outputs that agree. -/
theorem agrees_project (hr : g.SameReads h) (ho : (op.output g).Agrees (op'.output h))
    (items : List NamedExpression) :
    ((op.project items).output g).Agrees ((op'.project items).output h) := by
  simp only [output, hr.projectRow]
  exact ho.spread _

/-- Aggregations of the same columns over inputs that agree give outputs that agree. -/
theorem agrees_aggregate (hr : g.SameReads h) (ho : (op.output g).Agrees (op'.output h))
    (keys : List NamedExpression) (columns : List AggregateColumn) :
    ((op.aggregate keys columns).output g).Agrees ((op'.aggregate keys columns).output h) := by
  simp only [output, hr.addToGroups]
  exact ho.gather _ _ _

/-- Distinct rows of inputs that agree give outputs that agree. -/
theorem agrees_distinct (ho : (op.output g).Agrees (op'.output h)) (columns : List String) :
    ((op.distinct columns).output g).Agrees ((op'.distinct columns).output h) :=
  ho.sift _ _

/-- Sorts by the same keys over inputs that agree give outputs that agree. -/
theorem agrees_sort (hr : g.SameReads h) (ho : (op.output g).Agrees (op'.output h))
    (keys : List OrderItem) : ((op.sort keys).output g).Agrees ((op'.sort keys).output h) := by
  simp only [output, hr.keyedRow]
  exact ho.gather _ _ _

/-- Skipping as many rows of inputs that agree gives outputs that agree. -/
theorem agrees_skip (ho : (op.output g).Agrees (op'.output h)) (count : Nat) :
    ((op.skip count).output g).Agrees ((op'.skip count).output h) :=
  ho.sift _ _

/-- Limits to as many rows of inputs that agree give outputs that agree. -/
theorem agrees_limit (ho : (op.output g).Agrees (op'.output h)) (count : Nat) :
    ((op.limit count).output g).Agrees ((op'.limit count).output h) :=
  ho.limit _

end Plexus.Operator
