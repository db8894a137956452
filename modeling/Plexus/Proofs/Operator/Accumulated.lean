import Mathlib.Data.List.Induction
import Plexus.Proofs.Operator.Grouping
import Plexus.Proofs.Operator.Sorting

/-!
# What aggregates come to

An accumulator takes in one row after the other. Here its result is told from the rows alone: how
many there are, or what the values of the argument that are not null come to. A sum is taken from
left to right, and of values that sorting does not tell apart the one seen first is kept.
-/

namespace Plexus

/-- What a function makes of the values of its argument that are not null. -/
inductive AggregateFunction.Yields : AggregateFunction → List Value → Value → Prop where
  | count (vs : List Value) : Yields .count vs (.scalar (.number (.ofNat vs.length)))
  | sum (xs : List Double) : Yields .sum (xs.map fun x => .scalar (.number x))
      (.scalar (.number (xs.foldl (· + ·) .zero)))
  | avg_nil : Yields .avg [] .null
  | avg {xs : List Double} (h : xs ≠ []) : Yields .avg (xs.map fun x => .scalar (.number x))
      (.scalar (.number (xs.foldl (· + ·) .zero / .ofNat xs.length)))
  | min_nil : Yields .min [] .null
  | min {ss : List Scalar} {s : Scalar} (hs : s ∈ ss) (hleast : ∀ t ∈ ss, t.order s ≠ .lt) :
      Yields .min (ss.map .scalar) (.scalar s)
  | max_nil : Yields .max [] .null
  | max {ss : List Scalar} {s : Scalar} (hs : s ∈ ss) (hgreatest : ∀ t ∈ ss, t.order s ≠ .gt) :
      Yields .max (ss.map .scalar) (.scalar s)

/-- What a column shows for some rows. Without an argument it counts them, and any other function
has no values. -/
inductive AggregateColumn.Shows (g : Graph) (c : AggregateColumn) (rows : List Row) :
    Value → Prop where
  | rows (hfunction : c.function = .count) (hargument : c.argument = none) :
      Shows g c rows (.scalar (.number (.ofNat rows.length)))
  | values {e : Expression} {all : List Value} {v : Value} (hargument : c.argument = some e)
      (hall : List.Forall₂ (fun row v => e.evaluate g row = .ok v) rows all)
      (hv : c.function.Yields (all.filter fun v => !v.isNull) v) : Shows g c rows v
  | nothing {v : Value} (hfunction : c.function ≠ .count) (hargument : c.argument = none)
      (hv : c.function.Yields [] v) : Shows g c rows v

namespace Accumulator

variable {vs : List Value} {acc : Accumulator}

/-- Nulls may be left out before anything is taken in. -/
theorem foldlM_add_filter (vs : List Value) (acc : Accumulator) :
    vs.foldlM add acc = (vs.filter fun v => !v.isNull).foldlM add acc := by
  induction vs generalizing acc with
  | nil => rfl
  | cons v rest ih =>
    rw [List.foldlM_cons, List.filter_cons]
    cases hv : v.isNull with
    | true =>
      have hadd : acc.add v = .ok acc := by simp only [add, hv, if_true]
      rw [hadd]
      exact ih acc
    | false => exact bind_congr fun next => ih next

/-- Only a number is taken for one. -/
theorem of_numberOf {f : AggregateFunction} {v : Value} {x : Double} (h : numberOf f v = .ok x) :
    v = .scalar (.number x) := by
  unfold numberOf at h
  split at h <;> cases h
  rfl

/-- Only a property value is taken for one. -/
theorem of_scalarOf {f : AggregateFunction} {v : Value} {s : Scalar} (h : scalarOf f v = .ok s) :
    v = .scalar s := by
  unfold scalarOf at h
  split at h <;> cases h
  rfl

/-- A count goes up by the number of values. -/
theorem of_foldlM_count {n : Nat} (hvs : ∀ v ∈ vs, v.isNull = false)
    (h : vs.foldlM add (count n) = .ok acc) : acc = count (n + vs.length) := by
  induction vs generalizing n with
  | nil =>
    cases h
    rfl
  | cons v rest ih =>
    rw [List.forall_mem_cons] at hvs
    obtain ⟨next, hnext, hrest⟩ := bind_eq_ok.1 h
    simp only [add, hvs.1, Bool.false_eq_true, if_false] at hnext
    cases hnext
    rw [ih hvs.2 hrest, List.length_cons, Nat.add_assoc, Nat.add_comm 1]

/-- The values of an accumulator that adds them up, with their sum and their number. -/
theorem of_foldlM_total (make : Double → Nat → Accumulator) {f : AggregateFunction}
    (hadd : ∀ total n v, v.isNull = false →
      (make total n).add v = (numberOf f v).map fun x => make (total + x) (n + 1))
    {total : Double} {n : Nat} (hvs : ∀ v ∈ vs, v.isNull = false)
    (h : vs.foldlM add (make total n) = .ok acc) :
    ∃ xs : List Double, vs = xs.map (fun x => .scalar (.number x)) ∧
      acc = make (xs.foldl (· + ·) total) (n + xs.length) := by
  induction vs generalizing total n with
  | nil =>
    cases h
    exact ⟨[], rfl, rfl⟩
  | cons v rest ih =>
    rw [List.forall_mem_cons] at hvs
    obtain ⟨next, hnext, hrest⟩ := bind_eq_ok.1 h
    rw [hadd total n v hvs.1] at hnext
    cases hx : numberOf f v with
    | error fault =>
      rw [hx] at hnext
      cases hnext
    | ok x =>
      rw [hx] at hnext
      cases hnext
      obtain ⟨xs, rfl, rfl⟩ := ih hvs.2 hrest
      refine ⟨x :: xs, by rw [of_numberOf hx, List.map_cons], ?_⟩
      rw [List.foldl_cons, List.length_cons, Nat.add_assoc, Nat.add_comm 1]

private theorem of_foldlM_keep {make : Option Scalar → Accumulator} {wanted : Ordering}
    {f : AggregateFunction}
    (hadd : ∀ old v, v.isNull = false →
      (make old).add v = (scalarOf f v).map fun s => make (keep wanted old s))
    {old : Option Scalar} (hvs : ∀ v ∈ vs, v.isNull = false)
    (h : vs.foldlM add (make old) = .ok acc) :
    ∃ ss : List Scalar, vs = ss.map .scalar ∧ acc = make (ss.foldl (keep wanted) old) := by
  induction vs generalizing old with
  | nil =>
    cases h
    exact ⟨[], rfl, rfl⟩
  | cons v rest ih =>
    rw [List.forall_mem_cons] at hvs
    obtain ⟨next, hnext, hrest⟩ := bind_eq_ok.1 h
    rw [hadd old v hvs.1] at hnext
    cases hs : scalarOf f v with
    | error fault =>
      rw [hs] at hnext
      cases hnext
    | ok s =>
      rw [hs] at hnext
      cases hnext
      obtain ⟨ss, rfl, rfl⟩ := ih hvs.2 hrest
      exact ⟨s :: ss, by rw [of_scalarOf hs, List.map_cons], rfl⟩

private theorem keep_spec {wanted : Ordering} (hself : ∀ s : Scalar, s.order s ≠ wanted)
    (htrans : ∀ a b c : Scalar, a.order b = wanted → b.order c = wanted → a.order c = wanted)
    (ss : List Scalar) : match ss.foldl (keep wanted) none with
      | none => ss = []
      | some s => s ∈ ss ∧ ∀ t ∈ ss, t.order s ≠ wanted := by
  induction ss using List.reverseRecOn with
  | nil => rfl
  | append_singleton ss t ih =>
    rw [List.foldl_append, List.foldl_cons, List.foldl_nil]
    cases hold : ss.foldl (keep wanted) none with
    | none =>
      rw [hold] at ih
      subst ih
      exact ⟨List.mem_singleton_self t, List.forall_mem_singleton.2 (hself t)⟩
    | some s =>
      rw [hold] at ih
      obtain ⟨hs, hbest⟩ := ih
      by_cases hts : t.order s = wanted
      · have hkeep : keep wanted (some s) t = some t := by simp only [keep, if_pos hts]
        rw [hkeep]
        refine ⟨by simp, List.forall_mem_append.2 ⟨fun u hu hut => ?_, ?_⟩⟩
        · exact hbest u hu (htrans u t s hut hts)
        · exact List.forall_mem_singleton.2 (hself t)
      · have hkeep : keep wanted (some s) t = some s := by simp only [keep, if_neg hts]
        rw [hkeep]
        exact ⟨List.mem_append_left _ hs,
          List.forall_mem_append.2 ⟨hbest, List.forall_mem_singleton.2 hts⟩⟩

/-- What an accumulator that keeps a value has kept. -/
theorem of_foldlM_best (wanted : Ordering) {make : Option Scalar → Accumulator}
    {f : AggregateFunction} (hself : ∀ s : Scalar, s.order s ≠ wanted)
    (htrans : ∀ a b c : Scalar, a.order b = wanted → b.order c = wanted → a.order c = wanted)
    (hadd : ∀ old v, v.isNull = false →
      (make old).add v = (scalarOf f v).map fun s => make (keep wanted old s))
    (hvs : ∀ v ∈ vs, v.isNull = false) (h : vs.foldlM add (make none) = .ok acc) :
    vs = [] ∧ acc = make none ∨ ∃ ss s, vs = List.map .scalar ss ∧ acc = make (some s) ∧ s ∈ ss ∧
      ∀ t ∈ ss, t.order s ≠ wanted := by
  obtain ⟨ss, rfl, rfl⟩ := of_foldlM_keep hadd hvs h
  have hspec := keep_spec hself htrans ss
  cases hkept : ss.foldl (keep wanted) none with
  | none =>
    rw [hkept] at hspec
    subst hspec
    exact .inl ⟨rfl, rfl⟩
  | some s =>
    rw [hkept] at hspec
    exact .inr ⟨ss, s, rfl, rfl, hspec.1, hspec.2⟩

private theorem order_self_ne {wanted : Ordering} (hwanted : wanted ≠ .eq) (s : Scalar) :
    s.order s ≠ wanted := fun h => hwanted (h.symm.trans Std.ReflCmp.compare_self)

/-- What an accumulator has gathered from values that are not null. -/
theorem yields_of_foldlM {f : AggregateFunction} (hvs : ∀ v ∈ vs, v.isNull = false)
    (h : vs.foldlM add (fresh f) = .ok acc) : f.Yields vs acc.result := by
  cases f with
  | count =>
    rw [of_foldlM_count hvs h, Nat.zero_add]
    exact .count vs
  | sum =>
    have hadd (total : Double) (_ : Nat) (v : Value) (hv : v.isNull = false) :
        (sum total).add v = (numberOf .sum v).map fun x => sum (total + x) := by
      simp only [add, hv, Bool.false_eq_true, if_false]
      rfl
    obtain ⟨xs, rfl, rfl⟩ := of_foldlM_total (fun total _ => sum total) hadd (n := 0) hvs h
    exact .sum xs
  | avg =>
    have hadd (total : Double) (n : Nat) (v : Value) (hv : v.isNull = false) :
        (avg total n).add v = (numberOf .avg v).map fun x => avg (total + x) (n + 1) := by
      simp only [add, hv, Bool.false_eq_true, if_false]
      rfl
    obtain ⟨xs, rfl, rfl⟩ := of_foldlM_total avg hadd hvs h
    rw [Nat.zero_add]
    cases xs with
    | nil => exact .avg_nil
    | cons x rest => exact .avg (List.cons_ne_nil x rest)
  | min =>
    have hadd (old : Option Scalar) (v : Value) (hv : v.isNull = false) :
        (min old).add v = (scalarOf .min v).map fun s => min (keep .lt old s) := by
      simp only [add, hv, Bool.false_eq_true, if_false]
      rfl
    obtain ⟨rfl, rfl⟩ | ⟨ss, s, rfl, rfl, hs, hleast⟩ :=
      of_foldlM_best .lt (order_self_ne nofun) (fun _ _ _ => Std.TransCmp.lt_trans) hadd hvs h
    · exact .min_nil
    · exact .min hs hleast
  | max =>
    have hadd (old : Option Scalar) (v : Value) (hv : v.isNull = false) :
        (max old).add v = (scalarOf .max v).map fun s => max (keep .gt old s) := by
      simp only [add, hv, Bool.false_eq_true, if_false]
      rfl
    obtain ⟨rfl, rfl⟩ | ⟨ss, s, rfl, rfl, hs, hgreatest⟩ :=
      of_foldlM_best .gt (order_self_ne nofun) (fun _ _ _ => Std.TransCmp.gt_trans) hadd hvs h
    · exact .max_nil
    · exact .max hs hgreatest

end Accumulator

namespace AggregateColumn

variable {g : Graph} {c : AggregateColumn} {rows : List Row} {acc acc' : Accumulator}

/-- A column with an argument takes in the values of the argument. -/
theorem of_foldlM_take {e : Expression} (hargument : c.argument = some e)
    (h : rows.foldlM (c.take g) acc = .ok acc') :
    ∃ all, List.Forall₂ (fun row v => e.evaluate g row = .ok v) rows all ∧
      all.foldlM Accumulator.add acc = .ok acc' := by
  induction rows generalizing acc with
  | nil => exact ⟨[], .nil, h⟩
  | cons row rest ih =>
    obtain ⟨next, hnext, hrest⟩ := bind_eq_ok.1 h
    simp only [take, hargument] at hnext
    obtain ⟨v, hv, hadd⟩ := bind_eq_ok.1 hnext
    obtain ⟨all, hall, hfold⟩ := ih hrest
    exact ⟨v :: all, .cons hv hall, bind_eq_ok.2 ⟨next, hadd, hfold⟩⟩

/-- A column without an argument ticks once for every row. -/
theorem of_foldlM_tick (hargument : c.argument = none)
    (h : rows.foldlM (c.take g) acc = .ok acc') : acc' = Accumulator.tick^[rows.length] acc := by
  induction rows generalizing acc with
  | nil =>
    cases h
    rfl
  | cons row rest ih =>
    obtain ⟨next, hnext, hrest⟩ := bind_eq_ok.1 h
    simp only [take, hargument] at hnext
    cases hnext
    exact ih hrest

/-- A count of rows goes up by their number. -/
theorem iterate_tick_count (n m : Nat) :
    Accumulator.tick^[m] (.count n) = .count (n + m) := by
  induction m generalizing n with
  | zero => rfl
  | succ m ih => exact (ih (n + 1)).trans (by rw [Nat.add_assoc, Nat.add_comm 1])

/-- An accumulator that does not count is not changed by a row without a value. -/
theorem iterate_tick_fresh {f : AggregateFunction} (hf : f ≠ .count) (m : Nat) :
    Accumulator.tick^[m] (.fresh f) = .fresh f :=
  Function.iterate_fixed (by cases f <;> trivial) m

/-- A column shows what its accumulator has come to. -/
theorem shows_of_rows (h : c.ofRows g rows = .ok acc) : c.Shows g rows acc.result := by
  cases hargument : c.argument with
  | some e =>
    obtain ⟨all, hall, hfold⟩ := of_foldlM_take hargument h
    rw [Accumulator.foldlM_add_filter] at hfold
    exact .values hargument hall (Accumulator.yields_of_foldlM (by simp) hfold)
  | none =>
    have hacc := of_foldlM_tick hargument h
    by_cases hfunction : c.function = .count
    · rw [hfunction] at hacc
      rw [hacc, Accumulator.fresh, iterate_tick_count, Nat.zero_add]
      exact .rows hfunction hargument
    · rw [iterate_tick_fresh hfunction] at hacc
      refine .nothing hfunction hargument (Accumulator.yields_of_foldlM (List.forall_mem_nil _) ?_)
      rw [hacc]
      rfl

end AggregateColumn

end Plexus
