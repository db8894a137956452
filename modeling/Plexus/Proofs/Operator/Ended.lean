import Plexus.Operator.Stage
import Plexus.Proofs.Operator.Machine

/-!
# Machines end for good

A machine that has been drained gives nothing any more, on whatever graph it is pulled. What each
operator keeps when it is drained is enough to see this: nothing waits, and the input has ended or
is not pulled again.
-/

namespace Plexus

namespace Machine

/-- From the state on the machine is drained at every pull, whatever the graphs are. -/
def Ended (m : Machine) (s : m.State) : Prop :=
  ∃ P : m.State → Prop, P s ∧ ∀ t, P t → ∀ g, ∃ t', m.pull g t = (.done, t') ∧ P t'

/-- Once the machine is drained, it is drained for good. -/
def EndsForGood (m : Machine) : Prop :=
  ∀ g s s', m.pull g s = (.done, s') → m.Ended s'

variable {m n : Machine} {g : Graph} {s s' : m.State}

/-- A machine that has ended says so at every pull and is at its end afterwards. -/
theorem Ended.pull (h : m.Ended s) (g : Graph) : ∃ s', m.pull g s = (.done, s') ∧ m.Ended s' := by
  obtain ⟨P, hs, hstep⟩ := h
  obtain ⟨s', hpull, hs'⟩ := hstep s hs g
  exact ⟨s', hpull, P, hs', hstep⟩

section

variable {α β : Type} {step : α → Row → α × Option β} {a a' : α}

/-- A machine that has ended is drained at once by any run. -/
theorem Ended.run (h : m.Ended s) (g : Graph) (step : α → Row → α × Option β) (a : α) :
    ∃ s', m.run g step a s = (.drained, a, s') ∧ m.Ended s' := by
  obtain ⟨s', hpull, hs'⟩ := h.pull g
  exact ⟨s', run_of_done hpull, hs'⟩

/-- A run that drains a machine leaves it drained for good. -/
theorem EndsForGood.run (h : m.EndsForGood) (hrun : m.run g step a s = (.drained, a', s')) :
    m.Ended s' := by
  fun_induction m.run g step a s with
  | case1 a s t hpull =>
    cases hrun
    exact h _ _ _ hpull
  | case2 => simp at hrun
  | case3 => simp at hrun
  | case4 a s r t hp c hs ih => exact ih hrun

end

/-- Only when no rows wait is there nothing to give. -/
theorem giveFirst_done {σ : Type} {rows : List Row} {keep : List Row → σ} {s : σ}
    (h : giveFirst rows keep = (.done, s)) : rows = [] ∧ s = keep [] := by
  cases rows with
  | nil =>
    cases h
    exact ⟨rfl, rfl⟩
  | cons r rest => cases h

/-- A scan that has given its nodes gives no more. -/
theorem endsForGood_scan (access : Access) (name : String) : (scan access name).EndsForGood := by
  intro g s s' h
  refine ⟨(· = some []), ?_, fun t ht g => ⟨some [], by rw [ht]; rfl, rfl⟩⟩
  simp only [scan] at h
  split at h
  · cases h
    rfl
  · cases h

/-- A traversal of one hop ends for good if its input does. -/
theorem EndsForGood.expand (h : m.EndsForGood) (e : Expansion) : (m.expand e).EndsForGood := by
  intro g s s' hpull
  refine ⟨fun t : ExpandState m.State => t.waiting = [] ∧ m.Ended t.input, ?_, ?_⟩
  · obtain ⟨input, waiting⟩ := s
    cases waiting with
    | cons r rest => cases hpull
    | nil =>
      simp only [Machine.expand] at hpull
      split at hpull
      · rename_i hrun
        cases hpull
        exact ⟨rfl, h.run hrun⟩
      all_goals cases hpull
  · rintro ⟨input, waiting⟩ ⟨rfl, hinput⟩ g
    obtain ⟨input', hrun, hinput'⟩ := hinput.run g (expandStep e g) ()
    exact ⟨ExpandState.mk input' [], by simp only [Machine.expand, hrun], rfl, hinput'⟩

/-- A traversal by an interval of hops does not pull its input again once it has finished it. -/
theorem endsForGood_reach (m : Machine) (r : Reach) : (m.reach r).EndsForGood := by
  intro g s s' hpull
  refine ⟨fun t : ReachState m.State => t.waiting = [] ∧ t.finished = true, ?_, ?_⟩
  · obtain ⟨input, finished, waiting⟩ := s
    cases waiting with
    | cons r rest => cases hpull
    | nil =>
      cases finished with
      | true =>
        cases hpull
        exact ⟨rfl, rfl⟩
      | false =>
        simp only [Machine.reach, reachPull, Bool.false_eq_true, if_false] at hpull
        split at hpull
        · split at hpull
          · obtain ⟨-, rfl⟩ := giveFirst_done hpull
            exact ⟨rfl, rfl⟩
          all_goals cases hpull
        · cases hpull
  · rintro ⟨input, finished, waiting⟩ ⟨rfl, rfl⟩ g
    exact ⟨_, rfl, rfl, rfl⟩

/-- A filter ends for good if its input does. -/
theorem EndsForGood.filter (h : m.EndsForGood) (condition : Expression) :
    (m.filter condition).EndsForGood := by
  intro g s s' hpull
  refine ⟨m.Ended, ?_, fun t ht g => ?_⟩
  · simp only [Machine.filter] at hpull
    split at hpull
    · rename_i hrun
      cases hpull
      exact h.run hrun
    all_goals cases hpull
  · obtain ⟨t', hrun, ht'⟩ := ht.run g (filterStep condition g) ()
    exact ⟨t', by simp only [Machine.filter, hrun], ht'⟩

/-- A product whose right rows are all there has ended if there are none, or if its left input
has. -/
theorem EndsForGood.product (h : m.EndsForGood) (n : Machine) : (m.product n).EndsForGood := by
  have hnext {g : Graph} {s s' : ProductState m.State n.State} (hs : s.complete = true)
      (hpull : m.pairNext g s = (.done, s')) : s'.complete = true ∧ s'.waiting = [] ∧
        (s'.collected.isEmpty = true ∨ m.Ended s'.left) := by
    obtain ⟨left, right, collected, complete, waiting⟩ := s
    cases waiting with
    | cons r rest => cases hpull
    | nil =>
      simp only [pairNext] at hpull
      split at hpull
      · rename_i hempty
        cases hpull
        exact ⟨hs, rfl, .inl hempty⟩
      · rename_i hfilled
        split at hpull
        · rename_i hleft
          cases hpull
          exact ⟨hs, rfl, .inr (h _ _ _ hleft)⟩
        · cases hpull
        · obtain ⟨hrows, -⟩ := giveFirst_done hpull
          rw [List.map_eq_nil_iff, Array.toList_eq_nil_iff] at hrows
          exact absurd (hrows ▸ rfl) hfilled
  intro g s s' hpull
  refine ⟨fun t : ProductState m.State n.State => t.complete = true ∧ t.waiting = [] ∧
    (t.collected.isEmpty = true ∨ m.Ended t.left), ?_, ?_⟩
  · simp only [Machine.product] at hpull
    split at hpull
    · rename_i hcomplete
      exact hnext hcomplete hpull
    · split at hpull
      · cases hpull
      · exact hnext rfl hpull
  · rintro ⟨left, right, collected, complete, waiting⟩ ⟨rfl, rfl, hend⟩ g
    simp only [Machine.product, if_true, pairNext]
    by_cases hempty : collected.isEmpty = true
    · rw [if_pos hempty]
      exact ⟨_, rfl, rfl, rfl, .inl hempty⟩
    · obtain ⟨left', hleft, hleft'⟩ := (hend.resolve_left hempty).pull g
      rw [if_neg hempty, hleft]
      exact ⟨_, rfl, rfl, rfl, .inr hleft'⟩

/-- A projection ends for good if its input does. -/
theorem EndsForGood.project (h : m.EndsForGood) (items : List NamedExpression) :
    (m.project items).EndsForGood := by
  intro g s s' hpull
  refine ⟨m.Ended, ?_, fun t ht g => ?_⟩
  · simp only [Machine.project] at hpull
    split at hpull
    · split at hpull <;> cases hpull
    · rename_i hdone
      cases hpull
      exact h _ _ _ hdone
    · cases hpull
  · obtain ⟨t', hdone, ht'⟩ := ht.pull g
    exact ⟨t', by simp only [Machine.project, hdone], ht'⟩

/-- Whatever is made of all rows is given once. -/
theorem endsForGood_gather (m : Machine) {α : Type} (initial : α)
    (take : Graph → α → Row → Except QueryFault α) (finish : α → List Row) :
    (m.gather initial take finish).EndsForGood := by
  intro g s s' hpull
  refine ⟨fun t : GatherState m.State => t.rows = some [], ?_, ?_⟩
  · obtain ⟨input, rows⟩ := s
    cases rows with
    | some rows =>
      simp only [Machine.gather] at hpull
      obtain ⟨-, rfl⟩ := giveFirst_done hpull
      rfl
    | none =>
      simp only [Machine.gather] at hpull
      split at hpull
      · cases hpull
      · cases hpull
      · obtain ⟨-, rfl⟩ := giveFirst_done hpull
        rfl
  · rintro ⟨input, rows⟩ rfl g
    exact ⟨_, rfl, rfl⟩

/-- Distinct rows end for good if their input does. -/
theorem EndsForGood.distinct (h : m.EndsForGood) (columns : List String) :
    (m.distinct columns).EndsForGood := by
  intro g s s' hpull
  refine ⟨fun t : DistinctState m.State => m.Ended t.input, ?_, fun t ht g => ?_⟩
  · simp only [Machine.distinct] at hpull
    split at hpull
    · rename_i hrun
      cases hpull
      exact h.run hrun
    all_goals cases hpull
  · obtain ⟨input, hrun, hinput⟩ := ht.run g (distinctStep columns) t.seen
    exact ⟨DistinctState.mk input t.seen, by simp only [Machine.distinct, hrun], hinput⟩

/-- A skip ends for good if its input does. -/
theorem EndsForGood.skip (h : m.EndsForGood) (count : Nat) : (m.skip count).EndsForGood := by
  intro g s s' hpull
  refine ⟨fun t : CountState m.State => m.Ended t.input, ?_, fun t ht g => ?_⟩
  · simp only [Machine.skip] at hpull
    split at hpull
    · rename_i hrun
      cases hpull
      exact h.run hrun
    all_goals cases hpull
  · obtain ⟨input, hrun, hinput⟩ := ht.run g (skipStep count) t.count
    exact ⟨CountState.mk input t.count, by simp only [Machine.skip, hrun], hinput⟩

/-- A machine that has given all rows that it may ends without its input. -/
theorem EndsForGood.limit (h : m.EndsForGood) (count : Nat) : (m.limit count).EndsForGood := by
  intro g s s' hpull
  refine ⟨fun t : CountState m.State => count ≤ t.count ∨ m.Ended t.input, ?_, fun t ht g => ?_⟩
  · simp only [Machine.limit] at hpull
    split at hpull
    · rename_i hfull
      cases hpull
      exact .inl hfull
    · split at hpull
      · cases hpull
      · rename_i hdone
        cases hpull
        exact .inr (h _ _ _ hdone)
      · cases hpull
  · simp only [Machine.limit]
    by_cases hfull : count ≤ t.count
    · rw [if_pos hfull]
      exact ⟨t, rfl, .inl hfull⟩
    · obtain ⟨input, hdone, hinput⟩ := (ht.resolve_left hfull).pull g
      rw [if_neg hfull, hdone]
      exact ⟨_, rfl, .inr hinput⟩

end Machine

/-- Every operator ends for good. -/
theorem Operator.endsForGood (op : Operator) : op.machine.EndsForGood := by
  induction op with
  | scan access name pattern => exact Machine.endsForGood_scan access name
  | expand input e ih => exact ih.expand e
  | reach input r => exact Machine.endsForGood_reach _ r
  | filter input condition ih => exact ih.filter condition
  | product left right ih => exact ih.product _
  | project input items ih => exact ih.project items
  | aggregate input keys columns => exact Machine.endsForGood_gather _ _ _ _
  | distinct input columns ih => exact ih.distinct columns
  | sort input keys => exact Machine.endsForGood_gather _ _ _ _
  | skip input count ih => exact ih.skip count
  | limit input count ih => exact ih.limit count

end Plexus
