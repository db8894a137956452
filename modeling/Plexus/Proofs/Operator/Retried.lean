import Mathlib.Algebra.BigOperators.Group.List.Basic
import Mathlib.Algebra.GroupWithZero.Nat
import Plexus.Proofs.OneByOne
import Plexus.Proofs.Operator.Aggregated
import Plexus.Proofs.Operator.Pulls
import Plexus.Proofs.Operator.Reset

/-!
# Grouping after a fault

Grouping that fails may be pulled again. It has not kept the rows that it had taken in, and its
input does not give them a second time, so that the groups are made of what the input gives after
the last fault. To say which rows these are, the input keeps a log of all rows that it gives.
-/

namespace Plexus

/-- The rows that a pull gives. -/
def Pull.rows : Pull → List Row
  | row r => [r]
  | done | failed _ => []

namespace Machine

theorem pulls_succ (m : Machine) (s : m.State) (g : Graph) (count : Nat) :
    m.pulls s (List.replicate (count + 1) g) =
      (m.pull g s).1 :: m.pulls (m.pull g s).2 (List.replicate count g) :=
  rfl

theorem after_succ (m : Machine) (s : m.State) (g : Graph) (count : Nat) :
    m.after s (List.replicate (count + 1) (.next g)) =
      m.after (m.pull g s).2 (List.replicate count (.next g)) :=
  rfl

end Machine

namespace Mechanism

variable {m : Machine}

/-- The fields of an operator, and the rows that it has given since the last reset. -/
structure LoggedFields (φ : Type) where
  fields : φ
  log : List Row

/-- An operator that keeps a log of the rows that it gives. -/
def logged (k : Mechanism m) : Mechanism m where
  Fields := LoggedFields k.Fields
  fresh := ⟨k.fresh, []⟩
  next g f :=
    match k.next g f.fields with
    | (p, fields) => (p, ⟨fields, f.log ++ p.rows⟩)
  reset f := ⟨k.reset f.fields, []⟩
  view f := k.view f.fields
  view_fresh := k.view_fresh
  pull_view g f := k.pull_view g f.fields
  rewind_view f := k.rewind_view f.fields

variable {α : Type} {k : Mechanism m} {g : Graph}

/-- A mechanism that logs its rows pulls as without the log and adds what it gives to it. -/
theorem next_logged {f f' : k.Fields} {p : Pull} (h : k.next g f = (p, f')) (log : List Row) :
    k.logged.next g ⟨f, log⟩ = (p, ⟨f', log ++ p.rows⟩) := by
  simp only [logged, h]

/-- A pull adds what it gives to the log. -/
theorem log_of_next {f f' : k.logged.Fields} {p : Pull} (h : k.logged.next g f = (p, f')) :
    f'.log = f.log ++ p.rows := by
  cases h
  rfl

/-- The log of a run that takes in all rows grows by these rows. -/
theorem log_of_run {take : α → Row → Except QueryFault α} {a a' : α} {f f' : k.logged.Fields}
    (h : k.logged.toMachine.run g (Machine.gatherStep take) a f = (.drained, a', f')) :
    ∃ rows, f'.log = f.log ++ rows ∧ rows.foldlM take a = .ok a' := by
  fun_induction k.logged.toMachine.run g (Machine.gatherStep take) a f with
  | case1 a f last hpull =>
    cases h
    exact ⟨[], log_of_next hpull, rfl⟩
  | case2 => cases h
  | case3 => cases h
  | case4 a f r next hpull b hstep ih =>
    obtain ⟨rows, hlog, hfold⟩ := ih h
    have htake : take a r = .ok b := by
      unfold Machine.gatherStep at hstep
      split at hstep
      · rename_i htake
        cases hstep
        exact htake
      · cases hstep
    refine ⟨r :: rows, ?_, bind_eq_ok.2 ⟨b, htake, hfold⟩⟩
    rw [hlog, log_of_next hpull, List.append_assoc]
    rfl

section

variable {condition : Expression} {f f' : k.Fields}

/-- A filter has no more rows if none of those that are left passes. -/
theorem next_filter_of_drained
    (hrun : k.toMachine.run g (Machine.filterStep condition g) () f = (.drained, (), f')) :
    (k.filter condition).next g f = (.done, f') := by
  simp only [filter, hrun]

/-- A filter gives the first row that passes. -/
theorem next_filter_of_row {r : Row}
    (hrun : k.toMachine.run g (Machine.filterStep condition g) () f =
      (.enough (.ok r), (), f')) :
    (k.filter condition).next g f = (.row r, f') := by
  simp only [filter, hrun]

/-- A row on which the condition cannot be decided is lost to the filter. -/
theorem next_filter_of_fault {fault : QueryFault}
    (hrun : k.toMachine.run g (Machine.filterStep condition g) () f =
      (.enough (.error fault), (), f')) :
    (k.filter condition).next g f = (.failed fault, f') := by
  simp only [filter, hrun]

end

section

variable (initial : α) (take : Graph → α → Row → Except QueryFault α) (finish : α → List Row)

/-- An operator that has all its rows gives them one by one, and leaves its input alone. -/
theorem pulls_executed (k : Mechanism m) (g : Graph) (input : k.Fields) (rows : List Row)
    (count : Nat) :
    let tree := (k.gather initial take finish).toMachine
    tree.pulls ⟨input, rows, true⟩ (List.replicate count g) = Pull.ofRows rows count ∧
      (tree.after ⟨input, rows, true⟩ (List.replicate count (.next g))).input = input := by
  intro tree
  induction count generalizing rows with
  | zero => exact ⟨by simp [Machine.pulls, Pull.ofRows], rfl⟩
  | succ count ih =>
    cases rows with
    | nil =>
      obtain ⟨hpulls, hafter⟩ := ih []
      refine ⟨?_, hafter⟩
      calc tree.pulls ⟨input, [], true⟩ (List.replicate (count + 1) g)
          = .done :: tree.pulls ⟨input, [], true⟩ (List.replicate count g) := rfl
        _ = .done :: Pull.ofRows [] count := by rw [hpulls]
        _ = Pull.ofRows [] (count + 1) := by simp [Pull.ofRows, List.replicate_succ]
    | cons r rest =>
      obtain ⟨hpulls, hafter⟩ := ih rest
      refine ⟨?_, hafter⟩
      calc tree.pulls ⟨input, r :: rest, true⟩ (List.replicate (count + 1) g)
          = .row r :: tree.pulls ⟨input, rest, true⟩ (List.replicate count g) := rfl
        _ = .row r :: Pull.ofRows rest count := by rw [hpulls]
        _ = Pull.ofRows (r :: rest) (count + 1) := by simp [Pull.ofRows]

/-- An operator whose input fails keeps what it has from an earlier run, which is not of use. -/
theorem next_gather_of_failed {a : α} {f f' : k.Fields} {fault : QueryFault}
    (hrun : k.toMachine.run g (Machine.gatherStep (take g)) initial f = (.failed fault, a, f'))
    (results : List Row) :
    (k.gather initial take finish).next g ⟨f, results, false⟩ =
      (.failed fault, ⟨f', results, false⟩) := by
  simp only [gather, hrun, Bool.false_eq_true, if_false]

private theorem next_gather_of_enough {a : α} {f f' : k.Fields} {fault : QueryFault}
    (hrun : k.toMachine.run g (Machine.gatherStep (take g)) initial f = (.enough fault, a, f'))
    (results : List Row) :
    (k.gather initial take finish).next g ⟨f, results, false⟩ =
      (.failed fault, ⟨f', results, false⟩) := by
  simp only [gather, hrun, Bool.false_eq_true, if_false]

/-- An operator whose input is drained has its rows from then on. -/
theorem next_gather_of_drained {a : α} {f f' : k.Fields}
    (hrun : k.toMachine.run g (Machine.gatherStep (take g)) initial f = (.drained, a, f'))
    (results : List Row) :
    (k.gather initial take finish).next g ⟨f, results, false⟩ =
      (k.gather initial take finish).next g ⟨f', finish a, true⟩ := by
  simp only [gather, hrun, Bool.false_eq_true, if_false, if_true]

/-- A pull of an operator that does not have all its rows yet: it fails and starts over next time,
or it takes in whatever its input gives and has its rows from then on. -/
theorem next_of_unexecuted (g : Graph) {f : GatherFields k.logged.Fields}
    (hf : f.executed = false) :
    let tree := k.logged.gather initial take finish
    (∃ fault f', tree.next g f = (.failed fault, f') ∧ f'.executed = false) ∨
      ∃ rows a input, input.log = f.input.log ++ rows ∧ rows.foldlM (take g) initial = .ok a ∧
        tree.next g f = tree.next g ⟨input, finish a, true⟩ := by
  intro tree
  obtain ⟨before, results, executed⟩ := f
  subst hf
  rcases hrun : k.logged.toMachine.run g (Machine.gatherStep (take g)) initial before with
    ⟨_ | fault | fault, a, input⟩
  · obtain ⟨rows, hlog, hfold⟩ := log_of_run hrun
    exact .inr ⟨rows, a, input, hlog, hfold,
      next_gather_of_drained initial take finish hrun results⟩
  · exact .inl ⟨fault, _, next_gather_of_failed initial take finish hrun results, rfl⟩
  · exact .inl ⟨fault, _, next_gather_of_enough initial take finish hrun results, rfl⟩

/-- Some pulls fail and the others give the rows that are made of what the input gave during the
first pull that did not fail. -/
theorem pulls_of_unexecuted (g : Graph) (count : Nat)
    {f : (k.logged.gather initial take finish).toMachine.State} (hf : f.executed = false) :
    let tree := (k.logged.gather initial take finish).toMachine
    let log (pulls : Nat) := (tree.after f (List.replicate pulls (.next g))).input.log
    ∃ (faults : List QueryFault) (out : List Row), faults.length ≤ count ∧
      tree.pulls f (List.replicate count g) =
        faults.map .failed ++ Pull.ofRows out (count - faults.length) ∧
      (faults.length < count → ∃ rows a, log count = log faults.length ++ rows ∧
        rows.foldlM (take g) initial = .ok a ∧ out = finish a) := by
  intro tree log
  induction count generalizing f with
  | zero => exact ⟨[], [], Nat.le_refl 0, rfl, fun h => absurd h (Nat.lt_irrefl 0)⟩
  | succ count ih =>
    rcases next_of_unexecuted initial take finish g hf with
      ⟨fault, f', hnext, hf'⟩ | ⟨rows, a, input, hlog, hfold, hnext⟩
    · obtain ⟨faults, out, hle, hpulls, hrest⟩ := ih hf'
      have hcall : tree.pull g f = (.failed fault, f') := hnext
      have hafter (n : Nat) : tree.after f (List.replicate (n + 1) (.next g)) =
          tree.after f' (List.replicate n (.next g)) := by
        rw [Machine.after_succ, hcall]
      refine ⟨fault :: faults, out, Nat.succ_le_succ hle, ?_, fun hlt => ?_⟩
      · rw [Machine.pulls_succ, hcall, hpulls, List.length_cons, Nat.succ_sub_succ]
        rfl
      · simp only [log, hafter, List.length_cons]
        exact hrest (Nat.lt_of_succ_lt_succ hlt)
    · obtain ⟨hpulls, hafter⟩ :=
        pulls_executed initial take finish k.logged g input (finish a) (count + 1)
      have hcall : tree.pull g f = tree.pull g ⟨input, finish a, true⟩ := hnext
      refine ⟨[], finish a, Nat.zero_le _, ?_, fun _ => ⟨rows, a, ?_, hfold, rfl⟩⟩
      · rw [Machine.pulls_succ, hcall]
        exact hpulls
      · simp only [log]
        rw [Machine.after_succ, hcall]
        exact (congrArg LoggedFields.log hafter).trans hlog

end

end Mechanism

/-- The rows show numbers in a column that add up to a total. -/
def AddUp (column : String) (rows : List Row) (total : Nat) : Prop :=
  ∃ counts : List Nat, counts.sum = total ∧
    List.Forall₂ (fun r n => r.get? column = some (.scalar (.number (.ofNat n)))) rows counts

namespace Groups

variable {g : Graph} {keys : List NamedExpression} {columns : List AggregateColumn}
variable {keyed : Keyed} {tuples : List (List Value)} {out : List Row}

private theorem sum_same {t : List Value} (hdistinct : tuples.Pairwise fun s t => ¬SameTuple s t)
    (hcovers : ∃ s ∈ tuples, SameTuple s t) :
    (tuples.map fun s => if SameTuple t s then 1 else 0).sum = 1 := by
  induction hdistinct with
  | nil =>
    obtain ⟨s, hs, -⟩ := hcovers
    cases hs
  | @cons s rest hs _ ih =>
    rw [List.map_cons, List.sum_cons]
    by_cases hsame : SameTuple t s
    · have hrest : ∀ n ∈ rest.map fun r => if SameTuple t r then 1 else 0, n = 0 :=
        List.forall_mem_map.2 fun r hr => if_neg fun htr => hs r hr (hsame.symm.trans htr)
      rw [if_pos hsame, List.sum_eq_zero hrest, Nat.add_zero]
    · obtain ⟨r, hr, hrt⟩ := hcovers
      have hr' : r ∈ rest := (List.mem_cons.1 hr).resolve_left fun he => hsame (he ▸ hrt.symm)
      rw [if_neg hsame, ih ⟨r, hr', hrt⟩]

/-- The groups have as many members together as there are rows. -/
theorem sum_members (hdistinct : tuples.Pairwise fun s t => ¬SameTuple s t)
    (hcovers : ∀ p ∈ keyed, ∃ t ∈ tuples, SameTuple t p.1) :
    (tuples.map fun t => (keyed.filter fun p => SameTuple p.1 t).length).sum = keyed.length := by
  induction keyed with
  | nil => simp
  | cons p rest ih =>
    obtain ⟨hp, hrest⟩ := List.forall_mem_cons.1 hcovers
    have hsplit (t : List Value) : ((p :: rest).filter fun q => SameTuple q.1 t).length =
        (if SameTuple p.1 t then 1 else 0) + (rest.filter fun q => SameTuple q.1 t).length := by
      by_cases h : SameTuple p.1 t <;> simp [h, Nat.add_comm]
    simp only [hsplit, List.sum_map_add, sum_same hdistinct hp, ih hrest]
    rw [List.length_cons, Nat.add_comm]

private theorem get?_ofColumns {columns more : List String} {name : String}
    {values others : List Value} {v : Value} (h : columns.length = values.length)
    (hname : name ∉ more) :
    (Row.ofColumns (columns ++ name :: more) (values ++ v :: others)).get? name = some v := by
  have hmore : name ∉ Assoc.keys (more.zip others) := fun hmem =>
    let ⟨p, hp, he⟩ := List.mem_map.1 hmem
    hname (he ▸ (List.of_mem_zip hp).1)
  rw [Row.ofColumns_append h]
  refine (Assoc.get?_setAll_of_notMem _ hmore).trans ?_
  rw [Assoc.get?_set, if_pos rfl]

/-- A column that counts the rows shows the number of members of each group. -/
theorem Shows.count {key : List Value} {row : Row} {front back : List AggregateColumn}
    {name : String} (hkey : key.length = keys.length) (hname : name ∉ back.map (·.column))
    (h : Shows g keys (front ++ ⟨.count, none, name⟩ :: back) keyed key row) :
    row.get? name =
      some (.scalar (.number (.ofNat (keyed.filter fun p => SameTuple p.1 key).length))) := by
  obtain ⟨_, hvalues, rfl⟩ := h
  obtain ⟨before, _, rfl, hfront, hback⟩ := exists_append_of_forall₂ hvalues
  cases hback with
  | @cons _ v _ after hv _ =>
    have hshown : v =
        .scalar (.number (.ofNat (keyed.filter fun p => SameTuple p.1 key).length)) := by
      cases hv with
      | rows => rw [List.length_map]
      | values hargument => cases hargument
      | nothing hfunction => exact absurd rfl hfunction
    rw [List.map_append, List.map_cons, ← List.append_assoc, ← List.append_assoc]
    refine (get?_ofColumns ?_ hname).trans (congrArg some hshown)
    simp [hkey, hfront.length_eq]

/-- The tuple of a group has a value for every key. -/
theorem Divides.length_eq (h : Divides g keys columns keyed tuples out) {t : List Value}
    (ht : t ∈ tuples) : t.length = keys.length := by
  by_cases hkeys : keys = []
  · rw [h.single hkeys, List.mem_singleton] at ht
    rw [ht, hkeys]
    rfl
  · obtain ⟨p, hp, rfl⟩ := List.mem_map.1 ((h.seen hkeys).mem_of_found ht)
    exact (h.evaluated p hp).length_eq.symm

/-- The counts over the groups add up to the number of all rows. -/
theorem Divides.addUp {front back : List AggregateColumn} {name : String}
    (h : Divides g keys (front ++ ⟨.count, none, name⟩ :: back) keyed tuples out)
    (hname : name ∉ back.map (·.column)) : AddUp name out keyed.length := by
  refine ⟨_, sum_members h.distinct h.covers, List.forall₂_map_right_iff.2 (List.Forall₂.flip ?_)⟩
  have hshown := (List.forall₂_and_left _ _).2 ⟨fun t ht => h.length_eq ht, h.shown⟩
  exact hshown.imp fun t r hr => hr.2.count hr.1 hname

end Groups

namespace Operator

open Groups

section

variable (g : Graph) (input : Operator) (keys : List NamedExpression)
variable (columns : List AggregateColumn)

/-- Grouping whose input keeps a log. -/
def loggedAggregate : Machine := (input.mechanism.logged.aggregate keys columns).toMachine

/-- The rows that the input of grouping has given after some pulls on a graph. -/
def produced (pulls : Nat) : List Row :=
  let tree := input.loggedAggregate keys columns
  (tree.after tree.start (List.replicate pulls (.next g))).input.log

/-- The log does not show. -/
theorem pulls_loggedAggregate (graphs : List Graph) :
    let op := input.aggregate keys columns
    let tree := input.loggedAggregate keys columns
    tree.pulls tree.start graphs = op.machine.pulls op.machine.start graphs := by
  intro op tree
  have hpulls := (input.mechanism.logged.aggregate keys columns).pulls_view tree.start graphs
  exact hpulls.symm.trans (congrArg (op.machine.pulls · graphs) (Mechanism.view_fresh _))

/-- Pulls of grouping on a graph first fail, any number of times, and then give the rows of groups
until there are no more. The groups divide the rows that the input has given since the last fault;
what it gave before that is in no group. So the numbers in a column that counts the rows add up to
the number of rows that the input has given if it gave none to the pulls that failed, and otherwise
those are missing. -/
theorem groups_after_faults (count : Nat) :
    let op := input.aggregate keys columns
    let tree := input.loggedAggregate keys columns
    let given := op.machine.pulls op.machine.start (List.replicate count g)
    let produced := input.produced g keys columns
    tree.pulls tree.start (List.replicate count g) = given ∧
      ∃ (faults : List QueryFault) (out : List Row), faults.length ≤ count ∧
        given = faults.map .failed ++ Pull.ofRows out (count - faults.length) ∧
        (faults.length < count → ∃ keyed tuples,
          produced count = produced faults.length ++ keyed.map (·.2) ∧
          Divides g keys columns keyed tuples out ∧
          ∀ front back name, columns = front ++ ⟨.count, none, name⟩ :: back →
            name ∉ back.map (·.column) → AddUp name out keyed.length) := by
  intro op tree given produced
  have hgiven : tree.pulls tree.start (List.replicate count g) = given :=
    pulls_loggedAggregate input keys columns _
  obtain ⟨faults, out, hle, hpulls, hrest⟩ := Mechanism.pulls_of_unexecuted
    ([] : Groups) (fun g groups row => Groups.add g keys columns groups row)
    (Groups.rows keys columns) g count (f := tree.start) rfl
  refine ⟨hgiven, faults, out, hle, hgiven.symm.trans hpulls, fun hlt => ?_⟩
  obtain ⟨rows, groups, hlog, hfold, rfl⟩ := hrest hlt
  obtain ⟨keyed, rfl, hkeyed, hcharged⟩ := charged_of_foldlM hfold
  obtain ⟨tuples, hdivides⟩ := hcharged.divides hkeyed
  refine ⟨keyed, tuples, hlog, hdivides, ?_⟩
  rintro front back name rfl hname
  exact hdivides.addUp hname

end

/-- Three nodes, of which the second has a number where a condition wants a boolean. -/
def flags : Graph :=
  bare [[("ok", .boolean true)], [("ok", .number (.ofNat 1))], [("ok", .boolean true)]]

/-- The nodes whose property is true. -/
def flagged : Operator := filter (scan .all "n" "(n)") (.property "n" "ok")

/-- The number of all rows. -/
def counted : List AggregateColumn := [⟨.count, none, "rows"⟩]

/-- What the condition fails with on the second node. -/
def wrongKind : QueryFault := .type (.notBoolean "WHERE" "Number")

private def flagRow (id : Nat) : Row := ⟨[("n", .node ⟨id⟩)]⟩

/-- The row of a group with a number of rows. -/
def countRow (n : Nat) : Row := ⟨[("rows", .scalar (.number (.ofNat n)))]⟩

private theorem run_of_flags :
    let tree := flagged.loggedAggregate [] counted
    tree.pulls tree.start (List.replicate 3 flags) =
        [.failed wrongKind, .row (countRow 1), .done] ∧
      flagged.produced flags [] counted 1 = [flagRow 0] ∧
      flagged.produced flags [] counted 3 = [flagRow 0, flagRow 2] := by
  intro tree
  let filtered := (Mechanism.scan .all "n").filter (.property "n" "ok")
  let place (current : Nat) : Mechanism.ScanFields :=
    ⟨[⟨0⟩, ⟨1⟩, ⟨2⟩], current, true, Bool.noConfusion⟩
  have hfirst : filtered.next flags filtered.fresh = (.row (flagRow 0), place 1) :=
    Mechanism.next_filter_of_row (Machine.run_of_enough rfl rfl)
  have hsecond : filtered.next flags (place 1) = (.failed wrongKind, place 2) :=
    Mechanism.next_filter_of_fault (Machine.run_of_enough rfl rfl)
  have hthird : filtered.next flags (place 2) = (.row (flagRow 2), place 3) :=
    Mechanism.next_filter_of_row (Machine.run_of_enough rfl rfl)
  have hend : filtered.next flags (place 3) = (.done, place 3) :=
    Mechanism.next_filter_of_drained (Machine.run_of_done rfl)
  let take (g : Graph) (groups : Groups) (row : Row) := Groups.add g [] counted groups row
  let step := Machine.gatherStep (take flags)
  have hfailed : filtered.logged.toMachine.run flags step [] ⟨filtered.fresh, []⟩ =
      (.failed wrongKind, _, ⟨place 2, [flagRow 0]⟩) :=
    (Machine.run_of_more (Mechanism.next_logged hfirst []) rfl).trans
      (Machine.run_of_failed (Mechanism.next_logged hsecond [flagRow 0]))
  have hdrained : filtered.logged.toMachine.run flags step [] ⟨place 2, [flagRow 0]⟩ =
      (.drained, _, ⟨place 3, [flagRow 0, flagRow 2]⟩) :=
    (Machine.run_of_more (Mechanism.next_logged hthird [flagRow 0]) rfl).trans
      (Machine.run_of_done (Mechanism.next_logged hend [flagRow 0, flagRow 2]))
  have hpull : tree.pull flags tree.start =
      (.failed wrongKind, ⟨⟨place 2, [flagRow 0]⟩, [], false⟩) :=
    Mechanism.next_gather_of_failed [] take (Groups.rows [] counted) hfailed []
  have hpull' : tree.pull flags ⟨⟨place 2, [flagRow 0]⟩, [], false⟩ =
      (.row (countRow 1), ⟨⟨place 3, [flagRow 0, flagRow 2]⟩, [], true⟩) :=
    (Mechanism.next_gather_of_drained [] take (Groups.rows [] counted) hdrained []).trans rfl
  refine ⟨?_, ?_, ?_⟩
  · rw [Machine.pulls_succ, Machine.pulls_succ, hpull, hpull']
    rfl
  · rw [produced, Machine.after_succ, hpull]
    rfl
  · rw [produced, Machine.after_succ, Machine.after_succ, hpull, hpull']
    rfl

private theorem eq_of_one_fault {fault : QueryFault} {r : Row} {faults : List QueryFault}
    {out : List Row}
    (h : [.failed fault, .row r, .done] =
      faults.map .failed ++ Pull.ofRows out (3 - faults.length)) :
    faults = [fault] ∧ out = [r] := by
  match faults with
  | [] => cases out <;> simp [Pull.ofRows, List.replicate_succ] at h
  | [other] =>
    rcases out with _ | ⟨r', _ | ⟨r'', rest⟩⟩ <;>
      simp_all [Pull.ofRows, List.replicate_succ]
  | _ :: _ :: _ => simp at h

/-- After one fault the group has the third node alone. -/
theorem groups_after_faults_of_flags :
    let produced := flagged.produced flags [] counted
    ∃ keyed tuples, produced 3 = produced 1 ++ keyed.map (·.2) ∧
      Divides flags [] counted keyed tuples [countRow 1] ∧
      AddUp "rows" [countRow 1] keyed.length := by
  intro produced
  obtain ⟨hpulls, -, -⟩ := run_of_flags
  obtain ⟨hgiven, faults, out, -, hfaults, hrest⟩ := groups_after_faults flags flagged [] counted 3
  rw [← hgiven, hpulls] at hfaults
  obtain ⟨rfl, rfl⟩ := eq_of_one_fault hfaults
  obtain ⟨keyed, tuples, hproduced, hdivides, hcounts⟩ := hrest (by decide)
  exact ⟨keyed, tuples, hproduced, hdivides, hcounts [] [] "rows" rfl List.not_mem_nil⟩

/-- The input gives two rows, and the one that it gave before the fault is not counted. -/
theorem miscounted_after_fault :
    let op := flagged.aggregate [] counted
    op.machine.pulls op.machine.start (List.replicate 3 flags) =
        [.failed wrongKind, .row (countRow 1), .done] ∧
      (flagged.produced flags [] counted 3).length = 2 ∧ ¬AddUp "rows" [countRow 1] 2 := by
  intro op
  obtain ⟨hpulls, -, hproduced⟩ := run_of_flags
  refine ⟨?_, by rw [hproduced]; rfl, ?_⟩
  · exact (pulls_loggedAggregate flagged [] counted _).symm.trans hpulls
  · rintro ⟨_, hsum, _ | ⟨hcount, _ | _⟩⟩
    rw [List.sum_cons, List.sum_nil, Nat.add_zero] at hsum
    subst hsum
    exact absurd hcount (by decide)

end Operator

end Plexus
