import Plexus.Operator.Machine
import Plexus.Operator.Matching
import Plexus.Operator.Progress
import Plexus.Operator.Sorting

/-!
# One machine per operator

Each operator turns the machines of its inputs into a machine of its own. Whatever an input fails
with is passed on, and what had been worked out for the failing pull alone is lost; the state
kept for later pulls is spelled out by each machine's state type. Rewinding gives back the state
before the first pull, down to the inputs.
-/

namespace Plexus

namespace Machine

/-- Give the first of some rows and keep the rest. -/
def giveFirst {σ : Type} (rows : List Row) (keep : List Row → σ) : Pull × σ :=
  match rows with
  | [] => (.done, keep [])
  | r :: rest => (.row r, keep rest)

/-- The state after a first row is given holds the others. -/
theorem giveFirst_row {σ : Type} {rows : List Row} {keep : List Row → σ} {r : Row} {s : σ}
    (h : giveFirst rows keep = (.row r, s)) : ∃ rest, rows = r :: rest ∧ s = keep rest := by
  cases rows with
  | nil => simp [giveFirst] at h
  | cons x xs =>
    simp only [giveFirst, Prod.mk.injEq, Pull.row.injEq] at h
    exact ⟨xs, by rw [h.1], h.2.symm⟩

/-- The state of a leaf: the nodes still to be given, once they have been listed. -/
abbrev ScanState := Option (List NodeId)

/-- A leaf lists its nodes at the first pull and then gives one row for each. -/
def scan (access : Access) (name : String) : Machine where
  State := ScanState
  start := none
  pull g s :=
    match s.getD (access.nodes g) with
    | [] => (.done, some [])
    | id :: rest => (.row (Row.empty.bind name (.node id)), some rest)
  rewind _ := none
  Ahead g s t := (s.getD (access.nodes g)).length < (t.getD (access.nodes g)).length
  ahead_wf _ := InvImage.wf _ Nat.lt_wfRel.wf
  ahead_trans _ _ _ _ := Nat.lt_trans
  ahead_of_pull {g s r s'} h := by
    generalize hs : s.getD (access.nodes g) = ids at h
    cases ids with
    | nil => simp at h
    | cons id rest =>
      simp only [Prod.mk.injEq] at h
      simp [← h.2]

/-- The state of a traversal by one hop: its input, and rows of the last input row that still
have to be given. -/
structure ExpandState (σ : Type) where
  input : σ
  waiting : List Row

/-- What counts for the progress of a traversal by one hop. -/
def ExpandState.stock {σ : Type} (s : ExpandState σ) : Stock σ := ⟨some s.input, s.waiting⟩

/-- One input row is enough if it is extended to a row or cannot be extended. -/
def expandStep (e : Expansion) (g : Graph) (_ : Unit) (row : Row) :
    Unit × Option (Except QueryFault (Row × List Row)) :=
  match e.rows g row with
  | .ok [] => ((), none)
  | .ok (r :: rest) => ((), some (.ok (r, rest)))
  | .error fault => ((), some (.error fault))

/-- Pull an input until a row is extended to at least one row, or the input ends or fails. -/
def expand (m : Machine) (e : Expansion) : Machine where
  State := ExpandState m.State
  start := ⟨m.start, []⟩
  pull g s :=
    match s.waiting with
    | r :: rest => (.row r, ⟨s.input, rest⟩)
    | [] =>
      match m.run g (expandStep e g) () s.input with
      | (.drained, _, input) => (.done, ⟨input, []⟩)
      | (.failed fault, _, input) => (.failed fault, ⟨input, []⟩)
      | (.enough (.error fault), _, input) => (.failed fault, ⟨input, []⟩)
      | (.enough (.ok (r, rest)), _, input) => (.row r, ⟨input, rest⟩)
  rewind s := ⟨m.rewind s.input, []⟩
  Ahead g s t := Progress (m.Ahead g) s.stock t.stock
  ahead_wf g := InvImage.wf ExpandState.stock (Progress.wf (m.ahead_wf g))
  ahead_trans g _ _ _ := Progress.trans (m.ahead_trans g)
  ahead_of_pull {g s r s'} h := by
    obtain ⟨input, waiting⟩ := s
    cases waiting with
    | cons x rest =>
      simp only [Prod.mk.injEq] at h
      obtain ⟨-, rfl⟩ := h
      exact .give _ _ _
    | nil =>
      dsimp only at h
      split at h
      · simp at h
      · simp at h
      · simp at h
      · rename_i hr
        simp only [Prod.mk.injEq] at h
        obtain ⟨-, rfl⟩ := h
        exact .input (.further (m.ahead_of_run hr))

/-- The state of a traversal by an interval of hops: its input, whether the input is finished, and
rows of the last batch that still have to be given. -/
structure ReachState (σ : Type) where
  input : σ
  finished : Bool
  waiting : List Row

/-- What counts for the progress of a traversal by an interval of hops. -/
def ReachState.stock {σ : Type} (s : ReachState σ) : Stock σ :=
  ⟨if s.finished then none else some s.input, s.waiting⟩

/-- Rows are enough if one has no start, or if they fill a batch that is extended to a row. -/
def reachStep (r : Reach) (g : Graph) (batch : Array (Row × Option NodeId)) (row : Row) :
    Array (Row × Option NodeId) × Option (Except QueryFault (Row × List Row)) :=
  match row.startNode r.source with
  | .error fault => (#[], some (.error fault))
  | .ok start =>
    let batch := batch.push (row, start)
    if batch.size < r.batchSize then (batch, none)
    else
      match r.rows g batch.toList with
      | [] => (#[], none)
      | first :: rest => (#[], some (.ok (first, rest)))

/-- Pull an input batch by batch, from a batch that is begun, until a batch is extended to at least
one row, or the input ends or fails. A batch in which a row has no start, or during which the input
fails, is lost. -/
def reachPull (m : Machine) (r : Reach) (g : Graph) (batch : Array (Row × Option NodeId))
    (input : m.State) : Pull × ReachState m.State :=
  match m.run g (reachStep r g) batch input with
  | (.drained, batch, input) => giveFirst (r.rows g batch.toList) fun rest => ⟨input, true, rest⟩
  | (.failed fault, _, input) => (.failed fault, ⟨input, false, []⟩)
  | (.enough (.error fault), _, input) => (.failed fault, ⟨input, false, []⟩)
  | (.enough (.ok (first, rest)), _, input) => (.row first, ⟨input, false, rest⟩)

/-- A batch that gives a row finishes the input or ends strictly ahead in it. -/
theorem further_reachPull (m : Machine) {r : Reach} {g : Graph}
    {batch : Array (Row × Option NodeId)} {input : m.State} {row : Row} {s' : ReachState m.State}
    (h : m.reachPull r g batch input = (.row row, s')) :
    FurtherIn (m.Ahead g) s'.stock.input (some input) := by
  unfold reachPull at h
  split at h
  · obtain ⟨rest, -, rfl⟩ := giveFirst_row h
    exact .finished
  · simp at h
  · simp at h
  · rename_i hr
    simp only [Prod.mk.injEq] at h
    obtain ⟨-, rfl⟩ := h
    exact .further (m.ahead_of_run hr)

/-- Give the rows of a batch that wait, or else go on in the input, if there can be room for a batch
of it. Otherwise the input is not even pulled. -/
def reach (m : Machine) (r : Reach) : Machine where
  State := ReachState m.State
  start := ⟨m.start, false, []⟩
  pull g s :=
    match s.waiting with
    | row :: rest => (.row row, { s with waiting := rest })
    | [] =>
      if s.finished then (.done, s)
      else if Batch.fits r.batchSize then m.reachPull r g #[] s.input
      else (.failed .noRoom, s)
  rewind s := ⟨m.rewind s.input, false, []⟩
  Ahead g s t := Progress (m.Ahead g) s.stock t.stock
  ahead_wf g := InvImage.wf ReachState.stock (Progress.wf (m.ahead_wf g))
  ahead_trans g _ _ _ := Progress.trans (m.ahead_trans g)
  ahead_of_pull {g s row s'} h := by
    obtain ⟨input, finished, waiting⟩ := s
    cases waiting with
    | cons x rest =>
      simp only [Prod.mk.injEq] at h
      obtain ⟨-, rfl⟩ := h
      exact .give _ _ _
    | nil =>
      cases finished with
      | true => simp at h
      | false =>
        simp only [Bool.false_eq_true, if_false] at h
        split at h
        · exact .input (m.further_reachPull h)
        · simp at h

/-- A row is enough if the condition is true on it or cannot be decided. -/
def filterStep (condition : Expression) (g : Graph) (_ : Unit) (row : Row) :
    Unit × Option (Except QueryFault Row) :=
  match condition.isMatch g row with
  | .ok true => ((), some (.ok row))
  | .ok false => ((), none)
  | .error fault => ((), some (.error fault))

/-- Pull an input until the condition is true on a row, or cannot be decided. -/
def filter (m : Machine) (condition : Expression) : Machine where
  State := m.State
  start := m.start
  pull g s :=
    match m.run g (filterStep condition g) () s with
    | (.drained, _, s) => (.done, s)
    | (.failed fault, _, s) => (.failed fault, s)
    | (.enough (.error fault), _, s) => (.failed fault, s)
    | (.enough (.ok row), _, s) => (.row row, s)
  rewind := m.rewind
  Ahead := m.Ahead
  ahead_wf := m.ahead_wf
  ahead_trans := m.ahead_trans
  ahead_of_pull {g s r s'} h := by
    split at h
    · simp at h
    · simp at h
    · simp at h
    · rename_i hr
      simp only [Prod.mk.injEq] at h
      obtain ⟨-, rfl⟩ := h
      exact m.ahead_of_run hr

/-- The state of a product: its inputs, the rows of the right input so far, whether they are all,
and rows of the last left row that still have to be given. -/
structure ProductState (σ τ : Type) where
  left : σ
  right : τ
  collected : Array Row
  complete : Bool
  waiting : List Row

/-- What counts for the progress of a product. -/
def ProductState.stock {σ τ : Type} (s : ProductState σ τ) : Stock σ := ⟨some s.left, s.waiting⟩

/-- Give the waiting rows of a product, or else combine the next left row with all right rows. -/
def pairNext (m : Machine) {τ : Type} (g : Graph) (s : ProductState m.State τ) :
    Pull × ProductState m.State τ :=
  match s.waiting with
  | r :: rest => (.row r, { s with waiting := rest })
  | [] =>
    if s.collected.isEmpty then (.done, s)
    else
      match m.pull g s.left with
      | (.done, left) => (.done, { s with left })
      | (.failed fault, left) => (.failed fault, { s with left })
      | (.row r, left) =>
        giveFirst (s.collected.toList.map r.merge) fun rest => { s with left, waiting := rest }

/-- Collect the right input, keeping what it gives even if it fails on the way, and then combine
each left row with all right rows. -/
def product (m n : Machine) : Machine where
  State := ProductState m.State n.State
  start := ⟨m.start, n.start, #[], false, []⟩
  pull g s :=
    if s.complete then m.pairNext g s
    else
      match n.collect g s.collected s.right with
      | (.failed fault, collected, right) => (.failed fault, { s with right, collected })
      | (.drained, collected, right) =>
        m.pairNext g { s with right, collected, complete := true }
  rewind s := ⟨m.rewind s.left, n.rewind s.right, #[], false, []⟩
  Ahead g s t := Progress (m.Ahead g) s.stock t.stock
  ahead_wf g := InvImage.wf ProductState.stock (Progress.wf (m.ahead_wf g))
  ahead_trans g _ _ _ := Progress.trans (m.ahead_trans g)
  ahead_of_pull {g s r s'} h := by
    have key : ∀ (t : ProductState m.State n.State), m.pairNext g t = (.row r, s') →
        Progress (m.Ahead g) s'.stock t.stock := by
      intro t ht
      obtain ⟨left, right, collected, complete, waiting⟩ := t
      cases waiting with
      | cons x rest =>
        simp only [pairNext, Prod.mk.injEq] at ht
        obtain ⟨-, rfl⟩ := ht
        exact .give _ _ _
      | nil =>
        simp only [pairNext] at ht
        split at ht
        · simp at ht
        · split at ht
          · simp at ht
          · simp at ht
          · rename_i hp
            obtain ⟨rest, -, rfl⟩ := giveFirst_row ht
            exact .input (.further (m.ahead_of_pull hp))
    split at h
    · exact key s h
    · split at h
      · simp at h
      · exact key ⟨s.left, _, _, true, s.waiting⟩ h

/-- Give the row of some expressions for every row of an input. -/
def project (m : Machine) (items : List NamedExpression) : Machine where
  State := m.State
  start := m.start
  pull g s :=
    match m.pull g s with
    | (.row row, s) =>
      match projectRow g items row with
      | .ok r => (.row r, s)
      | .error fault => (.failed fault, s)
    | (.done, s) => (.done, s)
    | (.failed fault, s) => (.failed fault, s)
  rewind := m.rewind
  Ahead := m.Ahead
  ahead_wf := m.ahead_wf
  ahead_trans := m.ahead_trans
  ahead_of_pull {g s r s'} h := by
    split at h
    · rename_i hp
      split at h
      · simp only [Prod.mk.injEq] at h
        obtain ⟨-, rfl⟩ := h
        exact m.ahead_of_pull hp
      · simp at h
    · simp at h
    · simp at h

/-- The state of an operator that needs all its input first: the input, and then the rows that
still have to be given. -/
structure GatherState (σ : Type) where
  input : σ
  rows : Option (List Row)

/-- What counts for the progress of an operator that needs all its input first. -/
def GatherState.stock {σ : Type} (s : GatherState σ) : Stock Unit :=
  match s.rows with
  | none => ⟨some (), []⟩
  | some rows => ⟨none, rows⟩

/-- A row is enough only if it cannot be taken in. -/
def gatherStep {α : Type} (take : α → Row → Except QueryFault α) (a : α) (row : Row) :
    α × Option QueryFault :=
  match take a row with
  | .ok a => (a, none)
  | .error fault => (a, some fault)

/-- Take in all rows of an input and then give the rows made of them. If the input or the step
fails, what was taken in is lost, and the next pull starts over with what the input has left. -/
def gather (m : Machine) {α : Type} (initial : α) (take : Graph → α → Row → Except QueryFault α)
    (finish : α → List Row) : Machine where
  State := GatherState m.State
  start := ⟨m.start, none⟩
  pull g s :=
    match s.rows with
    | some rows => giveFirst rows fun rest => ⟨s.input, some rest⟩
    | none =>
      match m.run g (gatherStep (take g)) initial s.input with
      | (.failed fault, _, input) => (.failed fault, ⟨input, none⟩)
      | (.enough fault, _, input) => (.failed fault, ⟨input, none⟩)
      | (.drained, a, input) => giveFirst (finish a) fun rest => ⟨input, some rest⟩
  rewind s := ⟨m.rewind s.input, none⟩
  Ahead _ s t := Progress (fun _ _ => False) s.stock t.stock
  ahead_wf _ := InvImage.wf GatherState.stock
    (Progress.wf ⟨fun _ => ⟨_, fun _ h => h.elim⟩⟩)
  ahead_trans _ _ _ _ := Progress.trans fun _ _ _ h _ => h
  ahead_of_pull {g s r s'} h := by
    obtain ⟨input, rows⟩ := s
    cases rows with
    | some rows =>
      obtain ⟨rest, rfl, rfl⟩ := giveFirst_row h
      exact .give _ _ _
    | none =>
      dsimp only at h
      split at h
      · simp at h
      · simp at h
      · obtain ⟨rest, -, rfl⟩ := giveFirst_row h
        exact .input .finished

/-- Group all rows of an input. -/
def aggregate (m : Machine) (keys : List NamedExpression) (columns : List AggregateColumn) :
    Machine :=
  m.gather ([] : Groups) (fun g groups row => Groups.add g keys columns groups row)
    (Groups.rows keys columns)

/-- Sort all rows of an input. -/
def sort (m : Machine) (keys : List OrderItem) : Machine :=
  m.gather (#[] : Array KeyedRow)
    (fun g rows row => (KeyedRow.of g keys row).map rows.push)
    (fun rows => sortRows keys rows.toList)

/-- The state of an operator that leaves out equal rows: its input, and the values seen. -/
structure DistinctState (σ : Type) where
  input : σ
  seen : List (List Value)

/-- A row is enough if its values were not seen before. -/
def distinctStep (columns : List String) (seen : List (List Value)) (row : Row) :
    List (List Value) × Option Row :=
  let values := (row.values columns).map Value.canonical
  if values ∈ seen then (seen, none) else (values :: seen, some row)

/-- Pull an input until a row has values that were not seen before. -/
def distinct (m : Machine) (columns : List String) : Machine where
  State := DistinctState m.State
  start := ⟨m.start, []⟩
  pull g s :=
    match m.run g (distinctStep columns) s.seen s.input with
    | (.drained, seen, input) => (.done, ⟨input, seen⟩)
    | (.failed fault, seen, input) => (.failed fault, ⟨input, seen⟩)
    | (.enough row, seen, input) => (.row row, ⟨input, seen⟩)
  rewind s := ⟨m.rewind s.input, []⟩
  Ahead g s t := m.Ahead g s.input t.input
  ahead_wf g := InvImage.wf DistinctState.input (m.ahead_wf g)
  ahead_trans g _ _ _ := m.ahead_trans g _ _ _
  ahead_of_pull {g s r s'} h := by
    split at h
    · simp at h
    · simp at h
    · rename_i hr
      simp only [Prod.mk.injEq] at h
      obtain ⟨-, rfl⟩ := h
      exact m.ahead_of_run hr

/-- The state of an operator that counts rows: its input, and the number of rows so far. -/
structure CountState (σ : Type) where
  input : σ
  count : Nat

/-- A row is enough once as many rows were left out as there should be. -/
def skipStep (n : Nat) (count : Nat) (row : Row) : Nat × Option Row :=
  if count < n then (count + 1, none) else (count, some row)

/-- Leave out the first rows of an input; those left out count even if the input fails later. -/
def skip (m : Machine) (n : Nat) : Machine where
  State := CountState m.State
  start := ⟨m.start, 0⟩
  pull g s :=
    match m.run g (skipStep n) s.count s.input with
    | (.drained, count, input) => (.done, ⟨input, count⟩)
    | (.failed fault, count, input) => (.failed fault, ⟨input, count⟩)
    | (.enough row, count, input) => (.row row, ⟨input, count⟩)
  rewind s := ⟨m.rewind s.input, 0⟩
  Ahead g s t := m.Ahead g s.input t.input
  ahead_wf g := InvImage.wf CountState.input (m.ahead_wf g)
  ahead_trans g _ _ _ := m.ahead_trans g _ _ _
  ahead_of_pull {g s r s'} h := by
    split at h
    · simp at h
    · simp at h
    · rename_i hr
      simp only [Prod.mk.injEq] at h
      obtain ⟨-, rfl⟩ := h
      exact m.ahead_of_run hr

/-- Give no more than the first rows of an input, and do not pull it for more. -/
def limit (m : Machine) (n : Nat) : Machine where
  State := CountState m.State
  start := ⟨m.start, 0⟩
  pull g s :=
    if n ≤ s.count then (.done, s)
    else
      match m.pull g s.input with
      | (.row row, input) => (.row row, ⟨input, s.count + 1⟩)
      | (.done, input) => (.done, ⟨input, s.count⟩)
      | (.failed fault, input) => (.failed fault, ⟨input, s.count⟩)
  rewind s := ⟨m.rewind s.input, 0⟩
  Ahead g s t := m.Ahead g s.input t.input
  ahead_wf g := InvImage.wf CountState.input (m.ahead_wf g)
  ahead_trans g _ _ _ := m.ahead_trans g _ _ _
  ahead_of_pull {g s r s'} h := by
    split at h
    · simp at h
    · split at h
      · rename_i hp
        simp only [Prod.mk.injEq] at h
        obtain ⟨-, rfl⟩ := h
        exact m.ahead_of_pull hp
      · simp at h
      · simp at h

end Machine

/-- The machine of an operator tree. -/
def Operator.machine : Operator → Machine
  | scan access name _ => .scan access name
  | expand input e => input.machine.expand e
  | reach input r => input.machine.reach r
  | filter input condition => input.machine.filter condition
  | product left right => left.machine.product right.machine
  | project input items => input.machine.project items
  | aggregate input keys columns => input.machine.aggregate keys columns
  | distinct input columns => input.machine.distinct columns
  | sort input keys => input.machine.sort keys
  | skip input count => input.machine.skip count
  | limit input count => input.machine.limit count

end Plexus
