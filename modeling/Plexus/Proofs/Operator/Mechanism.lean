import Plexus.Operator.Stage
import Plexus.Proofs.Operator.Machine

/-!
# Operators field by field

The state of a machine is what its future depends on. An operator keeps more than that: lists with a
place in them, flags that say whether the lists are of use, and the leftovers of earlier rows. Here
each operator is written with all its fields, and what the fields show is the state of its machine.
A reset that leaves some fields as they are may still show the state before the first pull.
-/

namespace Plexus

/-- An operator with all that it keeps. Its steps are those of a machine, whose state its fields
show. -/
structure Mechanism (m : Machine) where
  Fields : Type
  fresh : Fields
  next : Graph → Fields → Pull × Fields
  reset : Fields → Fields
  view : Fields → m.State
  view_fresh : view fresh = m.start
  pull_view : ∀ g f, m.pull g (view f) = Prod.map id view (next g f)
  rewind_view : ∀ f, m.rewind (view f) = view (reset f)

namespace Mechanism

variable {m n : Machine}

/-- The operator as a machine of its own. It comes to its end because the machine that it shows
does. -/
def toMachine (k : Mechanism m) : Machine where
  State := k.Fields
  start := k.fresh
  pull := k.next
  rewind := k.reset
  Ahead g s t := m.Ahead g (k.view s) (k.view t)
  ahead_wf g := InvImage.wf k.view (m.ahead_wf g)
  ahead_trans g _ _ _ := m.ahead_trans g _ _ _
  ahead_of_pull {g s r s'} h := m.ahead_of_pull (by rw [k.pull_view, h]; rfl)

/-- A pull of what is shown gives what the operator gives. -/
theorem pull_of_next (k : Mechanism m) {g : Graph} {f f' : k.Fields} {p : Pull}
    (h : k.next g f = (p, f')) : m.pull g (k.view f) = (p, k.view f') := by
  rw [k.pull_view, h]
  rfl

section

variable {α α' β β' : Type} {step : α → Row → α × Option β} {step' : α' → Row → α' × Option β'}

/-- What the end of a run shows, given what is shown of the accumulated value and of a result. -/
def showRun (k : Mechanism m) (v : α → α') (w : α → β → β') :
    Halt β × α × k.Fields → Halt β' × α' × m.State
  | (.drained, a, f) => (.drained, v a, k.view f)
  | (.failed fault, a, f) => (.failed fault, v a, k.view f)
  | (.enough b, a, f) => (.enough (w a b), v a, k.view f)

/-- If one step shows another, so do the runs. -/
theorem run_view (k : Mechanism m) {v : α → α'} {w : α → β → β'}
    (h : ∀ a r, step' (v a) r = (v (step a r).1, (step a r).2.map (w (step a r).1)))
    (g : Graph) (a : α) (f : k.Fields) :
    m.run g step' (v a) (k.view f) = k.showRun v w (k.toMachine.run g step a f) := by
  fun_induction k.toMachine.run g step a f with
  | case1 a f f' hpull =>
    exact Machine.run_of_done (k.pull_of_next hpull)
  | case2 a f fault f' hpull =>
    exact Machine.run_of_failed (k.pull_of_next hpull)
  | case3 a f r f' hpull a' b hstep =>
    refine Machine.run_of_enough (k.pull_of_next hpull) ?_
    rw [h, hstep]
    rfl
  | case4 a f r f' hpull a' hstep ih =>
    refine (Machine.run_of_more (k.pull_of_next hpull) ?_).trans ih
    rw [h, hstep]
    rfl

/-- One step gives the same run on the operator as on the machine that it shows. -/
theorem run_same (k : Mechanism m) (g : Graph) (a : α) (f : k.Fields) :
    m.run g step a (k.view f) = k.showRun id (fun _ b => b) (k.toMachine.run g step a f) :=
  k.run_view (v := id) (w := fun _ b => b) (fun a r => by simp) g a f

end

/-- Collecting the rows of a mechanism goes as collecting those of its machine. -/
theorem collect_same (k : Mechanism m) (g : Graph) (rows : Array Row) (f : k.Fields) :
    m.collect g rows (k.view f) =
      k.showRun id (fun _ b => b) (k.toMachine.collect g rows f) :=
  k.run_same g rows f

theorem map_giveFirst {σ τ : Type} (rows : List Row) (keep : List Row → σ) (v : σ → τ) :
    Prod.map id v (Machine.giveFirst rows keep) = Machine.giveFirst rows (v ∘ keep) := by
  cases rows <;> rfl

/-! ## Leaves -/

theorem drop_of_getElem?_none {α : Type} {l : List α} {i : Nat} (h : l[i]? = none) :
    l.drop i = [] :=
  List.drop_eq_nil_of_le (List.getElem?_eq_none_iff.1 h)

theorem drop_of_getElem?_some {α : Type} {l : List α} {i : Nat} {a : α} (h : l[i]? = some a) :
    l.drop i = a :: l.drop (i + 1) := by
  obtain ⟨hi, rfl⟩ := List.getElem?_eq_some_iff.1 h
  exact List.drop_eq_getElem_cons hi

/-- The fields of a leaf: a list of nodes and a place in it. The list is of use once it has been
made, and until then the place is the first one. -/
structure ScanFields where
  nodes : List NodeId
  current : Nat
  listed : Bool
  current_eq_zero : listed = false → current = 0

namespace ScanFields

/-- The nodes still to be given. -/
def waiting (f : ScanFields) : Machine.ScanState :=
  if f.listed then some (f.nodes.drop f.current) else none

/-- List the nodes unless this has been done. -/
def fill (access : Access) (g : Graph) (f : ScanFields) : ScanFields :=
  if f.listed then f else ⟨access.nodes g, f.current, true, nofun⟩

/-- Once the nodes are listed, those from the current one on are those that wait. -/
theorem drop_fill (access : Access) (g : Graph) (f : ScanFields) :
    (f.fill access g).nodes.drop (f.fill access g).current = f.waiting.getD (access.nodes g) := by
  obtain ⟨nodes, current, listed, hcurrent⟩ := f
  cases listed with
  | true => rfl
  | false =>
    obtain rfl := hcurrent rfl
    rfl

theorem listed_fill (access : Access) (g : Graph) (f : ScanFields) :
    (f.fill access g).listed = true := by
  unfold fill
  split
  · assumption
  · rfl

end ScanFields

/-- A leaf. Its reset keeps the list, and has it made again. -/
def scan (access : Access) (name : String) : Mechanism (.scan access name) where
  Fields := ScanFields
  fresh := ⟨[], 0, false, fun _ => rfl⟩
  next g f :=
    let f := f.fill access g
    match f.nodes[f.current]? with
    | none => (.done, f)
    | some id => (.row (Row.empty.bind name (.node id)), ⟨f.nodes, f.current + 1, true, nofun⟩)
  reset f := ⟨f.nodes, 0, false, fun _ => rfl⟩
  view := ScanFields.waiting
  view_fresh := rfl
  pull_view g f := by
    have hdrop := f.drop_fill access g
    have hview : (f.fill access g).waiting = some (f.waiting.getD (access.nodes g)) := by
      rw [ScanFields.waiting, if_pos (f.listed_fill access g), hdrop]
    simp only [Machine.scan, ← hdrop] at hview ⊢
    cases hget : (f.fill access g).nodes[(f.fill access g).current]? with
    | none =>
      rw [drop_of_getElem?_none hget] at hview ⊢
      exact congrArg _ hview.symm
    | some id =>
      rw [drop_of_getElem?_some hget]
      rfl
  rewind_view _ := rfl

/-! ## Traversals -/

/-- A row, and a place among the items that extend it. -/
structure Place where
  current : Option Row
  index : Nat

namespace Place

variable {γ : Type} {extend : Row → γ → Row} {items : List γ} {p p' : Place} {r : Row}

/-- The rows still to be given. -/
def waiting (extend : Row → γ → Row) (items : List γ) (p : Place) : List Row :=
  match p.current with
  | some row => (items.drop p.index).map (extend row)
  | none => []

/-- The row extended by the item at the place, if there are both. -/
def next? (extend : Row → γ → Row) (items : List γ) (p : Place) : Option (Row × Place) :=
  match p.current, items[p.index]? with
  | some row, some item => some (extend row item, ⟨some row, p.index + 1⟩)
  | _, _ => none

/-- If no pair is next, no row of the product waits. -/
theorem waiting_of_none (h : p.next? extend items = none) : p.waiting extend items = [] := by
  obtain ⟨current, index⟩ := p
  cases current with
  | none => rfl
  | some row =>
    cases hget : items[index]? with
    | none => simp only [waiting, drop_of_getElem?_none hget, List.map_nil]
    | some item => simp [next?, hget] at h

/-- The next pair is the first row of the product that waits. -/
theorem waiting_of_some (h : p.next? extend items = some (r, p')) :
    p.waiting extend items = r :: p'.waiting extend items := by
  obtain ⟨current, index⟩ := p
  cases current with
  | none => cases h
  | some row =>
    cases hget : items[index]? with
    | none => simp [next?, hget] at h
    | some item =>
      simp only [next?, hget, Option.some.injEq, Prod.mk.injEq] at h
      obtain ⟨rfl, rfl⟩ := h
      simp only [waiting, drop_of_getElem?_some hget, List.map_cons]

end Place

/-- The ends found for a row. -/
structure Candidates where
  place : Place
  found : List (Option EdgeId × NodeId)

namespace Candidates

/-- The rows still to be given. -/
def waiting (e : Expansion) (c : Candidates) : List Row := c.place.waiting e.extend c.found

/-- The row extended by the end at the place, if there are both. -/
def next? (e : Expansion) (c : Candidates) : Option (Row × Candidates) :=
  (c.place.next? e.extend c.found).map fun given => (given.1, { c with place := given.2 })

/-- If no candidate is next, no row of the traversal waits. -/
theorem waiting_of_none {e : Expansion} {c : Candidates} (h : c.next? e = none) :
    c.waiting e = [] :=
  Place.waiting_of_none (Option.map_eq_none_iff.1 h)

/-- The next candidate is the first row of the traversal that waits. -/
theorem waiting_of_some {e : Expansion} {c c' : Candidates} {r : Row}
    (h : c.next? e = some (r, c')) : c.waiting e = r :: c'.waiting e := by
  obtain ⟨given, hgiven, heq⟩ := Option.map_eq_some_iff.1 h
  cases heq
  exact Place.waiting_of_some hgiven

/-- Look up the ends for a row. The old ends are gone even if the row has no start, while the old
row is only replaced afterwards. -/
def load (e : Expansion) (g : Graph) (c : Candidates) (row : Row) :
    Except QueryFault Unit × Candidates :=
  match row.startNode e.source with
  | .error fault => (.error fault, ⟨⟨c.place.current, 0⟩, []⟩)
  | .ok none => (.ok (), ⟨⟨some row, 0⟩, []⟩)
  | .ok (some node) =>
    (.ok (), ⟨⟨some row, 0⟩, (e.ends g node).filter fun found =>
      e.labels.accepts g found.2 && row.agrees e.target found.2⟩)

/-- One input row is enough if there is an end for it or it has no start. -/
def loadStep (e : Expansion) (g : Graph) (c : Candidates) (row : Row) :
    Candidates × Option (Except QueryFault Row) :=
  match c.load e g row with
  | (.error fault, c) => (c, some (.error fault))
  | (.ok (), c) =>
    match c.next? e with
    | some (r, c) => (c, some (.ok r))
    | none => (c, none)

/-- The rows given at once and later on, when a step has ended a run. -/
def shown (e : Expansion) (c : Candidates) (b : Except QueryFault Row) :
    Except QueryFault (Row × List Row) :=
  b.map fun r => (r, c.waiting e)

/-- Loading the candidates of a row leaves the rows that it is extended to waiting. -/
theorem rows_eq (e : Expansion) (g : Graph) (c : Candidates) (row : Row) :
    e.rows g row = (c.load e g row).1.map fun _ => (c.load e g row).2.waiting e := by
  rw [Expansion.rows, load]
  rcases row.startNode e.source with fault | _ | node <;> rfl

/-- If the candidates of a row cannot be loaded, none of them waits. -/
theorem waiting_load {e : Expansion} {g : Graph} {c : Candidates} {row : Row} {fault : QueryFault}
    (h : (c.load e g row).1 = .error fault) : (c.load e g row).2.waiting e = [] := by
  rw [load] at h ⊢
  split at h
  · cases hcurrent : c.place.current <;> simp [waiting, Place.waiting]
  · cases h
  · cases h

/-- A step of the machine of one hop is what loading the candidates of a row shows. -/
theorem expandStep_eq (e : Expansion) (g : Graph) (c : Candidates) (row : Row) :
    Machine.expandStep e g () row =
      ((), (c.loadStep e g row).2.map ((c.loadStep e g row).1.shown e)) := by
  rw [Machine.expandStep, rows_eq e g c row, loadStep]
  rcases c.load e g row with ⟨fault | ⟨⟩, loaded⟩
  · rfl
  · cases hnext : loaded.next? e with
    | none => simp only [Except.map, waiting_of_none hnext, hnext, Option.map_none]
    | some given =>
      simp only [Except.map, shown, waiting_of_some hnext, hnext, Option.map_some]

/-- A step that does not end with a row leaves nothing to be given. -/
theorem waiting_loadStep {e : Expansion} {g : Graph} {c c' : Candidates} {row : Row}
    {result : Option (Except QueryFault Row)} (h : c.loadStep e g row = (c', result))
    (hresult : ∀ r, result ≠ some (.ok r)) : c'.waiting e = [] := by
  rw [loadStep] at h
  rcases hload : c.load e g row with ⟨fault | ⟨⟩, loaded⟩
  · have hfault := waiting_load (congrArg Prod.fst hload)
    rw [hload] at h hfault
    cases h
    exact hfault
  · rw [hload] at h
    cases hnext : loaded.next? e with
    | none =>
      simp only [hnext, Prod.mk.injEq] at h
      rw [← h.1]
      exact waiting_of_none hnext
    | some given =>
      simp only [hnext, Prod.mk.injEq] at h
      exact absurd h.2.symm (hresult given.1)

/-- A run that does not end with a row leaves nothing to be given. -/
theorem waiting_run {e : Expansion} {g : Graph} {c : Candidates} (hc : c.next? e = none)
    {m : Machine} (s : m.State) :
    Machine.Accumulates (fun c => c.waiting e = []) (fun c b => (∀ r, b ≠ .ok r) → c.waiting e = [])
      (m.run g (loadStep e g) c s) :=
  Machine.accumulates_run (waiting_of_none hc) (fun _ _ _ _ hstep => waiting_loadStep hstep nofun)
    fun _ _ _ _ _ hstep hb => waiting_loadStep hstep fun r hr => hb r (Option.some.inj hr)

end Candidates

/-- The fields of a traversal by one hop. -/
structure ExpandFields (φ : Type) where
  input : φ
  candidates : Candidates

/-- A traversal by one hop. -/
def expand (k : Mechanism m) (e : Expansion) : Mechanism (m.expand e) where
  Fields := ExpandFields k.Fields
  fresh := ⟨k.fresh, ⟨⟨none, 0⟩, []⟩⟩
  next g f :=
    match f.candidates.next? e with
    | some (r, c) => (.row r, ⟨f.input, c⟩)
    | none =>
      match k.toMachine.run g (Candidates.loadStep e g) f.candidates f.input with
      | (.drained, c, input) => (.done, ⟨input, ⟨⟨none, c.place.index⟩, c.found⟩⟩)
      | (.failed fault, c, input) => (.failed fault, ⟨input, c⟩)
      | (.enough (.error fault), c, input) => (.failed fault, ⟨input, c⟩)
      | (.enough (.ok r), c, input) => (.row r, ⟨input, c⟩)
  reset f := ⟨k.reset f.input, ⟨⟨none, 0⟩, []⟩⟩
  view f := ⟨k.view f.input, f.candidates.waiting e⟩
  view_fresh := by rw [k.view_fresh]; rfl
  pull_view g f := by
    obtain ⟨input, c⟩ := f
    cases hnext : c.next? e with
    | some given =>
      simp only [Machine.expand, Candidates.waiting_of_some hnext]
      rfl
    | none =>
      have hwaiting := Candidates.waiting_run (g := g) hnext (m := k.toMachine) input
      simp only [Machine.expand, Candidates.waiting_of_none hnext,
        k.run_view (v := fun _ => ()) (Candidates.expandStep_eq e g) g c input]
      generalize k.toMachine.run g (Candidates.loadStep e g) c input = ended at hwaiting ⊢
      rcases ended with ⟨_ | fault | fault | r, c', input'⟩
      · rfl
      · simp only [showRun, Prod.map, show c'.waiting e = [] from hwaiting, id]
      · simp only [showRun, Candidates.shown, Except.map, Prod.map,
          show c'.waiting e = [] from hwaiting nofun, id]
      · rfl
  rewind_view f := by
    simp only [Machine.expand, k.rewind_view]
    rfl

/-- The fields of a traversal by an interval of hops. -/
structure ReachFields (φ : Type) where
  input : φ
  output : List Row
  exhausted : Bool

/-- Rows are enough if one has no start, or if they fill a batch. -/
def fillStep (r : Reach) (batch : Array (Row × Option NodeId)) (row : Row) :
    Array (Row × Option NodeId) × Option (Except QueryFault Unit) :=
  match row.startNode r.source with
  | .error fault => (batch, some (.error fault))
  | .ok start =>
    let batch := batch.push (row, start)
    if batch.size < r.batchSize then (batch, none) else (batch, some (.ok ()))

/-- Set a batch aside, pull rows into it and extend them. The batch is lost if there is a fault on
the way. -/
def fill (k : Mechanism m) (r : Reach) (g : Graph) (f : ReachFields k.Fields) :
    Except QueryFault Unit × ReachFields k.Fields :=
  if Batch.fits r.batchSize then
    match k.toMachine.run g (fillStep r) #[] f.input with
    | (.drained, batch, input) => (.ok (), ⟨input, f.output ++ r.rows g batch.toList, true⟩)
    | (.failed fault, _, input) => (.error fault, { f with input })
    | (.enough (.error fault), _, input) => (.error fault, { f with input })
    | (.enough (.ok ()), batch, input) =>
      (.ok (), ⟨input, f.output ++ r.rows g batch.toList, f.exhausted⟩)
  else (.error .noRoom, f)

/-- What is left of the input, nothing once it is exhausted. -/
def ReachFields.left {φ : Type} (f : ReachFields φ) : Option φ :=
  if f.exhausted then none else some f.input

/-- Filling either exhausts the input or goes on in it. -/
theorem further_fill (k : Mechanism m) (r : Reach) {g : Graph} {f f' : ReachFields k.Fields}
    (hf : f.exhausted = false) (h : k.fill r g f = (.ok (), f')) :
    FurtherIn (k.toMachine.Ahead g) f'.left f.left := by
  have hleft : f.left = some f.input := by rw [ReachFields.left, hf]; rfl
  unfold fill at h
  rw [hleft]
  split at h
  · split at h
    · cases h
      exact .finished
    · cases h
    · cases h
    · rename_i hrun
      cases h
      rw [ReachFields.left, hf]
      exact .further (k.toMachine.ahead_of_run hrun)
  · cases h

/-- Give a row of the output, filling it as often as it takes. -/
def reachNext (k : Mechanism m) (r : Reach) (g : Graph) (f : ReachFields k.Fields) :
    Pull × ReachFields k.Fields :=
  match f.output with
  | row :: rest => (.row row, { f with output := rest })
  | [] =>
    if _hf : f.exhausted then (.done, f)
    else
      match _h : k.fill r g f with
      | (.error fault, f') => (.failed fault, f')
      | (.ok (), f') => k.reachNext r g f'
termination_by (FurtherIn.wf (k.toMachine.ahead_wf g)).wrap f.left
decreasing_by exact k.further_fill r (Bool.eq_false_iff.2 _hf) _h

/-- What is shown of a traversal by an interval of hops. -/
def reachView (k : Mechanism m) (f : ReachFields k.Fields) : Machine.ReachState m.State :=
  ⟨k.view f.input, f.exhausted, f.output⟩

/-- The run over batches is the run to the end of one batch, after which it goes on if the batch
was not extended to any row. -/
theorem run_reachStep (k : Mechanism m) (r : Reach) (g : Graph)
    (batch : Array (Row × Option NodeId)) (f : k.Fields) :
    m.run g (Machine.reachStep r g) batch (k.view f) =
      match k.toMachine.run g (fillStep r) batch f with
      | (.drained, batch, f) => (.drained, batch, k.view f)
      | (.failed fault, batch, f) => (.failed fault, batch, k.view f)
      | (.enough (.error fault), _, f) => (.enough (.error fault), #[], k.view f)
      | (.enough (.ok ()), batch, f) =>
        match r.rows g batch.toList with
        | [] => m.run g (Machine.reachStep r g) #[] (k.view f)
        | first :: rest => (.enough (.ok (first, rest)), #[], k.view f) := by
  fun_induction k.toMachine.run g (fillStep r) batch f with
  | case1 batch f f' hpull =>
    exact Machine.run_of_done (k.pull_of_next hpull)
  | case2 batch f fault f' hpull =>
    exact Machine.run_of_failed (k.pull_of_next hpull)
  | case3 batch f row f' hpull batch' result hstep =>
    have hview := k.pull_of_next hpull
    unfold fillStep at hstep
    split at hstep
    · rename_i fault hstart
      cases hstep
      exact Machine.run_of_enough hview (by rw [Machine.reachStep, hstart])
    · rename_i start hstart
      dsimp only at hstep
      split at hstep
      · cases hstep
      · rename_i hsize
        cases hstep
        dsimp only
        split
        · rename_i hrows
          refine Machine.run_of_more hview ?_
          simp only [Machine.reachStep, hstart, if_neg hsize, hrows]
        · rename_i first rest hrows
          refine Machine.run_of_enough hview ?_
          simp only [Machine.reachStep, hstart, if_neg hsize, hrows]
  | case4 batch f row f' hpull batch' hstep ih =>
    refine (Machine.run_of_more (k.pull_of_next hpull) ?_).trans ih
    unfold fillStep at hstep
    split at hstep
    · cases hstep
    · rename_i start hstart
      dsimp only at hstep
      split at hstep
      · rename_i hsize
        cases hstep
        simp only [Machine.reachStep, hstart, if_pos hsize]
      · cases hstep

/-- Filling an empty output is not seen from outside. -/
theorem pull_fill (k : Mechanism m) (r : Reach) (g : Graph) {f : ReachFields k.Fields}
    (houtput : f.output = []) (hf : f.exhausted = false) :
    (m.reach r).pull g (k.reachView f) =
      match k.fill r g f with
      | (.error fault, f') => (.failed fault, k.reachView f')
      | (.ok (), f') => (m.reach r).pull g (k.reachView f') := by
  obtain ⟨input, output, exhausted⟩ := f
  subst houtput hf
  by_cases hfits : Batch.fits r.batchSize = true
  · simp only [reachView, fill, Machine.reach, Machine.reachPull, k.run_reachStep r g #[] input,
      Bool.false_eq_true, if_false, if_pos hfits, List.nil_append]
    rcases k.toMachine.run g (fillStep r) #[] input with ⟨_ | fault | fault | _, batch, input'⟩
    · simp only [if_true]
      cases r.rows g batch.toList <;> rfl
    · rfl
    · rfl
    · simp only []
      cases r.rows g batch.toList <;> rfl
  · simp only [reachView, fill, Machine.reach, Bool.false_eq_true, if_false, if_neg hfits]

/-- A pull of the fields of a traversal by an interval of hops shows as one of its machine. -/
theorem reachNext_view (k : Mechanism m) (r : Reach) (g : Graph) (f : ReachFields k.Fields) :
    (m.reach r).pull g (k.reachView f) = Prod.map id k.reachView (k.reachNext r g f) := by
  fun_induction k.reachNext r g f with
  | case1 f row rest houtput =>
    simp only [reachView, Machine.reach, houtput]
    rfl
  | case2 f houtput hf =>
    simp only [reachView, Machine.reach, houtput, if_pos hf, Prod.map, id]
  | case3 f houtput hf fault f' hfill =>
    rw [k.pull_fill r g houtput (Bool.eq_false_iff.2 hf), hfill]
    rfl
  | case4 f houtput hf f' hfill ih =>
    rw [k.pull_fill r g houtput (Bool.eq_false_iff.2 hf), hfill]
    exact ih

/-- A traversal by an interval of hops. -/
def reach (k : Mechanism m) (r : Reach) : Mechanism (m.reach r) where
  Fields := ReachFields k.Fields
  fresh := ⟨k.fresh, [], false⟩
  next := k.reachNext r
  reset f := ⟨k.reset f.input, [], false⟩
  view := k.reachView
  view_fresh := by rw [reachView, k.view_fresh]; rfl
  pull_view := k.reachNext_view r
  rewind_view f := by rw [reachView, reachView, ← k.rewind_view]; rfl

/-! ## Transforms of rows -/

/-- A filter keeps nothing but its input. -/
def filter (k : Mechanism m) (condition : Expression) : Mechanism (m.filter condition) where
  Fields := k.Fields
  fresh := k.fresh
  next g f :=
    match k.toMachine.run g (Machine.filterStep condition g) () f with
    | (.drained, _, f) => (.done, f)
    | (.failed fault, _, f) => (.failed fault, f)
    | (.enough (.error fault), _, f) => (.failed fault, f)
    | (.enough (.ok row), _, f) => (.row row, f)
  reset := k.reset
  view := k.view
  view_fresh := k.view_fresh
  pull_view g f := by
    simp only [Machine.filter, k.run_same]
    rcases k.toMachine.run g (Machine.filterStep condition g) () f with
      ⟨_ | fault | fault | row, _, f'⟩ <;> rfl
  rewind_view := k.rewind_view

/-- The fields of a product. No left row has been pulled before the right rows are all there. -/
structure ProductFields (φ ψ : Type) where
  left : φ
  right : ψ
  records : Array Row
  materialized : Bool
  place : Place
  current_eq_none : materialized = false → place.current = none

/-- A left row is enough if there is a right row. -/
def leftStep (records : Array Row) (_ : Place) (row : Row) : Place × Option Row :=
  match Place.next? Row.merge records.toList ⟨some row, 0⟩ with
  | some (r, place) => (place, some r)
  | none => (⟨some row, 0⟩, none)

/-- Combine the left row with the right row at the place, or else pull the next left row. -/
def pairNext (k : Mechanism m) {ψ : Type} (g : Graph) (left : k.Fields) (right : ψ)
    (records : Array Row) (place : Place) : Pull × ProductFields k.Fields ψ :=
  if records.isEmpty then (.done, ⟨left, right, records, true, place, nofun⟩)
  else
    match place.next? Row.merge records.toList with
    | some (r, place) => (.row r, ⟨left, right, records, true, place, nofun⟩)
    | none =>
      match k.toMachine.run g (leftStep records) place left with
      | (.drained, place, left) =>
        (.done, ⟨left, right, records, true, ⟨none, place.index⟩, nofun⟩)
      | (.failed fault, place, left) =>
        (.failed fault, ⟨left, right, records, true, place, nofun⟩)
      | (.enough r, place, left) => (.row r, ⟨left, right, records, true, place, nofun⟩)

/-- What is shown of a product. -/
def productView (k : Mechanism m) (l : Mechanism n) (f : ProductFields k.Fields l.Fields) :
    Machine.ProductState m.State n.State :=
  ⟨k.view f.left, l.view f.right, f.records, f.materialized,
    f.place.waiting Row.merge f.records.toList⟩

/-- A pull of the fields of a product shows as one of its machine. -/
theorem pairNext_view (k : Mechanism m) (l : Mechanism n) (g : Graph) (left : k.Fields)
    (right : l.Fields) (records : Array Row) (place : Place) :
    m.pairNext g ⟨k.view left, l.view right, records, true,
        place.waiting Row.merge records.toList⟩ =
      Prod.map id (k.productView l) (k.pairNext g left right records place) := by
  have hpull := k.pull_view g left
  unfold pairNext
  split
  · rename_i hempty
    obtain rfl := Array.isEmpty_iff.1 hempty
    cases hcurrent : place.current <;>
      simp [Machine.pairNext, Place.waiting, productView, hcurrent]
  · rename_i hempty
    split
    · rename_i r place' hnext
      simp only [Machine.pairNext, Place.waiting_of_some hnext]
      rfl
    · rename_i hnext
      have hwaiting := Place.waiting_of_none hnext
      simp only [Machine.pairNext, hwaiting, if_neg hempty, hpull]
      rcases hleft : k.next g left with ⟨row | _ | fault, left'⟩
      · obtain ⟨first, rest, hlist⟩ := List.exists_cons_of_ne_nil
          (fun h => hempty (Array.isEmpty_iff.2 (Array.toList_eq_nil_iff.1 h)))
        have hstep : leftStep records place row = (⟨some row, 1⟩, some (row.merge first)) := by
          rw [leftStep, hlist]
          rfl
        have hrun : k.toMachine.run g (leftStep records) place left =
            (.enough (row.merge first), ⟨some row, 1⟩, left') :=
          Machine.run_of_enough hleft hstep
        rw [hrun]
        simp only [Prod.map, productView, Place.waiting, hlist, id]
        rfl
      · have hrun : k.toMachine.run g (leftStep records) place left = (.drained, place, left') :=
          Machine.run_of_done hleft
        rw [hrun]
        rfl
      · have hrun : k.toMachine.run g (leftStep records) place left =
            (.failed fault, place, left') :=
          Machine.run_of_failed hleft
        rw [hrun]
        simp only [Prod.map, productView, hwaiting, id]

/-- A product. -/
def product (k : Mechanism m) (l : Mechanism n) : Mechanism (m.product n) where
  Fields := ProductFields k.Fields l.Fields
  fresh := ⟨k.fresh, l.fresh, #[], false, ⟨none, 0⟩, fun _ => rfl⟩
  next g f :=
    if f.materialized then k.pairNext g f.left f.right f.records f.place
    else
      match l.toMachine.collect g f.records f.right with
      | (.failed fault, records, right) => (.failed fault, { f with right, records })
      | (.drained, records, right) => k.pairNext g f.left right records f.place
  reset f := ⟨k.reset f.left, l.reset f.right, #[], false, ⟨none, 0⟩, fun _ => rfl⟩
  view := k.productView l
  view_fresh := by rw [productView, k.view_fresh, l.view_fresh]; rfl
  pull_view g f := by
    obtain ⟨left, right, records, materialized, ⟨current, index⟩, hcurrent⟩ := f
    cases materialized with
    | true => exact k.pairNext_view l g left right records ⟨current, index⟩
    | false =>
      obtain rfl : current = none := hcurrent rfl
      simp only [Machine.product, productView, l.collect_same, Bool.false_eq_true, if_false]
      rcases l.toMachine.collect g records right with ⟨_ | fault | ⟨⟨⟩⟩, records', right'⟩
      · exact k.pairNext_view l g left right' records' ⟨none, index⟩
      · rfl
  rewind_view f := by rw [productView, productView, ← k.rewind_view, ← l.rewind_view]; rfl

/-- A projection keeps nothing but its input. -/
def project (k : Mechanism m) (items : List NamedExpression) : Mechanism (m.project items) where
  Fields := k.Fields
  fresh := k.fresh
  next g f :=
    match k.next g f with
    | (.row row, f) =>
      match projectRow g items row with
      | .ok r => (.row r, f)
      | .error fault => (.failed fault, f)
    | (.done, f) => (.done, f)
    | (.failed fault, f) => (.failed fault, f)
  reset := k.reset
  view := k.view
  view_fresh := k.view_fresh
  pull_view g f := by
    simp only [Machine.project, k.pull_view]
    rcases k.next g f with ⟨row | _ | fault, f'⟩
    · simp only [Prod.map, id]
      cases projectRow g items row <;> rfl
    · rfl
    · rfl
  rewind_view := k.rewind_view

/-- The fields of an operator that needs all its input first. -/
structure GatherFields (φ : Type) where
  input : φ
  results : List Row
  executed : Bool

/-- An operator that needs all its input first. Results of an earlier run stay until there are
others, and are not given before. -/
def gather (k : Mechanism m) {α : Type} (initial : α) (take : Graph → α → Row → Except QueryFault α)
    (finish : α → List Row) : Mechanism (m.gather initial take finish) where
  Fields := GatherFields k.Fields
  fresh := ⟨k.fresh, [], false⟩
  next g f :=
    if f.executed then Machine.giveFirst f.results fun rest => { f with results := rest }
    else
      match k.toMachine.run g (Machine.gatherStep (take g)) initial f.input with
      | (.failed fault, _, input) => (.failed fault, { f with input })
      | (.enough fault, _, input) => (.failed fault, { f with input })
      | (.drained, a, input) => Machine.giveFirst (finish a) fun rest => ⟨input, rest, true⟩
  reset f := ⟨k.reset f.input, [], false⟩
  view f := ⟨k.view f.input, if f.executed then some f.results else none⟩
  view_fresh := by rw [k.view_fresh]; rfl
  pull_view g f := by
    obtain ⟨input, results, executed⟩ := f
    cases executed with
    | true =>
      simp only [Machine.gather, if_true, map_giveFirst]
      rfl
    | false =>
      simp only [Machine.gather, k.run_same, Bool.false_eq_true, if_false]
      rcases k.toMachine.run g (Machine.gatherStep (take g)) initial input with
        ⟨_ | fault | fault, a, input'⟩
      · simp only [showRun, map_giveFirst]
        rfl
      · rfl
      · rfl
  rewind_view f := by rw [← k.rewind_view]; rfl

/-- Grouping keeps the rows of the groups. -/
def aggregate (k : Mechanism m) (keys : List NamedExpression) (columns : List AggregateColumn) :
    Mechanism (m.aggregate keys columns) :=
  k.gather _ _ _

/-- Sorting keeps the sorted rows. -/
def sort (k : Mechanism m) (keys : List OrderItem) : Mechanism (m.sort keys) := k.gather _ _ _

/-- Leaving out equal rows keeps the values seen. -/
def distinct (k : Mechanism m) (columns : List String) : Mechanism (m.distinct columns) where
  Fields := Machine.DistinctState k.Fields
  fresh := ⟨k.fresh, []⟩
  next g f :=
    match k.toMachine.run g (Machine.distinctStep columns) f.seen f.input with
    | (.drained, seen, input) => (.done, ⟨input, seen⟩)
    | (.failed fault, seen, input) => (.failed fault, ⟨input, seen⟩)
    | (.enough row, seen, input) => (.row row, ⟨input, seen⟩)
  reset f := ⟨k.reset f.input, []⟩
  view f := ⟨k.view f.input, f.seen⟩
  view_fresh := by rw [k.view_fresh]; rfl
  pull_view g f := by
    simp only [Machine.distinct, k.run_same]
    rcases k.toMachine.run g (Machine.distinctStep columns) f.seen f.input with
      ⟨_ | fault | row, seen, input⟩ <;> rfl
  rewind_view f := by rw [← k.rewind_view]; rfl

/-- A row is left out, and with the last one there are enough. -/
def dropStep (n : Nat) (count : Nat) (_ : Row) : Nat × Option Unit :=
  (count + 1, if count + 1 < n then none else some ())

/-- Once enough rows are left out, every row is given. -/
theorem pull_skip_of_le (k : Mechanism m) {g : Graph} {n count : Nat} (hcount : n ≤ count)
    (f : k.Fields) :
    (m.skip n).pull g ⟨k.view f, count⟩ =
      Prod.map id (fun f => ⟨k.view f, count⟩) (k.next g f) := by
  simp only [Machine.skip]
  rcases hnext : k.next g f with ⟨row | _ | fault, f'⟩
  · have hstep : Machine.skipStep n count row = (count, some row) := by
      rw [Machine.skipStep, if_neg (Nat.not_lt.2 hcount)]
    rw [Machine.run_of_enough (k.pull_of_next hnext) hstep]
    rfl
  · rw [Machine.run_of_done (k.pull_of_next hnext)]
    rfl
  · rw [Machine.run_of_failed (k.pull_of_next hnext)]
    rfl

/-- A row that is left out is counted. -/
theorem pull_skip_of_row (k : Mechanism m) {g : Graph} {n count : Nat} (hcount : count < n)
    {f f' : k.Fields} {row : Row} (hnext : k.next g f = (.row row, f')) :
    (m.skip n).pull g ⟨k.view f, count⟩ = (m.skip n).pull g ⟨k.view f', count + 1⟩ := by
  simp only [Machine.skip, Machine.run_of_more (k.pull_of_next hnext)
    (show Machine.skipStep n count row = (count + 1, none) by rw [Machine.skipStep, if_pos hcount])]

/-- What is shown of an operator that counts rows. -/
def countView (k : Mechanism m) (f : Machine.CountState k.Fields) : Machine.CountState m.State :=
  ⟨k.view f.input, f.count⟩

/-- Leave out rows until there are enough, and give the one after them. -/
def skipNext (k : Mechanism m) (n : Nat) (g : Graph) (f : Machine.CountState k.Fields) :
    Pull × Machine.CountState k.Fields :=
  if f.count < n then
    match k.toMachine.run g (dropStep n) f.count f.input with
    | (.drained, count, input) => (.done, ⟨input, count⟩)
    | (.failed fault, count, input) => (.failed fault, ⟨input, count⟩)
    | (.enough (), count, input) => Prod.map id (⟨·, count⟩) (k.next g input)
  else Prod.map id (⟨·, f.count⟩) (k.next g f.input)

/-- A pull of the fields of a skip shows as one of its machine. -/
theorem skipNext_view (k : Mechanism m) (n : Nat) (g : Graph) (f : Machine.CountState k.Fields) :
    (m.skip n).pull g (k.countView f) = Prod.map id k.countView (k.skipNext n g f) := by
  obtain ⟨f, count⟩ := f
  by_cases hcount : count < n
  · simp only [skipNext, if_pos hcount]
    fun_induction k.toMachine.run g (dropStep n) count f with
    | case1 count f f' hpull =>
      simp only [countView, Machine.skip, Machine.run_of_done (k.pull_of_next hpull)]
      rfl
    | case2 count f fault f' hpull =>
      simp only [countView, Machine.skip, Machine.run_of_failed (k.pull_of_next hpull)]
      rfl
    | case3 count f row f' hpull count' result hstep =>
      simp only [dropStep, Prod.mk.injEq] at hstep
      obtain ⟨rfl, hlast⟩ := hstep
      have hn : n ≤ count + 1 := Nat.not_lt.1 fun hn => by simp [hn] at hlast
      exact (k.pull_skip_of_row hcount hpull).trans (k.pull_skip_of_le hn f')
    | case4 count f row f' hpull count' hstep ih =>
      simp only [dropStep, Prod.mk.injEq] at hstep
      obtain ⟨rfl, hmore⟩ := hstep
      have hn : count + 1 < n := Decidable.not_not.1 fun hn => by simp [hn] at hmore
      exact (k.pull_skip_of_row hcount hpull).trans (ih hn)
  · simp only [skipNext, if_neg hcount]
    exact k.pull_skip_of_le (Nat.not_lt.1 hcount) f

/-- Leaving out the first rows keeps their number so far. -/
def skip (k : Mechanism m) (n : Nat) : Mechanism (m.skip n) where
  Fields := Machine.CountState k.Fields
  fresh := ⟨k.fresh, 0⟩
  next := k.skipNext n
  reset f := ⟨k.reset f.input, 0⟩
  view := k.countView
  view_fresh := by rw [countView, k.view_fresh]; rfl
  pull_view := k.skipNext_view n
  rewind_view f := by rw [countView, countView, ← k.rewind_view]; rfl

/-- Giving only the first rows keeps their number so far. -/
def limit (k : Mechanism m) (n : Nat) : Mechanism (m.limit n) where
  Fields := Machine.CountState k.Fields
  fresh := ⟨k.fresh, 0⟩
  next g f :=
    if n ≤ f.count then (.done, f)
    else
      match k.next g f.input with
      | (.row row, input) => (.row row, ⟨input, f.count + 1⟩)
      | (.done, input) => (.done, ⟨input, f.count⟩)
      | (.failed fault, input) => (.failed fault, ⟨input, f.count⟩)
  reset f := ⟨k.reset f.input, 0⟩
  view := k.countView
  view_fresh := by rw [countView, k.view_fresh]; rfl
  pull_view g f := by
    simp only [countView, Machine.limit, k.pull_view]
    split
    · rfl
    · rcases k.next g f.input with ⟨row | _ | fault, input⟩ <;> rfl
  rewind_view f := by rw [countView, countView, ← k.rewind_view]; rfl

end Mechanism

end Plexus
