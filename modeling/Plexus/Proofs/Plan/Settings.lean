import Plexus.Demonstration
import Plexus.Proofs.Operator.Batches
import Plexus.Proofs.Plan.Indices
import Plexus.Proofs.Query.Alike

/-!
# Settings and the answers of queries

The settings of a graph say from how many rows on a hop is worked out at once, which no operator
can tell, and how many rows a traversal gathers, which is the one thing that a plan takes from them.
So under other settings a query has the plan with other batches, and the same answer, as long as
there can be room for its batches.
-/

namespace Plexus

variable {g : Graph}

namespace Graph

/-- Settings are no content. -/
theorem sameContent_settings (g : Graph) (s : TraversalSettings) :
    g.SameContent { g with settings := s } where
  schema := rfl
  nodes := rfl
  edges := rfl
  members _ := rfl
  matrices _ := rfl
  catalog := rfl

/-- A graph stays sound under other settings. -/
theorem Sound.settings (hg : g.Sound) (s : TraversalSettings) : Sound { g with settings := s } :=
  { hg with }

end Graph

namespace Draft

/-- The same draft with batches of one size throughout. -/
def batched (n : Nat) (d : Draft) : Draft := { d with root := d.root.batched n }

theorem batched_filterReady (n : Nat) (d : Draft) :
    (d.batched n).filterReady = d.filterReady.batched n := by
  unfold filterReady batched
  dsimp only
  split <;> rfl

/-- A step under other settings has their batch size. -/
theorem batched_step (g : Graph) (s : TraversalSettings) (d : Draft) (w : WalkStep) :
    step { g with settings := s } (d.batched s.batchSize) w =
      (step g d w).batched s.batchSize := by
  unfold step
  rw [← batched_filterReady]
  congr 1
  unfold traverse batched
  dsimp only
  split <;> rfl

/-- The draft of a path under other settings has their batch size. -/
theorem batched_ofEntry (g : Graph) (s : TraversalSettings) (entry : Entry) :
    ofEntry { g with settings := s } entry = (ofEntry g entry).batched s.batchSize := by
  have hwalk (walk : List WalkStep) (d : Draft) :
      walk.foldl (step { g with settings := s }) (d.batched s.batchSize) =
        (walk.foldl (step g) d).batched s.batchSize := by
    induction walk generalizing d with
    | nil => rfl
    | cons w rest ih => rw [List.foldl_cons, List.foldl_cons, batched_step, ih]
  unfold ofEntry
  dsimp only
  rw [← hwalk, ← batched_filterReady]
  rfl

theorem batched_combine (n : Nat) (d e : Draft) :
    (d.batched n).combine (e.batched n) = (d.combine e).batched n :=
  batched_filterReady n ⟨.product d.root e.root, d.bound ++ e.bound, e.pending⟩

/-- The drafts of further paths under other settings have their batch size. -/
theorem batched_addPaths (g : Graph) (s : TraversalSettings) (d : Draft) (next : Nat)
    (paths : List Path) :
    addPaths { g with settings := s } (d.batched s.batchSize) next paths =
      (addPaths g d next paths).batched s.batchSize := by
  induction paths generalizing d next with
  | nil => rfl
  | cons path rest ih =>
    rw [addPaths_cons, addPaths_cons, ← ih, (g.sameContent_settings s).choose, batched_ofEntry,
      batched_combine]
    rfl

/-- The draft of a pattern under other settings has their batch size. -/
theorem batched_ofPaths? (g : Graph) (s : TraversalSettings) (pending : List Expression)
    (paths : List Path) : ofPaths? { g with settings := s } pending paths =
      (ofPaths? g pending paths).map (batched s.batchSize) := by
  cases paths with
  | nil => rfl
  | cons path rest =>
    rw [ofPaths?_cons, ofPaths?_cons, (g.sameContent_settings s).choose, batched_ofEntry,
      batched_addPaths]
    rfl

theorem batched_finish (n : Nat) (d : Draft) : (d.batched n).finish = d.finish.batched n := by
  unfold finish batched
  dsimp only
  split <;> rfl

private theorem isUnlimited_filterReady (d : Draft) :
    d.filterReady.root.isUnlimited = d.root.isUnlimited := by
  rcases d.filterReady_cases with ⟨-, heq⟩ | ⟨c, -, heq⟩ <;> rw [heq]
  rfl

private theorem isUnlimited_step (g : Graph) (d : Draft) (w : WalkStep) :
    (step g d w).root.isUnlimited = d.root.isUnlimited := by
  rw [step, isUnlimited_filterReady]
  unfold traverse
  dsimp only
  split <;> rfl

private theorem isUnlimited_ofEntry (g : Graph) (entry : Entry) :
    (ofEntry g entry).root.isUnlimited = true := by
  have hwalk (walk : List WalkStep) (d : Draft) :
      (walk.foldl (step g) d).root.isUnlimited = d.root.isUnlimited := by
    induction walk generalizing d with
    | nil => rfl
    | cons w rest ih => rw [List.foldl_cons, ih, isUnlimited_step]
  rw [ofEntry, hwalk, isUnlimited_filterReady]
  rfl

private theorem isUnlimited_addPaths (g : Graph) {d : Draft} (hd : d.root.isUnlimited = true)
    (next : Nat) (paths : List Path) : (addPaths g d next paths).root.isUnlimited = true := by
  induction paths generalizing d next with
  | nil => exact hd
  | cons path rest ih =>
    rw [addPaths_cons]
    refine ih ?_ _
    rw [combine, isUnlimited_filterReady]
    exact Bool.and_eq_true_iff.2 ⟨hd, isUnlimited_ofEntry g _⟩

/-- No operator for a pattern ends the run early. -/
theorem isUnlimited_finish {pending : List Expression} {paths : List Path} {d : Draft}
    (hd : ofPaths? g pending paths = some d) : d.finish.isUnlimited = true := by
  have hroot : d.root.isUnlimited = true := by
    cases paths with
    | nil => cases hd
    | cons path rest =>
      rw [ofPaths?_cons, Option.some.injEq] at hd
      rw [← hd]
      exact isUnlimited_addPaths g (isUnlimited_ofEntry g _) _ rest
  unfold finish
  split
  · exact hroot
  · exact hroot

end Draft

/-- The same plan with batches of one size throughout. -/
def Plan.batched (n : Nat) (p : Plan) : Plan := { p with root := p.root.batched n }

namespace Query

/-- What comes on top for the answer keeps the batch size of its input. -/
theorem batched_planReturn (q : Query) (n : Nat) (op : Operator) :
    q.planReturn (op.batched n) = (q.planReturn op).batched n := by
  unfold planReturn shape
  dsimp only
  split_ifs <;> cases q.skip <;> cases q.limit <;> rfl

/-- Only a limit puts an operator into a plan that ends the run early. -/
theorem isUnlimited_planReturn {q : Query} (hlimit : q.limit = none) (op : Operator) :
    (q.planReturn op).isUnlimited = op.isUnlimited := by
  unfold planReturn shape
  rw [hlimit]
  dsimp only
  split_ifs <;> cases q.skip <;> rfl

/-- Of all settings only the size of the batches gets into a plan. -/
theorem plan_settings (q : Query) (g : Graph) (s : TraversalSettings) :
    q.plan { g with settings := s } = (q.plan g).map (Plan.batched s.batchSize) := by
  unfold plan
  rw [Draft.batched_ofPaths?]
  cases q.validate with
  | error reason => rfl
  | ok _ =>
    cases Draft.ofPaths? g q.conjuncts q.paths with
    | none => rfl
    | some d =>
      simp only [Option.map_some, Draft.batched_finish, batched_planReturn]
      rfl

/-- A plan has batches of the size that is set. -/
theorem plan_batched {q : Query} {p : Plan} (hp : q.plan g = .ok p) :
    p.root.batched g.settings.batchSize = p.root := by
  have hsame := q.plan_settings g g.settings
  change q.plan g = _ at hsame
  rw [hp] at hsame
  exact congrArg Plan.root (Except.ok.inj hsame).symm

/-- The plan of a query without a limit is without one. -/
theorem isUnlimited_plan {q : Query} (hlimit : q.limit = none) {p : Plan}
    (hp : q.plan g = .ok p) : p.root.isUnlimited = true := by
  obtain ⟨⟨⟩, -, hpaths⟩ := bind_eq_ok.1 hp
  split at hpaths
  · rename_i draft hdraft
    cases hpaths
    exact (isUnlimited_planReturn hlimit _).trans (Draft.isUnlimited_finish hdraft)
  · cases hpaths

/-- A query that can be planned has an answer if its plan does not fail. -/
theorem execute_iff_fault {q : Query} {p : Plan} (hp : q.plan g = .ok p) {t : Table} :
    q.execute g = .ok t ↔ (p.root.output g).fault = none ∧
      t = ⟨(p.root.output g).rows.map (·.project p.columns), p.columns⟩ := by
  rw [execute_of_plan hp, Output.toTable]
  cases (p.root.output g).fault <;> simp [eq_comm]

end Query

namespace Graph

open Query

/-- Settings do not show in answers. Two reachable graphs that differ in nothing else give the same
rows in the same order if both give an answer; and if the query has no limit and there can be room
for a batch of either size, the one gives an answer exactly if the other does. -/
theorem Reachable.settings_keep_answers (hg : g.Reachable) (s : TraversalSettings) (q : Query) :
    let h : Graph := { g with settings := s }
    (∀ t u, q.execute g = .ok t → q.execute h = .ok u → t = u) ∧
    (q.limit = none → Batch.fits g.settings.batchSize = true → Batch.fits s.batchSize = true →
      ((∃ t, q.execute g = .ok t) ↔ ∃ u, q.execute h = .ok u)) := by
  intro h
  have hplan := q.plan_settings g s
  cases hp : q.plan g with
  | error reason =>
    rw [hp] at hplan
    have hrefused : q.execute g = .error (.malformed reason) := by rw [execute, hp]
    have hrefused' : q.execute h = .error (.malformed reason) := by
      rw [execute, hplan]
      rfl
    simp [hrefused, hrefused']
  | ok p =>
    rw [hp] at hplan
    change q.plan h = .ok (p.batched s.batchSize) at hplan
    have houtput : (p.batched s.batchSize).root.output h =
        (p.root.batched s.batchSize).output g :=
      Operator.output_sameContent (g.sameContent_settings s) hg.sound (hg.sound.settings s) _
    simp only [execute_iff_fault hp, execute_iff_fault hplan, houtput]
    constructor
    · rintro t u ⟨hnone, rfl⟩ ⟨hnone', rfl⟩
      rw [(Operator.agrees_batched hg.sound s.batchSize p.root).eq_of_fault hnone hnone']
      rfl
    · intro hlimit hfits hfits'
      have hroot : p.root.batchesFit = true :=
        plan_batched hp ▸ Operator.batchesFit_batched hfits p.root
      have hfails :=
        Operator.fails_iff_batched hg.sound hfits' hroot (isUnlimited_plan hlimit hp)
      simp only [hfails, exists_and_left, exists_eq, and_true]

/-- Cities along a road, from which traversals start all together or one by one. -/
theorem settings_keep_answers_of_road :
    let city (name : String) := Mutation.createNode ["City"] [("name", .text name)]
    let g := [city "Pune", city "Mumbai", city "Delhi", .createEdge ⟨0⟩ ⟨1⟩ "ROAD" [],
      .createEdge ⟨1⟩ ⟨2⟩ "ROAD" []].foldl Graph.after (.empty {})
    let h : Graph := { g with settings := { batchSize := 1, parallelThreshold := 0 } }
    let row (a b : String) : Row :=
      ⟨[("a.name", .scalar (.text a)), ("b.name", .scalar (.text b))]⟩
    (Demonstration.reachQuery ⟨some 1, some 2⟩).execute h = .ok
      ⟨[row "Pune" "Mumbai", row "Pune" "Delhi", row "Mumbai" "Delhi"], ["a.name", "b.name"]⟩ := by
  intro city g h row
  have hreach : g.Reachable := Reachable.foldl (.empty {}) _
  have hanswer : (Demonstration.reachQuery ⟨some 1, some 2⟩).execute g = .ok
      ⟨[row "Pune" "Mumbai", row "Pune" "Delhi", row "Mumbai" "Delhi"], ["a.name", "b.name"]⟩ :=
    (execute_of_plan rfl).trans (by decide +kernel)
  obtain ⟨hsame, hboth⟩ := Reachable.settings_keep_answers hreach
    { batchSize := 1, parallelThreshold := 0 } (Demonstration.reachQuery ⟨some 1, some 2⟩)
  obtain ⟨u, hu⟩ := (hboth rfl (by decide) (by decide)).1 ⟨_, hanswer⟩
  rw [hu, hsame _ u hanswer hu]

/-- There is no block of memory for a batch of 2⁶⁴ - 1 rows, and so a traversal gives nothing, where
with the default size it gives a row. -/
theorem unanswered_with_large_batch :
    let m := Mutation.createNode ["City"] [("name", .text "Pune")]
    let g := Graph.after (.empty {}) m
    let h := Graph.after (.empty { batchSize := 18446744073709551615 }) m
    let q := Demonstration.reachQuery ⟨some 0, some 1⟩
    let pune := Value.scalar (.text "Pune")
    g.Reachable ∧ h.Reachable ∧ h = { g with settings := h.settings } ∧ q.validate = .ok () ∧
      q.limit = none ∧
        q.execute g = .ok ⟨[⟨[("a.name", pune), ("b.name", pune)]⟩], ["a.name", "b.name"]⟩ ∧
          q.execute h = .error .noRoom := by
  intro m g h q pune
  refine ⟨.after (.empty _) m, .after (.empty _) m, rfl, by decide +kernel, rfl, ?_, ?_⟩
  · exact (execute_of_plan rfl).trans (by decide +kernel)
  · exact (execute_of_plan rfl).trans rfl

end Graph

end Plexus
