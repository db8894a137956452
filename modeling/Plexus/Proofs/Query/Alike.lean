import Plexus.Proofs.Graph.Alike
import Plexus.Proofs.Graph.SameData
import Plexus.Proofs.Operator.Output

/-!
# Queries on graphs that look alike

What a query is planned into and what it gives depends only on what can be read from the graph. On
graphs with the same content all operators have the same outputs; on graphs that look alike a query
also has the same plan, so that it has the same outline, the same rows in the same order, and the
same fault.
-/

namespace Plexus

variable {g h : Graph}

namespace Graph.SameContent

/-- Graphs with the same content have the same data. -/
theorem sameData (hc : g.SameContent h) : g.SameData h where
  nodes := hc.nodes
  edges := hc.edges
  labels _ _ _ _ := by rw [hc.schema]
  node_keys _ _ _ _ := by rw [hc.schema]
  types _ _ := by rw [hc.schema]
  edge_keys _ _ _ _ := by rw [hc.schema]

/-- Graphs with the same content are read alike. -/
theorem sameReads (hc : g.SameContent h) : g.SameReads h := hc.sameData.sameReads

/-- A test of labels accepts the same nodes of graphs with the same content. -/
theorem accepts (hc : g.SameContent h) (test : LabelTest) (node : NodeId) :
    test.accepts h node = test.accepts g node := by
  cases test <;> simp only [LabelTest.accepts, hc.sameData.node?]

/-- A leaf finds the same nodes in graphs with the same content. -/
theorem accessNodes (hc : g.SameContent h) (access : Access) : access.nodes h = access.nodes g := by
  cases access with
  | all => simp only [Access.nodes, hc.nodes]
  | label label => cases label <;> simp only [Access.nodes, hc.labelled]
  | index label property value =>
    simp only [Access.nodes, Graph.lookup?, hc.catalog, hc.labelled, hc.sameData.node?]

/-- A traversal of one hop extends a row alike in graphs with the same content. -/
theorem expansionRows (hc : g.SameContent h) (e : Expansion) (row : Row) :
    e.rows h row = e.rows g row := by
  simp only [Expansion.rows, Expansion.ends, hc.edgesOf, hc.neighbors, hc.accepts]

/-- A traversal by an interval of hops extends a batch alike in graphs with the same content. -/
theorem reachRows (hc : g.SameContent h) (hg : g.Sound) (hh : h.Sound) (r : Reach)
    (batch : List (Row × Option NodeId)) : r.rows h batch = r.rows g batch := by
  simp only [Reach.rows, hc.traverse hg hh, hc.accepts]

end Graph.SameContent

/-- A traversal by an interval of hops makes the same of its rows. -/
theorem Output.reach_sameContent (hc : g.SameContent h) (hg : g.Sound) (hh : h.Sound)
    (r : Reach) (o : Output) : o.reach h r = o.reach g r := by
  have hbatches (batch : List (Row × Option NodeId)) (rows : List Row) :
      Output.batches h r o.fault batch rows = Output.batches g r o.fault batch rows := by
    induction rows generalizing batch with
    | nil => simp only [Output.batches, hc.reachRows hg hh]
    | cons row rest ih => simp only [Output.batches, hc.reachRows hg hh, ih]
  rw [Output.reach, Output.reach, Output.reachFrom, Output.reachFrom, hbatches]

/-- An operator gives the same on both graphs. -/
theorem Operator.output_sameContent (hc : g.SameContent h) (hg : g.Sound) (hh : h.Sound)
    (op : Operator) : op.output h = op.output g := by
  induction op with
  | scan access name pattern => simp only [output, hc.accessNodes]
  | expand input e ih => rw [output, output, ih, funext (hc.expansionRows e)]
  | reach input r ih => rw [output, output, ih, Output.reach_sameContent hc hg hh]
  | filter input condition ih => simp only [output, ih, hc.sameReads.isMatch]
  | product left right ihl ihr => rw [output, output, ihl, ihr]
  | project input items ih => simp only [output, ih, hc.sameReads.projectRow]
  | aggregate input keys columns ih => rw [output, output, ih, hc.sameReads.addToGroups]
  | distinct input columns ih => rw [output, output, ih]
  | sort input keys ih => simp only [output, ih, hc.sameReads.keyedRow]
  | skip input count ih => rw [output, output, ih]
  | limit input count ih => rw [output, output, ih]

namespace Graph.SameContent

private theorem indexFor? (hc : g.SameContent h) (label : LabelId) (key : String) (value : Scalar) :
    Entry.indexFor? h label key value = Entry.indexFor? g label key value := by
  have hindex (property : PropertyId) : h.hasIndex label property = g.hasIndex label property := by
    rw [hasIndex, hasIndex, hc.catalog]
  simp only [Entry.indexFor?, hc.schema, hindex]

private theorem byIndex? (hc : g.SameContent h) (pending : List Expression)
    (candidates : List Focus) :
    Entry.byIndex? h pending candidates = Entry.byIndex? g pending candidates := by
  have hon (focus : Focus) :
      Entry.byIndexOn? h pending focus = Entry.byIndexOn? g pending focus := by
    funext name
    simp only [Entry.byIndexOn?, hc.schema, hc.indexFor?]
  simp only [Entry.byIndex?, hon]

private theorem byLabel? (hc : g.SameContent h) (pending : List Expression)
    (candidates : List Focus) :
    Entry.byLabel? h pending candidates = Entry.byLabel? g pending candidates := by
  have hcardinality (name : String) : Entry.cardinality h name = Entry.cardinality g name := by
    simp only [Entry.cardinality, hc.schema, hc.labelCount]
  have hrarest (labels : List (Focus × String)) :
      Entry.rarest? h labels = Entry.rarest? g labels := by
    induction labels with
    | nil => rfl
    | cons a rest ih => simp only [Entry.rarest?, ih, hcardinality]
  simp only [Entry.byLabel?, hrarest, hc.schema]

/-- A path is entered in the same way. -/
theorem choose (hc : g.SameContent h) (pending : List Expression) (path : Focus) :
    Entry.choose h pending path = Entry.choose g pending path := by
  rw [Entry.choose, Entry.choose, hc.byIndex?, hc.byLabel?]

end Graph.SameContent

namespace Graph.Alike

private theorem ofEntry (ha : g.Alike h) (entry : Entry) :
    Draft.ofEntry h entry = Draft.ofEntry g entry := by
  have hstep : Draft.step h = Draft.step g := by
    funext d s
    simp only [Draft.step, Draft.traverse, ha.schema, ha.settings]
  rw [Draft.ofEntry, Draft.ofEntry, hstep]

private theorem addPaths (ha : g.Alike h) (d : Draft) (next : Nat) (paths : List Path) :
    Draft.addPaths h d next paths = Draft.addPaths g d next paths := by
  induction paths generalizing d next with
  | nil => rfl
  | cons path rest ih => simp only [Draft.addPaths, ha.choose, ha.ofEntry, ih]

/-- A query has the same plan. -/
theorem plan (ha : g.Alike h) (q : Query) : q.plan h = q.plan g := by
  have hpaths (pending : List Expression) (paths : List Path) :
      Draft.ofPaths? h pending paths = Draft.ofPaths? g pending paths := by
    cases paths with
    | nil => rfl
    | cons path rest => simp only [Draft.ofPaths?, ha.choose, ha.ofEntry, ha.addPaths]
  rw [Query.plan, Query.plan, hpaths]

/-- A query has the same outline. -/
theorem explain (ha : g.Alike h) (q : Query) : q.explain h = q.explain g := by
  rw [Query.explain, Query.explain, ha.plan]

/-- A query has the same table, or the same fault. -/
theorem execute (ha : g.Alike h) (hg : g.Sound) (hh : h.Sound) (q : Query) :
    q.execute h = q.execute g := by
  simp only [Query.execute, ha.plan, Plan.execute_eq,
    Operator.output_sameContent ha.toSameContent hg hh]

end Graph.Alike

end Plexus
