import Plexus.Plan.Build
import Plexus.Proofs.Query.Match
import Plexus.Proofs.Query.Valuation

/-!
# What a step asks for

The planner splits what a step of a walk asks for in two: the traversal finds the ends and tests
their labels, and conditions test the properties. Together they are what the descriptors say.
-/

namespace Plexus

variable {g : Graph} {ν : Valuation} {name key : String} {value : Scalar}

/-- Property values are equal in a condition if they are to the predicates. -/
theorem Value.holds?_eq (a b : Scalar) : holds? .eq (scalar a) (scalar b) = a.equals b := by
  cases a <;> cases b <;> rfl

/-- The value of a truth value is true if that is known to be true. -/
theorem Truth.toValue_eq_true {t : Truth} : t.toValue = .boolean true ↔ t = some true := by
  rcases t with _ | _ | _ <;> simp [Truth.toValue, Value.boolean, Value.null]

namespace Expression

private theorem holds_single {e : Expression} (he : ∀ x ∈ e.reads, x = name) {v : Value}
    (hv : ν name = some v) :
    e.Holds g ν ↔ e.evaluate g (Row.empty.bind name v) = .ok (.boolean true) := by
  apply holds_iff
  intro x hx
  rw [he x hx, Row.get?_bind, if_pos rfl, hv]

private theorem lookup_bind (v : Value) : lookup (Row.empty.bind name v) name = .ok v := by
  rw [lookup, Row.get?_bind, if_pos rfl]

/-- The equality of a property reads its variable alone. -/
theorem reads_propertyEquals : ∀ x ∈ (propertyEquals name key value).reads, x = name := by
  intro x hx
  simpa [propertyEquals, occurrences] using mem_reads.1 hx

/-- The test of labels reads its variable alone. -/
theorem reads_hasLabels {labels : List String} : ∀ x ∈ (hasLabels name labels).reads, x = name := by
  intro x hx
  simpa [occurrences] using mem_reads.1 hx

private theorem evaluate_propertyEquals {r : Row} {target : Value} {a : Scalar}
    (htarget : lookup r name = .ok target) (hread : readProperty g target key = .ok (.scalar a)) :
    (propertyEquals name key value).evaluate g r = .ok (.boolean true) ↔
      a.equals value = some true := by
  have hvalue : (propertyEquals name key value).evaluate g r =
      .ok (Truth.toValue (a.equals value)) := by
    simp only [propertyEquals, evaluate, htarget, hread, bind, Except.bind, pure, Except.pure,
      Value.holds?_eq]
  rw [hvalue, Except.ok.injEq, Truth.toValue_eq_true]

private theorem equals_getD {o : Option Scalar} :
    (o.getD .null).equals value = some true ↔ ∃ v, o = some v ∧ v.equals value = some true := by
  cases o with
  | none => cases value <;> simp [Scalar.equals]
  | some v => simp

/-- A condition on a property of a node says what a descriptor says of it. -/
theorem holds_propertyEquals_node {id : NodeId} (hν : ν name = some (.node id))
    (hlive : g.hasNode id = true) :
    (propertyEquals name key value).Holds g ν ↔ g.NodeHas id (key, value) := by
  obtain ⟨n, hn⟩ := Arena.isLive_iff.1 hlive
  have hnode : g.node? id = some n := hn
  have hread : readProperty g (.node id) key =
      .ok (.scalar (((g.schema.propertyId? key).bind n.property?).getD .null)) := by
    simp only [readProperty, Graph.node, hnode, liftGraph, bind, Except.bind, pure, Except.pure]
  rw [holds_single reads_propertyEquals hν, evaluate_propertyEquals (lookup_bind _) hread,
    equals_getD]
  simp only [Graph.NodeHas, Graph.nodeProperty?, hnode, bind, Option.bind]

/-- A condition on a property of an edge says what a descriptor says of it. -/
theorem holds_propertyEquals_edge {id : EdgeId} (hν : ν name = some (.edge id))
    {x : Edge} (hx : g.edge? id = some x) :
    (propertyEquals name key value).Holds g ν ↔ g.EdgeHas id (key, value) := by
  have hread : readProperty g (.edge id) key =
      .ok (.scalar (((g.schema.propertyId? key).bind x.property?).getD .null)) := by
    simp only [readProperty, Graph.edge, hx, liftGraph, bind, Except.bind, pure, Except.pure]
  rw [holds_single reads_propertyEquals hν, evaluate_propertyEquals (lookup_bind _) hread,
    equals_getD]
  simp only [Graph.EdgeHas, Graph.edgeProperty?, hx, bind, Option.bind]

/-- A condition on the labels of a node says what a descriptor says of them. -/
theorem holds_hasLabels {labels : List String} {id : NodeId} (hν : ν name = some (.node id))
    (hlive : g.hasNode id = true) :
    (hasLabels name labels).Holds g ν ↔ ∀ label ∈ labels, g.NodeIs id label := by
  obtain ⟨n, hn⟩ := Arena.isLive_iff.1 hlive
  have hnode : g.node? id = some n := hn
  have hvalue : (hasLabels name labels).evaluate g (Row.empty.bind name (.node id)) =
      .ok (.boolean (labels.all fun l => (g.schema.labelId? l).any n.hasLabel)) := by
    simp only [evaluate, lookup_bind, readLabels, Graph.node, hnode, liftGraph, bind, Except.bind,
      pure, Except.pure]
  rw [holds_single reads_hasLabels hν, hvalue, Except.ok.injEq]
  simp [Value.boolean, Graph.NodeIs, hnode, Option.any_eq_true]

end Expression

namespace NamedNode

/-- The variable stands for a node that is what the descriptor asks for. -/
def Holds (g : Graph) (n : NamedNode) (ν : Valuation) : Prop :=
  ∃ id, ν n.name = some (.node id) ∧ n.pattern.Fits g id

end NamedNode

namespace NamedEdge

/-- What the descriptor asks for between two nodes is there; a variable stands for the edge. -/
def Joins (g : Graph) (e : NamedEdge) (dir : Direction) (a b : NodeId) (ν : Valuation) : Prop :=
  if e.pattern.isSingle then ∃ id, e.pattern.Connects g dir a b id ∧ ∀ name, e.name = some name →
    ν name = some (.edge id) ∧ ∀ p ∈ e.pattern.properties, g.EdgeHas id p
  else e.pattern.Reaches g dir a b

/-- Only a descriptor of a single hop has a variable. -/
def Plain (e : NamedEdge) : Prop := e.name.isSome = true → e.pattern.isSingle = true

/-- Followed the other way an edge joins the same nodes. -/
theorem joins_reverse {e : NamedEdge} {dir : Direction} {a b : NodeId} :
    e.Joins g dir.reverse b a ν ↔ e.Joins g dir a b ν := by
  simp only [Joins, EdgePattern.connects_reverse, EdgePattern.reaches_reverse]

end NamedEdge

namespace WalkStep

/-- The step leads from the node of its source to that of its target, which is as it should be. -/
def Holds (g : Graph) (s : WalkStep) (ν : Valuation) : Prop :=
  ∃ a b, ν s.source.name = some (.node a) ∧ ν s.target.name = some (.node b) ∧
    s.edge.Joins g s.direction a b ν ∧ s.target.pattern.Fits g b

/-- What the traversal of a step finds: an end with the labels of the target, and an edge for the
variable, if there is one. -/
def Found (g : Graph) (s : WalkStep) (ν : Valuation) : Prop :=
  ∃ a b, ν s.source.name = some (.node a) ∧ ν s.target.name = some (.node b) ∧
    g.hasNode b = true ∧ (∀ label ∈ s.target.pattern.labels, g.NodeIs b label) ∧
      if s.edge.pattern.isSingle then ∃ id, s.edge.pattern.Connects g s.direction a b id ∧
        ∀ name, s.edge.name = some name → ν name = some (.edge id)
      else s.edge.pattern.Reaches g s.direction a b

private theorem holds_targetConditions {properties : Assoc String Scalar} {b : NodeId}
    (hb : ν name = some (.node b)) (hlive : g.hasNode b = true) :
    (∀ c ∈ properties.map fun (key, value) => Expression.propertyEquals name key value,
      c.Holds g ν) ↔ ∀ p ∈ properties, g.NodeHas b p := by
  simp only [List.forall_mem_map, Expression.holds_propertyEquals_node hb hlive]

private theorem holds_edgeConditions {properties : Assoc String Scalar} {id : EdgeId} {x : Edge}
    (hid : ν name = some (.edge id)) (hx : g.edge? id = some x) :
    (∀ c ∈ properties.map fun (key, value) => Expression.propertyEquals name key value,
      c.Holds g ν) ↔ ∀ p ∈ properties, g.EdgeHas id p := by
  simp only [List.forall_mem_map, Expression.holds_propertyEquals_edge hid hx]

/-- The conditions on the edge of a step, if there is a variable for it. -/
private def edgeConditions (e : NamedEdge) : List Expression :=
  e.name.elim [] fun name => e.pattern.properties.map fun (key, value) =>
    Expression.propertyEquals name key value

private theorem stepConditions_eq (s : WalkStep) : Draft.stepConditions s =
    (s.target.pattern.properties.map fun (key, value) =>
      Expression.propertyEquals s.target.name key value) ++ edgeConditions s.edge := by
  unfold Draft.stepConditions edgeConditions
  cases s.edge.name with
  | none => rfl
  | some name => rfl

/-- A descriptor joins two nodes if the traversal finds how and the conditions on the edge are
true. -/
theorem joins_iff_found {e : NamedEdge} (hplain : e.Plain) {dir : Direction}
    {a b : NodeId} : e.Joins g dir a b ν ↔
      (if e.pattern.isSingle then ∃ id, e.pattern.Connects g dir a b id ∧
        ∀ name, e.name = some name → ν name = some (.edge id)
      else e.pattern.Reaches g dir a b) ∧ ∀ c ∈ edgeConditions e, c.Holds g ν := by
  obtain ⟨name, edge⟩ := e
  cases hsingle : edge.isSingle with
  | false =>
    cases name with
    | none => simp [NamedEdge.Joins, hsingle, edgeConditions]
    | some y =>
      have htrue : edge.isSingle = true := hplain rfl
      rw [hsingle] at htrue
      cases htrue
  | true =>
    simp only [NamedEdge.Joins, hsingle, if_true]
    cases name with
    | none => simp [edgeConditions]
    | some y =>
      constructor
      · rintro ⟨id, hconnects, hname⟩
        obtain ⟨hid, hproperties⟩ := hname y rfl
        have ⟨x, hx, _⟩ := hconnects
        refine ⟨⟨id, hconnects, ?_⟩, (holds_edgeConditions hid hx).2 hproperties⟩
        intro z hz
        exact (hname z hz).1
      · rintro ⟨⟨id, hconnects, hname⟩, hconditions⟩
        have hid := hname y rfl
        have ⟨x, hx, _⟩ := hconnects
        have hproperties := (holds_edgeConditions hid hx).1 hconditions
        refine ⟨id, hconnects, ?_⟩
        intro z hz
        cases hz
        exact ⟨hid, hproperties⟩

/-- A step is as it should be if the traversal finds it and the conditions on it are true. -/
theorem holds_iff {s : WalkStep} (hplain : s.edge.Plain) :
    s.Holds g ν ↔ s.Found g ν ∧ ∀ c ∈ Draft.stepConditions s, c.Holds g ν := by
  rw [stepConditions_eq, List.forall_mem_append]
  constructor
  · rintro ⟨a, b, ha, hb, hjoins, hfits⟩
    obtain ⟨hfound, hedge⟩ := (joins_iff_found hplain).1 hjoins
    have htarget := (holds_targetConditions hb hfits.live).2 hfits.properties
    exact ⟨⟨a, b, ha, hb, hfits.live, hfits.labels, hfound⟩, htarget, hedge⟩
  · rintro ⟨⟨a, b, ha, hb, hlive, hlabels, hfound⟩, htarget, hedge⟩
    have hproperties := (holds_targetConditions hb hlive).1 htarget
    have hjoins := (joins_iff_found hplain).2 ⟨hfound, hedge⟩
    exact ⟨a, b, ha, hb, hjoins, hlive, hlabels, hproperties⟩

end WalkStep

end Plexus
