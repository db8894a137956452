import Plexus.Proofs.Graph.Traverse
import Plexus.Proofs.Query.Conjuncts
import Plexus.Query.Evaluation
import Plexus.Query.Scope

/-!
# Matches of a pattern

What it means that nodes and edges of a graph match a query, without regard to how they are found.
A match assigns a node to every node descriptor, and an edge to every descriptor of a single hop
that has a name or properties. The other edge descriptors only ask that there is an edge, or a walk
whose length is within their bounds.
-/

namespace Plexus

/-- A stored property equals the value that a descriptor gives. -/
def Graph.NodeHas (g : Graph) (id : NodeId) (p : String × Scalar) : Prop :=
  ∃ v, g.nodeProperty? id p.1 = some v ∧ v.equals p.2 = some true

/-- A stored property equals the value that a descriptor gives. -/
def Graph.EdgeHas (g : Graph) (id : EdgeId) (p : String × Scalar) : Prop :=
  ∃ v, g.edgeProperty? id p.1 = some v ∧ v.equals p.2 = some true

/-- The live node has the label with a name. -/
def Graph.NodeIs (g : Graph) (id : NodeId) (label : String) : Prop :=
  ∃ n l, g.node? id = some n ∧ g.schema.labelId? label = some l ∧ n.hasLabel l

/-- The node is what the descriptor asks for. -/
structure NodePattern.Fits (g : Graph) (n : NodePattern) (id : NodeId) : Prop where
  live : g.hasNode id = true
  labels : ∀ label ∈ n.labels, g.NodeIs id label
  properties : ∀ p ∈ n.properties, g.NodeHas id p

namespace EdgePattern

/-- The type is one of those that are listed, if any are. -/
def Allows (g : Graph) (e : EdgePattern) (t : TypeId) : Prop :=
  e.types = [] ∨ ∃ name ∈ e.types, g.schema.typeId? name = some t

/-- The live edge has an allowed type and leads from one node to the other. -/
def Connects (g : Graph) (e : EdgePattern) (dir : Direction) (a b : NodeId) (id : EdgeId) : Prop :=
  ∃ x, g.edge? id = some x ∧ e.Allows g x.relationType ∧ x.Leads dir a b

/-- A number of allowed edges within the bounds leads from one node to the other. -/
def Reaches (g : Graph) (e : EdgePattern) (dir : Direction) (a b : NodeId) : Prop :=
  ∃ k, e.hops.least.toNat ≤ k ∧ (∀ most, e.hops.most = some most → k ≤ most.toNat) ∧
    Walk (fun a b => ∃ id, e.Connects g dir a b id) k a b

/-- The descriptor stands for one edge that a match assigns to it. -/
def isAssigned (e : EdgePattern) : Bool :=
  e.isSingle && (e.name.isSome || !e.properties.isEmpty)

/-- What the descriptor asks for between two nodes is there; the edge is given if the descriptor
stands for one. -/
def Fits (g : Graph) (e : EdgePattern) (a b : NodeId) : Option EdgeId → Prop
  | some id => e.isAssigned = true ∧ e.Connects g e.direction a b id ∧
      ∀ p ∈ e.properties, g.EdgeHas id p
  | none => e.isAssigned = false ∧
      if e.isSingle then ∃ id, e.Connects g e.direction a b id else e.Reaches g e.direction a b

end EdgePattern

/-- What a path is matched with: a node for its start, and for each further step an edge, if the
descriptor stands for one, and a node. -/
structure PathMatch where
  start : NodeId
  steps : List (Option EdgeId × NodeId)
  deriving DecidableEq, Repr

namespace PathMatch

/-- The nodes from left to right. -/
def nodes (m : PathMatch) : List NodeId := m.start :: m.steps.map Prod.snd

/-- The edges from left to right, each if there is one. -/
def edges (m : PathMatch) : List (Option EdgeId) := m.steps.map Prod.fst

end PathMatch

/-- From a node on, every step of a match is what its descriptors ask for. -/
def StepsFit (g : Graph) :
    NodeId → List (EdgePattern × NodePattern) → List (Option EdgeId × NodeId) → Prop
  | _, [], [] => True
  | a, (e, n) :: patterns, (x, b) :: steps =>
    e.Fits g a b x ∧ n.Fits g b ∧ StepsFit g b patterns steps
  | _, _, _ => False

namespace Path

/-- The nodes and edges are what the descriptors of the path ask for. -/
def Fits (g : Graph) (p : Path) (m : PathMatch) : Prop :=
  p.start.Fits g m.start ∧ StepsFit g m.start p.steps m.steps

/-- The variables of the path with what a match assigns to their descriptors. -/
def bindings (p : Path) (m : PathMatch) : List (String × Value) :=
  ((p.nodes.zip m.nodes).filterMap fun (n, id) => n.name.map (·, .node id)) ++
    (p.edges.zip m.edges).filterMap fun (e, x) => e.name.bind fun name => x.map (name, .edge ·)

/-- What is bound is a node for a node descriptor with the name, or an edge for an edge descriptor
with it. -/
theorem mem_bindings {p : Path} {m : PathMatch} {x : String} {v : Value} :
    (x, v) ∈ p.bindings m ↔
      (∃ n id, (n, id) ∈ p.nodes.zip m.nodes ∧ n.name = some x ∧ v = .node id) ∨
        ∃ e id, (e, some id) ∈ p.edges.zip m.edges ∧ e.name = some x ∧ v = .edge id := by
  rw [bindings, List.mem_append, List.mem_filterMap, List.mem_filterMap]
  refine or_congr ⟨?_, ?_⟩ ⟨?_, ?_⟩
  · rintro ⟨⟨n, id⟩, hmem, hbind⟩
    obtain ⟨y, hy, heq⟩ := Option.map_eq_some_iff.1 hbind
    cases heq
    exact ⟨n, id, hmem, hy, rfl⟩
  · rintro ⟨n, id, hmem, hx, rfl⟩
    exact ⟨(n, id), hmem, by simp [hx]⟩
  · rintro ⟨⟨e, id?⟩, hmem, hbind⟩
    obtain ⟨y, hy, hmap⟩ := Option.bind_eq_some_iff.1 hbind
    obtain ⟨id, rfl, heq⟩ := Option.map_eq_some_iff.1 hmap
    cases heq
    exact ⟨e, id, hmem, hy, rfl⟩
  · rintro ⟨e, id, hmem, hx, rfl⟩
    exact ⟨(e, some id), hmem, by simp [hx]⟩

end Path

namespace Query

/-- The variables of a query with what matches of its paths assign to their descriptors. -/
def bindings (q : Query) (ms : List PathMatch) : List (String × Value) :=
  (q.paths.zip ms).flatMap fun (p, m) => p.bindings m

/-- The matches of the paths of a query make up a match of it: descriptors with one variable share
what is assigned to them, and every conjunct of the condition is true. -/
structure Matches (g : Graph) (q : Query) (ms : List PathMatch) : Prop where
  fits : List.Forall₂ (Path.Fits g) q.paths ms
  shared (x : String) (v w : Value) : (x, v) ∈ q.bindings ms → (x, w) ∈ q.bindings ms → v = w
  condition : ∃ es, q.Splits es ∧ ∀ e ∈ es, e.evaluate g ⟨q.bindings ms⟩ = .ok (.boolean true)

/-- The properties of a node descriptor are a map: no key is listed twice. -/
def DistinctKeys (q : Query) : Prop := ∀ p ∈ q.paths, ∀ n ∈ p.nodes, (Assoc.keys n.properties).Nodup

end Query

namespace Edge

variable {x : Edge} {dir : Direction} {a b : NodeId}

/-- Followed the other way, an edge leads back. -/
theorem leads_reverse : x.Leads dir.reverse b a ↔ x.Leads dir a b := by
  cases dir <;> simp only [Leads, Direction.reverse, Direction.forward, Direction.backward,
    Bool.false_eq_true, false_and, true_and, or_false, false_or]
  · exact and_comm
  · exact and_comm
  · rw [or_comm, and_comm (a := x.source = b), and_comm (a := x.target = b)]

end Edge

/-- A walk can be walked back. -/
theorem Walk.reverse {step : NodeId → NodeId → Prop} {k : Nat} {a b : NodeId}
    (h : Walk step k a b) : Walk (fun x y => step y x) k b a := by
  induction h with
  | refl a => exact .refl a
  | snoc _ hstep ih => exact ih.cons hstep

namespace EdgePattern

variable {g : Graph} {e : EdgePattern} {dir : Direction} {a b : NodeId} {id : EdgeId}

/-- Followed the other way an edge connects the same nodes. -/
theorem connects_reverse : e.Connects g dir.reverse b a id ↔ e.Connects g dir a b id := by
  simp only [Connects, Edge.leads_reverse]

/-- Followed the other way hops lead back to where they came from. -/
theorem reaches_reverse : e.Reaches g dir.reverse b a ↔ e.Reaches g dir a b := by
  refine exists_congr fun k => and_congr_right fun _ => and_congr_right fun _ => ?_
  simp only [connects_reverse]
  exact ⟨Walk.reverse, Walk.reverse⟩

end EdgePattern

end Plexus
