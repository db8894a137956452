import Plexus.Plan.PatternText

/-!
# Paths with names, seen from one node

Before a path is planned, every node descriptor and every edge descriptor that needs one gets a
name, made by the planner if the query gives none. A path is then seen from one of its nodes: what
lies before the node, nearest first, and what lies after it. From there it is walked outward,
first to its end and then, against the edges' written directions, to its start.
-/

namespace Plexus

/-- A node descriptor with the name of its variable. -/
structure NamedNode where
  name : String
  pattern : NodePattern

/-- An edge descriptor with the name of its variable, if it has one. -/
structure NamedEdge where
  name : Option String
  pattern : EdgePattern

/-- A path seen from one of its nodes. -/
structure Focus where
  /-- The edges and nodes before the node, nearest first. -/
  before : List (NamedEdge × NamedNode)
  node : NamedNode
  /-- The edges and nodes after the node, nearest first. -/
  after : List (NamedEdge × NamedNode)

/-- The name that the planner makes for the thing with a number. -/
def internalName (what : String) (number : Nat) : String :=
  String.singleton reservedMark ++ what ++ "_" ++ toString number

/-- Name the node descriptors of a path, given the first free number. -/
def nameNodes (next : Nat) : List NodePattern → List NamedNode × Nat
  | [] => ([], next)
  | n :: rest =>
    match n.name with
    | some name =>
      let (named, next) := nameNodes next rest
      (⟨name, n⟩ :: named, next)
    | none =>
      let (named, last) := nameNodes (next + 1) rest
      (⟨internalName "node" next, n⟩ :: named, last)

/-- Name the edge descriptors of a path, given the first free number. Without a name of its own
only a single hop with properties needs one. -/
def nameEdges (next : Nat) : List EdgePattern → List NamedEdge × Nat
  | [] => ([], next)
  | e :: rest =>
    if e.name.isNone && e.isSingle && !e.properties.isEmpty then
      let (named, last) := nameEdges (next + 1) rest
      (⟨some (internalName "rel" next), e⟩ :: named, last)
    else
      let (named, last) := nameEdges next rest
      (⟨e.name, e⟩ :: named, last)

/-- A path with names, seen from its first node, and the first number still free. -/
def Focus.ofPath (path : Path) (next : Nat) : Focus × Nat :=
  let (nodes, next) := nameNodes next path.nodes
  let (edges, next) := nameEdges next path.edges
  match nodes with
  | [] => (⟨[], ⟨"", path.start⟩, []⟩, next)
  | first :: rest => (⟨[], first, edges.zip rest⟩, next)

namespace Focus

/-- The path seen from the nodes after the one it is seen from, nearest first. -/
def shiftAll (before : List (NamedEdge × NamedNode)) (node : NamedNode) :
    List (NamedEdge × NamedNode) → List Focus
  | [] => []
  | (edge, next) :: after =>
    let before := (edge, node) :: before
    ⟨before, next, after⟩ :: shiftAll before next after

/-- The path seen from its node and from those after it. -/
def all (f : Focus) : List Focus := f :: shiftAll f.before f.node f.after

/-- No node before this one has its name. -/
def isFirst (f : Focus) : Bool := f.before.all fun (_, n) => n.name ≠ f.node.name

/-- The path seen from the nodes that are the first with their name. -/
def candidates (f : Focus) : List Focus := f.all.filter isFirst

end Focus

/-- One step of a walk along a path, with the direction in which the edge is followed. -/
structure WalkStep where
  source : NamedNode
  edge : NamedEdge
  target : NamedNode
  direction : Direction

/-- The steps from a node along what lies next to it. -/
def walkFrom (turn : Direction → Direction) (node : NamedNode) :
    List (NamedEdge × NamedNode) → List WalkStep
  | [] => []
  | (edge, next) :: rest =>
    ⟨node, edge, next, turn edge.pattern.direction⟩ :: walkFrom turn next rest

/-- The steps from the node to the end of the path and then from the node to its start. -/
def Focus.walk (f : Focus) : List WalkStep :=
  walkFrom id f.node f.after ++ walkFrom Direction.reverse f.node f.before

namespace WalkStep

/-- The step as text. -/
def text (s : WalkStep) : String :=
  s.source.pattern.text s.source.name ++ s.edge.pattern.text s.edge.name s.direction ++
    s.target.pattern.text s.target.name

end WalkStep

end Plexus
