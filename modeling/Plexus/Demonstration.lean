import Plexus.Plan.Execution
import Plexus.Settings.Document
import Plexus.Snapshot.File
import Plexus.Version

/-!
# Demonstration

A short tour of the engine on four cities along a road: building a graph, traversals of several
lengths, an index, and a snapshot. It is told as a report whose parts are worked out in order; a
part that fails ends it.
-/

namespace Plexus.Demonstration

/-- The parts of a report in order; a part that failed is absent. -/
abbrev Report := List (Option String)

/-- What is told before the first part that failed. -/
def Report.text (r : Report) : String := String.join ((r.takeWhile Option.isSome).filterMap id)

def Report.isComplete (r : Report) : Bool := r.all Option.isSome

def title : String :=
  s!"Samyama Graph Core v{version}\n" ++ "==========================================\n\n"

def cities : List String := ["Pune", "Mumbai", "Delhi", "Chennai"]

/-- The properties of the city at a position. -/
def cityProperties (name : String) (position : Nat) : List (String × Scalar) :=
  [("name", .text name), ("rank", .number (.ofNat position))]

/-- Connect two nodes, if both are live. -/
def connect (g : Graph) (source target : NodeId) (type : String)
    (properties : List (String × Scalar)) : Graph :=
  match g.createEdge source target type properties with
  | .ok (g, _) => g
  | .error _ => g

/-- Create the cities, from left to right. -/
def createCities (g : Graph) : Graph × List NodeId :=
  cities.zipIdx.foldl (fun (g, ids) (name, position) =>
    let (g, id) := g.createNode ["City"] (cityProperties name position)
    (g, ids ++ [id])) (g, [])

/-- The cities along a road, and a visitor who lives in the first one. -/
def cityGraph (settings : TraversalSettings) : Graph :=
  let (g, ids) := createCities (.empty settings)
  let g := (ids.zip (ids.drop 1)).foldl (fun g (a, b) =>
    connect g a b "ROAD" [("km", .number (.ofNat 150))]) g
  let (g, visitor) := g.createNode ["Person"] [("name", .text "Asha")]
  match ids with
  | home :: _ => connect g visitor home "LIVES_IN" []
  | [] => g

/-- The graph in numbers. -/
def tellGraph (g : Graph) : Report :=
  [some (s!"=== Demo 1: Property Graph ===\n✓ Created {cities.length} City nodes\n" ++
    "✓ Connected them with a chain of ROAD relationships\n\nGraph Statistics:\n" ++
    s!"  Total nodes: {g.nodeCount}\n  Total relationships: {g.edgeCount}\n")]

/-- A query that returns some properties of the nodes on a path. -/
def returning (path : Path) (columns : List (String × String)) : Query where
  paths := [path]
  condition := none
  returns := some ⟨columns.map fun (name, key) => ⟨.property name key, none⟩, false⟩
  orderBy := []
  skip := none
  limit := none

/-- Which cities reach which others along the road, within some bounds. -/
def reachQuery (bounds : HopBounds) : Query :=
  returning ⟨⟨some "a", ["City"], []⟩,
      [(⟨none, ["ROAD"], .outgoing, some bounds, []⟩, ⟨some "b", [], []⟩)]⟩
    [("a", "name"), ("b", "name")]

/-- Bounds as patterns show them. -/
def boundsText (bounds : HopBounds) : String :=
  let bound (n : Option UInt32) (absent : String) := (n.map fun n => toString n.toNat).getD absent
  "[*" ++ bound bounds.least "1" ++ ".." ++ bound bounds.most "∞" ++ "]"

/-- The answer of a query; none if it fails. -/
def answer? (g : Graph) (query : Query) : Option Table := (query.execute g).toOption

/-- The cities that are reached, and for traversals without end also the plan. -/
def tellReach (g : Graph) (bounds : HopBounds) : Report :=
  let query := reachQuery bounds
  let found := (answer? g query).map fun t =>
    s!"\n{boundsText bounds} {t.rows.length} reachable pairs\n{(t.toJson g).compact}\n"
  let plan := (query.explain g).toOption.map fun plan => s!"\nExecution plan:\n{plan}\n"
  if bounds.most.isNone then [found, plan] else [found]

/-- Traversals by one hop, by two hops, and by any number of hops. -/
def tellTraversals (g : Graph) : Report :=
  some "\n=== Demo 2: Variable-Length Traversal ===\n" ::
    [⟨some 1, some 1⟩, ⟨some 2, some 2⟩, ⟨some 1, none⟩].flatMap (tellReach g)

/-- The rank of one city, by its name. -/
def rankQuery : Query :=
  returning ⟨⟨some "c", ["City"], [("name", .text "Delhi")]⟩, []⟩ [("c", "rank")]

/-- A query that an index answers. -/
def tellIndex (g : Graph) : Report :=
  [some "\n=== Demo 3: Property Index ===\n",
    (rankQuery.explain g).toOption.map (· ++ "\n"),
    (answer? g rankQuery).map fun t =>
      s!"✓ Index lookup returned {t.rows.length} row(s)\n"]

/-- A snapshot, written and read again. -/
def tellSnapshot (g : Graph) (settings : SnapshotSettings) : Report :=
  let bytes := Snapshot.encode g settings
  let storage := if settings.compress then "gzip" else "uncompressed"
  [some (s!"\n=== Demo 4: Snapshot ===\n✓ Encoded snapshot: {bytes.length} bytes" ++
      " (" ++ storage ++ ")\n"),
    (Snapshot.decode bytes {}).toOption.map fun g =>
      s!"✓ Decoded snapshot: {g.nodeCount} nodes, {g.edgeCount} relationships, " ++
        s!"{g.catalog.names.length} indices\n"]

/-- The tour of the engine with some settings. -/
def tour (settings : Settings) : Report :=
  let g := cityGraph settings.traversal
  let indexed := (g.createIndex "City" "name").1
  tellGraph g ++ tellTraversals g ++ tellIndex indexed ++ tellSnapshot indexed settings.snapshot

/-- The whole report; settings that are refused end it after the title. -/
def report (settings : Except SettingsFault Settings) : Report :=
  some title ::
    match settings with
    | .ok settings => tour settings
    | .error _ => [none]

end Plexus.Demonstration
