import Plexus.Graph.InPlace
import Plexus.Proofs.Graph.Reachable

/-!
# Refused operations

An operation that works in place and fails half way would leave its traces. On a sound graph none
does: whatever can be refused is checked before the first change, and every step after the first
change succeeds. So each program in place does what the operation it carries out says: it either
leads to the same graph, or fails with the same fault on an untouched one.
-/

namespace Plexus

variable {α β : Type} {g g' : Graph}

/-- What the result of an operation comes to in place. A refusal leaves the graph as it was. -/
def settle (g : Graph) : Except GraphFault (Graph × α) → EStateM.Result GraphFault Graph α
  | .ok (g', a) => .ok a g'
  | .error fault => .error fault g

namespace Change

/-- A check gives its value or its fault and leaves the graph as it is. -/
@[simp] theorem run_demand (check : Graph → Except GraphFault α) (g : Graph) :
    (demand check).run g = match check g with
      | .ok a => .ok a g
      | .error fault => .error fault g := by
  rw [demand, EStateM.run_bind, EStateM.run_get]
  dsimp only
  cases check g <;> rfl

@[simp] theorem run_update (f : Graph → Graph × α) (g : Graph) :
    (update f).run g = .ok (f g).2 (f g).1 := rfl

/-- Throwing the value of a program away does not change what it does to the graph. -/
@[simp] theorem run_discard (p : Change α) (g : Graph) :
    (discard p).run g = match p.run g with
      | .ok _ g' => .ok () g'
      | .error fault g' => .error fault g' := by
  change EStateM.map (fun _ => ()) p g = _
  unfold EStateM.map EStateM.run
  cases p g <;> rfl

/-- A check before the first change may fail: nothing has happened yet. -/
theorem settle_demand {check : Graph → Except GraphFault β} {p : β → Change α}
    {x : β → Except GraphFault (Graph × α)}
    (hp : ∀ b, check g = .ok b → (p b).run g = settle g (x b)) :
    (demand check >>= p).run g = settle g (check g >>= x) := by
  rw [EStateM.run_bind, run_demand]
  cases hc : check g with
  | error fault => rfl
  | ok b => exact hp b hc

/-- So may a test of the graph as it is. -/
theorem settle_guard {c : Graph → Bool} {fault : GraphFault} {p : Change α}
    {x : Except GraphFault (Graph × α)} (hp : ¬c g → p.run g = settle g x) :
    (do
      if c (← get) then
        throw fault
      p : Change α).run g =
    settle g (do
      if c g then
        throw fault
      x) := by
  rw [EStateM.run_bind, EStateM.run_get]
  dsimp only
  split
  · rfl
  · rename_i hc
    exact hp hc

/-- Interning names in place leaves the graph with the schema that knows them all. -/
theorem run_internAll (part : Schema.Part) (names : List String) (g : Graph) :
    (names.mapM (intern part)).run g =
      .ok (Graph.internAll g.schema part names).2
        { g with schema := (Graph.internAll g.schema part names).1 } := by
  induction names generalizing g with
  | nil => rfl
  | cons name rest ih =>
    rw [List.mapM_cons, EStateM.run_bind, intern, run_update]
    dsimp only
    rw [EStateM.run_bind, ih]
    rfl

/-- Interning the names of properties in place does the same and gives the properties by id. -/
theorem run_internProperties (named : List (String × Scalar)) (g : Graph) :
    (internProperties named).run g =
      .ok (Graph.internProperties g.schema named).2
        { g with schema := (Graph.internProperties g.schema named).1 } := by
  rw [internProperties, EStateM.run_bind, run_internAll]
  rfl

/-- Creating a node in place ends as creating it at once. -/
theorem run_createNode (labels : List String) (properties : List (String × Scalar)) (g : Graph) :
    (createNode labels properties).run g = settle g (.ok (g.createNode labels properties)) := by
  rw [createNode, EStateM.run_bind, run_internAll]
  dsimp only
  rw [EStateM.run_bind, run_internProperties]
  rfl

/-- Creating a node by ids in place ends as creating it at once. -/
theorem run_createNodeById (labels : List LabelId) (properties : PropertyMap) (g : Graph) :
    (createNodeById labels properties).run g = settle g (g.createNodeById labels properties) :=
  settle_demand fun _ _ => settle_demand fun _ _ => rfl

/-- Setting a property in place ends as setting it at once. -/
theorem run_setNodePropertyById (id : NodeId) (key : PropertyId) (value : Scalar) (g : Graph) :
    (setNodePropertyById id key value).run g =
      settle g (g.setNodePropertyById id key value) := by
  simp only [setNodePropertyById, alterNode, bind_assoc, pure_bind]
  exact settle_guard fun _ => settle_demand fun _ _ => settle_demand fun _ _ => rfl

/-- With a live node and a property that has a name, nothing is refused. -/
theorem exists_setNodePropertyById {id : NodeId} {n : Node} {key : PropertyId}
    (hn : g.node? id = some n) (hkey : (g.schema.propertyName? key).isSome) (value : Scalar) :
    ∃ result, g.setNodePropertyById id key value = .ok result := by
  have hnone : ¬(g.schema.propertyName? key).isNone := by
    simpa [Option.isSome_iff_ne_none] using hkey
  have hmodify := Arena.modify_of_get? (a := g.nodes) (·.setProperty key value) hn
  unfold Graph.setNodePropertyById
  rw [if_neg hnone, Graph.node_eq_ok.2 hn]
  simp only [bind, Except.bind, hmodify]
  exact ⟨_, rfl⟩

/-- The name is interned only for a live node, and then neither check that follows can fail. -/
theorem run_setNodeProperty (id : NodeId) (key : String) (value : Scalar) (g : Graph) :
    (setNodeProperty id key value).run g = settle g (g.setNodeProperty id key value) := by
  have hdiscard : g.setNodeProperty id key value = g.node id >>= fun _ =>
      Graph.setNodePropertyById { g with schema := (g.schema.intern .property key).1 } id
        (g.schema.intern .property key).2 value := by
    simp only [Graph.setNodeProperty, discard, map_const, Function.comp_def, bind_map_left]
  rw [hdiscard]
  refine settle_demand fun n hn => ?_
  rw [EStateM.run_bind, intern, run_update]
  dsimp only
  rw [run_setNodePropertyById]
  obtain ⟨result, hresult⟩ := exists_setNodePropertyById
    (g := { g with schema := (g.schema.intern .property key).1 }) (Graph.node_eq_ok.1 hn)
    (Option.isSome_of_eq_some (g.schema.resolve?_intern .property key)) value
  rw [hresult]
  rfl

private theorem modify_self {a : Arena α} {slot : Nat} {r : α} (h : a.get? slot = some r)
    {f : α → α} (hf : f r = r) : a.modify slot f = .ok a := by
  have hsame : a.slots.setIfInBounds slot (.live r) = a.slots := by
    apply Array.ext_getElem?
    intro i
    rw [Array.getElem?_setIfInBounds]
    split
    · rename_i hi
      subst hi
      rw [Arena.get?_eq_some_iff.1 h]
      exact if_pos (Arena.lt_capacity_of_get? h)
    · rfl
  rw [Arena.modify_of_get? f h, hf, hsame]

private theorem removeProperty_self {n : Node} {key : PropertyId} (h : n.property? key = none) :
    n.removeProperty key = n := by
  have hsame : n.properties.erase key = n.properties := by
    apply Std.ExtTreeMap.ext_getElem?
    intro k
    rw [Std.ExtTreeMap.getElem?_erase]
    split
    · rename_i hk
      rw [← Std.LawfulEqCmp.compare_eq_iff_eq.1 hk]
      exact h.symm
    · rfl
  rw [Node.removeProperty, hsame]

/-- Taking a property from a node that does not have it changes nothing. -/
theorem run_removeNodeProperty (id : NodeId) (key : String) (g : Graph) :
    (removeNodeProperty id key).run g = settle g (g.removeNodeProperty id key) := by
  refine settle_demand fun n hn => ?_
  rw [EStateM.run_bind, EStateM.run_get]
  dsimp only
  cases g.schema.propertyId? key with
  | none => rfl
  | some key =>
    have hget : g.nodes.get? id.index = some n := Graph.node_eq_ok.1 hn
    simp only [alterNode, bind_assoc, pure_bind, EStateM.run_bind, run_demand, hn]
    cases hold : n.property? key with
    | none =>
      rw [modify_self hget (removeProperty_self hold)]
      rfl
    | some old =>
      rw [Arena.modify_of_get? _ hget]
      rfl

/-- Creating an edge in place ends as creating it at once. -/
theorem run_createEdge (source target : NodeId) (type : String)
    (properties : List (String × Scalar)) (g : Graph) :
    (createEdge source target type properties).run g =
      settle g (g.createEdge source target type properties) := by
  refine settle_demand fun _ _ => ?_
  rw [EStateM.run_bind, intern, run_update]
  dsimp only
  rw [EStateM.run_bind, run_internProperties]
  rfl

/-- Creating an edge by ids in place ends as creating it at once. -/
theorem run_createEdgeById (source target : NodeId) (type : TypeId) (properties : PropertyMap)
    (g : Graph) :
    (createEdgeById source target type properties).run g =
      settle g (g.createEdgeById source target type properties) :=
  settle_demand fun _ _ => settle_guard fun _ => settle_demand fun _ _ => rfl

/-- The name is interned only for a live edge, and then the write succeeds. -/
theorem run_setEdgeProperty (id : EdgeId) (key : String) (value : Scalar) (g : Graph) :
    (setEdgeProperty id key value).run g = settle g (g.setEdgeProperty id key value) := by
  refine settle_demand fun e he => ?_
  have hget := Graph.edge_eq_ok.1 he
  have hread : g.edges.read id.index = .ok e := by
    simp only [Arena.read, show g.edges.get? id.index = some e from hget]
  have hmodify (key : PropertyId) :=
    Arena.modify_of_get? (a := g.edges) (·.setProperty key value) hget
  simp only [EStateM.run_bind, intern, run_update, run_demand, hread, hmodify]
  rfl

/-- Creating an index in place ends as creating it at once. -/
theorem run_createIndex (label property : String) (g : Graph) :
    (createIndex label property).run g = settle g (.ok (g.createIndex label property)) := rfl

/-- Creating an index by ids in place ends as creating it at once. -/
theorem run_createIndexById (label : LabelId) (property : PropertyId) (g : Graph) :
    (createIndexById label property).run g = settle g (g.createIndexById label property) :=
  settle_demand fun _ _ => settle_guard fun _ => rfl

/-- Dropping an index in place ends as dropping it at once. -/
theorem run_dropIndex (label property : String) (g : Graph) :
    (dropIndex label property).run g = settle g (.ok (g.dropIndex label property)) := by
  rw [dropIndex, EStateM.run_bind, EStateM.run_get]
  dsimp only
  unfold Graph.dropIndex
  cases g.schema.labelId? label <;> cases g.schema.propertyId? property <;> rfl

/-- No slot is merely reserved, so an edge is either unlinked whole or not at all. -/
theorem run_unlink (h : g.Sound) (id : EdgeId) :
    (unlink id).run g = match g.unlink id with
      | some (g', edge) => .ok (some edge) g'
      | none => .ok none g := by
  rw [unlink, EStateM.run_bind, EStateM.run_get]
  dsimp only
  unfold Graph.unlink Graph.edge?
  cases he : g.edges.get? id.index with
  | some e =>
    rw [Arena.free_of_get? he]
    rfl
  | none =>
    have hfree : g.edges.free id.index = .error (.outOfRange id.index) := by
      unfold Arena.get? at he
      unfold Arena.free
      cases hslot : g.edges.slots[id.index]? with
      | none => rfl
      | some slot =>
        cases slot with
        | reserved => exact absurd hslot (h.edges.settled id.index)
        | live e => simp [hslot, Slot.record?] at he
        | tombstone => rfl
    rw [hfree]
    rfl

/-- Deleting an edge in place ends as deleting it at once, if the graph is sound. -/
theorem run_deleteEdge (h : g.Sound) (id : EdgeId) :
    (deleteEdge id).run g = settle g (g.deleteEdge id) := by
  rw [deleteEdge, EStateM.run_bind, run_unlink h]
  unfold Graph.deleteEdge
  cases g.unlink id <;> rfl

/-- Unlinking edges one after the other in place is unlinking them at once, and cannot fail. -/
theorem run_unlinkAll (h : g.Sound) (ids : List EdgeId) :
    (ids.forM fun e => discard (unlink e) : Change Unit).run g =
      .ok () (ids.foldl (fun g e => (g.unlink e).elim g Prod.fst) g) := by
  induction ids generalizing g with
  | nil => rfl
  | cons e rest ih =>
    rw [List.forM, EStateM.run_bind, run_discard, run_unlink h, List.foldl_cons]
    cases hu : g.unlink e with
    | none => exact ih h
    | some result => exact ih (h.unlink hu)

/-- A live node is still there once its edges are gone, so it can be freed. -/
theorem run_deleteNode (h : g.Sound) (id : NodeId) :
    (deleteNode id).run g = settle g (g.deleteNode id) := by
  refine settle_demand fun n hn => ?_
  rw [EStateM.run_bind, EStateM.run_get]
  dsimp only
  rw [EStateM.run_bind, run_unlinkAll h]
  obtain ⟨-, -, edges, matrices, hrest⟩ := h.isolate id
  have hn' : (g.isolate id).nodes.get? id.index = some n := by
    rw [hrest]
    exact Graph.node_eq_ok.1 hn
  change EStateM.run _ (g.isolate id) = _
  rw [EStateM.run_bind, EStateM.run_get]
  simp only [Arena.free_of_get? hn']
  rfl

end Change

/-- The program in place of an operation. -/
def Mutation.perform : Mutation → Change Unit
  | .createNode labels properties => discard (Change.createNode labels properties)
  | .createNodeById labels properties => discard (Change.createNodeById labels properties)
  | .createEdge source target type properties =>
    discard (Change.createEdge source target type properties)
  | .createEdgeById source target type properties =>
    discard (Change.createEdgeById source target type properties)
  | .setNodeProperty id key value => discard (Change.setNodeProperty id key value)
  | .setNodePropertyById id key value => discard (Change.setNodePropertyById id key value)
  | .removeNodeProperty id key => discard (Change.removeNodeProperty id key)
  | .setEdgeProperty id key value => discard (Change.setEdgeProperty id key value)
  | .deleteNode id => discard (Change.deleteNode id)
  | .deleteEdge id => discard (Change.deleteEdge id)
  | .createIndex label property => discard (Change.createIndex label property)
  | .createIndexById label property => discard (Change.createIndexById label property)
  | .dropIndex label property => discard (Change.dropIndex label property)

namespace Graph

private theorem run_discard_settle {p : Change α} {x : Except GraphFault (Graph × α)}
    (hp : p.run g = settle g x) :
    (discard p).run g = settle g ((x.map Prod.fst).map (·, ())) := by
  rw [Change.run_discard, hp]
  cases x <;> rfl

/-- In place, every operation on a sound graph does all of what it says or nothing. -/
theorem Sound.run_perform (h : g.Sound) (m : Mutation) :
    m.perform.run g = settle g ((g.run m).map (·, ())) := by
  cases m with
  | createNode labels properties =>
    exact run_discard_settle (Change.run_createNode labels properties g)
  | createNodeById labels properties =>
    exact run_discard_settle (Change.run_createNodeById labels properties g)
  | createEdge source target type properties =>
    exact run_discard_settle (Change.run_createEdge source target type properties g)
  | createEdgeById source target type properties =>
    exact run_discard_settle (Change.run_createEdgeById source target type properties g)
  | setNodeProperty id key value =>
    exact run_discard_settle (Change.run_setNodeProperty id key value g)
  | setNodePropertyById id key value =>
    exact run_discard_settle (Change.run_setNodePropertyById id key value g)
  | removeNodeProperty id key =>
    exact run_discard_settle (Change.run_removeNodeProperty id key g)
  | setEdgeProperty id key value =>
    exact run_discard_settle (Change.run_setEdgeProperty id key value g)
  | deleteNode id => exact run_discard_settle (Change.run_deleteNode h id)
  | deleteEdge id => exact run_discard_settle (Change.run_deleteEdge h id)
  | createIndex label property =>
    exact run_discard_settle (Change.run_createIndex label property g)
  | createIndexById label property =>
    exact run_discard_settle (Change.run_createIndexById label property g)
  | dropIndex label property => exact run_discard_settle (Change.run_dropIndex label property g)

/-- On a reachable graph, an operation that fails in place leaves the whole graph as it was; one
that succeeds leads to the graph that the operation is to lead to. -/
theorem Reachable.refused_unchanged (h : g.Reachable) (m : Mutation) :
    (∀ fault g', m.perform.run g = .error fault g' → g' = g ∧ g.run m = .error fault) ∧
      ∀ g', m.perform.run g = .ok () g' → g.run m = .ok g' := by
  have hrun := h.sound.run_perform m
  cases hm : g.run m with
  | error fault =>
    rw [hm] at hrun
    rw [hrun]
    refine ⟨fun _ _ hfail => ?_, fun _ hdone => ?_⟩
    · cases hfail
      exact ⟨rfl, rfl⟩
    · cases hdone
  | ok g' =>
    rw [hm] at hrun
    rw [hrun]
    refine ⟨fun _ _ hfail => ?_, fun _ hdone => ?_⟩
    · cases hfail
    · cases hdone
      rfl

/-- An edge of a new type, with a new property, is refused at a deleted node: neither name is
interned. -/
theorem refused_unchanged_at_deleted_node :
    let g := [Mutation.createNode ["A"] [("n", .text "x")], .createNode ["B"] [],
      .createIndex "A" "n", .createEdge ⟨0⟩ ⟨1⟩ "R" [], .deleteNode ⟨1⟩].foldl
        Graph.after (.empty {})
    let m := Mutation.createEdge ⟨0⟩ ⟨1⟩ "S" [("since", .text "May")]
    g.Reachable ∧ m.perform.run g = .error (.missingTarget ⟨1⟩) g ∧
      g.run m = .error (.missingTarget ⟨1⟩) := by
  intro g m
  have hreach : g.Reachable := Reachable.foldl (.empty {}) _
  have hends : g.checkEndpoints ⟨0⟩ ⟨1⟩ = .error (.missingTarget ⟨1⟩) := by decide +kernel
  have hfail : m.perform.run g = .error (.missingTarget ⟨1⟩) g := by
    simp [m, Mutation.perform, Change.createEdge, EStateM.run_bind, hends]
  exact ⟨hreach, hfail, ((Reachable.refused_unchanged hreach m).1 _ _ hfail).2⟩

end Graph

end Plexus
