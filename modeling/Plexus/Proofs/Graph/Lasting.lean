import Plexus.Proofs.Graph.Reachable

/-!
# Identifiers last

An arena only grows, and a slot that is not live stays so. Hence the number of a record is never
given out again. Every operation takes the arenas of a graph forward in this sense, and a new record
gets the next number.
-/

namespace Plexus

namespace Arena

variable {α : Type} {a b c : Arena α} {slot : Nat}

/-- One arena may come after another: it has at least as many slots, and of the slots that both have
it has none live that was not. -/
structure Precedes (a b : Arena α) : Prop where
  capacity_le : a.capacity ≤ b.capacity
  live (slot : Nat) : slot < a.capacity → b.isLive slot = true → a.isLive slot = true

theorem Precedes.refl (a : Arena α) : a.Precedes a := ⟨Nat.le_refl _, fun _ _ h => h⟩

theorem Precedes.trans (hab : a.Precedes b) (hbc : b.Precedes c) : a.Precedes c where
  capacity_le := Nat.le_trans hab.capacity_le hbc.capacity_le
  live slot hslot h := hab.live slot hslot
    (hbc.live slot (Nat.lt_of_lt_of_le hslot hab.capacity_le) h)

/-- Only a slot that exists is live. -/
theorem lt_capacity_of_isLive (h : a.isLive slot = true) : slot < a.capacity := by
  obtain ⟨r, hr⟩ := isLive_iff.1 h
  exact lt_capacity_of_get? hr

/-- The second arena has one more record than the first, in the slot that was next. -/
def Adds (a b : Arena α) (slot : Nat) : Prop := slot = a.capacity ∧ ∃ r, b = (a.insert r).1

/-- A slot that was added is live. -/
theorem Adds.isLive (h : a.Adds b slot) : b.isLive slot = true := by
  obtain ⟨rfl, r, rfl⟩ := h
  rw [Arena.isLive, get?_insert, if_pos rfl]
  rfl

/-- Adding a slot is a step forward. -/
theorem Adds.precedes (h : a.Adds b slot) : a.Precedes b := by
  obtain ⟨-, r, rfl⟩ := h
  refine ⟨by simp [capacity, insert], fun i hi hlive => ?_⟩
  rwa [Arena.isLive, get?_insert, if_neg (Nat.ne_of_lt hi)] at hlive

/-- A slot may be changed in any way that does not bring it to life. -/
theorem precedes_set (a : Arena α) (slot : Nat) {s : Slot α} (live : Nat)
    (hs : s.record?.isSome = true → a.isLive slot = true) :
    a.Precedes ⟨a.slots.setIfInBounds slot s, live⟩ where
  capacity_le := by simp [capacity]
  live i hi h := by
    by_cases heq : slot = i
    · subst heq
      refine hs ?_
      rw [isLive, get?, Array.getElem?_setIfInBounds_self_of_lt hi] at h
      exact h
    · rwa [isLive, get?, Array.getElem?_setIfInBounds_ne heq] at h

/-- Rewriting a record is a step forward. -/
theorem precedes_modify {f : α → α} (h : a.modify slot f = .ok b) : a.Precedes b := by
  unfold modify at h
  split at h
  · rename_i r hr
    cases h
    exact a.precedes_set slot a.live fun _ => isLive_iff.2 ⟨r, hr⟩
  · cases h

/-- Freeing a slot is a step forward. -/
theorem precedes_free {old : Option α} (h : a.free slot = .ok (b, old)) : a.Precedes b := by
  unfold free at h
  split at h
  · cases h
    exact a.precedes_set slot _ nofun
  · cases h
    exact a.precedes_set slot _ nofun
  · cases h
  · cases h

end Arena

namespace Graph

variable {g g' h : Graph} {m : Mutation}

/-- One graph may come after another, as far as its arenas tell. -/
structure Precedes (g h : Graph) : Prop where
  nodes : g.nodes.Precedes h.nodes
  edges : g.edges.Precedes h.edges

theorem Precedes.refl (g : Graph) : g.Precedes g := ⟨.refl _, .refl _⟩

theorem Precedes.trans (hgh : g.Precedes g') (hh : g'.Precedes h) : g.Precedes h :=
  ⟨hgh.nodes.trans hh.nodes, hgh.edges.trans hh.edges⟩

/-- Unlinking an edge is a step forward. -/
theorem precedes_unlink {id : EdgeId} {e : Edge} (hu : g.unlink id = some (g', e)) :
    g.Precedes g' := by
  simp only [unlink, bind, pure, Option.bind_eq_some_iff, Option.some.injEq, Prod.mk.injEq] at hu
  obtain ⟨edge, -, ⟨edges, old⟩, hfree, rfl, -⟩ := hu
  cases hfreed : g.edges.free id.index with
  | error fault => simp [hfreed, Except.toOption] at hfree
  | ok result =>
    simp only [hfreed, Except.toOption, Option.some.injEq] at hfree
    rw [hfree] at hfreed
    exact ⟨.refl _, Arena.precedes_free hfreed⟩

/-- So is unlinking all edges of a node. -/
theorem precedes_isolate (g : Graph) (id : NodeId) : g.Precedes (g.isolate id) := by
  unfold isolate
  generalize g.incident id = ids
  induction ids generalizing g with
  | nil => exact .refl g
  | cons e rest ih =>
    rw [List.foldl_cons]
    refine Precedes.trans ?_ (ih _)
    cases hu : g.unlink e with
    | none => exact .refl g
    | some result => exact precedes_unlink hu

/-- So is setting a property of a node. -/
theorem precedes_setNodePropertyById {id : NodeId} {key : PropertyId} {value : Scalar}
    {old : Option Scalar} (hr : g.setNodePropertyById id key value = .ok (g', old)) :
    g.Precedes g' := by
  unfold setNodePropertyById at hr
  obtain ⟨-, hr⟩ := guard_eq_ok.1 hr
  obtain ⟨n, -, hr⟩ := bind_eq_ok.1 hr
  obtain ⟨nodes, hnodes, hr⟩ := bind_eq_ok.1 hr
  cases hr
  exact ⟨Arena.precedes_modify hnodes, .refl _⟩

/-- Creating a node by names adds a node slot and leaves the edges as they are. -/
theorem adds_createNode (g : Graph) (labels : List String) (properties : List (String × Scalar)) :
    g.nodes.Adds (g.createNode labels properties).1.nodes (g.createNode labels properties).2.index ∧
      (g.createNode labels properties).1.edges = g.edges :=
  ⟨⟨rfl, _, rfl⟩, rfl⟩

/-- So does creating a node by ids. -/
theorem adds_createNodeById {labels : List LabelId} {properties : PropertyMap} {id : NodeId}
    (hr : g.createNodeById labels properties = .ok (g', id)) :
    g.nodes.Adds g'.nodes id.index ∧ g'.edges = g.edges := by
  obtain ⟨-, -, hr⟩ := bind_eq_ok.1 hr
  obtain ⟨-, -, hr⟩ := bind_eq_ok.1 hr
  cases hr
  exact ⟨⟨rfl, _, rfl⟩, rfl⟩

/-- Creating an edge by the name of its type adds an edge slot and leaves the nodes as they are. -/
theorem adds_createEdge {source target : NodeId} {type : String}
    {properties : List (String × Scalar)} {id : EdgeId}
    (hr : g.createEdge source target type properties = .ok (g', id)) :
    g.edges.Adds g'.edges id.index ∧ g'.nodes = g.nodes := by
  obtain ⟨-, -, hr⟩ := bind_eq_ok.1 hr
  cases hr
  exact ⟨⟨rfl, _, rfl⟩, rfl⟩

/-- So does creating an edge by the id of its type. -/
theorem adds_createEdgeById {source target : NodeId} {type : TypeId} {properties : PropertyMap}
    {id : EdgeId} (hr : g.createEdgeById source target type properties = .ok (g', id)) :
    g.edges.Adds g'.edges id.index ∧ g'.nodes = g.nodes := by
  obtain ⟨-, -, hr⟩ := bind_eq_ok.1 hr
  obtain ⟨-, hr⟩ := guard_eq_ok.1 hr
  obtain ⟨-, -, hr⟩ := bind_eq_ok.1 hr
  cases hr
  exact ⟨⟨rfl, _, rfl⟩, rfl⟩

/-- Every operation that succeeds takes the arenas forward. -/
theorem precedes_run (hm : g.run m = .ok g') : g.Precedes g' := by
  cases m with
  | createNode labels properties =>
    cases hm
    obtain ⟨hadds, hedges⟩ := g.adds_createNode labels properties
    exact ⟨hadds.precedes, hedges ▸ .refl _⟩
  | createNodeById labels properties =>
    obtain ⟨id, hid⟩ := map_fst_eq_ok.1 hm
    obtain ⟨hadds, hedges⟩ := adds_createNodeById hid
    exact ⟨hadds.precedes, hedges ▸ .refl _⟩
  | createEdge source target type properties =>
    obtain ⟨id, hid⟩ := map_fst_eq_ok.1 hm
    obtain ⟨hadds, hnodes⟩ := adds_createEdge hid
    exact ⟨hnodes ▸ .refl _, hadds.precedes⟩
  | createEdgeById source target type properties =>
    obtain ⟨id, hid⟩ := map_fst_eq_ok.1 hm
    obtain ⟨hadds, hnodes⟩ := adds_createEdgeById hid
    exact ⟨hnodes ▸ .refl _, hadds.precedes⟩
  | setNodeProperty id key value =>
    obtain ⟨old, hold⟩ := map_fst_eq_ok.1 hm
    obtain ⟨-, -, hold⟩ := bind_eq_ok.1 hold
    obtain ⟨hnodes, hedges⟩ := precedes_setNodePropertyById hold
    exact ⟨hnodes, hedges⟩
  | setNodePropertyById id key value =>
    obtain ⟨old, hold⟩ := map_fst_eq_ok.1 hm
    exact precedes_setNodePropertyById hold
  | removeNodeProperty id key =>
    obtain ⟨old, hold⟩ := map_fst_eq_ok.1 hm
    obtain ⟨n, -, hold⟩ := bind_eq_ok.1 hold
    split at hold
    · cases hold
      exact .refl g
    · split at hold
      · cases hold
        exact .refl g
      · obtain ⟨nodes, hnodes, hold⟩ := bind_eq_ok.1 hold
        cases hold
        exact ⟨Arena.precedes_modify hnodes, .refl _⟩
  | setEdgeProperty id key value =>
    obtain ⟨old, hold⟩ := map_fst_eq_ok.1 hm
    obtain ⟨e, -, hold⟩ := bind_eq_ok.1 hold
    obtain ⟨edges, hedges, hold⟩ := bind_eq_ok.1 hold
    cases hold
    exact ⟨.refl _, Arena.precedes_modify hedges⟩
  | deleteNode id =>
    obtain ⟨n, hn⟩ := map_fst_eq_ok.1 hm
    obtain ⟨node, -, hn⟩ := bind_eq_ok.1 hn
    obtain ⟨⟨nodes, old⟩, hfree, hn⟩ := bind_eq_ok.1 hn
    cases hn
    have hisolated := g.precedes_isolate id
    exact ⟨hisolated.nodes.trans (Arena.precedes_free hfree), hisolated.edges⟩
  | deleteEdge id =>
    obtain ⟨e, he⟩ := map_fst_eq_ok.1 hm
    unfold Graph.deleteEdge at he
    split at he
    · rename_i hu
      cases he
      exact precedes_unlink hu
    · cases he
  | createIndex label property =>
    cases hm
    exact ⟨.refl _, .refl _⟩
  | createIndexById label property =>
    obtain ⟨created, hcreated⟩ := map_fst_eq_ok.1 hm
    obtain ⟨-, -, hcreated⟩ := bind_eq_ok.1 hcreated
    obtain ⟨-, hcreated⟩ := guard_eq_ok.1 hcreated
    cases hcreated
    exact ⟨.refl _, .refl _⟩
  | dropIndex label property =>
    cases hm
    unfold Graph.dropIndex
    split <;> exact ⟨.refl _, .refl _⟩

/-- After a mutation that succeeds the graph is the one that it gives. -/
theorem after_of_run (hm : g.run m = .ok g') : g.after m = g' := by
  rw [Graph.after, hm]

/-- Every mutation is a step forward, also one that is refused. -/
theorem precedes_after (g : Graph) (m : Mutation) : g.Precedes (g.after m) := by
  unfold Graph.after
  split
  · rename_i g' hm
    exact precedes_run hm
  · exact .refl g

/-- The node that an operation creates. -/
def createdNode? (g : Graph) : Mutation → Option NodeId
  | .createNode labels properties => some (g.createNode labels properties).2
  | .createNodeById labels properties =>
    (g.createNodeById labels properties).toOption.map Prod.snd
  | _ => none

/-- The edge that an operation creates. -/
def createdEdge? (g : Graph) : Mutation → Option EdgeId
  | .createEdge source target type properties =>
    (g.createEdge source target type properties).toOption.map Prod.snd
  | .createEdgeById source target type properties =>
    (g.createEdgeById source target type properties).toOption.map Prod.snd
  | _ => none

theorem toOption_map_snd_eq_some {α : Type} {x : Except GraphFault (Graph × α)} {a : α} :
    x.toOption.map Prod.snd = some a ↔ ∃ g', x = .ok (g', a) := by
  cases x with
  | error fault => simp [Except.toOption]
  | ok result =>
    simp only [Except.toOption, Option.map_some, Option.some.injEq, Except.ok.injEq]
    constructor
    · rintro rfl
      exact ⟨result.1, rfl⟩
    · rintro ⟨g', rfl⟩
      rfl

/-- A created node gets the next number, and is live. -/
theorem createdNode?_spec {id : NodeId} (h : g.createdNode? m = some id) :
    id.index = g.nodes.capacity ∧ (g.after m).hasNode id = true := by
  cases m with
  | createNode labels properties =>
    cases h
    have hadds := (g.adds_createNode labels properties).1
    exact ⟨hadds.1, hadds.isLive⟩
  | createNodeById labels properties =>
    obtain ⟨g', hg'⟩ := toOption_map_snd_eq_some.1 h
    have hadds := (adds_createNodeById hg').1
    have hafter := after_of_run (m := .createNodeById labels properties) (map_fst_eq_ok.2 ⟨id, hg'⟩)
    rw [hafter]
    exact ⟨hadds.1, hadds.isLive⟩
  | _ => cases h

/-- A created edge gets the next number, and is live. -/
theorem createdEdge?_spec {id : EdgeId} (h : g.createdEdge? m = some id) :
    id.index = g.edges.capacity ∧ (g.after m).hasEdge id = true := by
  cases m with
  | createEdge source target type properties =>
    obtain ⟨g', hg'⟩ := toOption_map_snd_eq_some.1 h
    have hadds := (adds_createEdge hg').1
    have hafter := after_of_run (m := .createEdge source target type properties)
      (map_fst_eq_ok.2 ⟨id, hg'⟩)
    rw [hafter]
    exact ⟨hadds.1, hadds.isLive⟩
  | createEdgeById source target type properties =>
    obtain ⟨g', hg'⟩ := toOption_map_snd_eq_some.1 h
    have hadds := (adds_createEdgeById hg').1
    have hafter := after_of_run (m := .createEdgeById source target type properties)
      (map_fst_eq_ok.2 ⟨id, hg'⟩)
    rw [hafter]
    exact ⟨hadds.1, hadds.isLive⟩
  | _ => cases h

end Graph

namespace Arena

variable {α : Type} {kind : Kind} {arena : Nat → Arena α} {created : Nat → Option (Id kind)}

/-- How an arena and the identifiers of what is created in it go through a run, moment by moment. -/
structure Lasting (arena : Nat → Arena α) (created : Nat → Option (Id kind)) : Prop where
  capacity_le (i j : Nat) : i ≤ j → (arena i).capacity ≤ (arena j).capacity
  /-- What is created gets the number that is next at that moment. -/
  created_eq (i : Nat) (id : Id kind) : created i = some id → id.index = (arena i).capacity
  /-- No number is given out twice. -/
  created_ne (i j : Nat) (id id' : Id kind) :
    i < j → created i = some id → created j = some id' → id' ≠ id
  /-- What is no longer live never is again. -/
  retired (i j k : Nat) (slot : Nat) : i ≤ j → j ≤ k → (arena i).isLive slot = true →
    (arena j).isLive slot = false → (arena k).isLive slot = false

/-- Along steps forward, what comes earlier precedes what comes later. -/
theorem precedes_of_le (hstep : ∀ i, (arena i).Precedes (arena (i + 1))) {i j : Nat} (h : i ≤ j) :
    (arena i).Precedes (arena j) := by
  induction h with
  | refl => exact .refl _
  | step _ ih => exact ih.trans (hstep _)

/-- What holds of the steps of a run holds of the run. -/
theorem lasting_of_step (hstep : ∀ i, (arena i).Precedes (arena (i + 1)))
    (hcreated : ∀ i id, created i = some id →
      id.index = (arena i).capacity ∧ (arena (i + 1)).isLive id.index = true) :
    Lasting arena created where
  capacity_le i j h := (precedes_of_le hstep h).capacity_le
  created_eq i id h := (hcreated i id h).1
  created_ne i j id id' hij h h' heq := by
    have hlive := lt_capacity_of_isLive (hcreated i id h).2
    have hnext := (precedes_of_le hstep (show i + 1 ≤ j from hij)).capacity_le
    have hindex := (hcreated j id' h').1
    rw [heq] at hindex
    omega
  retired i j k slot hij hjk hlive hgone := by
    have hslot := Nat.lt_of_lt_of_le (lt_capacity_of_isLive hlive)
      (precedes_of_le hstep hij).capacity_le
    have hback := (precedes_of_le hstep hjk).live slot hslot
    rw [hgone] at hback
    exact Bool.eq_false_iff.2 fun hk => Bool.false_ne_true (hback hk)

end Arena

end Plexus
