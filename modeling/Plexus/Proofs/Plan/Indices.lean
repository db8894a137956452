import Plexus.Proofs.Graph.SameData
import Plexus.Proofs.Operator.Cuts
import Plexus.Proofs.Plan.Return
import Plexus.Proofs.Plan.Waiting

/-!
# Indices and the answers of queries on nodes

Where each path is a single node, it is entered there whichever indices exist. They decide how the
node is looked up and which conditions are left to test, but not which nodes pass in the end, and
those come in ascending order either way. So the drafts for two sets of indices agree up to faults,
and where both queries succeed the answers are the same.
-/

namespace Plexus

variable {g h : Graph} {pending : List Expression}

namespace Focus

/-- The path is a single node. -/
structure IsSingle (f : Focus) : Prop where
  before : f.before = []
  after : f.after = []

variable {f : Focus}

/-- A path without steps is a single node. -/
theorem isSingle_ofPath {p : Path} (hp : p.steps = []) (next : Nat) :
    (ofPath p next).1.IsSingle ∧ (ofPath p next).1.node.pattern = p.start := by
  obtain ⟨⟨name, labels, properties⟩, steps⟩ := p
  dsimp only at hp
  subst hp
  cases name <;> exact ⟨⟨rfl, rfl⟩, rfl⟩

theorem IsSingle.walk (hf : f.IsSingle) : f.walk = [] := by
  rw [Focus.walk, hf.before, hf.after]
  rfl

theorem IsSingle.all (hf : f.IsSingle) : f.all = [f] := by
  rw [Focus.all, hf.after]
  rfl

end Focus

namespace Draft

/-- The node is as its descriptor asks, and the conditions that wait for its variable alone are true
on it. -/
def Asks (g : Graph) (pending : List Expression) (node : NamedNode) (id : NodeId) : Prop :=
  node.pattern.Fits g id ∧ ∀ c ∈ pending.filter (isReady [node.name]),
    c.evaluate g (Row.empty.bind node.name (.node id)) = .ok (.boolean true)

/-- Up to a fault the operators find the nodes that are asked for, in ascending order, and the other
conditions go on waiting. -/
structure Enters (g : Graph) (before : List Expression) (node : NamedNode) (d : Draft) : Prop where
  bound : d.bound = [node.name]
  pending : d.pending = before.filter (not ∘ isReady [node.name])
  output : ∃ ids : List NodeId, ids.Pairwise (· < ·) ∧ (∀ id, id ∈ ids ↔ Asks g before node id) ∧
    Output.Cut ⟨ids.map fun id => Row.empty.bind node.name (.node id), none⟩ (d.root.output g)

variable {f : Focus} {e : Entry}

/-- The leaf and the conditions that are ready ask together for what is asked of the node. -/
theorem asks_iff (hg : g.Sound) (h : Entry.Chosen g pending f e)
    (hkeys : (Assoc.keys f.node.pattern.properties).Nodup) (id : NodeId) :
    Asks g pending f.node id ↔ id ∈ e.access.nodes g ∧
      ∀ c ∈ (e.pending ++ e.conditions).filter (isReady [f.node.name]),
        c.evaluate g (Row.empty.bind f.node.name (.node id)) = .ok (.boolean true) := by
  obtain ⟨hready, -, hfiltered⟩ := filter_waiting h
  have hfocus := h.focus_eq
  subst hfocus
  have hcovers := (hfiltered.covers hg hkeys).asks
    (Row.empty.bind e.focus.node.name (.node id)).get? id
    ((Row.get?_bind _ _ _ _).trans (if_pos rfl))
  simp only [Expression.holds_get?] at hcovers
  rw [hready]
  exact hcovers.symm

/-- A filter over a leaf keeps the nodes on which its condition is true. -/
theorem cut_filter (access : Access) (name text : String) (c : Expression) :
    Output.Cut ⟨((access.nodes g).filter fun id =>
        (c.isMatch g (Row.empty.bind name (.node id))).toOption = some true).map
          fun id => Row.empty.bind name (.node id), none⟩
      ((Operator.filter (.scan access name text) c).output g) := by
  have hkeep := Output.Cut.keep (c.isMatch g)
    ((access.nodes g).map fun id => Row.empty.bind name (.node id))
  rw [List.filter_map] at hkeep
  exact hkeep

/-- Whichever way a single node is looked up, what is found is what is asked for. -/
theorem enters_leaf (hg : g.Sound) (h : Entry.Chosen g pending f e)
    (hkeys : (Assoc.keys f.node.pattern.properties).Nodup) (text : String) :
    (filterReady ⟨.scan e.access f.node.name text, [f.node.name],
      e.pending ++ e.conditions⟩).Enters g pending f.node := by
  refine ⟨bound_filterReady _, (pending_filterReady _).trans (filter_waiting h).2.1, ?_⟩
  rcases filterReady_cases ⟨.scan e.access f.node.name text, [f.node.name],
    e.pending ++ e.conditions⟩ with ⟨hnone, heq⟩ | ⟨c, hc, heq⟩
  · rw [heq]
    refine ⟨e.access.nodes g, hg.nodes_ascending _, fun id => ?_, .whole⟩
    rw [asks_iff hg h hkeys, hnone]
    exact (and_iff_left (List.forall_mem_nil _)).symm
  · rw [heq]
    refine ⟨_, (hg.nodes_ascending e.access).filter _, fun id => ?_, cut_filter _ _ _ c⟩
    rw [asks_iff hg h hkeys, ← Expression.evaluate_conjunction? hc, ← Expression.isMatch_eq_true,
      List.mem_filter]
    refine and_congr_right fun _ => ?_
    cases c.isMatch g (Row.empty.bind f.node.name (.node id)) <;> simp [Except.toOption]

/-- A path that is a single node is entered there and not walked any further. -/
theorem enters_ofEntry (hg : g.Sound) (pending : List Expression) (hf : f.IsSingle)
    (hkeys : (Assoc.keys f.node.pattern.properties).Nodup) :
    (ofEntry g (Entry.choose g pending f)).Enters g pending f.node := by
  obtain ⟨f', hf', hchosen⟩ := Entry.chosen_choose g pending f
  rw [hf.all, List.mem_singleton] at hf'
  rw [hf'] at hchosen
  rw [ofEntry, hchosen.focus_eq, hf.walk]
  exact enters_leaf hg hchosen hkeys (f.node.pattern.text f.node.name)

/-- The same variables are bound and the same conditions wait, and the operators agree up to
faults. -/
structure Agrees (g h : Graph) (d d' : Draft) : Prop where
  bound : d'.bound = d.bound
  pending : d'.pending = d.pending
  output : (d.root.output g).Agrees (d'.root.output h)

variable {d d' e e' : Draft}

/-- On graphs with the same data the same nodes are asked for. -/
theorem Enters.agrees {node : NamedNode} (hs : g.SameData h) (hd : d.Enters g pending node)
    (hd' : d'.Enters h pending node) : Agrees g h d d' where
  bound := hd'.bound.trans hd.bound.symm
  pending := hd'.pending.trans hd.pending.symm
  output := by
    obtain ⟨ids, hascending, hids, hcut⟩ := hd.output
    obtain ⟨ids', hascending', hids', hcut'⟩ := hd'.output
    have hsame : ids' = ids := by
      apply Id.eq_of_ascending hascending' hascending
      intro id
      simp only [hids, hids', Asks, hs.fits_iff, hs.sameReads.evaluate]
    rw [hsame] at hcut'
    exact ⟨_, hcut, hcut'⟩

/-- Drafts that agree still do after the conditions that are ready have been tested. -/
theorem Agrees.filterReady (hr : g.SameReads h) (hd : Agrees g h d d') :
    Agrees g h d.filterReady d'.filterReady := by
  obtain ⟨root, bound, pending⟩ := d
  obtain ⟨root', bound', pending'⟩ := d'
  obtain ⟨hbound, hpending, houtput⟩ := hd
  dsimp only at hbound hpending
  subst hbound hpending
  unfold Draft.filterReady
  dsimp only
  split
  · rename_i c _
    exact ⟨rfl, rfl, Operator.agrees_filter hr houtput c⟩
  · exact ⟨rfl, rfl, houtput⟩

/-- Products of drafts that agree do so as well. -/
theorem Agrees.combine (hr : g.SameReads h) (hd : Agrees g h d d') (he : Agrees g h e e') :
    Agrees g h (d.combine e) (d'.combine e') := by
  apply Agrees.filterReady hr
  refine ⟨?_, he.pending, Operator.agrees_product hd.output he.output⟩
  dsimp only
  rw [hd.bound, he.bound]

/-- The drafts of a path that is a single node. -/
theorem agrees_ofEntry (hg : g.Sound) (hh : h.Sound) (hs : g.SameData h)
    (pending : List Expression) {p : Path} (hsingle : p.steps = [])
    (hkeys : (Assoc.keys p.start.properties).Nodup) (next : Nat) :
    Agrees g h (ofEntry g (Entry.choose g pending (Focus.ofPath p next).1))
      (ofEntry h (Entry.choose h pending (Focus.ofPath p next).1)) := by
  obtain ⟨hf, hpattern⟩ := Focus.isSingle_ofPath hsingle next
  rw [← hpattern] at hkeys
  exact (enters_ofEntry hg pending hf hkeys).agrees hs (enters_ofEntry hh pending hf hkeys)

private theorem agrees_addPaths (hg : g.Sound) (hh : h.Sound) (hs : g.SameData h)
    {paths : List Path} (hsingle : ∀ p ∈ paths, p.steps = [])
    (hkeys : ∀ p ∈ paths, (Assoc.keys p.start.properties).Nodup) (next : Nat)
    (hd : Agrees g h d d') : Agrees g h (addPaths g d next paths) (addPaths h d' next paths) := by
  induction paths generalizing d d' next with
  | nil => exact hd
  | cons p rest ih =>
    rw [List.forall_mem_cons] at hsingle hkeys
    rw [addPaths_cons, addPaths_cons, hd.pending]
    exact ih hsingle.2 hkeys.2 _
      (hd.combine hs.sameReads (agrees_ofEntry hg hh hs d.pending hsingle.1 hkeys.1 next))

/-- The drafts of a pattern whose paths are single nodes. -/
theorem agrees_ofPaths? (hg : g.Sound) (hh : h.Sound) (hs : g.SameData h) {paths : List Path}
    (hsingle : ∀ p ∈ paths, p.steps = [])
    (hkeys : ∀ p ∈ paths, (Assoc.keys p.start.properties).Nodup)
    (hd : ofPaths? g pending paths = some d) (hd' : ofPaths? h pending paths = some d') :
    Agrees g h d d' := by
  cases paths with
  | nil => cases hd
  | cons p rest =>
    rw [List.forall_mem_cons] at hsingle hkeys
    rw [ofPaths?_cons, Option.some.injEq] at hd hd'
    rw [← hd, ← hd']
    exact agrees_addPaths hg hh hs hsingle.2 hkeys.2 _
      (agrees_ofEntry hg hh hs pending hsingle.1 hkeys.1 0)

/-- The finished operators of drafts that agree do so as well. -/
theorem Agrees.finish (hr : g.SameReads h) (hd : Agrees g h d d') :
    (d.finish.output g).Agrees (d'.finish.output h) := by
  unfold Draft.finish
  rw [hd.pending]
  split
  · rename_i c _
    exact Operator.agrees_filter hr hd.output c
  · exact hd.output

end Draft

namespace Query

variable {q : Query} {op op' : Operator} {t : Table}

private theorem agrees_shape (hr : g.SameReads h) (ho : (op.output g).Agrees (op'.output h))
    (hidden : List NamedExpression) :
    ((q.shape op hidden).output g).Agrees ((q.shape op' hidden).output h) := by
  unfold shape
  dsimp only
  split
  · exact Operator.agrees_aggregate hr ho _ _
  · exact Operator.agrees_project hr ho _

/-- What comes after the pattern agrees if the pattern does. -/
theorem agrees_planReturn (hr : g.SameReads h) (ho : (op.output g).Agrees (op'.output h)) :
    ((q.planReturn op).output g).Agrees ((q.planReturn op').output h) := by
  have hsort {below below' : Operator} (hb : (below.output g).Agrees (below'.output h))
      (keys : List OrderItem) :
      ((if keys.isEmpty then below else below.sort keys).output g).Agrees
        ((if keys.isEmpty then below' else below'.sort keys).output h) := by
    split
    · exact hb
    · exact Operator.agrees_sort hr hb keys
  have hunique {below below' : Operator} (hb : (below.output g).Agrees (below'.output h)) :
      ((if q.isDistinct then below.distinct q.columns else below).output g).Agrees
        ((if q.isDistinct then below'.distinct q.columns else below').output h) := by
    split
    · exact Operator.agrees_distinct hb _
    · exact hb
  have hsorted := hsort (hunique (agrees_shape (q := q) hr ho
    (orderKeys q.items q.columns [] q.orderBy).2)) (orderKeys q.items q.columns [] q.orderBy).1
  unfold planReturn
  dsimp only
  cases q.skip with
  | none =>
    cases q.limit with
    | none => exact hsorted
    | some n => exact Operator.agrees_limit hsorted n
  | some k =>
    cases q.limit with
    | none => exact Operator.agrees_skip hsorted k
    | some n => exact Operator.agrees_limit (Operator.agrees_skip hsorted k) n

/-- Every path is a single node. -/
def IsSingle (q : Query) : Prop := ∀ p ∈ q.paths, p.steps = []

/-- On graphs with the same data a query on single nodes has one answer. -/
theorem execute_unique (hg : g.Sound) (hh : h.Sound) (hs : g.SameData h) (hkeys : q.DistinctKeys)
    (hsingle : q.IsSingle) {u : Table} (ht : q.execute g = .ok t) (hu : q.execute h = .ok u) :
    t = u := by
  obtain ⟨-, draft, rows, hdraft, hrows, rfl⟩ := execute_eq_ok.1 ht
  obtain ⟨-, draft', rows', hdraft', hrows', rfl⟩ := execute_eq_ok.1 hu
  have hstart : ∀ p ∈ q.paths, (Assoc.keys p.start.properties).Nodup :=
    fun p hp => hkeys p hp _ List.mem_cons_self
  have hdrafts := Draft.agrees_ofPaths? hg hh hs hsingle hstart hdraft hdraft'
  have hplans := agrees_planReturn (q := q) hs.sameReads (hdrafts.finish hs.sameReads)
  rw [Operator.gives_iff.1 hrows, Operator.gives_iff.1 hrows'] at hplans
  cases hplans.eq_of_fault rfl rfl
  rfl

/-- The query for the pairs of a node with a property and a node with the same property, one asked
for in its descriptor and the other in the condition. -/
def alikePairs : Query where
  paths := [⟨⟨some "a", ["A"], [("k", .text "x")]⟩, []⟩, ⟨⟨some "b", ["B"], []⟩, []⟩]
  condition := some (.binary .eq (.property "b" "k") (.literal (.text "x")))
  returns := none
  orderBy := []
  skip := none
  limit := none

end Query

namespace Graph

/-- Which indices exist makes no difference to the answer of a query on single nodes: two reachable
graphs with the same data give the same rows in the same order if both give an answer, and so do the
graphs after any definitions and removals of indices. -/
theorem Reachable.indices_keep_answers (hg : g.Reachable) (q : Query) (hkeys : q.DistinctKeys)
    (hsingle : q.IsSingle) :
    (∀ h : Graph, h.Reachable → g.SameData h → ∀ t u : Table,
      q.execute g = .ok t → q.execute h = .ok u → t = u) ∧
        ∀ ms ms' : List Mutation, (∀ m ∈ ms, m.OnIndices) → (∀ m ∈ ms', m.OnIndices) →
          ∀ t u : Table, q.execute (ms.foldl Graph.after g) = .ok t →
            q.execute (ms'.foldl Graph.after g) = .ok u → t = u := by
  refine ⟨fun h hh hs t u ht hu => ?_, fun ms ms' hms hms' t u ht hu => ?_⟩
  · exact Query.execute_unique hg.sound hh.sound hs hkeys hsingle ht hu
  · have hs := (hg.sound.sameData_foldl hms).symm.trans (hg.sound.sameData_foldl hms')
    exact Query.execute_unique (hg.foldl ms).sound (hg.foldl ms').sound hs hkeys hsingle ht hu

/-- Each of the two nodes can be looked up by an index, and the answer is that without them. -/
theorem indices_keep_answers_of_pairs :
    let g := [Mutation.createNode ["A"] [("k", .text "x")],
      .createNode ["A", "B"] [("k", .text "x")], .createNode ["B"] []].foldl Graph.after (.empty {})
    let ms := [Mutation.createIndex "A" "k", .createIndex "B" "k"]
    let t : Table := ⟨[⟨[("a", .node ⟨0⟩), ("b", .node ⟨1⟩)]⟩,
      ⟨[("a", .node ⟨1⟩), ("b", .node ⟨1⟩)]⟩], ["a", "b"]⟩
    Query.alikePairs.execute g = .ok t ∧
      Query.alikePairs.execute (ms.foldl Graph.after g) = .ok t ∧
        ∀ u, Query.alikePairs.execute (ms.foldl Graph.after g) = .ok u → t = u := by
  intro g ms t
  have hreach : g.Reachable := Reachable.foldl (.empty {}) _
  have hkeys : Query.alikePairs.DistinctKeys := by
    unfold Query.DistinctKeys
    decide
  have hsingle : Query.alikePairs.IsSingle :=
    List.forall_mem_cons.2 ⟨rfl, List.forall_mem_singleton.2 rfl⟩
  have hms : ∀ m ∈ ms, m.OnIndices :=
    List.forall_mem_cons.2 ⟨trivial, List.forall_mem_singleton.2 trivial⟩
  have ht : Query.alikePairs.execute g = .ok t :=
    (Query.execute_of_plan rfl).trans (by decide +kernel)
  have hu : Query.alikePairs.execute (ms.foldl Graph.after g) = .ok t :=
    (Query.execute_of_plan rfl).trans (by decide +kernel)
  exact ⟨ht, hu, fun u => (Reachable.indices_keep_answers hreach _ hkeys hsingle).2 [] ms
    (List.forall_mem_nil _) hms t u ht⟩

end Graph

end Plexus
