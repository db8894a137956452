import Plexus.Proofs.Plan.Faults
import Plexus.Proofs.Plan.Selection
import Plexus.Proofs.Plan.Waiting

/-!
# The skeleton of a plan

Filters come between the operators that find the matches of a pattern, and above those come the
operators for the answer. Without all of these a plan is the product of one tree for each path, from
left to right. The tree of a path is a leaf with one traversal on it for each edge descriptor,
outward from the node descriptor that the leaf is for. Which one this is, and how the leaf finds the
nodes for it, depends on the path alone: an equality on one of its variables waits until the path is
planned, whatever has been planned before.
-/

namespace Plexus

namespace Operator

/-- The leaves, traversals and products of a tree, without what filters their rows or makes an
answer of them. -/
def skeleton : Operator → Operator
  | scan access name pattern => .scan access name pattern
  | expand input e => .expand input.skeleton e
  | reach input r => .reach input.skeleton r
  | product left right => .product left.skeleton right.skeleton
  | filter input _ | project input _ | aggregate input _ _ | distinct input _ | sort input _
  | skip input _ | limit input _ => input.skeleton

/-- The operator above an input follows a step: by one hop if the edge descriptor stands for exactly
one, and otherwise by the hops that it stands for. -/
inductive Traverses (input : Operator) (s : WalkStep) : Operator → Prop where
  | once {e : Expansion} : s.edge.pattern.hops = .single → e.source = s.source.name →
      e.target = s.target.name → e.edge = s.edge.name → e.direction = s.direction →
        Traverses input s (.expand input e)
  | within {r : Reach} : s.edge.pattern.hops ≠ .single → r.source = s.source.name →
      r.target = s.target.name → r.traversal.direction = s.direction →
        r.traversal.hops = s.edge.pattern.hops → Traverses input s (.reach input r)

/-- Above an input one operator follows each of some steps, the first step lowest. -/
inductive Follows : Operator → List WalkStep → Operator → Prop where
  | nil (op : Operator) : Follows op [] op
  | cons {input op tree : Operator} {s : WalkStep} {rest : List WalkStep} :
      Traverses input s op → Follows op rest tree → Follows input (s :: rest) tree

end Operator

namespace Draft

open Operator

variable {g : Graph} {d : Draft}

/-- The planner's traversal along a step is one along that step. -/
theorem traverses_traverse (g : Graph) (input : Operator) (s : WalkStep) :
    Traverses input s (traverse g input s) := by
  have hsingle : s.edge.pattern.isSingle = true ↔ s.edge.pattern.hops = .single := by
    rw [EdgePattern.isSingle, HopInterval.isSingle, decide_eq_true_eq]
  unfold traverse
  dsimp only
  split
  · rename_i hone
    exact .once (hsingle.1 hone) rfl rfl rfl rfl
  · rename_i hmore
    exact .within (fun hone => hmore (hsingle.2 hone)) rfl rfl rfl rfl

/-- The planner's traversals along a walk follow it step by step. -/
theorem follows_foldl (g : Graph) (input : Operator) (steps : List WalkStep) :
    Follows input steps (steps.foldl (traverse g) input) := by
  induction steps generalizing input with
  | nil => exact .nil input
  | cons s rest ih => exact .cons (traverses_traverse g input s) (ih _)

/-- A filter is left out of the skeleton. -/
@[simp]
theorem skeleton_filterReady (d : Draft) : d.filterReady.root.skeleton = d.root.skeleton := by
  rcases d.filterReady_cases with ⟨-, h⟩ | ⟨c, -, h⟩ <;> rw [h]
  rfl

@[simp]
theorem skeleton_finish (d : Draft) : d.finish.skeleton = d.root.skeleton := by
  unfold finish
  split <;> rfl

private theorem skeleton_step (g : Graph) (d : Draft) (s : WalkStep) :
    (step g d s).root.skeleton = traverse g d.root.skeleton s := by
  rw [step, skeleton_filterReady]
  unfold traverse
  dsimp only
  split <;> rfl

private theorem skeleton_foldl (g : Graph) (d : Draft) (steps : List WalkStep) :
    (steps.foldl (step g) d).root.skeleton = steps.foldl (traverse g) d.root.skeleton := by
  induction steps generalizing d with
  | nil => rfl
  | cons s rest ih => rw [List.foldl_cons, ih, skeleton_step, List.foldl_cons]

/-- The tree of a path that is entered somewhere. -/
theorem follows_ofEntry (g : Graph) (e : Entry) :
    Follows (.scan e.access e.focus.node.name (e.focus.node.pattern.text e.focus.node.name))
      e.focus.walk (ofEntry g e).root.skeleton := by
  rw [ofEntry, skeleton_foldl, skeleton_filterReady]
  exact follows_foldl g _ _

end Draft

namespace Query

open Operator

variable {q : Query} {g : Graph}

/-- What comes on top for the answer is left out of the skeleton. -/
@[simp]
theorem skeleton_planReturn (q : Query) (op : Operator) :
    (q.planReturn op).skeleton = op.skeleton := by
  have hshape (hidden : List NamedExpression) : (q.shape op hidden).skeleton = op.skeleton := by
    unfold shape
    dsimp only
    split <;> rfl
  unfold planReturn
  cases q.skip <;> cases q.limit <;> simp only [skeleton, apply_ite skeleton, ite_self, hshape]

/-- The tree of a path: on a leaf for one of its node descriptors, the first with its variable, one
traversal follows each of its edge descriptors, outward from there. -/
def PlansPath (q : Query) (g : Graph) (p : Path) (tree : Operator) : Prop :=
  ∃ f : Focus, f.Names p ∧ ∃ i n access text, f.nodes[i]? = some n ∧ p.FirstAt i n.pattern ∧
    q.Enters g p n.pattern access ∧
      ((f.outward i).map fun s => s.edge.pattern).Perm p.edges ∧
        Follows (.scan access n.name text) (f.outward i) tree

/-- The names of a path are kept apart, and where the query declares one of them it is the query
that gives it. -/
structure NamesPath (q : Query) (p : Path) (f : Focus) : Prop where
  names : f.Names p
  apart : ∃ path, (f.mentions path).Pairwise Mention.Apart
  given : ∀ n ∈ f.nodes, q.Declares n.name → n.pattern.name = some n.name

variable {f : Focus} {p : Path} {pending : List Expression} {d : Draft}

/-- If the equalities on the variables of a path wait, the planner sees what the query compares. -/
theorem NamesPath.sees (h : q.NamesPath p f)
    (hreads : ∀ e ∈ q.conjuncts, ∀ x ∈ e.reads, q.Declares x)
    (hpending : ∀ x ∈ f.names, ∀ e key value, e.equalityOn? x = some (key, value) →
      (e ∈ pending ↔ e ∈ q.conjuncts)) : q.Sees pending f := by
  intro n hn key value
  have hname : n.name ∈ f.names := List.mem_append_left _ (List.mem_map_of_mem hn)
  constructor
  · rintro ⟨c, hc, hequality⟩
    have hconjunct := (hpending _ hname c key value hequality).1 hc
    have hdeclares : q.Declares n.name := by
      refine hreads c hconjunct _ (Expression.mem_reads.2 ?_)
      rw [Expression.occurrences_of_equalityOn? hequality]
      exact List.mem_cons_self
    exact ⟨n.name, h.given n hn hdeclares, compares_iff.2 ⟨c, hconjunct, hequality⟩⟩
  · rintro ⟨x, hx, hcompares⟩
    obtain rfl := h.names.node_name n hn x hx
    obtain ⟨c, hconjunct, hequality⟩ := compares_iff.1 hcompares
    exact ⟨c, (hpending _ hname c key value hequality).2 hconjunct, hequality⟩

/-- The tree of a path is as it should be if the equalities on its variables wait. -/
theorem plansPath_ofEntry (hg : g.Sound) (h : q.NamesPath p f)
    (hreads : ∀ e ∈ q.conjuncts, ∀ x ∈ e.reads, q.Declares x)
    (hpending : ∀ x ∈ f.names, ∀ e key value, e.equalityOn? x = some (key, value) →
      (e ∈ pending ↔ e ∈ q.conjuncts)) :
    q.PlansPath g p (Draft.ofEntry g (Entry.choose g pending f)).root.skeleton := by
  obtain ⟨path, hapart⟩ := h.apart
  obtain ⟨hfirst, henters⟩ := enters_choose hg (h.sees hreads hpending) h.names hapart
  obtain ⟨f', hf', hchosen⟩ := Entry.chosen_choose g pending f
  have htree := Draft.follows_ofEntry g (Entry.choose g pending f)
  rw [hchosen.focus_eq] at hfirst henters htree
  rw [f'.walk_eq_outward, Focus.outward_of_mem_all hf'] at htree
  have hnode := f'.getElem?_nodes
  rw [Focus.nodes_of_mem_all hf'] at hnode
  refine ⟨f, h.names, _, f'.node, _, _, hnode, hfirst, henters, ?_, htree⟩
  rw [← h.names.map_edges]
  have hperm := (f.perm_outward f'.before.length).map NamedEdge.pattern
  rw [List.map_map] at hperm
  exact hperm

/-- Further paths add their trees on the right. -/
theorem plansPath_addPaths (hg : g.Sound)
    (hreads : ∀ e ∈ q.conjuncts, ∀ x ∈ e.reads, q.Declares x)
    {next : Nat} {paths : List Path} (hwaits : d.Waits q.conjuncts)
    (hpaths : List.Forall₂ q.NamesPath paths (Focus.ofPaths next paths))
    (hfresh : ∀ f ∈ Focus.ofPaths next paths, ∀ x ∈ d.bound, x ∉ f.names)
    (hapart : (Focus.ofPaths next paths).Pairwise fun f f' => ∀ x ∈ f.names, x ∉ f'.names) :
    ∃ trees, (Draft.addPaths g d next paths).root.skeleton = trees.foldl product d.root.skeleton ∧
      List.Forall₂ (q.PlansPath g) paths trees := by
  induction paths generalizing d next with
  | nil => exact ⟨[], rfl, .nil⟩
  | cons p rest ih =>
    rw [Focus.ofPaths, List.forall₂_cons] at hpaths
    rw [Focus.ofPaths, List.forall_mem_cons] at hfresh
    rw [Focus.ofPaths, List.pairwise_cons] at hapart
    have htree := plansPath_ofEntry hg hpaths.1 hreads fun x hx e _ _ he =>
      hwaits.mem_pending_iff (fun hbound => hfresh.1 x hbound hx) he
    have hcombined := hwaits.combine (Draft.waits_ofEntry g d.pending (Focus.ofPath p next).1)
    obtain ⟨trees, hskeleton, htrees⟩ := ih hcombined hpaths.2 (fun f hf x hx => by
      rw [Draft.combine, Draft.bound_filterReady, List.mem_append, Draft.mem_bound_ofEntry] at hx
      rcases hx with hx | hx
      · exact hfresh.2 f hf x hx
      · exact hapart.1 f hf x hx) hapart.2
    refine ⟨_ :: trees, ?_, .cons htree htrees⟩
    rw [Draft.addPaths_cons, hskeleton, List.foldl_cons, Draft.combine, Draft.skeleton_filterReady]
    rfl

/-- On a reachable graph a valid query has a plan, and without filters and without the operators for
the answer this is the product of the trees of its paths, from left to right. -/
theorem plan_skeleton (hg : g.Reachable) (h : q.validate = .ok ()) :
    ∃ p, q.plan g = .ok p ∧ ∃ first rest, p.root.skeleton = rest.foldl product first ∧
      List.Forall₂ (q.PlansPath g) q.paths (first :: rest) := by
  obtain ⟨draft, hdraft, hplan⟩ := plan_of_validate h g
  refine ⟨_, hplan, ?_⟩
  obtain ⟨hnames, hapart, hdisjoint, hreads⟩ := names_of_validate h
  have hgiven := name_of_declares h
  have hpaths : List.Forall₂ q.NamesPath q.paths (Focus.ofPaths 0 q.paths) :=
    List.forall₂_iff_zip.2 ⟨hnames.length_eq.symm, fun {p f} hmem =>
      have hf := (List.of_mem_zip hmem).2
      ⟨List.forall₂_zip hnames.flip hmem, hapart f hf, hgiven f hf⟩⟩
  dsimp only
  rw [skeleton_planReturn, Draft.skeleton_finish]
  generalize q.paths = paths at hpaths hdisjoint hdraft
  cases paths with
  | nil => cases hdraft
  | cons p rest =>
    rw [Draft.ofPaths?_cons, Option.some.injEq] at hdraft
    rw [Focus.ofPaths, List.forall₂_cons] at hpaths
    rw [Focus.ofPaths, List.pairwise_cons] at hdisjoint
    have htree := plansPath_ofEntry hg.sound hpaths.1 hreads fun _ _ _ _ _ _ => Iff.rfl
    obtain ⟨trees, hskeleton, htrees⟩ := plansPath_addPaths hg.sound hreads
      (Draft.waits_ofEntry g q.conjuncts (Focus.ofPath p 0).1) hpaths.2 (fun f hf x hx => by
        rw [Draft.mem_bound_ofEntry] at hx
        exact hdisjoint.1 f hf x hx) hdisjoint.2
    exact ⟨_, trees, hdraft ▸ hskeleton, .cons htree htrees⟩

/-- The query for the pairs of a chain of three nodes, of which the condition compares a property of
the middle one, and an edge. -/
def chainAndEdge : Query where
  paths :=
    [⟨⟨some "a", ["A"], []⟩, [(⟨none, ["R"], .outgoing, none, []⟩, ⟨some "b", ["B"], []⟩),
      (⟨none, ["R"], .outgoing, some ⟨none, some 2⟩, []⟩, ⟨none, [], []⟩)]⟩,
      ⟨⟨some "c", ["A"], []⟩, [(⟨none, [], .both, none, []⟩, ⟨none, ["C"], []⟩)]⟩]
  condition := some (.binary .and (.binary .eq (.property "c" "k") (.property "b" "k"))
    (.binary .eq (.literal (.text "x")) (.property "b" "k")))
  returns := none
  orderBy := []
  skip := none
  limit := none

/-- The chain is entered in the middle by an index, walked to its end and then to its start; the
edge is entered at its right node, since fewer live nodes have the label of that one. -/
theorem plan_skeleton_of_chain_and_edge :
    let g := [Mutation.createNode ["A"] [], .createNode ["B"] [("k", .text "x")],
      .createNode ["A"] [], .createNode ["C"] [], .createNode ["C"] [], .deleteNode ⟨3⟩,
      .createIndex "B" "k"].foldl Graph.after (.empty {})
    g.Reachable ∧ chainAndEdge.validate = .ok () ∧ g.carriers "A" = 2 ∧ g.carriers "C" = 1 ∧
      ∃ p, chainAndEdge.plan g = .ok p ∧
        p.root.skeleton.preorder.map describe = ["Cartesian Product",
          "Conditional Traverse | (b:B)<-[:R]-(a:A)",
          "Variable Length Traverse | (b:B)-[:R*1..2]->()", "Index Scan | (b:B)",
          "Conditional Traverse | (:C)-[]-(c:A)", "Label Scan | (:C)"] ∧
        ∃ first rest, p.root.skeleton = rest.foldl product first ∧
          List.Forall₂ (chainAndEdge.PlansPath g) chainAndEdge.paths (first :: rest) := by
  intro g
  have hreach : g.Reachable := .foldl (.empty {}) _
  have hvalid : chainAndEdge.validate = .ok () := by decide +kernel
  have hlines : (chainAndEdge.plan g).toOption.map (·.root.skeleton.preorder.map describe) =
      some ["Cartesian Product", "Conditional Traverse | (b:B)<-[:R]-(a:A)",
        "Variable Length Traverse | (b:B)-[:R*1..2]->()", "Index Scan | (b:B)",
        "Conditional Traverse | (:C)-[]-(c:A)", "Label Scan | (:C)"] := by decide +kernel
  obtain ⟨p, hplan, htrees⟩ := plan_skeleton hreach hvalid
  rw [hplan] at hlines
  exact ⟨hreach, hvalid, by decide +kernel, by decide +kernel, p, hplan,
    Option.some.inj hlines, htrees⟩

end Query

end Plexus
