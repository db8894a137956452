import Plexus.Proofs.Operator.Listed

/-!
# One hop as an interval

A traversal by exactly one hop can be made in two ways: row by row, from the neighbours of the node
that the row starts from, or in batches, from the pairs that a traversal of the graph by the
interval of one hop reaches. Both list the ends of a node without repetition and in ascending order,
so as long as every row has a start they give the same rows in the same order, whatever fills the
rows in and whatever the size of a batch, if there can be room for a batch at all.
-/

namespace Plexus

/-- A walk of one step is a step. -/
theorem Walk.one_iff {step : NodeId → NodeId → Prop} {a b : NodeId} :
    Walk step 1 a b ↔ step a b := by
  constructor
  · rintro (_ | ⟨hfirst, hstep⟩)
    cases hfirst
    exact hstep
  · exact (Walk.refl a).snoc

namespace Graph

variable {g : Graph} {types : TypeFilter} {dir : Direction} {a b : NodeId}

/-- No edge leads away from a node that is not live. -/
theorem Sound.hasNode_of_linked (h : g.Sound) (hlinked : g.Linked types dir a b) :
    g.hasNode a = true := by
  obtain ⟨e, he, -, hleads⟩ := hlinked
  exact h.hasNode_of_leads he (Edge.leads_reverse.2 hleads)

end Graph

namespace Reach

variable {g : Graph} {r : Reach} {a b : NodeId}

/-- The traversal by one hop from the same nodes, along the same edges and to the same ends, without
a variable for the edge. -/
def oneHop (r : Reach) : Expansion :=
  ⟨r.source, r.target, none, r.traversal.types, r.traversal.direction, r.labels, r.pattern⟩

/-- In an interval of one hop a node reaches what it is linked to; a dead one reaches nothing. -/
theorem from_single (h : g.Sound) (hr : r.traversal.hops = .single) :
    r.From g a b ↔ g.Linked r.traversal.types r.traversal.direction a b := by
  rw [From, hr]
  constructor
  · rintro ⟨-, k, hleast, hmost, hwalk⟩
    obtain rfl : k = 1 := Nat.le_antisymm (hmost 1 rfl) hleast
    exact Walk.one_iff.1 hwalk
  · intro hlinked
    refine ⟨h.hasNode_of_linked hlinked, 1, Nat.le_refl 1, ?_, Walk.one_iff.2 hlinked⟩
    rintro _ ⟨⟩
    exact Nat.le_refl 1

/-- Both ways extend a row alike, and both cannot extend one that has no start. -/
theorem rowsOf_eq (h : g.Sound) (hr : r.traversal.hops = .single) (row : Row) :
    r.rowsOf g row = r.oneHop.rows g row := by
  have hsource : r.oneHop.source = r.source := rfl
  rw [rowsOf, Expansion.rows, hsource]
  cases row.startNode r.source with
  | error fault => rfl
  | ok start =>
    cases start with
    | none => rfl
    | some a =>
      obtain ⟨ends, hends, hmem, hrows⟩ := exists_rows_eq h r row a
      have hsame : ends = g.neighbors a r.traversal.types r.traversal.direction := by
        refine Id.eq_of_ascending hends (Id.ascending_toList _) fun b => ?_
        rw [hmem, from_single h hr]
        exact h.mem_neighbors.symm
      refine congrArg Except.ok (hrows.trans ?_)
      rw [hsame]
      simp only [Expansion.ends, oneHop, Option.isSome_none, Bool.false_eq_true, if_false,
        List.filter_map, List.map_map]
      rfl

end Reach

namespace Machine

/-- The machine that gives the rows of a list. -/
def ofRows (rows : List Row) : Machine where
  State := List Row
  start := rows
  pull _ := fun
    | [] => (.done, [])
    | r :: rest => (.row r, rest)
  rewind _ := rows
  Ahead _ s t := s.length < t.length
  ahead_wf _ := InvImage.wf List.length Nat.lt_wfRel.wf
  ahead_trans _ _ _ _ := Nat.lt_trans
  ahead_of_pull {_ s _ _} h := by
    cases s with
    | nil => cases h
    | cons =>
      cases h
      exact Nat.lt_succ_self _

/-- A machine that is made of rows gives these rows. -/
theorem gives_ofRows (rows : List Row) (g : Graph) :
    (ofRows rows).Gives g (ofRows rows).start rows := by
  have hrest (rest : List Row) : (ofRows rows).Gives g rest rest := by
    induction rest with
    | nil => exact .done rfl
    | cons r rest ih => exact .row rfl ih
  exact hrest rows

end Machine

/-- If every row that a machine gives binds the source variable to a node, live or dead, or to null,
a traversal by the interval of one hop, for the batches of which there can be room, and the
traversal by one hop can both be drained and give the same rows in the same order. -/
theorem Graph.Reachable.gives_single_hop {g : Graph} (h : g.Reachable) {r : Reach}
    (hr : r.traversal.hops = .single) (hfits : Batch.fits r.batchSize = true) {m : Machine}
    {rows : List Row} (hrows : m.Gives g m.start rows)
    (hstart : ∀ row ∈ rows,
      (∃ id, row.get? r.source = some (.node id)) ∨ row.get? r.source = some .null) :
    ∃ out, (m.expand r.oneHop).Gives g (m.expand r.oneHop).start out ∧
      (m.reach r).Gives g (m.reach r).start out := by
  have hok : ∀ row ∈ rows, ∃ out, r.rowsOf g row = .ok out := by
    intro row hrow
    rcases hstart row hrow with ⟨a, ha⟩ | hnull
    · exact ⟨_, Reach.rowsOf_of_start (Row.startNode_of_get? ha)⟩
    · have hnone : row.startNode r.source = .ok none := by
        rw [Row.startNode, hnull]
        rfl
      exact ⟨_, Reach.rowsOf_of_start hnone⟩
  obtain ⟨out, hout⟩ := exists_flatMapM_eq_ok hok
  have hinput := Machine.gives_iff_outputs.1 hrows
  refine ⟨out, Machine.gives_iff_outputs.2 ?_, Machine.gives_iff_outputs.2 ?_⟩
  · have hsame : r.rowsOf g = r.oneHop.rows g := funext (Reach.rowsOf_eq h.sound hr)
    rw [← Output.spread_of_flatMapM (hsame ▸ hout)]
    exact hinput.expand
  · rw [← Output.reachFrom_of_flatMapM h.sound hout, ← Output.reach_of_fits hfits]
    exact hinput.reach

/-- From a node with a loop and two edges of different types to one neighbour, in batches of two:
the node twice, null, a dead node, and the node again where the target is bound already. -/
theorem Graph.gives_single_hop_of_loop :
    let g := [Mutation.createNode [] [], .createNode [] [], .createNode [] [],
      .createEdge ⟨0⟩ ⟨1⟩ "R" [], .createEdge ⟨1⟩ ⟨0⟩ "S" [], .createEdge ⟨0⟩ ⟨0⟩ "R" [],
      .deleteNode ⟨2⟩].foldl Graph.after (.empty {})
    let r : Reach := ⟨"a", "b", ⟨.any, .both, .single⟩, .any, 2, "(a)--(b)"⟩
    let rows : List Row := [⟨[("a", .node ⟨0⟩)]⟩, ⟨[("a", .null)]⟩, ⟨[("a", .node ⟨2⟩)]⟩,
      ⟨[("a", .node ⟨0⟩)]⟩, ⟨[("a", .node ⟨0⟩), ("b", .node ⟨1⟩)]⟩]
    let out : List Row := [⟨[("a", .node ⟨0⟩), ("b", .node ⟨0⟩)]⟩,
      ⟨[("a", .node ⟨0⟩), ("b", .node ⟨1⟩)]⟩, ⟨[("a", .node ⟨0⟩), ("b", .node ⟨0⟩)]⟩,
      ⟨[("a", .node ⟨0⟩), ("b", .node ⟨1⟩)]⟩, ⟨[("a", .node ⟨0⟩), ("b", .node ⟨1⟩)]⟩]
    let m := Machine.ofRows rows
    g.Reachable ∧ (m.expand r.oneHop).Gives g (m.expand r.oneHop).start out ∧
      (m.reach r).Gives g (m.reach r).start out := by
  intro g r rows out m
  have hreach : g.Reachable := .foldl (.empty {}) _
  have hrows : m.Gives g m.start rows := Machine.gives_ofRows rows g
  have hfits : Batch.fits r.batchSize = true := by decide
  obtain ⟨_, hexpand, hbatches⟩ := Graph.Reachable.gives_single_hop hreach (r := r) rfl hfits hrows
    (by simp [rows, r, Row.get?, Assoc.get?])
  have hout : (⟨rows, none⟩ : Output).reach g r = ⟨out, none⟩ :=
    (Output.reach_of_fits hfits _).trans
      (Output.reachFrom_of_flatMapM hreach.sound (by decide +kernel))
  cases (Machine.gives_iff_outputs.1 hbatches).unique
    (hout ▸ (Machine.gives_iff_outputs.1 hrows).reach)
  exact ⟨hreach, hexpand, hbatches⟩

/-- The two ways differ where there is no block of memory for a batch: the one gives the end of an
edge, and the other fails at once. -/
theorem Graph.single_hop_fails_on_large_batch :
    let g := [Mutation.createNode [] [], .createNode [] [],
      .createEdge ⟨0⟩ ⟨1⟩ "R" []].foldl Graph.after (.empty {})
    let r : Reach := ⟨"a", "b", ⟨.any, .outgoing, .single⟩, .any, 18446744073709551615, "(a)-->(b)"⟩
    let rows : List Row := [⟨[("a", .node ⟨0⟩)]⟩, ⟨[("a", .node ⟨1⟩)]⟩]
    let out : List Row := [⟨[("a", .node ⟨0⟩), ("b", .node ⟨1⟩)]⟩]
    let m := Machine.ofRows rows
    g.Reachable ∧ m.Gives g m.start rows ∧
      (m.expand r.oneHop).Gives g (m.expand r.oneHop).start out ∧
        ((m.reach r).pull g (m.reach r).start).1 = .failed .noRoom := by
  intro g r rows out m
  have hrows : m.Gives g m.start rows := Machine.gives_ofRows rows g
  have hout : (⟨rows, none⟩ : Output).spread (r.oneHop.rows g) = ⟨out, none⟩ :=
    Output.spread_of_flatMapM (by decide +kernel)
  exact ⟨.foldl (.empty {}) _, hrows,
    Machine.gives_iff_outputs.2 (hout ▸ (Machine.gives_iff_outputs.1 hrows).expand), rfl⟩

end Plexus
