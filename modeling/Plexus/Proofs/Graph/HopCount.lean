import Plexus.Proofs.Graph.Saturation

/-!
# The hop count of a traversal

The search of a traversal counts its hops in a machine word. The count begins at the least number
of hops and goes up in every round, also in the last one, which finds nothing. Under an upper bound
it never passes that bound. Without one, the search can come to a round for which the word has no
number left, and the count begins again at zero. That is so exactly if some pair is joined by a
walk of as many hops as the largest number of the word, and by no shorter walk of at least the least
number of hops. Where the least number of hops and the number of nodes together fit in the word,
there is no such pair.
-/

namespace Plexus

/-- A loop can be followed any number of times. -/
theorem Walk.loop {step : NodeId → NodeId → Prop} {a : NodeId} (hstep : step a a) (n : Nat) :
    Walk step n a a := by
  induction n with
  | zero => exact .refl a
  | succ n ih => exact ih.snoc hstep

namespace Relation

/-- The search with a hop count that must not wrap around: it fails at a round for which the count
has no number left. -/
def saturateChecked (hop : Hop) (sharingThreshold : Nat) (interval : HopInterval) (rounds : Nat)
    (hops : UInt32) (result frontier : Relation) : Option Relation :=
  if frontier.isEmpty || !interval.allowsMoreThan hops then some result
  else if UInt32.size ≤ hops.toNat + 1 then none
  else
    match rounds with
    | 0 => some result
    | rounds + 1 =>
      let next := (frontier.compose hop sharingThreshold).difference result
      if next.isEmpty then some result
      else
        saturateChecked hop sharingThreshold interval rounds (hops + 1) (result.union next) next

variable {hop : Hop} {sharingThreshold : Nat} {interval : HopInterval}
  {base : NodeId → NodeId → Prop} {rounds : Nat} {hops : UInt32} {result frontier : Relation}

/-- Unless it fails, the checked search is the search. -/
theorem saturateChecked_eq_none_or (fuel : Nat) (hops : UInt32) (result frontier : Relation) :
    saturateChecked hop sharingThreshold interval fuel hops result frontier = none ∨
      saturateChecked hop sharingThreshold interval fuel hops result frontier =
        some (saturate hop sharingThreshold interval fuel hops result frontier) := by
  induction fuel generalizing hops result frontier with
  | zero =>
    rw [saturateChecked, saturate]
    split
    · exact Or.inr rfl
    · split
      · exact Or.inl rfl
      · exact Or.inr rfl
  | succ fuel ih =>
    rw [saturateChecked, saturate]
    split
    · exact Or.inr rfl
    · split
      · exact Or.inl rfl
      · dsimp only
        split
        · exact Or.inr rfl
        · exact ih _ _ _

/-- The state of a search whose hop count has not wrapped around. -/
structure CountedState (hop : Hop) (interval : HopInterval) (base : NodeId → NodeId → Prop)
    (rounds : Nat) (hops : UInt32) (result frontier : Relation) : Prop extends
    SearchState hop interval base rounds hops result frontier where
  counts : hops.toNat = interval.least.toNat + rounds

/-- Without an upper bound, something is new at the last level that the hop count has a number
for. -/
def ExhaustsCount (hop : Hop) (interval : HopInterval) (base : NodeId → NodeId → Prop) : Prop :=
  interval.most = none ∧
    ∃ n, interval.least.toNat + n + 1 = UInt32.size ∧ ∃ a b, FirstAt hop base n a b

/-- Nothing is new at the last level if nothing was at one that the count has a number for. -/
theorem not_exhaustsCount {n : Nat} (hn : interval.least.toNat + n < UInt32.size)
    (hnone : ∀ a b, ¬FirstAt hop base n a b) : ¬ExhaustsCount hop interval base := by
  rintro ⟨-, last, hlast, a, b, hfirst⟩
  exact not_firstAt_of_le hnone (by omega) a b hfirst

namespace CountedState

/-- A round for which there is a number left is counted. -/
theorem round (h : CountedState hop interval base rounds hops result frontier)
    (hguard : ¬(frontier.isEmpty || !interval.allowsMoreThan hops))
    (hroom : hops.toNat + 1 < UInt32.size) :
    CountedState hop interval base (rounds + 1) (hops + 1)
      (result.union ((frontier.compose hop sharingThreshold).difference result))
      ((frontier.compose hop sharingThreshold).difference result) where
  toSearchState := h.toSearchState.round hguard
  counts := by
    rw [UInt32.toNat_add, UInt32.toNat_one, Nat.mod_eq_of_lt hroom, h.counts]
    rfl

/-- A search that stops before a round leaves nothing new for the last level. -/
theorem not_exhaustsCount_of_stop
    (h : CountedState hop interval base rounds hops result frontier)
    (hstop : frontier.isEmpty || !interval.allowsMoreThan hops) :
    ¬ExhaustsCount hop interval base := by
  rcases Bool.or_eq_true_iff.1 hstop with hempty | hno
  · have hcount : interval.least.toNat + rounds < UInt32.size := h.counts ▸ hops.toNat_lt_size
    exact not_exhaustsCount hcount (h.frontier_holds.isEmpty_iff.1 hempty)
  · rintro ⟨hmost, -⟩
    simp [HopInterval.allowsMoreThan, hmost] at hno

/-- A search that goes on with no number left has no upper bound, and its frontier is what is new at
the last level. -/
theorem exhaustsCount_of_full (h : CountedState hop interval base rounds hops result frontier)
    (hguard : ¬(frontier.isEmpty || !interval.allowsMoreThan hops))
    (hfull : UInt32.size ≤ hops.toNat + 1) : ExhaustsCount hop interval base := by
  have hlt := hops.toNat_lt_size
  have hcounts := h.counts
  rw [Bool.or_eq_true, not_or] at hguard
  obtain ⟨hsome, hallows⟩ := hguard
  refine ⟨?_, rounds, by omega, ?_⟩
  · cases hmost : interval.most with
    | none => rfl
    | some most =>
      have hless : hops.toNat < most.toNat := by
        simpa [HopInterval.allowsMoreThan, hmost, UInt32.lt_iff_toNat_lt] using hallows
      have hmax := most.toNat_lt_size
      omega
  · by_contra hno
    exact hsome (h.frontier_holds.isEmpty_iff.2 fun a b hab => hno ⟨a, b, hab⟩)

/-- A round that is counted and finds nothing leaves nothing new for the last level. -/
theorem not_exhaustsCount_of_stall
    (h : CountedState hop interval base rounds hops result frontier)
    (hroom : hops.toNat + 1 < UInt32.size) (hnone : ∀ a b, ¬FirstAt hop base (rounds + 1) a b) :
    ¬ExhaustsCount hop interval base := by
  have hcount : interval.least.toNat + (rounds + 1) < UInt32.size := by
    have hcounts := h.counts
    omega
  exact not_exhaustsCount hcount hnone

open Classical in
/-- Given at least as many rounds as there are pairs left to find, the checked search fails if and
only if something is new at the last level that the count has a number for. -/
theorem saturateChecked_eq_none_iff
    (h : CountedState hop interval base rounds hops result frontier)
    {possible : Finset (NodeId × NodeId)}
    (hpossible : ∀ n a b, Level hop base (n + 1) a b → (a, b) ∈ possible) {fuel : Nat}
    (hfuel : (possible.filter fun x => ∀ i ≤ rounds, ¬Level hop base i x.1 x.2).card ≤ fuel) :
    saturateChecked hop sharingThreshold interval fuel hops result frontier = none ↔
      ExhaustsCount hop interval base := by
  induction fuel generalizing rounds hops result frontier with
  | zero =>
    rw [saturateChecked]
    split
    · rename_i hstop
      exact iff_of_false (Option.some_ne_none _) (h.not_exhaustsCount_of_stop hstop)
    rename_i hguard
    split
    · rename_i hfull
      exact iff_of_true rfl (h.exhaustsCount_of_full hguard hfull)
    rename_i hroom
    -- all pairs have been found, so that the round which is not looked at would find nothing
    have hnone := not_firstAt_of_card_unseen_eq_zero hpossible (Nat.le_zero.1 hfuel)
    exact iff_of_false (Option.some_ne_none _)
      (h.not_exhaustsCount_of_stall (Nat.lt_of_not_le hroom) hnone)
  | succ fuel ih =>
    rw [saturateChecked]
    split
    · rename_i hstop
      exact iff_of_false (Option.some_ne_none _) (h.not_exhaustsCount_of_stop hstop)
    rename_i hguard
    split
    · rename_i hfull
      exact iff_of_true rfl (h.exhaustsCount_of_full hguard hfull)
    rename_i hroom
    dsimp only
    split
    · rename_i hnext
      exact iff_of_false (Option.some_ne_none _) (h.not_exhaustsCount_of_stall
        (Nat.lt_of_not_le hroom) (h.next.isEmpty_iff.1 hnext))
    · rename_i hnext
      have hnew : ∃ a b, FirstAt hop base (rounds + 1) a b := by
        by_contra hno
        exact hnext (h.next.isEmpty_iff.2 fun a b hab => hno ⟨a, b, hab⟩)
      have hlt := card_unseen_lt hpossible hnew
      exact ih (h.round hguard (Nat.lt_of_not_le hroom)) (by omega)

end CountedState

end Relation

namespace MatrixView

variable {v : MatrixView} {starts : List NodeId} {interval : HopInterval}

/-- What is reached, with a hop count that must not wrap around. -/
def reachChecked (v : MatrixView) (starts : List NodeId) (interval : HopInterval)
    (sharingThreshold : Nat) : Option Relation :=
  if interval.isEmpty then some .empty
  else
    let level := v.firstLevel starts interval sharingThreshold
    level.saturateChecked v.hop sharingThreshold interval (level.rows.size * v.endBound)
      interval.least level

/-- Unless it runs out of hops, the checked search of a matrix view finds what the search finds. -/
theorem reachChecked_eq_none_or (v : MatrixView) (starts : List NodeId) (interval : HopInterval)
    (sharingThreshold : Nat) :
    v.reachChecked starts interval sharingThreshold = none ∨
      v.reachChecked starts interval sharingThreshold =
        some (v.reach starts interval sharingThreshold) := by
  cases hne : interval.isEmpty with
  | true =>
    refine Or.inr ?_
    rw [reachChecked, reach, if_pos hne, if_pos hne]
  | false =>
    rw [reachChecked, reach_of_nonempty hne, hne]
    exact Relation.saturateChecked_eq_none_or _ _ _ _

/-- Some pair is joined by a walk of as many hops as the largest number of the hop count, and by no
shorter one of at least the least number of hops. -/
def NeedsLongestWalk (v : MatrixView) (starts : List NodeId) (interval : HopInterval) : Prop :=
  ∃ a ∈ starts, ∃ b, Walk (fun a b => b ∈ v.hop a) (UInt32.size - 1) a b ∧
    ∀ k, interval.least.toNat ≤ k → k < UInt32.size - 1 →
      ¬Walk (fun a b => b ∈ v.hop a) k a b

/-- The hop count is exhausted exactly if there is no upper bound and a longest walk is asked
for. -/
theorem exhaustsCount_iff :
    Relation.ExhaustsCount v.hop interval (v.Begins starts interval) ↔
      interval.most = none ∧ v.NeedsLongestWalk starts interval := by
  have hleast : interval.least.toNat ≤ UInt32.size - 1 :=
    Nat.le_sub_one_of_lt interval.least.toNat_lt_size
  refine and_congr_right fun _ => ?_
  constructor
  · rintro ⟨n, hn, a, b, hlevel, hfirst⟩
    obtain ⟨ha, hwalk⟩ := level_begins.1 hlevel
    have hlast : interval.least.toNat + n = UInt32.size - 1 := by omega
    refine ⟨a, ha, b, hlast ▸ hwalk, fun k hk hlt hshort => ?_⟩
    obtain ⟨i, rfl⟩ := Nat.exists_eq_add_of_le hk
    exact hfirst i (by omega) (level_begins.2 ⟨ha, hshort⟩)
  · rintro ⟨a, ha, b, hwalk, hshort⟩
    obtain ⟨n, hn⟩ := Nat.exists_eq_add_of_le hleast
    have hsize : 0 < UInt32.size := by decide
    refine ⟨n, by omega, a, b, level_begins.2 ⟨ha, hn ▸ hwalk⟩, fun i hi hlevel => ?_⟩
    exact hshort _ (Nat.le_add_right _ i) (by omega) (level_begins.1 hlevel).2

/-- A search runs out of hops exactly if there is no upper bound and a longest walk is asked for. -/
theorem reachChecked_eq_none_iff (v : MatrixView) (starts : List NodeId) (interval : HopInterval)
    (sharingThreshold : Nat) :
    v.reachChecked starts interval sharingThreshold = none ↔
      interval.most = none ∧ v.NeedsLongestWalk starts interval := by
  cases hne : interval.isEmpty with
  | true =>
    rw [reachChecked, if_pos hne]
    refine iff_of_false (Option.some_ne_none _) fun ⟨hmost, _⟩ => ?_
    simp [HopInterval.isEmpty, hmost] at hne
  | false =>
    classical
    obtain ⟨possible, hcard, hpossible⟩ := v.exists_possible starts interval sharingThreshold
    have hstate : Relation.CountedState v.hop interval (v.Begins starts interval) 0 interval.least
        (v.firstLevel starts interval sharingThreshold)
        (v.firstLevel starts interval sharingThreshold) :=
      { searchState hne sharingThreshold with counts := rfl }
    rw [reachChecked, hne, ← exhaustsCount_iff]
    exact hstate.saturateChecked_eq_none_iff hpossible ((Finset.card_filter_le _ _).trans hcard)

/-- Among few nodes no pair needs a walk that long. -/
theorem not_needsLongestWalk {nodes : Finset NodeId} (hstarts : ∀ a ∈ starts, a ∈ nodes)
    (hhop : ∀ a b, b ∈ v.hop a → b ∈ nodes)
    (hfew : interval.least.toNat + nodes.card < UInt32.size) :
    ¬v.NeedsLongestWalk starts interval := by
  rintro ⟨a, ha, b, hwalk, hno⟩
  have hleast : interval.least.toNat ≤ UInt32.size - 1 := by omega
  obtain ⟨k, hk, hlt, hshort⟩ := hwalk.exists_short hhop (hstarts a ha) hleast
  exact hno k hk (by omega) hshort

/-- The hop count of a traversal has a number for every round, and the checked search reaches what
the search does, if and only if there is an upper bound or no pair needs the longest walk that can
be counted; otherwise the count wraps around. In particular it does not where the least number of
hops and the number of nodes together fit in the machine word. -/
theorem hopCount_suffices_iff (v : MatrixView) (starts : List NodeId) (interval : HopInterval)
    (sharingThreshold : Nat) :
    (v.reachChecked starts interval sharingThreshold =
        some (v.reach starts interval sharingThreshold) ↔
      interval.most ≠ none ∨ ¬v.NeedsLongestWalk starts interval) ∧
    (v.reachChecked starts interval sharingThreshold = none ↔
      interval.most = none ∧ v.NeedsLongestWalk starts interval) ∧
    ∀ nodes : Finset NodeId, (∀ a ∈ starts, a ∈ nodes) → (∀ a b, b ∈ v.hop a → b ∈ nodes) →
      interval.least.toNat + nodes.card < UInt32.size →
        v.reachChecked starts interval sharingThreshold =
          some (v.reach starts interval sharingThreshold) := by
  have hfails := v.reachChecked_eq_none_iff starts interval sharingThreshold
  have hsuffices : v.reachChecked starts interval sharingThreshold =
      some (v.reach starts interval sharingThreshold) ↔
        interval.most ≠ none ∨ ¬v.NeedsLongestWalk starts interval := by
    rw [← not_and_or, ← hfails]
    constructor
    · intro hsome
      simp [hsome]
    · exact (v.reachChecked_eq_none_or starts interval sharingThreshold).resolve_left
  refine ⟨hsuffices, hfails, fun nodes hstarts hhop hfew => ?_⟩
  exact hsuffices.2 (Or.inr (not_needsLongestWalk hstarts hhop hfew))

end MatrixView

namespace Graph

variable {g : Graph}

/-- A hop leads to a live node. -/
theorem Sound.mem_liveNodes_of_hop (h : g.Sound) {types : TypeFilter} {direction : Direction}
    (a b : NodeId) (hb : b ∈ (g.view types direction).hop a) : b ∈ g.liveNodes :=
  h.mem_liveNodes_of_linked a b (h.mem_hop.1 hb)

/-- On a node with a loop the hop count suffices from all but the largest number of hops on. -/
theorem hopCount_suffices_on_loop :
    let g := [Mutation.createNode [] [], .createEdge ⟨0⟩ ⟨0⟩ "R" []].foldl Graph.after (.empty {})
    let v := g.view .any .outgoing
    g.Reachable ∧ v.reachChecked [⟨0⟩] ⟨4294967294, none⟩ g.settings.parallelThreshold =
      some (v.reach [⟨0⟩] ⟨4294967294, none⟩ g.settings.parallelThreshold) := by
  intro g v
  have hreach : g.Reachable := .foldl (.empty {}) _
  refine ⟨hreach, ?_⟩
  exact (MatrixView.hopCount_suffices_iff v [⟨0⟩] ⟨4294967294, none⟩ _).2.2 g.liveNodes
    (by decide +kernel) hreach.sound.mem_liveNodes_of_hop (by decide +kernel)

/-- From the largest number of hops on, the hop count does not suffice on a node with a loop, which
can be followed as often as that. -/
theorem hopCount_wraps_on_loop :
    let g := [Mutation.createNode [] [], .createEdge ⟨0⟩ ⟨0⟩ "R" []].foldl Graph.after (.empty {})
    let v := g.view .any .outgoing
    let interval : HopInterval := ⟨4294967295, none⟩
    g.Reachable ∧
      (v.reach [⟨0⟩] interval g.settings.parallelThreshold).contains ⟨0⟩ ⟨0⟩ = true ∧
      v.reachChecked [⟨0⟩] interval g.settings.parallelThreshold = none := by
  intro g v interval
  have hloop : ⟨0⟩ ∈ v.hop ⟨0⟩ := by decide +kernel
  refine ⟨.foldl (.empty {}) _, ?_, ?_⟩
  · rw [(v.reach_holds _ _ _).contains_iff]
    exact ⟨List.mem_singleton_self _, 4294967295, le_rfl, nofun, .loop hloop _⟩
  · rw [v.reachChecked_eq_none_iff]
    refine ⟨rfl, ⟨0⟩, List.mem_singleton_self _, ⟨0⟩, .loop hloop _, fun k hleast hless => ?_⟩
    exact absurd hleast (Nat.not_le_of_lt hless)

/-- In a reachable graph the hop count of a traversal suffices if the least number of hops and the
number of live nodes together fit in the machine word. -/
theorem Reachable.hopCount_suffices (h : g.Reachable) (starts : List NodeId) (t : Traversal)
    (hfew : t.hops.least.toNat + g.nodeCount < UInt32.size) :
    (g.view t.types t.direction).reachChecked (starts.filter g.hasNode) t.hops
      g.settings.parallelThreshold = some (g.traverse starts t) := by
  have hlive (a : NodeId) (ha : a ∈ starts.filter g.hasNode) : a ∈ g.liveNodes :=
    h.sound.mem_liveNodes.2 (List.mem_filter.1 ha).2
  have hno : ¬(g.view t.types t.direction).NeedsLongestWalk (starts.filter g.hasNode) t.hops :=
    MatrixView.not_needsLongestWalk hlive h.sound.mem_liveNodes_of_hop
      (h.sound.card_liveNodes ▸ hfew)
  refine (MatrixView.reachChecked_eq_none_or _ _ _ _).resolve_left fun hnone => ?_
  exact hno ((MatrixView.reachChecked_eq_none_iff _ _ _ _).1 hnone).2

end Graph

end Plexus
