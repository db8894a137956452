import Mathlib.Data.Finset.Prod
import Plexus.Proofs.Relation
import Plexus.Traversal

/-!
# Traversals reach the ends of walks

A walk is a number of steps in a row. The pairs of a level are those that walks of one length
connect; the search keeps all pairs of the levels seen so far, and in its frontier those that the
last level had first. Since a step depends on the end of a pair alone, a pair that is first at its
level comes from one that was first at the level before, so that nothing is lost by following the
frontier only. Every round but the last finds a pair, and there are only so many.
-/

namespace Plexus

/-- A number of steps in a row leads from one node to another. -/
inductive Walk (step : NodeId → NodeId → Prop) : Nat → NodeId → NodeId → Prop where
  | refl (a : NodeId) : Walk step 0 a a
  | snoc {n : Nat} {a b c : NodeId} (h : Walk step n a b) (hstep : step b c) : Walk step (n + 1) a c

namespace Walk

variable {step step' : NodeId → NodeId → Prop} {n : Nat} {a b c : NodeId}

/-- A walk may be begun one step earlier. -/
theorem cons (hstep : step a b) (h : Walk step n b c) : Walk step (n + 1) a c := by
  induction h with
  | refl b => exact (refl a).snoc hstep
  | snoc h hlast ih => exact (ih hstep).snoc hlast

/-- The first step of a walk can be split off. -/
theorem exists_cons (h : Walk step (n + 1) a c) : ∃ b, step a b ∧ Walk step n b c := by
  induction n generalizing c with
  | zero =>
    obtain _ | ⟨h, hstep⟩ := h
    cases h
    exact ⟨c, hstep, refl c⟩
  | succ n ih =>
    obtain _ | ⟨h, hstep⟩ := h
    obtain ⟨b, hab, hrest⟩ := ih h
    exact ⟨b, hab, hrest.snoc hstep⟩

/-- Walks are walked one after the other. -/
theorem append {m : Nat} (h : Walk step m a b) (h' : Walk step n b c) : Walk step (m + n) a c := by
  induction h' with
  | refl b => exact h
  | snoc _ hstep ih => exact (ih h).snoc hstep

/-- A walk can be cut after any number of steps. -/
theorem exists_append {m : Nat} (h : Walk step (m + n) a c) :
    ∃ b, Walk step m a b ∧ Walk step n b c := by
  induction n generalizing c with
  | zero => exact ⟨c, h, refl c⟩
  | succ n ih =>
    obtain _ | ⟨h, hstep⟩ := h
    obtain ⟨b, hab, hrest⟩ := ih h
    exact ⟨b, hab, hrest.snoc hstep⟩

/-- Walks depend on which nodes are joined by a step alone. -/
theorem congr (hsame : ∀ a b, step a b ↔ step' a b) : Walk step n a b ↔ Walk step' n a b := by
  have : step = step' := funext₂ fun a b => propext (hsame a b)
  rw [this]

end Walk

namespace Relation

variable {hop : Hop} {sharingThreshold : Nat} {interval : HopInterval} {r : Relation}
  {base : NodeId → NodeId → Prop}

/-- The pairs that a number of hops leads to from given pairs. -/
def Level (hop : Hop) (base : NodeId → NodeId → Prop) (n : Nat) (a b : NodeId) : Prop :=
  ∃ m, base a m ∧ Walk (fun a b => b ∈ hop a) n m b

theorem level_zero {a b : NodeId} : Level hop base 0 a b ↔ base a b := by
  constructor
  · rintro ⟨m, hm, ⟨⟩⟩
    exact hm
  · exact fun h => ⟨b, h, .refl b⟩

theorem level_succ {n : Nat} {a c : NodeId} :
    Level hop base (n + 1) a c ↔ ∃ b, Level hop base n a b ∧ c ∈ hop b := by
  constructor
  · rintro ⟨m, hm, _ | ⟨hwalk, hstep⟩⟩
    exact ⟨_, ⟨m, hm, hwalk⟩, hstep⟩
  · rintro ⟨b, ⟨m, hm, hwalk⟩, hstep⟩
    exact ⟨m, hm, hwalk.snoc hstep⟩

/-- A pair has its first occurrence at a level. -/
def FirstAt (hop : Hop) (base : NodeId → NodeId → Prop) (n : Nat) (a b : NodeId) : Prop :=
  Level hop base n a b ∧ ∀ i < n, ¬Level hop base i a b

/-- What is first at a level comes by one hop from what is first at the level before. -/
theorem firstAt_succ {n : Nat} {a c : NodeId} :
    FirstAt hop base (n + 1) a c ↔
      (∃ b, FirstAt hop base n a b ∧ c ∈ hop b) ∧ ¬∃ i ≤ n, Level hop base i a c := by
  constructor
  · rintro ⟨hlevel, hfirst⟩
    obtain ⟨b, hb, hstep⟩ := level_succ.1 hlevel
    refine ⟨⟨b, ⟨hb, fun i hi hib => ?_⟩, hstep⟩, fun ⟨i, hi, hic⟩ => hfirst i (by omega) hic⟩
    exact hfirst (i + 1) (by omega) (level_succ.2 ⟨b, hib, hstep⟩)
  · rintro ⟨⟨b, ⟨hb, -⟩, hstep⟩, hnot⟩
    exact ⟨level_succ.2 ⟨b, hb, hstep⟩, fun i hi hic => hnot ⟨i, by omega, hic⟩⟩

/-- Once nothing is first at a level, all pairs of later levels have been seen before it. -/
theorem exists_lt_of_no_firstAt {n : Nat} (hnone : ∀ a b, ¬FirstAt hop base n a b) {k : Nat}
    {a b : NodeId} (h : Level hop base k a b) : ∃ i < n, Level hop base i a b := by
  have hcatch {i : Nat} {a b : NodeId} (hi : i ≤ n) (h : Level hop base i a b) :
      ∃ i < n, Level hop base i a b := by
    rcases Nat.lt_or_eq_of_le hi with hlt | rfl
    · exact ⟨i, hlt, h⟩
    · by_contra hno
      exact hnone a b ⟨h, fun j hj hja => hno ⟨j, hj, hja⟩⟩
  induction k generalizing b with
  | zero => exact hcatch (Nat.zero_le n) h
  | succ k ih =>
    obtain ⟨m, hm, hstep⟩ := level_succ.1 h
    obtain ⟨i, hi, him⟩ := ih hm
    exact hcatch hi (level_succ.2 ⟨m, him, hstep⟩)

/-- Once nothing is first at a level, nothing is first at a later one. -/
theorem not_firstAt_of_le {m n : Nat} (hnone : ∀ a b, ¬FirstAt hop base m a b) (hle : m ≤ n)
    (a b : NodeId) : ¬FirstAt hop base n a b := by
  rintro ⟨hlevel, hfirst⟩
  obtain ⟨i, hi, hseen⟩ := exists_lt_of_no_firstAt hnone hlevel
  exact hfirst i (by omega) hseen

open Classical in
/-- A level that has something new leaves fewer pairs to find. -/
theorem card_unseen_lt {possible : Finset (NodeId × NodeId)}
    (hpossible : ∀ n a b, Level hop base (n + 1) a b → (a, b) ∈ possible) {rounds : Nat}
    (hnew : ∃ a b, FirstAt hop base (rounds + 1) a b) :
    (possible.filter fun x => ∀ i ≤ rounds + 1, ¬Level hop base i x.1 x.2).card <
      (possible.filter fun x => ∀ i ≤ rounds, ¬Level hop base i x.1 x.2).card := by
  obtain ⟨a, b, hfirst⟩ := hnew
  refine Finset.card_lt_card (Finset.ssubset_iff_of_subset ?_ |>.2 ⟨(a, b), ?_, ?_⟩)
  · intro x hx
    obtain ⟨hx₁, hx₂⟩ := Finset.mem_filter.1 hx
    exact Finset.mem_filter.2 ⟨hx₁, fun i hi => hx₂ i (by omega)⟩
  · exact Finset.mem_filter.2 ⟨hpossible _ _ _ hfirst.1, fun i hi => hfirst.2 i (by omega)⟩
  · exact fun hx => (Finset.mem_filter.1 hx).2 (rounds + 1) le_rfl hfirst.1

open Classical in
/-- Once all pairs have been found, the next level has nothing new. -/
theorem not_firstAt_of_card_unseen_eq_zero {possible : Finset (NodeId × NodeId)}
    (hpossible : ∀ n a b, Level hop base (n + 1) a b → (a, b) ∈ possible) {rounds : Nat}
    (hnone : (possible.filter fun x => ∀ i ≤ rounds, ¬Level hop base i x.1 x.2).card = 0)
    (a b : NodeId) : ¬FirstAt hop base (rounds + 1) a b := by
  intro hfirst
  have hmem : (a, b) ∈ possible.filter fun x => ∀ i ≤ rounds, ¬Level hop base i x.1 x.2 :=
    Finset.mem_filter.2 ⟨hpossible _ _ _ hfirst.1, fun i hi => hfirst.2 i (by omega)⟩
  simp [Finset.card_eq_zero.1 hnone] at hmem

/-- Advancing by some hops computes the pairs of that level. -/
theorem Holds.advanceBy (h : r.Holds base) (n : Nat) :
    (r.advanceBy hop sharingThreshold n).Holds (Level hop base n) := by
  induction n generalizing r base with
  | zero => exact h.congr fun a b => level_zero.symm
  | succ n ih =>
    rw [Relation.advanceBy]
    split
    · rename_i hempty
      refine h.congr fun a b => ⟨fun hab => absurd hab (h.isEmpty_iff.1 hempty a b), ?_⟩
      rintro ⟨m, hm, -⟩
      exact absurd hm (h.isEmpty_iff.1 hempty a m)
    · apply (ih (h.compose hop sharingThreshold)).congr
      intro a b
      constructor
      · rintro ⟨m, ⟨l, hl, hstep⟩, hwalk⟩
        exact ⟨l, hl, hwalk.cons hstep⟩
      · rintro ⟨l, hl, hwalk⟩
        obtain ⟨m, hstep, hrest⟩ := hwalk.exists_cons
        exact ⟨m, ⟨l, hl, hstep⟩, hrest⟩

/-- The course of the search without a bound on its rounds: from a hop count, a result and a
frontier it ends with a relation. -/
inductive Saturates (hop : Hop) (sharingThreshold : Nat) (interval : HopInterval) :
    UInt32 → Relation → Relation → Relation → Prop where
  /-- The frontier is empty or no more hops are allowed. -/
  | stop {hops : UInt32} {result frontier : Relation}
      (h : frontier.isEmpty || !interval.allowsMoreThan hops) :
      Saturates hop sharingThreshold interval hops result frontier result
  /-- One more hop leads to nothing new. -/
  | stall {hops : UInt32} {result frontier : Relation}
      (h : ¬(frontier.isEmpty || !interval.allowsMoreThan hops))
      (hnext : ((frontier.compose hop sharingThreshold).difference result).isEmpty) :
      Saturates hop sharingThreshold interval hops result frontier result
  /-- What is new joins the result and is the next frontier. -/
  | round {hops : UInt32} {result frontier next final : Relation}
      (h : ¬(frontier.isEmpty || !interval.allowsMoreThan hops))
      (hnext : (frontier.compose hop sharingThreshold).difference result = next)
      (hne : ¬next.isEmpty)
      (hrest : Saturates hop sharingThreshold interval (hops + 1) (result.union next) next final) :
      Saturates hop sharingThreshold interval hops result frontier final

/-- The state of the search after some rounds. -/
structure SearchState (hop : Hop) (interval : HopInterval) (base : NodeId → NodeId → Prop)
    (rounds : Nat) (hops : UInt32) (result frontier : Relation) : Prop where
  result_holds : result.Holds fun a b => ∃ i ≤ rounds, Level hop base i a b
  frontier_holds : frontier.Holds (FirstAt hop base rounds)
  /-- Under an upper bound the machine word counts the hops; without one it may wrap around. -/
  hops_eq (most : UInt32) : interval.most = some most →
    hops.toNat = interval.least.toNat + rounds ∧ interval.least.toNat + rounds ≤ most.toNat

namespace SearchState

variable {rounds : Nat} {hops : UInt32} {result frontier final : Relation}

/-- What one round finds is first at the next level. -/
theorem next (h : SearchState hop interval base rounds hops result frontier) :
    ((frontier.compose hop sharingThreshold).difference result).Holds
      (FirstAt hop base (rounds + 1)) :=
  ((h.frontier_holds.compose hop sharingThreshold).difference h.result_holds).congr
    fun _ _ => firstAt_succ.symm

private theorem allowsMoreThan_iff {most : UInt32} (hmost : interval.most = some most) :
    interval.allowsMoreThan hops = true ↔ hops.toNat < most.toNat := by
  simp [HopInterval.allowsMoreThan, hmost, UInt32.lt_iff_toNat_lt]

/-- A round keeps the state in order. -/
theorem round (h : SearchState hop interval base rounds hops result frontier)
    (hguard : ¬(frontier.isEmpty || !interval.allowsMoreThan hops)) :
    SearchState hop interval base (rounds + 1) (hops + 1)
      (result.union ((frontier.compose hop sharingThreshold).difference result))
      ((frontier.compose hop sharingThreshold).difference result) where
  result_holds := (h.result_holds.union h.next).congr fun a b => by
    constructor
    · rintro (⟨i, hi, hia⟩ | ⟨hlevel, -⟩)
      · exact ⟨i, by omega, hia⟩
      · exact ⟨rounds + 1, le_rfl, hlevel⟩
    · rintro ⟨i, hi, hia⟩
      by_cases hold : ∃ i ≤ rounds, Level hop base i a b
      · exact Or.inl hold
      · have heq : i = rounds + 1 := by
          by_contra hne
          exact hold ⟨i, by omega, hia⟩
        subst heq
        exact Or.inr ⟨hia, fun j hj hja => hold ⟨j, by omega, hja⟩⟩
  frontier_holds := h.next
  hops_eq most hmost := by
    obtain ⟨heq, hle⟩ := h.hops_eq most hmost
    have hallows : interval.allowsMoreThan hops = true := by
      by_contra hno
      exact hguard (by simp [hno])
    have hlt := (allowsMoreThan_iff hmost).1 hallows
    have hmax := most.toNat_lt
    have hsucc : (hops + 1).toNat = hops.toNat + 1 := by
      rw [UInt32.toNat_add]
      exact Nat.mod_eq_of_lt (by simpa using by omega)
    omega

/-- Whatever is reached within the interval, or would be reached without end, is in the result
once no pair is first at a level that has been looked at. -/
theorem final_holds (h : SearchState hop interval base rounds hops result frontier)
    (hclosed : ∀ k a b, Level hop base k a b →
      (∀ most, interval.most = some most → interval.least.toNat + k ≤ most.toNat) →
        ∃ i ≤ rounds, Level hop base i a b) :
    result.Holds fun a b => ∃ k, Level hop base k a b ∧
      ∀ most, interval.most = some most → interval.least.toNat + k ≤ most.toNat :=
  h.result_holds.congr fun a b => by
    constructor
    · rintro ⟨i, hi, hia⟩
      refine ⟨i, hia, fun most hmost => ?_⟩
      have hle := (h.hops_eq most hmost).2
      omega
    · rintro ⟨k, hk, hbound⟩
      exact hclosed k a b hk hbound

/-- However the search ends, its result is all that the interval allows. -/
theorem saturates (h : SearchState hop interval base rounds hops result frontier)
    (hs : Saturates hop sharingThreshold interval hops result frontier final) :
    final.Holds fun a b => ∃ k, Level hop base k a b ∧
      ∀ most, interval.most = some most → interval.least.toNat + k ≤ most.toNat := by
  induction hs generalizing rounds with
  | @stop hops result frontier hguard =>
    apply h.final_holds
    intro k a b hk hbound
    rcases Bool.or_eq_true_iff.1 hguard with hempty | hno
    · obtain ⟨i, hi, hia⟩ :=
        exists_lt_of_no_firstAt (h.frontier_holds.isEmpty_iff.1 hempty) hk
      exact ⟨i, hi.le, hia⟩
    · obtain ⟨most, hmost⟩ : ∃ most, interval.most = some most := by
        cases hmost : interval.most with
        | none => simp [HopInterval.allowsMoreThan, hmost] at hno
        | some most => exact ⟨most, rfl⟩
      have hge : ¬hops.toNat < most.toNat := by
        rw [← allowsMoreThan_iff hmost]
        simpa using hno
      have heq := (h.hops_eq most hmost).1
      have hk' := hbound most hmost
      exact ⟨k, by omega, hk⟩
  | @stall hops result frontier hguard hnext =>
    apply h.final_holds
    intro k a b hk _
    obtain ⟨i, hi, hia⟩ := exists_lt_of_no_firstAt (h.next.isEmpty_iff.1 hnext) hk
    exact ⟨i, by omega, hia⟩
  | @round hops result frontier next final hguard hnext hne hrest ih =>
    subst hnext
    exact ih (h.round hguard)

open Classical in
/-- The search ends within as many rounds as there are pairs left to find. -/
theorem saturates_saturate (h : SearchState hop interval base rounds hops result frontier)
    {possible : Finset (NodeId × NodeId)}
    (hpossible : ∀ n a b, Level hop base (n + 1) a b → (a, b) ∈ possible) {fuel : Nat}
    (hfuel : (possible.filter fun x => ∀ i ≤ rounds, ¬Level hop base i x.1 x.2).card ≤ fuel) :
    Saturates hop sharingThreshold interval hops result frontier
      (saturate hop sharingThreshold interval fuel hops result frontier) := by
  induction fuel generalizing rounds hops result frontier with
  | zero =>
    rw [saturate]
    by_cases hguard : (frontier.isEmpty || !interval.allowsMoreThan hops) = true
    · exact .stop hguard
    · exact .stall hguard (h.next.isEmpty_iff.2
        (not_firstAt_of_card_unseen_eq_zero hpossible (Nat.le_zero.1 hfuel)))
  | succ fuel ih =>
    rw [saturate]
    split
    · rename_i hguard
      exact .stop hguard
    · rename_i hguard
      dsimp only
      split
      · rename_i hnext
        exact .stall hguard hnext
      · rename_i hnext
        have hnew : ∃ a b, FirstAt hop base (rounds + 1) a b := by
          by_contra hno
          exact hnext (h.next.isEmpty_iff.2 fun a b hab => hno ⟨a, b, hab⟩)
        have hlt := card_unseen_lt hpossible hnew
        exact .round hguard rfl hnext (ih (h.round hguard) (by omega))

end SearchState

end Relation

namespace Cells

/-- There are at least as many cells as columns. -/
theorem exists_columns (t : Cells) :
    ∃ columns : Finset NodeId, columns.card ≤ t.count ∧
      ∀ r k es, (k, es) ∈ t.row r → k ∈ columns := by
  have hcount (rows : List (NodeId × Std.ExtTreeMap NodeId (List EdgeId))) :
      (rows.flatMap fun p => p.2.keys).length = rows.foldr (fun p n => p.2.size + n) 0 := by
    induction rows with
    | nil => rfl
    | cons p rest ih => simp [ih]
  refine ⟨(t.toList.flatMap fun p => p.2.keys).toFinset, ?_, fun r k es hmem => ?_⟩
  · exact (List.toFinset_card_le _).trans_eq (hcount t.toList)
  · rw [List.mem_toFinset, List.mem_flatMap]
    rw [row, Std.ExtTreeMap.getD_eq_getD_getElem?] at hmem
    cases hrow : t[r]? with
    | none => simp [hrow] at hmem
    | some cells =>
      refine ⟨(r, cells), Std.ExtTreeMap.mem_toList_iff_getElem?_eq_some.2 hrow, ?_⟩
      rw [hrow, Option.getD_some, Std.ExtTreeMap.mem_toList_iff_getElem?_eq_some] at hmem
      rw [Std.ExtTreeMap.mem_keys, Std.ExtTreeMap.mem_iff_isSome_getElem?, hmem]
      rfl

end Cells

namespace MatrixView

variable {v : MatrixView} {starts : List NodeId} {interval : HopInterval}

/-- No more nodes than the bound says are the end of a hop. -/
theorem exists_hopEnds (v : MatrixView) :
    ∃ stops : Finset NodeId, stops.card ≤ v.endBound ∧ ∀ a, ∀ b ∈ v.hop a, b ∈ stops := by
  obtain ⟨matrices, direction⟩ := v
  unfold endBound hop
  dsimp only
  induction matrices with
  | nil => exact ⟨∅, by simp, by simp⟩
  | cons m rest ih =>
    obtain ⟨stops, hcard, hstops⟩ := ih
    obtain ⟨targets, htargets, hrow⟩ := m.outgoing.exists_columns
    obtain ⟨sources, hsources, hcolumn⟩ := m.incoming.exists_columns
    refine ⟨((if direction.forward then targets else ∅) ∪
      (if direction.backward then sources else ∅)) ∪ stops, ?_, fun a b hb => ?_⟩
    · refine (Finset.card_union_le _ _).trans (Nat.add_le_add ?_ hcard)
      refine (Finset.card_union_le _ _).trans (Nat.add_le_add ?_ ?_)
      · split
        · exact htargets
        · exact Nat.le_refl 0
      · split
        · exact hsources
        · exact Nat.le_refl 0
    · rw [List.flatMap_cons, List.mem_append, List.mem_append] at hb
      simp only [Finset.mem_union]
      rcases hb with (hb | hb) | hb
      · refine Or.inl (Or.inl ?_)
        split at hb
        · obtain ⟨⟨k, es⟩, hmem, rfl⟩ := List.mem_map.1 hb
          rw [if_pos ‹_›]
          exact hrow _ _ _ hmem
        · cases hb
      · refine Or.inl (Or.inr ?_)
        split at hb
        · obtain ⟨⟨k, es⟩, hmem, rfl⟩ := List.mem_map.1 hb
          rw [if_pos ‹_›]
          exact hcolumn _ _ _ hmem
        · cases hb
      · exact Or.inr (hstops a b hb)

/-- The pairs with which the search begins: those that the least number of hops connects. -/
def firstLevel (v : MatrixView) (starts : List NodeId) (interval : HopInterval)
    (sharingThreshold : Nat) : Relation :=
  (Relation.identity starts).advanceBy v.hop sharingThreshold interval.least.toNat

/-- What a pair of the first level is. -/
def Begins (v : MatrixView) (starts : List NodeId) (interval : HopInterval) (a b : NodeId) : Prop :=
  a ∈ starts ∧ Walk (fun a b => b ∈ v.hop a) interval.least.toNat a b

/-- The first level of a traversal joins the starts with where it begins to collect. -/
theorem firstLevel_holds (v : MatrixView) (starts : List NodeId) (interval : HopInterval)
    (sharingThreshold : Nat) :
    (v.firstLevel starts interval sharingThreshold).Holds (v.Begins starts interval) :=
  ((Relation.Holds.identity starts).advanceBy _).congr fun a b => by
    constructor
    · rintro ⟨m, ⟨ha, rfl⟩, hwalk⟩
      exact ⟨ha, hwalk⟩
    · rintro ⟨ha, hwalk⟩
      exact ⟨a, ⟨ha, rfl⟩, hwalk⟩

/-- Hops beyond the first level lengthen the walks from the starts. -/
theorem level_begins {n : Nat} {a b : NodeId} :
    Relation.Level v.hop (v.Begins starts interval) n a b ↔
      a ∈ starts ∧ Walk (fun a b => b ∈ v.hop a) (interval.least.toNat + n) a b := by
  constructor
  · rintro ⟨m, ⟨ha, hfirst⟩, hrest⟩
    exact ⟨ha, hfirst.append hrest⟩
  · rintro ⟨ha, hwalk⟩
    obtain ⟨m, hfirst, hrest⟩ := hwalk.exists_append
    exact ⟨m, ⟨ha, hfirst⟩, hrest⟩

/-- A search begins at its first level, with nothing looked at before. -/
theorem searchState (hne : interval.isEmpty = false) (sharingThreshold : Nat) :
    Relation.SearchState v.hop interval (v.Begins starts interval) 0 interval.least
      (v.firstLevel starts interval sharingThreshold)
      (v.firstLevel starts interval sharingThreshold) where
  result_holds := (v.firstLevel_holds starts interval sharingThreshold).congr fun a b => by
    simp [Relation.level_zero]
  frontier_holds := (v.firstLevel_holds starts interval sharingThreshold).congr fun a b => by
    simp [Relation.FirstAt, Relation.level_zero]
  hops_eq most hmost := by
    have hle : ¬most < interval.least := by simpa [HopInterval.isEmpty, hmost] using hne
    have hle' : interval.least.toNat ≤ most.toNat := by
      rw [UInt32.lt_iff_toNat_lt] at hle
      omega
    exact ⟨rfl, hle'⟩

/-- The bound on the rounds counts all pairs that can be found after the first level. -/
theorem exists_possible (v : MatrixView) (starts : List NodeId) (interval : HopInterval)
    (sharingThreshold : Nat) :
    ∃ possible : Finset (NodeId × NodeId),
      possible.card ≤ (v.firstLevel starts interval sharingThreshold).rows.size * v.endBound ∧
      ∀ n a b, Relation.Level v.hop (v.Begins starts interval) (n + 1) a b → (a, b) ∈ possible := by
  classical
  obtain ⟨stops, hcard, hstops⟩ := v.exists_hopEnds
  let level := v.firstLevel starts interval sharingThreshold
  refine ⟨level.rows.keys.toFinset ×ˢ stops, ?_, fun n a c hlevel => ?_⟩
  · rw [Finset.card_product]
    refine Nat.mul_le_mul ((List.toFinset_card_le _).trans_eq ?_) hcard
    exact Std.ExtTreeMap.length_keys
  · obtain ⟨b, ⟨m, hm, -⟩, hstep⟩ := Relation.level_succ.1 hlevel
    obtain ⟨row, hrow, -⟩ :=
      (v.firstLevel_holds starts interval sharingThreshold).exists_row hm
    refine Finset.mem_product.2 ⟨?_, hstops b c hstep⟩
    rw [List.mem_toFinset, Std.ExtTreeMap.mem_keys, Std.ExtTreeMap.mem_iff_isSome_getElem?,
      Std.ExtTreeMap.mem_toList_iff_getElem?_eq_some.1 hrow]
    rfl

/-- If any number of hops is allowed, a traversal searches from its first level. -/
theorem reach_of_nonempty (hne : interval.isEmpty = false) (starts : List NodeId)
    (sharingThreshold : Nat) :
    v.reach starts interval sharingThreshold =
      let level := v.firstLevel starts interval sharingThreshold
      level.saturate v.hop sharingThreshold interval (level.rows.size * v.endBound) interval.least
        level := by
  rw [reach, hne]
  rfl

/-- The search from the first level ends, and what it ends with is what is reached. -/
theorem saturates_reach (hne : interval.isEmpty = false) (starts : List NodeId)
    (sharingThreshold : Nat) :
    Relation.Saturates v.hop sharingThreshold interval interval.least
      (v.firstLevel starts interval sharingThreshold)
      (v.firstLevel starts interval sharingThreshold)
      (v.reach starts interval sharingThreshold) := by
  classical
  obtain ⟨possible, hcard, hpossible⟩ := v.exists_possible starts interval sharingThreshold
  rw [reach_of_nonempty hne]
  exact (searchState hne sharingThreshold).saturates_saturate hpossible
    ((Finset.card_filter_le _ _).trans hcard)

/-- What is reached is what walks with a number of steps in the interval lead to. -/
theorem reach_holds (v : MatrixView) (starts : List NodeId) (interval : HopInterval)
    (sharingThreshold : Nat) :
    (v.reach starts interval sharingThreshold).Holds fun a b => a ∈ starts ∧
      ∃ k, interval.least.toNat ≤ k ∧ (∀ most, interval.most = some most → k ≤ most.toNat) ∧
        Walk (fun a b => b ∈ v.hop a) k a b := by
  cases hne : interval.isEmpty with
  | true =>
    rw [reach, hne]
    refine Relation.Holds.empty.congr fun a b => ⟨False.elim, ?_⟩
    rintro ⟨-, k, hleast, hmost, -⟩
    unfold HopInterval.isEmpty at hne
    cases hm : interval.most with
    | none => simp [hm] at hne
    | some most =>
      have hlt : most < interval.least := by simpa [hm] using hne
      rw [UInt32.lt_iff_toNat_lt] at hlt
      have hk := hmost most hm
      omega
  | false =>
    refine ((searchState hne sharingThreshold).saturates
      (saturates_reach hne starts sharingThreshold)).congr fun a b => ?_
    constructor
    · rintro ⟨k, hlevel, hbound⟩
      obtain ⟨ha, hwalk⟩ := level_begins.1 hlevel
      exact ⟨ha, interval.least.toNat + k, by omega, hbound, hwalk⟩
    · rintro ⟨ha, k, hleast, hbound, hwalk⟩
      obtain ⟨j, rfl⟩ := Nat.exists_eq_add_of_le hleast
      exact ⟨j, level_begins.2 ⟨ha, hwalk⟩, hbound⟩

end MatrixView

end Plexus
