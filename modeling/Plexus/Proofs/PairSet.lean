import Mathlib.Data.Finset.Card
import Plexus.Proofs.Relation

/-!
# Relations are finite sets of pairs

Whatever operations a relation comes of, its rows are those of its set of pairs, none is empty, and
the pairs are counted. So relations with the same pairs are equal, and the operations are those on
sets.
-/

namespace Plexus.Relation

variable {r s : Relation} {P : NodeId → NodeId → Prop}

/-- The set of pairs of a relation. -/
def pairSet (r : Relation) : Finset (NodeId × NodeId) := r.pairs.toFinset

/-- No pair is listed twice. -/
theorem nodup_pairs (r : Relation) : r.pairs.Nodup := by
  rw [pairs, List.nodup_flatMap]
  constructor
  · rintro ⟨start, row⟩ -
    have hrow : row.toList.Nodup := row.distinct_toList.imp fun hne e => hne (by simp [e])
    exact hrow.map fun a b hab => (Prod.mk.inj hab).2
  · -- rows of different starts have no pair in common
    refine r.rows.distinct_keys_toList.imp fun {p q} hne => ?_
    intro x hp hq
    obtain ⟨a, -, rfl⟩ := List.mem_map.1 hp
    obtain ⟨b, -, hb⟩ := List.mem_map.1 hq
    have hstart : q.1 = p.1 := (Prod.mk.inj hb).1
    exact hne (by rw [hstart]; exact Std.ReflCmp.compare_self)

namespace Holds

/-- The transpose of a relation relates its pairs the other way round. -/
theorem transpose (h : r.Holds P) : r.transpose.Holds fun a b => P b a := by
  refine (ofPairs _).congr fun a b => ?_
  rw [← h.mem_pairs, List.mem_map]
  constructor
  · rintro ⟨⟨c, d⟩, hp, hswap⟩
    obtain ⟨rfl, rfl⟩ := Prod.mk.inj hswap
    exact hp
  · intro hp
    exact ⟨(b, a), hp, rfl⟩

/-- The set of pairs holds the pairs that the relation relates. -/
theorem mem_pairSet (h : r.Holds P) {a b : NodeId} : (a, b) ∈ r.pairSet ↔ P a b := by
  rw [pairSet, List.mem_toFinset, h.mem_pairs]

/-- A relation of pairs has no others than those in its set. -/
theorem of_pairSet (h : r.Holds P) : r.Holds fun a b => (a, b) ∈ r.pairSet :=
  h.congr fun _ _ => h.mem_pairSet.symm

/-- The size of a relation is the number of its pairs. -/
theorem size_eq_card (h : r.Holds P) : r.size = r.pairSet.card := by
  obtain ⟨S, hS, hSP⟩ := h.counted
  have hset : S = r.pairSet := by
    ext ⟨a, b⟩
    rw [hSP, h.mem_pairSet]
  rw [← hset, hS]

end Holds

/-- The relations that the operations lead to. -/
inductive Built : Relation → Prop where
  | empty : Built empty
  | insert {r : Relation} (h : Built r) (start stop : NodeId) : Built (r.insert start stop)
  | identity (nodes : List NodeId) : Built (identity nodes)
  | ofPairs (pairs : List (NodeId × NodeId)) : Built (ofPairs pairs)
  | absorb {r s : Relation} (h : Built r) (h' : Built s) : Built (r.absorb s).1
  | difference {r s : Relation} (h : Built r) (h' : Built s) : Built (r.difference s)
  | transpose {r : Relation} (h : Built r) : Built r.transpose
  | compose {r : Relation} (h : Built r) (hop : Hop) (sharingThreshold : Nat) :
    Built (r.compose hop sharingThreshold)

/-- Every operation keeps the rows those of a set of pairs, and the pairs counted. -/
theorem Built.holds (h : r.Built) : r.Holds fun a b => (a, b) ∈ r.pairSet := by
  induction h with
  | empty => exact Holds.empty.of_pairSet
  | insert _ start stop ih => exact (ih.insert start stop).of_pairSet
  | identity nodes => exact (Holds.identity nodes).of_pairSet
  | ofPairs pairs => exact (Holds.ofPairs pairs).of_pairSet
  | absorb _ _ ih ih' => exact (ih.union ih').of_pairSet
  | difference _ _ ih ih' => exact (ih.difference ih').of_pairSet
  | transpose _ ih => exact ih.transpose.of_pairSet
  | compose _ hop sharingThreshold ih => exact (ih.compose hop sharingThreshold).of_pairSet

/-- The pairs are listed once each and counted, and no row is empty. -/
structure Canonical (r : Relation) : Prop where
  pairs_nodup : r.pairs.Nodup
  size_eq : r.size = r.pairs.length
  row_ne (start : NodeId) : r.rows[start]? ≠ some ∅
  contains_iff (a b : NodeId) : r.contains a b = true ↔ (a, b) ∈ r.pairSet

/-- Every relation that is built by the operations is in its one form. -/
theorem Built.canonical (h : r.Built) : r.Canonical where
  pairs_nodup := r.nodup_pairs
  size_eq := by
    rw [h.holds.size_eq_card, pairSet, List.toFinset_card_of_nodup r.nodup_pairs]
  row_ne := h.holds.row_ne
  contains_iff _ _ := h.holds.contains_iff

/-- What operations lead to is in canonical form, so two relations are equal exactly if they have
the same pairs. Composing, taking the difference and turning around are the operations on sets of
pairs, and absorbing a relation joins its pairs and tells how many were new. -/
theorem Built.set_algebra (h : r.Built) (h' : s.Built) (hop : Hop) (sharingThreshold : Nat) :
    r.Canonical ∧ (r = s ↔ r.pairSet = s.pairSet) ∧
      (∀ a b, (a, b) ∈ (r.compose hop sharingThreshold).pairSet ↔
        ∃ m, (a, m) ∈ r.pairSet ∧ b ∈ hop m) ∧
      (r.difference s).pairSet = r.pairSet \ s.pairSet ∧
      r.transpose.pairSet = r.pairSet.image Prod.swap ∧
      (r.absorb s).1.pairSet = r.pairSet ∪ s.pairSet ∧
      (r.absorb s).2 = (s.pairSet \ r.pairSet).card := by
  have hunion := h.holds.union h'.holds
  have hjoined : (r.union s).pairSet = r.pairSet ∪ s.pairSet := by
    ext ⟨a, b⟩
    rw [hunion.mem_pairSet, Finset.mem_union]
  refine ⟨h.canonical, ⟨fun he => he ▸ rfl, fun he => ?_⟩, fun a b => ?_, ?_, ?_, hjoined, ?_⟩
  · exact h.holds.unique (he ▸ h'.holds)
  · exact (h.holds.compose hop sharingThreshold).mem_pairSet
  · ext ⟨a, b⟩
    rw [(h.holds.difference h'.holds).mem_pairSet, Finset.mem_sdiff]
  · ext ⟨a, b⟩
    rw [h.holds.transpose.mem_pairSet, Finset.mem_image]
    constructor
    · intro hp
      exact ⟨(b, a), hp, rfl⟩
    · rintro ⟨⟨c, d⟩, hp, hswap⟩
      obtain ⟨rfl, rfl⟩ := Prod.mk.inj hswap
      exact hp
  · have hcard := Finset.card_sdiff_add_card s.pairSet r.pairSet
    rw [Finset.union_comm, ← hjoined, ← hunion.size_eq_card, ← h.holds.size_eq_card] at hcard
    change (r.union s).size - r.size = _
    omega

/-- A loop that is new and an edge that is not are absorbed into a path. -/
theorem set_algebra_of_path :
    let r := ofPairs [(⟨0⟩, ⟨1⟩), (⟨1⟩, ⟨2⟩)]
    let s := (identity [⟨1⟩]).insert ⟨1⟩ ⟨2⟩
    r.Built ∧ s.Built ∧ r ≠ s ∧ (⟨0⟩, ⟨2⟩) ∈ (r.compose s.hop 1).pairSet ∧ (r.absorb s).2 = 1 := by
  intro r s
  have hr : r.Built := .ofPairs _
  have hs : s.Built := .insert (.identity _) _ _
  obtain ⟨-, heq, hcompose, -, -, -, hnew⟩ := hr.set_algebra hs s.hop 1
  refine ⟨hr, hs, ?_, ?_, ?_⟩
  · rw [ne_eq, heq]
    decide +kernel
  · rw [hcompose]
    exact ⟨⟨1⟩, by decide +kernel, by decide +kernel⟩
  · rw [hnew]
    decide +kernel

end Plexus.Relation
