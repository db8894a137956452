import Mathlib.Data.Finset.Card
import Mathlib.Data.Finset.Image
import Plexus.Identifier

/-!
# Sets of nodes by key

A table that keeps a set of nodes for each key, with the number of its pairs beside it, stands
for a relation between keys and nodes. Adding a pair, taking one away and adding a whole row
change the relation accordingly, and the relation determines the table.
-/

namespace Plexus

variable {κ : Type} [Ord κ] [Std.TransOrd κ]

/-- The pairs of a table are those of a relation; no key is kept without a node, and the pairs
are counted. -/
structure Rows (rows : Std.ExtTreeMap κ (Std.ExtTreeSet NodeId)) (size : Nat)
    (P : κ → NodeId → Prop) : Prop where
  mem_iff (key : κ) (node : NodeId) : node ∈ rows.getD key ∅ ↔ P key node
  row_ne (key : κ) : rows[key]? ≠ some ∅
  counted : ∃ S : Finset (κ × NodeId), S.card = size ∧ ∀ x, x ∈ S ↔ P x.1 x.2

namespace Rows

variable {rows more : Std.ExtTreeMap κ (Std.ExtTreeSet NodeId)} {size extra : Nat}
  {P Q : κ → NodeId → Prop}

/-- What rows hold may be said in any equivalent way. -/
theorem congr (h : Rows rows size P) (hPQ : ∀ k n, P k n ↔ Q k n) : Rows rows size Q := by
  have : P = Q := funext₂ fun k n => propext (hPQ k n)
  exact this ▸ h

/-- No rows hold nothing. -/
theorem empty : Rows (∅ : Std.ExtTreeMap κ (Std.ExtTreeSet NodeId)) 0 fun _ _ => False where
  mem_iff key node := by simp
  row_ne key := by simp
  counted := ⟨∅, rfl, by simp⟩

/-- The table is empty exactly if no pair is counted. -/
theorem size_eq_zero_iff (h : Rows rows size P) : size = 0 ↔ ∀ k n, ¬P k n := by
  obtain ⟨S, hS, hSP⟩ := h.counted
  rw [← hS, Finset.card_eq_zero, Finset.eq_empty_iff_forall_notMem]
  constructor
  · intro hall k n hkn
    exact hall (k, n) ((hSP _).2 hkn)
  · intro hall x hx
    exact hall x.1 x.2 ((hSP x).1 hx)

variable [Std.LawfulEqOrd κ]

/-- The relation determines the table and the number of pairs. -/
theorem unique (h : Rows rows size P) (h' : Rows more extra P) : rows = more ∧ size = extra := by
  constructor
  · apply Std.ExtTreeMap.ext_getElem?
    intro key
    have hk : rows.getD key ∅ = more.getD key ∅ :=
      Std.ExtTreeSet.ext_mem fun node => by rw [h.mem_iff, h'.mem_iff]
    rw [Std.ExtTreeMap.getD_eq_getD_getElem?, Std.ExtTreeMap.getD_eq_getD_getElem?] at hk
    have hr := h.row_ne key
    have hm := h'.row_ne key
    cases hrk : rows[key]? with
    | none =>
      cases hmk : more[key]? with
      | none => rfl
      | some s =>
        simp only [hrk, hmk, Option.getD_none, Option.getD_some] at hk
        exact absurd (hk ▸ hmk) hm
    | some s =>
      cases hmk : more[key]? with
      | none =>
        simp only [hrk, hmk, Option.getD_none, Option.getD_some] at hk
        exact absurd (hk ▸ hrk) hr
      | some t =>
        simp only [hrk, hmk, Option.getD_some] at hk
        rw [hk]
  · obtain ⟨S, hS, hSP⟩ := h.counted
    obtain ⟨T, hT, hTP⟩ := h'.counted
    have hST : S = T := Finset.ext fun x => by rw [hSP, hTP]
    rw [← hS, ← hT, hST]

variable [DecidableEq κ]

private theorem getD_insert (key k : κ) (s : Std.ExtTreeSet NodeId) :
    (rows.insert key s).getD k ∅ = if key = k then s else rows.getD k ∅ := by
  simp [Std.ExtTreeMap.getD_insert]

/-- A pair that is new is added. -/
theorem insert (h : Rows rows size P) {key : κ} {node : NodeId} (hnew : ¬P key node) :
    Rows (rows.insert key ((rows.getD key ∅).insert node)) (size + 1)
      fun k n => P k n ∨ k = key ∧ n = node where
  mem_iff k n := by
    rw [getD_insert]
    split
    · rename_i hk
      subst hk
      simp only [Std.ExtTreeSet.mem_insert, Std.LawfulEqCmp.compare_eq_iff_eq, h.mem_iff, true_and]
      rw [or_comm, eq_comm (a := node)]
    · rename_i hk
      have hk' : ¬k = key := fun e => hk e.symm
      simp [h.mem_iff, hk']
  row_ne k := by
    rw [Std.ExtTreeMap.getElem?_insert]
    split
    · simp [Std.ExtTreeSet.insert_ne_empty]
    · exact h.row_ne k
  counted := by
    obtain ⟨S, hS, hSP⟩ := h.counted
    refine ⟨Insert.insert (key, node) S, ?_, ?_⟩
    · rw [Finset.card_insert_of_notMem fun hmem => hnew ((hSP _).1 hmem), hS]
    · rintro ⟨k, n⟩
      simp only [Finset.mem_insert, Prod.mk.injEq, hSP]
      rw [or_comm]

/-- A pair that is there is taken away, and the row with its last node. -/
theorem erase (h : Rows rows size P) {key : κ} {node : NodeId} (hold : P key node) :
    Rows (if ((rows.getD key ∅).erase node).isEmpty then rows.erase key
      else rows.insert key ((rows.getD key ∅).erase node)) (size - 1)
      fun k n => P k n ∧ ¬(k = key ∧ n = node) where
  mem_iff k n := by
    have hrow : (if ((rows.getD key ∅).erase node).isEmpty then rows.erase key
        else rows.insert key ((rows.getD key ∅).erase node)).getD k ∅ =
          if key = k then (rows.getD key ∅).erase node else rows.getD k ∅ := by
      split
      · rename_i hempty
        rw [Std.ExtTreeSet.isEmpty_iff] at hempty
        rw [hempty]
        simp [Std.ExtTreeMap.getD_erase]
      · exact getD_insert key k _
    rw [hrow]
    split
    · rename_i hk
      subst hk
      simp only [Std.ExtTreeSet.mem_erase, ne_eq, Std.LawfulEqCmp.compare_eq_iff_eq, h.mem_iff,
        true_and]
      rw [and_comm, eq_comm (a := node)]
    · rename_i hk
      have hk' : ¬k = key := fun e => hk e.symm
      simp [h.mem_iff, hk']
  row_ne k := by
    split
    · rw [Std.ExtTreeMap.getElem?_erase]
      split
      · simp
      · exact h.row_ne k
    · rename_i hne
      rw [Std.ExtTreeMap.getElem?_insert]
      split
      · simpa [Std.ExtTreeSet.isEmpty_iff] using hne
      · exact h.row_ne k
  counted := by
    obtain ⟨S, hS, hSP⟩ := h.counted
    refine ⟨S.erase (key, node), ?_, ?_⟩
    · rw [Finset.card_erase_of_mem ((hSP _).2 hold), hS]
    · rintro ⟨k, n⟩
      simp only [Finset.mem_erase, ne_eq, Prod.mk.injEq, hSP]
      rw [and_comm]

/-- A whole row is added under a new key. -/
theorem insertRow (h : Rows rows size P) {key : κ} {row : Std.ExtTreeSet NodeId}
    (hnew : ∀ n, ¬P key n) (hrow : row ≠ ∅) :
    Rows (rows.insert key row) (size + row.size) fun k n => P k n ∨ k = key ∧ n ∈ row where
  mem_iff k n := by
    rw [getD_insert]
    split
    · rename_i hk
      subst hk
      simp [hnew]
    · rename_i hk
      have hk' : ¬k = key := fun e => hk e.symm
      simp [h.mem_iff, hk']
  row_ne k := by
    rw [Std.ExtTreeMap.getElem?_insert]
    split
    · simpa using hrow
    · exact h.row_ne k
  counted := by
    obtain ⟨S, hS, hSP⟩ := h.counted
    have hnodup : row.toList.Nodup := row.distinct_toList.imp fun hne e => hne (by simp [e])
    refine ⟨S ∪ row.toList.toFinset.image (Prod.mk key), ?_, ?_⟩
    · rw [Finset.card_union_of_disjoint,
        Finset.card_image_of_injective _ (Prod.mk_right_injective key),
        List.toFinset_card_of_nodup hnodup, Std.ExtTreeSet.length_toList, hS]
      rw [Finset.disjoint_left]
      intro x hx hx'
      obtain ⟨n, -, rfl⟩ := Finset.mem_image.1 hx'
      exact hnew n ((hSP _).1 hx)
    · rintro ⟨k, n⟩
      simp only [Finset.mem_union, hSP, Finset.mem_image, List.mem_toFinset,
        Std.ExtTreeSet.mem_toList, Prod.mk.injEq]
      constructor
      · rintro (hP | ⟨m, hm, rfl, rfl⟩)
        · exact Or.inl hP
        · exact Or.inr ⟨rfl, hm⟩
      · rintro (hP | ⟨rfl, hn⟩)
        · exact Or.inl hP
        · exact Or.inr ⟨n, hn, rfl, rfl⟩

end Rows

end Plexus
