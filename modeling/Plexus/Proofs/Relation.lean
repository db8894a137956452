import Plexus.Proofs.Rows
import Plexus.Relation

/-!
# Relations as sets of pairs

What every operation does to the set of pairs of a relation. Composition follows each pair by one
hop, whether or not the rows share a table of hops.
-/

namespace Plexus.Relation

variable {r s : Relation} {P Q : NodeId → NodeId → Prop} {hop : Hop}

/-- The pairs of a relation are those for which a proposition holds. -/
def Holds (r : Relation) (P : NodeId → NodeId → Prop) : Prop := Rows r.rows r.size P

namespace Holds

/-- The empty relation holds no pair. -/
theorem empty : Relation.empty.Holds fun _ _ => False := Rows.empty

/-- What a relation holds may be said in any equivalent way. -/
theorem congr (h : r.Holds P) (hPQ : ∀ a b, P a b ↔ Q a b) : r.Holds Q := Rows.congr h hPQ

/-- A relation contains the pairs that it holds. -/
theorem contains_iff (h : r.Holds P) {a b : NodeId} : r.contains a b = true ↔ P a b := by
  rw [contains, Std.ExtTreeSet.contains_iff_mem]
  exact h.mem_iff a b

/-- A relation is empty if it holds no pair. -/
theorem isEmpty_iff (h : r.Holds P) : r.isEmpty = true ↔ ∀ a b, ¬P a b := by
  rw [isEmpty, decide_eq_true_eq]
  exact h.size_eq_zero_iff

/-- The ends of a node are those that it is related to. -/
theorem mem_ends (h : r.Holds P) {a b : NodeId} : b ∈ r.ends a ↔ P a b := by
  rw [ends, Std.ExtTreeSet.mem_toList]
  exact h.mem_iff a b

/-- A relation is determined by its pairs. -/
theorem unique (h : r.Holds P) (h' : s.Holds P) : r = s := by
  obtain ⟨hrows, hsize⟩ := Rows.unique h h'
  cases r
  cases s
  simp_all

/-- The row of a start holds its ends. -/
theorem mem_rows (h : r.Holds P) {start : NodeId} {row : Std.ExtTreeSet NodeId compare}
    (hmem : (start, row) ∈ r.rows.toList) (n : NodeId) : n ∈ row ↔ P start n := by
  have hrow := Std.ExtTreeMap.mem_toList_iff_getElem?_eq_some.1 hmem
  rw [← h.mem_iff, Std.ExtTreeMap.getD_eq_getD_getElem?, hrow, Option.getD_some]

/-- A row is kept for every start. -/
theorem exists_row (h : r.Holds P) {a b : NodeId} (hab : P a b) :
    ∃ row, (a, row) ∈ r.rows.toList ∧ b ∈ row := by
  have hmem := (h.mem_iff a b).2 hab
  rw [Std.ExtTreeMap.getD_eq_getD_getElem?] at hmem
  cases hrow : r.rows[a]? with
  | none => simp [hrow] at hmem
  | some row =>
    exact ⟨row, Std.ExtTreeMap.mem_toList_iff_getElem?_eq_some.2 hrow, by simpa [hrow] using hmem⟩

/-- The listed pairs are those that the relation holds. -/
theorem mem_pairs (h : r.Holds P) {a b : NodeId} : (a, b) ∈ r.pairs ↔ P a b := by
  simp only [pairs, List.mem_flatMap, List.mem_map, Prod.exists, Prod.mk.injEq]
  constructor
  · rintro ⟨start, row, hrow, n, hn, rfl, rfl⟩
    exact (h.mem_rows hrow n).1 (Std.ExtTreeSet.mem_toList.1 hn)
  · intro hab
    obtain ⟨row, hrow, hb⟩ := h.exists_row hab
    exact ⟨a, row, hrow, b, Std.ExtTreeSet.mem_toList.2 hb, rfl, rfl⟩

/-- Inserting a pair adds this pair to what a relation holds. -/
theorem insert (h : r.Holds P) (start stop : NodeId) :
    (r.insert start stop).Holds fun a b => P a b ∨ a = start ∧ b = stop := by
  unfold Relation.insert
  split
  · rename_i hin
    refine h.congr fun a b => ⟨Or.inl, ?_⟩
    rintro (hab | ⟨rfl, rfl⟩)
    · exact hab
    · exact h.contains_iff.1 hin
  · rename_i hnew
    exact Rows.insert h fun hP => hnew (h.contains_iff.2 hP)

/-- Inserting pairs one after the other adds all of them. -/
theorem insertAll (h : r.Holds P) (pairs : List (NodeId × NodeId)) :
    (pairs.foldl (fun r p => r.insert p.1 p.2) r).Holds fun a b => P a b ∨ (a, b) ∈ pairs := by
  induction pairs generalizing r P with
  | nil => exact h.congr fun a b => by simp
  | cons p rest ih =>
    rw [List.foldl_cons]
    apply (ih (h.insert p.1 p.2)).congr
    intro a b
    rw [List.mem_cons, Prod.ext_iff, or_assoc]

/-- The relation of some pairs holds exactly these. -/
theorem ofPairs (pairs : List (NodeId × NodeId)) :
    (Relation.ofPairs pairs).Holds fun a b => (a, b) ∈ pairs :=
  (empty.insertAll pairs).congr fun _ _ => by rw [false_or]

/-- The identity on some nodes relates each of them to itself. -/
theorem identity (nodes : List NodeId) :
    (Relation.identity nodes).Holds fun a b => a ∈ nodes ∧ a = b := by
  refine (ofPairs _).congr ?_
  intro a b
  simp only [List.mem_map, Prod.mk.injEq]
  constructor
  · rintro ⟨n, hn, rfl, rfl⟩
    exact ⟨hn, rfl⟩
  · rintro ⟨ha, rfl⟩
    exact ⟨a, ha, rfl, rfl⟩

/-- A union holds what either relation does. -/
theorem union (h : r.Holds P) (h' : s.Holds Q) : (r.union s).Holds fun a b => P a b ∨ Q a b :=
  (h.insertAll s.pairs).congr fun _ _ => or_congr_right h'.mem_pairs

/-- A difference holds what the first relation does and the second does not. -/
theorem difference (h : r.Holds P) (h' : s.Holds Q) :
    (r.difference s).Holds fun a b => P a b ∧ ¬Q a b := by
  refine (ofPairs _).congr ?_
  intro a b
  rw [List.mem_filter, h.mem_pairs, Bool.not_eq_true', ← Bool.not_eq_true, h'.contains_iff]

end Holds

/-- One hop on from some nodes are those that a hop leads to from one of them. -/
theorem mem_advance (hop : Hop) (nodes : List NodeId) (b : NodeId) :
    b ∈ advance hop nodes ↔ ∃ m ∈ nodes, b ∈ hop m := by
  have hfold (acc : Std.ExtTreeSet NodeId) :
      b ∈ nodes.foldl (fun acc n => acc.insertMany (hop n)) acc ↔
        b ∈ acc ∨ ∃ m ∈ nodes, b ∈ hop m := by
    induction nodes generalizing acc with
    | nil => simp
    | cons m rest ih =>
      rw [List.foldl_cons, ih, Std.ExtTreeSet.mem_insertMany_list]
      simp [or_assoc]
  simpa [advance] using hfold ∅

/-- A table that holds the hops of some nodes and nothing else. -/
private def Tabulates (t : Std.ExtTreeMap NodeId (List NodeId)) (hop : Hop) (P : NodeId → Prop) :
    Prop :=
  (∀ n, n ∈ t ↔ P n) ∧ ∀ n hops, t[n]? = some hops → hops = hop n

private theorem tabulates_row {t : Std.ExtTreeMap NodeId (List NodeId)} {T : NodeId → Prop}
    (ht : Tabulates t hop T) (nodes : List NodeId) :
    Tabulates (nodes.foldl (fun t n => if t.contains n then t else t.insert n (hop n)) t) hop
      fun n => T n ∨ n ∈ nodes := by
  induction nodes generalizing t T with
  | nil => simpa using ht
  | cons k rest ih =>
    have hstep : Tabulates (if t.contains k then t else t.insert k (hop k)) hop
        fun n => T n ∨ n = k := by
      split
      · rename_i hin
        refine ⟨fun n => (ht.1 n).trans ⟨Or.inl, ?_⟩, ht.2⟩
        rintro (hn | rfl)
        · exact hn
        · exact (ht.1 n).1 (Std.ExtTreeMap.contains_iff_mem.1 hin)
      · refine ⟨fun n => ?_, fun n hops hn => ?_⟩
        · rw [Std.ExtTreeMap.mem_insert, Std.LawfulEqCmp.compare_eq_iff_eq, ht.1 n, or_comm,
            eq_comm (a := k)]
        · rw [Std.ExtTreeMap.getElem?_insert] at hn
          split at hn
          · rename_i hk
            rw [Std.LawfulEqCmp.compare_eq_iff_eq] at hk
            rw [← hk]
            exact (Option.some.inj hn).symm
          · exact ht.2 n hops hn
    rw [List.foldl_cons]
    simpa only [List.mem_cons, or_assoc] using ih hstep

private theorem tabulates_rows {t : Std.ExtTreeMap NodeId (List NodeId)} {T : NodeId → Prop}
    (ht : Tabulates t hop T) (rows : List (NodeId × Std.ExtTreeSet NodeId)) :
    Tabulates (rows.foldl (fun table (_, row) => row.toList.foldl
      (fun t n => if t.contains n then t else t.insert n (hop n)) table) t) hop
        fun n => T n ∨ ∃ p ∈ rows, n ∈ p.2 := by
  induction rows generalizing t T with
  | nil => simpa using ht
  | cons p rest ih =>
    rw [List.foldl_cons]
    have hrest := ih (tabulates_row ht p.2.toList)
    simpa only [Std.ExtTreeSet.mem_toList, List.mem_cons, or_and_right, exists_or, exists_eq_left,
      or_assoc] using hrest

/-- The shared table holds the hops of every end. -/
theorem Holds.getD_hopTable (h : r.Holds P) (hop : Hop) {a m : NodeId} (ham : P a m) :
    (r.hopTable hop).getD m [] = hop m := by
  have hnil : Tabulates ∅ hop fun _ => False :=
    ⟨fun n => by simp, fun n hops hn => by simp at hn⟩
  have htable := tabulates_rows hnil r.rows.toList
  obtain ⟨row, hmem, hm⟩ := h.exists_row ham
  have hin := (htable.1 m).2 (Or.inr ⟨_, hmem, hm⟩)
  obtain ⟨hops, hget⟩ := Option.isSome_iff_exists.1 (Std.ExtTreeMap.mem_iff_isSome_getElem?.1 hin)
  rw [Std.ExtTreeMap.getD_eq_getD_getElem?, hopTable, hget, Option.getD_some]
  exact htable.2 m hops hget

private theorem ofRows_holds (rows : List (NodeId × Std.ExtTreeSet NodeId))
    (hrows : (rows.map Prod.fst).Nodup) :
    (ofRows rows).Holds fun a b => ∃ row, (a, row) ∈ rows ∧ b ∈ row := by
  have hfold (rows : List (NodeId × Std.ExtTreeSet NodeId)) (hrows : (rows.map Prod.fst).Nodup)
      (r : Relation) (P : NodeId → NodeId → Prop) (h : r.Holds P)
      (hfresh : ∀ p ∈ rows, ∀ n, ¬P p.1 n) :
      (rows.foldl (fun r (start, row) =>
        if row.isEmpty then r else ⟨r.rows.insert start row, r.size + row.size⟩) r).Holds
          fun a b => P a b ∨ ∃ row, (a, row) ∈ rows ∧ b ∈ row := by
    induction rows generalizing r P with
    | nil => exact h.congr fun a b => by simp
    | cons p rest ih =>
      obtain ⟨start, row⟩ := p
      obtain ⟨hstart, hrest⟩ := List.nodup_cons.1 hrows
      have hfirst : Relation.Holds
          (if row.isEmpty then r else ⟨r.rows.insert start row, r.size + row.size⟩)
            fun a b => P a b ∨ a = start ∧ b ∈ row := by
        split
        · rename_i hempty
          rw [Std.ExtTreeSet.isEmpty_iff] at hempty
          exact h.congr fun a b => by simp [hempty]
        · rename_i hne
          exact Rows.insertRow h (hfresh _ List.mem_cons_self)
            fun he => hne (Std.ExtTreeSet.isEmpty_iff.2 he)
      rw [List.foldl_cons]
      refine (ih hrest _ _ hfirst ?_).congr ?_
      · rintro q hq n (hP | ⟨rfl, -⟩)
        · exact hfresh q (List.mem_cons_of_mem _ hq) n hP
        · exact hstart (List.mem_map.2 ⟨q, hq, rfl⟩)
      · intro a b
        simp only [List.mem_cons, Prod.mk.injEq, or_and_right, exists_or, or_assoc]
        refine or_congr_right (or_congr_left ?_)
        constructor
        · rintro ⟨rfl, hb⟩
          exact ⟨row, ⟨rfl, rfl⟩, hb⟩
        · rintro ⟨_, ⟨rfl, rfl⟩, hb⟩
          exact ⟨rfl, hb⟩
  exact (hfold rows hrows .empty _ Holds.empty fun _ _ _ => id).congr fun _ _ => by rw [false_or]

/-- Composition follows every pair by one hop, above the threshold and below it. -/
theorem Holds.compose (h : r.Holds P) (hop : Hop) (sharingThreshold : Nat) :
    (r.compose hop sharingThreshold).Holds fun a b => ∃ m, P a m ∧ b ∈ hop m := by
  have hnodup (f : Std.ExtTreeSet NodeId → Std.ExtTreeSet NodeId) :
      ((r.rows.toList.map fun p => (p.1, f p.2)).map Prod.fst).Nodup := by
    rw [List.map_map]
    exact (List.pairwise_map.2 (r.rows.distinct_keys_toList.imp fun hne e => hne (by simp_all)))
  have hmain (hop' : Hop) (hhop : ∀ a m, P a m → hop' m = hop m) :
      (ofRows (r.rows.toList.map fun p => (p.1, advance hop' p.2.toList))).Holds
        fun a b => ∃ m, P a m ∧ b ∈ hop m := by
    refine (ofRows_holds _ (hnodup fun row => advance hop' row.toList)).congr ?_
    intro a b
    simp only [List.mem_map, Prod.exists, Prod.mk.injEq]
    constructor
    · rintro ⟨_, ⟨start, row, hrow, rfl, rfl⟩, hb⟩
      obtain ⟨m, hm, hbm⟩ := (mem_advance hop' _ b).1 hb
      have ham := (h.mem_rows hrow m).1 (Std.ExtTreeSet.mem_toList.1 hm)
      exact ⟨m, ham, hhop _ m ham ▸ hbm⟩
    · rintro ⟨m, ham, hb⟩
      obtain ⟨row, hrow, hm⟩ := h.exists_row ham
      refine ⟨_, ⟨a, row, hrow, rfl, rfl⟩, (mem_advance hop' _ b).2 ⟨m, ?_, ?_⟩⟩
      · exact Std.ExtTreeSet.mem_toList.2 hm
      · rw [hhop a m ham]
        exact hb
  unfold Relation.compose
  dsimp only
  split
  · exact hmain _ fun a m ham => h.getD_hopTable hop ham
  · exact hmain _ fun _ _ _ => rfl

end Plexus.Relation
