import Mathlib.Algebra.BigOperators.Group.Finset.Basic
import Plexus.Proofs.Matrix

/-!
# Matrices are two mirrored tables

Edges are put into a matrix and taken out again in any order, with identifiers that repeat, that
stand between several pairs of nodes, or that were never put in. Both tables then hold for every
pair what was put in and not taken out, and nothing empty, and the number kept beside them is the
total length of the cells of either.
-/

namespace Plexus

section Sums

variable {κ β : Type} [Ord κ] [Std.TransOrd κ] [Std.LawfulEqOrd κ]

/-- A weight of every value of a map, summed up. -/
def valueSum (weight : β → Nat) (t : Std.ExtTreeMap κ β) : Nat :=
  t.toList.foldr (fun p n => weight p.2 + n) 0

variable [DecidableEq κ] {absent : β}

/-- If an absent value weighs nothing, the sum may run over any keys that include those of the
map. -/
theorem valueSum_eq_sum (weight : β → Nat) (h : weight absent = 0) (t : Std.ExtTreeMap κ β)
    {S : Finset κ} (hS : ∀ k ∈ t, k ∈ S) :
    valueSum weight t = ∑ k ∈ S, weight (t.getD k absent) := by
  have hkeys : valueSum weight t = (t.keys.map fun k => weight (t.getD k absent)).sum := by
    have hvalues : t.toList.map (fun p => weight p.2) =
        t.keys.map fun k => weight (t.getD k absent) := by
      rw [← Std.ExtTreeMap.map_fst_toList_eq_keys, List.map_map]
      apply List.map_congr_left
      intro p hp
      have hget := Std.ExtTreeMap.mem_toList_iff_getElem?_eq_some.1 hp
      simp only [Function.comp_apply, Std.ExtTreeMap.getD_eq_getD_getElem?, hget, Option.getD_some]
    rw [← hvalues, List.sum_eq_foldr, List.foldr_map]
    rfl
  rw [hkeys, ← List.sum_toFinset _ t.nodup_keys]
  apply Finset.sum_subset
  · intro k hk
    exact hS k (Std.ExtTreeMap.mem_keys.1 (List.mem_toFinset.1 hk))
  · intro k _ hk
    have hnone : k ∉ t := fun hin => hk (List.mem_toFinset.2 (Std.ExtTreeMap.mem_keys.2 hin))
    rw [Std.ExtTreeMap.getD_eq_fallback hnone, h]

/-- Maps whose values weigh the same at all keys but one have sums that differ by that key. -/
theorem valueSum_add (weight : β → Nat) (h : weight absent = 0) (t u : Std.ExtTreeMap κ β) (k : κ)
    (hother : ∀ j, j ≠ k → weight (u.getD j absent) = weight (t.getD j absent)) :
    valueSum weight u + weight (t.getD k absent) =
      valueSum weight t + weight (u.getD k absent) := by
  have hsum (v : Std.ExtTreeMap κ β) (hv : ∀ j ∈ v, j ∈ t.keys ∨ j ∈ u.keys) :
      valueSum weight v = weight (v.getD k absent) +
        ∑ j ∈ ((t.keys ++ u.keys).toFinset.erase k), weight (v.getD j absent) := by
    rw [valueSum_eq_sum weight h v (S := insert k (t.keys ++ u.keys).toFinset),
      ← Finset.add_sum_erase _ _ (Finset.mem_insert_self k _), Finset.erase_insert_eq_erase]
    intro j hj
    exact Finset.mem_insert_of_mem (List.mem_toFinset.2 (List.mem_append.2 (hv j hj)))
  have hrest : ∑ j ∈ ((t.keys ++ u.keys).toFinset.erase k), weight (u.getD j absent) =
      ∑ j ∈ ((t.keys ++ u.keys).toFinset.erase k), weight (t.getD j absent) :=
    Finset.sum_congr rfl fun j hj => hother j (Finset.ne_of_mem_erase hj)
  rw [hsum t fun j hj => .inl (Std.ExtTreeMap.mem_keys.2 hj),
    hsum u fun j hj => .inr (Std.ExtTreeMap.mem_keys.2 hj), hrest]
  omega

end Sums

namespace Cells

variable {t u : Cells} {r k : NodeId} {e : EdgeId}

/-- How many entries a row has in its cells. -/
def rowTotal (row : Std.ExtTreeMap NodeId (List EdgeId)) : Nat := valueSum List.length row

theorem rowTotal_empty : rowTotal ∅ = 0 := rfl

/-- The total length of all cells. -/
def total (t : Cells) : Nat := valueSum rowTotal t

/-- Tables that differ in one cell have totals that differ by its length. -/
theorem total_add (h : ∀ r' k', ¬(r = r' ∧ k = k') → u.list r' k' = t.list r' k') :
    u.total + (t.list r k).length = t.total + (u.list r k).length := by
  have hrow (r' : NodeId) (hne : r' ≠ r) : rowTotal (u.getD r' ∅) = rowTotal (t.getD r' ∅) := by
    have hcells (k' : NodeId) : (u.getD r' ∅).getD k' [] = (t.getD r' ∅).getD k' [] :=
      h r' k' fun hr => hne hr.1.symm
    have hadd := valueSum_add List.length List.length_nil (t.getD r' ∅) (u.getD r' ∅) k
      fun k' _ => by rw [hcells]
    rw [hcells] at hadd
    exact Nat.add_right_cancel hadd
  have hrows := valueSum_add rowTotal rowTotal_empty t u r hrow
  have hcells := valueSum_add List.length List.length_nil (t.getD r ∅) (u.getD r ∅) k
    fun k' hne => congrArg List.length (h r k' fun hk => hne hk.2.symm)
  change u.total + rowTotal (t.getD r ∅) = t.total + rowTotal (u.getD r ∅) at hrows
  change rowTotal (u.getD r ∅) + (t.list r k).length =
    rowTotal (t.getD r ∅) + (u.list r k).length at hcells
  omega

/-- Adding an edge to a cell makes the total one more. -/
theorem total_push (t : Cells) (r k : NodeId) (e : EdgeId) :
    (t.push r k e).total = t.total + 1 := by
  have hadd := total_add (t := t) (u := t.push r k e) (r := r) (k := k) fun r' k' hne => by
    rw [list_push, if_neg hne]
  rw [list_push, if_pos ⟨rfl, rfl⟩, List.length_append, List.length_singleton] at hadd
  omega

/-- Removing an edge takes its first occurrence off its cell and leaves the other cells. -/
theorem list_remove (t : Cells) (r k : NodeId) (e : EdgeId) (r' k' : NodeId) :
    (t.remove r k e).list r' k' =
      if r = r' ∧ k = k' then (t.list r k).erase e else t.list r' k' :=
  list_put t r k _ r' k'

/-- Removing an edge that is there makes the total one less. -/
theorem total_remove (h : e ∈ t.list r k) : (t.remove r k e).total + 1 = t.total := by
  have hadd := total_add (t := t) (u := t.remove r k e) (r := r) (k := k) fun r' k' hne => by
    rw [list_remove, if_neg hne]
  have hpos := List.length_pos_of_mem h
  rw [list_remove, if_pos ⟨rfl, rfl⟩, List.length_erase_of_mem h] at hadd
  omega

end Cells

namespace Matrix

/-- A change that is asked of a matrix. -/
inductive Edit where
  | insert (source target : NodeId) (edge : EdgeId)
  | remove (source target : NodeId) (edge : EdgeId)

/-- The matrix after an edit. -/
def edit (m : Matrix) : Edit → Matrix
  | .insert s t e => m.insert s t e
  | .remove s t e => (m.remove s t e).1

/-- What an edit makes of the identifiers between two nodes: one more at the end, or the first equal
one taken out. -/
def Edit.apply (source target : NodeId) (ids : List EdgeId) : Edit → List EdgeId
  | .insert s t e => if s = source ∧ t = target then ids ++ [e] else ids
  | .remove s t e => if s = source ∧ t = target then ids.erase e else ids

/-- The identifiers that were put in between two nodes and not taken out, oldest first. -/
def Edit.remaining (edits : List Edit) (source target : NodeId) : List EdgeId :=
  edits.foldl (Edit.apply source target) []

/-- Both tables hold the same identifiers for every pair of nodes and nothing empty, and the entries
of either are counted. -/
structure Mirrored (m : Matrix) (ids : NodeId → NodeId → List EdgeId) : Prop where
  outgoing_tight : m.outgoing.Tight
  incoming_tight : m.incoming.Tight
  outgoing_list (s t : NodeId) : m.outgoing.list s t = ids s t
  incoming_list (s t : NodeId) : m.incoming.list t s = ids s t
  outgoing_total : m.edgeCount = m.outgoing.total
  incoming_total : m.edgeCount = m.incoming.total

variable {m : Matrix} {ids : NodeId → NodeId → List EdgeId} {s t : NodeId} {e : EdgeId}

private theorem ite_pair (ids : NodeId → NodeId → List EdgeId) (f : List EdgeId → List EdgeId)
    (s t s' t' : NodeId) : (if s = s' ∧ t = t' then f (ids s t) else ids s' t') =
      if s = s' ∧ t = t' then f (ids s' t') else ids s' t' := by
  by_cases h : s = s' ∧ t = t'
  · rw [h.1, h.2]
  · rw [if_neg h, if_neg h]

namespace Mirrored

/-- The tables of the empty matrix mirror each other. -/
theorem empty : Matrix.empty.Mirrored fun _ _ => [] where
  outgoing_tight := Cells.tight_empty
  incoming_tight := Cells.tight_empty
  outgoing_list s t := Cells.list_empty s t
  incoming_list s t := Cells.list_empty t s
  outgoing_total := rfl
  incoming_total := rfl

/-- An edge is found between two nodes if it is listed there. -/
theorem mem_between (h : m.Mirrored ids) : e ∈ m.between s t ↔ e ∈ ids s t := by
  rw [between, h.outgoing_list]

/-- Inserting an edge writes both tables, so they mirror each other as before. -/
theorem insert (h : m.Mirrored ids) (s t : NodeId) (e : EdgeId) :
    (m.insert s t e).Mirrored fun s' t' => (Edit.insert s t e).apply s' t' (ids s' t') where
  outgoing_tight := h.outgoing_tight.push s t e
  incoming_tight := h.incoming_tight.push t s e
  outgoing_list s' t' := by
    rw [Matrix.insert, Cells.list_push, h.outgoing_list, h.outgoing_list]
    exact ite_pair ids (· ++ [e]) s t s' t'
  incoming_list s' t' := by
    rw [Matrix.insert, Cells.list_push, h.incoming_list, h.incoming_list]
    simp only [and_comm (a := t = t')]
    exact ite_pair ids (· ++ [e]) s t s' t'
  outgoing_total := by
    rw [Matrix.insert, Cells.total_push, h.outgoing_total]
  incoming_total := by
    rw [Matrix.insert, Cells.total_push, h.incoming_total]

/-- An identifier that is there is taken out of both tables, and the count goes down by one. -/
theorem remove (h : m.Mirrored ids) (he : e ∈ ids s t) :
    (m.remove s t e).1.edgeCount + 1 = m.edgeCount ∧
      (m.remove s t e).1.Mirrored fun s' t' => (Edit.remove s t e).apply s' t' (ids s' t') := by
  have hout := Cells.total_remove (h.outgoing_list s t ▸ he)
  have hin := Cells.total_remove (h.incoming_list s t ▸ he)
  have hcount := h.outgoing_total
  have hcount' := h.incoming_total
  rw [Matrix.remove, if_pos (h.mem_between.2 he)]
  refine ⟨?_, h.outgoing_tight.put s t _, h.incoming_tight.put t s _, fun s' t' => ?_,
    fun s' t' => ?_, ?_, ?_⟩
  · dsimp only
    omega
  · rw [Cells.list_remove, h.outgoing_list, h.outgoing_list]
    exact ite_pair ids (·.erase e) s t s' t'
  · rw [Cells.list_remove, h.incoming_list, h.incoming_list]
    simp only [and_comm (a := t = t')]
    exact ite_pair ids (·.erase e) s t s' t'
  · dsimp only
    omega
  · dsimp only
    omega

/-- Taking out an identifier that is not there is refused. -/
theorem remove_of_notMem (h : m.Mirrored ids) (he : e ∉ ids s t) : m.remove s t e = (m, false) := by
  rw [Matrix.remove, if_neg fun hmem => he (h.mem_between.1 hmem)]

/-- Every edit keeps the tables of a matrix mirrored. -/
theorem edit (h : m.Mirrored ids) (c : Edit) :
    (m.edit c).Mirrored fun s t => c.apply s t (ids s t) := by
  cases c with
  | insert s t e => exact h.insert s t e
  | remove s t e =>
    by_cases he : e ∈ ids s t
    · exact (h.remove he).2
    · have hsame : (fun s' t' => (Edit.remove s t e).apply s' t' (ids s' t')) = ids := by
        ext1 s'
        ext1 t'
        by_cases hst : s = s' ∧ t = t'
        · rw [Edit.apply, if_pos hst, ← hst.1, ← hst.2, List.erase_of_not_mem he]
        · rw [Edit.apply, if_neg hst]
      rw [hsame, Matrix.edit, h.remove_of_notMem he]
      exact h

/-- What one edit keeps, any number of them keeps. -/
theorem foldl (h : m.Mirrored ids) (edits : List Edit) :
    (edits.foldl Matrix.edit m).Mirrored fun s t => edits.foldl (Edit.apply s t) (ids s t) := by
  induction edits generalizing m ids with
  | nil => exact h
  | cons c rest ih => exact ih (h.edit c)

end Mirrored

/-- After any edits both tables hold for every pair of nodes the identifiers put in and not taken
out, and the number beside them is the total length of the cells. An identifier can be taken out
exactly if it is there: the number then goes down by one, and else nothing changes. -/
theorem mirrored_after_edits (edits : List Edit) (s t : NodeId) (e : EdgeId) :
    let m := edits.foldl edit empty
    m.Mirrored (Edit.remaining edits) ∧
      ((m.remove s t e).2 = true ↔ e ∈ Edit.remaining edits s t) ∧
      (if e ∈ Edit.remaining edits s t then (m.remove s t e).1.edgeCount + 1 = m.edgeCount
        else (m.remove s t e).1 = m) := by
  intro m
  have h : m.Mirrored (Edit.remaining edits) := Mirrored.empty.foldl edits
  refine ⟨h, ?_, ?_⟩
  · rw [← h.mem_between, remove]
    split
    · rename_i hmem
      simp [hmem]
    · rename_i hmem
      simp [hmem]
  · by_cases he : e ∈ Edit.remaining edits s t
    · rw [if_pos he]
      exact (h.remove he).1
    · rw [if_neg he, h.remove_of_notMem he]

end Matrix

end Plexus
