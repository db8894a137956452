import Mathlib.Data.List.Forall2

/-!
# Items related one by one

Two lists whose items are related place by place.
-/

namespace Plexus

variable {α β γ : Type} {R : α → β → Prop} {S : α → γ → Prop} {as : List α} {bs : List β}

/-- Items that are related one by one have partners. -/
theorem exists_of_forall₂ (h : List.Forall₂ R as bs) {a : α} (ha : a ∈ as) :
    ∃ b, (a, b) ∈ as.zip bs ∧ R a b := by
  induction h with
  | nil => cases ha
  | cons hab _ ih =>
    rcases List.mem_cons.1 ha with rfl | ha
    · exact ⟨_, List.mem_cons_self, hab⟩
    · obtain ⟨b, hb, hr⟩ := ih ha
      exact ⟨b, List.mem_cons_of_mem _ hb, hr⟩

/-- If every item has a partner, the partners can be listed. -/
theorem exists_forall₂ (h : ∀ a ∈ as, ∃ b, R a b) : ∃ bs, List.Forall₂ R as bs := by
  induction as with
  | nil => exact ⟨[], .nil⟩
  | cons a rest ih =>
    rw [List.forall_mem_cons] at h
    obtain ⟨b, hb⟩ := h.1
    obtain ⟨bs, hbs⟩ := ih h.2
    exact ⟨b :: bs, .cons hb hbs⟩

/-- The items of one list may be told through those of another. -/
theorem forall₂_through {cs : List γ} (h : List.Forall₂ R as bs) (h' : List.Forall₂ S as cs) :
    List.Forall₂ (fun b c => ∃ a, R a b ∧ S a c) bs cs := by
  induction h generalizing cs with
  | nil =>
    cases h'
    exact .nil
  | cons hab _ ih =>
    cases h' with
    | cons hac hrest => exact .cons ⟨_, hab, hac⟩ (ih hrest)

/-- The partners of the items of two lists come one list after the other. -/
theorem exists_append_of_forall₂ {as' : List α} (h : List.Forall₂ R (as ++ as') bs) :
    ∃ front back, bs = front ++ back ∧ List.Forall₂ R as front ∧ List.Forall₂ R as' back := by
  refine ⟨bs.take as.length, bs.drop as.length, (List.take_append_drop _ _).symm, ?_, ?_⟩
  · simpa only [List.take_left] using List.forall₂_take as.length h
  · simpa only [List.drop_left] using List.forall₂_drop as.length h

/-- Items and their partners can be listed together. -/
theorem exists_pairs (h : List.Forall₂ R as bs) :
    ∃ ps : List (α × β), ps.map Prod.fst = as ∧ ps.map Prod.snd = bs ∧ ∀ p ∈ ps, R p.1 p.2 :=
  ⟨as.zip bs, List.map_fst_zip (Nat.le_of_eq h.length_eq),
    List.map_snd_zip (Nat.le_of_eq h.length_eq.symm),
    fun _ hp => List.forall₂_zip h hp⟩

end Plexus
