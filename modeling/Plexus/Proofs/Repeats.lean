import Mathlib.Data.List.Destutter

/-!
# Leaving out repeats

Leaving out the repeats of a list that stand next to each other keeps every item that is no repeat,
and makes ascending items ascend strictly. Leaving out all repeats can be done item by item.
-/

namespace Plexus

variable {α : Type} {r : α → α → Bool}

private theorem eraseRepsBy_loop (a : α) (l acc : List α) :
    List.eraseRepsBy.loop r a l acc = acc.reverse ++ l.destutter' (fun b c => ¬r b c) a := by
  induction l generalizing a acc with
  | nil => simp [List.eraseRepsBy.loop]
  | cons b l ih =>
    rw [List.eraseRepsBy.loop, List.destutter'_cons]
    cases hr : r a b with
    | true => simp [ih]
    | false => simp [ih]

private theorem eraseRepsBy_eq (l : List α) :
    l.eraseRepsBy r = l.destutter fun b c => ¬r b c := by
  cases l with
  | nil => rfl
  | cons a l => exact eraseRepsBy_loop a l []

private theorem mem_destutter' {a x : α} {l : List α}
    (hr : ∀ b ∈ a :: l, ∀ c ∈ a :: l, r b c = true → b = c) (hx : x ∈ a :: l) :
    x ∈ l.destutter' (fun b c => ¬r b c) a := by
  induction l generalizing a with
  | nil => exact hx
  | cons b l ih =>
    have hb : ∀ y ∈ b :: l, y ∈ a :: b :: l := fun y => List.mem_cons_of_mem _
    have hrest : ∀ y ∈ b :: l, ∀ z ∈ b :: l, r y z = true → y = z :=
      fun y hy z hz => hr y (hb y hy) z (hb z hz)
    by_cases hab : r a b = true
    · have heq : a = b := hr a List.mem_cons_self b (hb b List.mem_cons_self) hab
      rw [List.destutter'_cons_neg _ (not_not_intro hab), heq]
      apply ih hrest
      simpa [heq] using hx
    · rw [List.destutter'_cons_pos _ hab]
      rcases List.mem_cons.1 hx with rfl | hx
      · exact List.mem_cons_self
      · exact List.mem_cons_of_mem _ (ih hrest hx)

/-- Leaving out repeats loses nothing if only equal items count as repeats. -/
theorem mem_eraseRepsBy {x : α} {l : List α}
    (hr : ∀ b ∈ l, ∀ c ∈ l, r b c = true → b = c) : x ∈ l.eraseRepsBy r ↔ x ∈ l := by
  rw [eraseRepsBy_eq]
  constructor
  · intro hx
    exact (List.destutter_sublist _ l).subset hx
  · intro hx
    cases l with
    | nil => exact hx
    | cons a l => exact mem_destutter' hr hx

/-- Leaving out repeats from ascending items makes them ascend strictly. -/
theorem pairwise_eraseRepsBy {f : α → Nat} {l : List α} (hr : ∀ b c, r b c = true ↔ f b = f c)
    (hl : l.Pairwise fun b c => f b ≤ f c) : (l.eraseRepsBy r).Pairwise fun b c => f b < f c := by
  rw [eraseRepsBy_eq, ← List.pairwise_map (R := (· < ·)), ← List.isChain_iff_pairwise,
    List.isChain_map, List.isChain_iff_getElem]
  have hle := (hl.sublist (List.destutter_sublist (fun b c => ¬r b c) l)).isChain
  have hne := List.isChain_destutter (fun b c => ¬r b c) l
  rw [List.isChain_iff_getElem] at hle hne
  intro i hi
  have hdiffer := (not_congr (hr _ _)).1 (hne i hi)
  exact Nat.lt_of_le_of_ne (hle i hi) hdiffer

/-- A list without repeats has none to be left out. -/
theorem eraseDups_of_nodup [DecidableEq α] {l : List α} (h : l.Nodup) :
    l.eraseDups = l := by
  induction l with
  | nil => rfl
  | cons a rest ih =>
    obtain ⟨hnew, hrest⟩ := List.nodup_cons.1 h
    have hkept : rest.filter (fun b => !b == a) = rest :=
      List.filter_eq_self.2 fun b hb => by simpa using ne_of_mem_of_not_mem hb hnew
    rw [List.eraseDups_cons, hkept, ih hrest]

/-- Leaving out repeats from a list and one more element. -/
theorem eraseDups_snoc [DecidableEq α] (l : List α) (a : α) :
    (l ++ [a]).eraseDups = if a ∈ l.eraseDups then l.eraseDups else l.eraseDups ++ [a] := by
  rw [List.eraseDups_append]
  by_cases h : a ∈ l
  · simp [List.removeAll, h]
  · simp [List.removeAll, h, List.eraseDups_cons]

end Plexus
