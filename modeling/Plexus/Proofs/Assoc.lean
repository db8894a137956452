import Mathlib.Data.List.Nodup
import Plexus.Assoc

/-!
# Bindings in order

What setting, erasing and looking up come to on lists of pairs: setting keeps the order of the keys
and lists no key twice, and among distinct keys a key has the value that it is listed with.
-/

namespace Plexus.Assoc

variable {κ α : Type} [DecidableEq κ]

/-- Setting a listed key keeps the keys. -/
theorem keys_set (pairs : Assoc κ α) {key : κ} (a : α) (h : key ∈ pairs.keys) :
    (pairs.set key a).keys = pairs.keys := by
  induction pairs with
  | nil => cases h
  | cons p rest ih =>
    by_cases hp : p.1 = key
    · simp [set, keys, hp]
    · have hrest : key ∈ keys rest := (List.mem_cons.1 h).resolve_left fun e => hp e.symm
      simpa [set, keys, hp] using ih hrest

/-- Among distinct keys the value of a key is the one it is listed with. -/
theorem get?_eq_some_iff {pairs : Assoc κ α} (h : pairs.keys.Nodup) {key : κ} {a : α} :
    pairs.get? key = some a ↔ (key, a) ∈ pairs := by
  induction pairs with
  | nil => simp [get?]
  | cons p rest ih =>
    obtain ⟨hp, hrest⟩ := List.nodup_cons.1 h
    have hout (b : α) : (p.1, b) ∉ rest := fun hb => hp (List.mem_map.2 ⟨_, hb, rfl⟩)
    obtain ⟨k, b⟩ := p
    by_cases hk : k = key
    · subst hk
      simp [get?, hout, eq_comm]
    · have hk' : key ≠ k := Ne.symm hk
      simp [get?, hk, hk', ih hrest]

/-- Of two lists of pairs the first one that has the key decides. -/
theorem get?_append (pairs more : Assoc κ α) (key : κ) :
    get? (pairs ++ more) key = (pairs.get? key).or (more.get? key) := by
  induction pairs with
  | nil => rfl
  | cons p rest ih =>
    simp only [List.cons_append, get?]
    split
    · rfl
    · exact ih

/-- Erasing a key takes it off the keys. -/
theorem keys_erase (pairs : Assoc κ α) (key : κ) :
    (pairs.erase key).keys = pairs.keys.erase key := by
  induction pairs with
  | nil => rfl
  | cons p rest ih =>
    by_cases hp : p.1 = key
    · simp [erase, keys, hp]
    · have hp' : ¬(p.1 == key) = true := by simpa using hp
      simpa [erase, keys, hp, List.erase_cons, hp'] using ih

/-- A new key is set at the end. -/
theorem set_of_notMem {pairs : Assoc κ α} {key : κ} (h : key ∉ pairs.keys) (a : α) :
    pairs.set key a = pairs ++ [(key, a)] := by
  induction pairs with
  | nil => rfl
  | cons p rest ih =>
    have hp : p.1 ≠ key := fun e => h (by simp [keys, e])
    have hrest : key ∉ keys rest := fun e => h (List.mem_cons_of_mem _ e)
    simp only [set, if_neg hp, List.cons_append, ih hrest]

/-- Among distinct keys one that is listed is set where it is, and it stands nowhere else. -/
theorem exists_set_eq {pairs : Assoc κ α} (hn : pairs.keys.Nodup) {key : κ} {a : α}
    (h : (key, a) ∈ pairs) : ∃ front back, pairs = front ++ (key, a) :: back ∧
      (∀ p ∈ front ++ back, p.1 ≠ key) ∧ ∀ b, pairs.set key b = front ++ (key, b) :: back := by
  induction pairs with
  | nil => cases h
  | cons p rest ih =>
    obtain ⟨hnew, hrest⟩ := List.nodup_cons.1 hn
    rcases List.mem_cons.1 h with rfl | h
    · refine ⟨[], rest, rfl, fun q hq e => hnew (List.mem_map.2 ⟨q, hq, e⟩), fun b => ?_⟩
      simp only [set, if_true, List.nil_append]
    · obtain ⟨front, back, heq, hothers, hset⟩ := ih hrest h
      have hp : p.1 ≠ key := fun e => hnew (List.mem_map.2 ⟨_, h, e.symm⟩)
      refine ⟨p :: front, back, congrArg (p :: ·) heq, List.forall_mem_cons.2 ⟨hp, hothers⟩,
        fun b => ?_⟩
      simp only [set, if_neg hp, hset, List.cons_append]

/-- After a key is set, each pair is the one that was set or was there before. -/
theorem mem_of_mem_set {pairs : Assoc κ α} {key : κ} {a : α} {p : κ × α}
    (h : p ∈ pairs.set key a) : p = (key, a) ∨ p ∈ pairs := by
  induction pairs with
  | nil => exact .inl (List.mem_singleton.1 h)
  | cons q rest ih =>
    rw [set] at h
    split at h
    · rename_i hkey
      rcases List.mem_cons.1 h with rfl | h
      · exact .inl (Prod.ext hkey rfl)
      · exact .inr (List.mem_cons_of_mem _ h)
    · rcases List.mem_cons.1 h with rfl | h
      · exact .inr List.mem_cons_self
      · exact (ih h).imp_right (List.mem_cons_of_mem _)

/-- Setting a key keeps the keys distinct. -/
theorem nodup_keys_set {pairs : Assoc κ α} (h : pairs.keys.Nodup) (key : κ) (a : α) :
    (pairs.set key a).keys.Nodup := by
  by_cases hkey : key ∈ pairs.keys
  · rw [keys_set pairs a hkey]
    exact h
  · rw [set_of_notMem hkey, keys, List.map_append, List.nodup_append]
    refine ⟨h, List.nodup_singleton _, fun k hmem k' hk' e => ?_⟩
    rw [List.map_singleton, List.mem_singleton] at hk'
    have hk : k = key := e.trans hk'
    exact hkey (hk ▸ hmem)

/-- So does setting several keys one after the other. -/
theorem nodup_keys_setAll {pairs : Assoc κ α} (h : pairs.keys.Nodup) (more : Assoc κ α) :
    (pairs.setAll more).keys.Nodup := by
  unfold setAll
  induction more generalizing pairs with
  | nil => exact h
  | cons p rest ih => exact ih (nodup_keys_set h p.1 p.2)

/-- A key has the value that is set last, or keeps its own. -/
theorem get?_setAll (pairs : Assoc κ α) {more : Assoc κ α} (h : more.keys.Nodup) (key : κ) :
    (pairs.setAll more).get? key = (more.get? key).or (pairs.get? key) := by
  unfold setAll
  induction more generalizing pairs with
  | nil => rfl
  | cons p rest ih =>
    rw [keys, List.map_cons, List.nodup_cons] at h
    rw [List.foldl_cons, ih _ h.2, get?_set, get?]
    split
    · rename_i hp
      have hnone : get? rest key = none := by
        rw [← Option.not_isSome_iff_eq_none, get?_isSome_iff, ← hp]
        exact h.1
      rw [hnone]
      rfl
    · rfl

/-- A key that is not set keeps its value. -/
theorem get?_setAll_of_notMem (pairs : Assoc κ α) {more : Assoc κ α} {key : κ}
    (h : key ∉ more.keys) : (pairs.setAll more).get? key = pairs.get? key := by
  unfold setAll
  induction more generalizing pairs with
  | nil => rfl
  | cons p rest ih =>
    rw [keys, List.map_cons, List.mem_cons, not_or] at h
    rw [List.foldl_cons, ih _ h.2, get?_set, if_neg (Ne.symm h.1)]

/-- A value that is found stands with its key. -/
theorem mem_of_get? {pairs : Assoc κ α} {key : κ} {a : α} (h : pairs.get? key = some a) :
    (key, a) ∈ pairs := by
  induction pairs with
  | nil => cases h
  | cons p rest ih =>
    rw [get?] at h
    split at h
    · rename_i hp
      cases h
      rw [← hp]
      exact List.mem_cons_self
    · exact List.mem_cons_of_mem _ (ih h)

/-- If pairs with the same key agree, a key has the value of any of its pairs. -/
theorem get?_of_mem {pairs : Assoc κ α} (h : ∀ p ∈ pairs, ∀ q ∈ pairs, p.1 = q.1 → p.2 = q.2)
    {key : κ} {a : α} (hmem : (key, a) ∈ pairs) : pairs.get? key = some a := by
  have hsome : (pairs.get? key).isSome = true :=
    (get?_isSome_iff pairs key).2 (List.mem_map_of_mem hmem)
  obtain ⟨b, hb⟩ := Option.isSome_iff_exists.1 hsome
  have hsame : b = a := h _ (mem_of_get? hb) _ hmem rfl
  rw [hb, hsame]

end Plexus.Assoc
