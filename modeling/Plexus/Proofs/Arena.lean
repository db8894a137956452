import Mathlib.Data.List.Sort
import Plexus.Arena

/-!
# Records of an arena

What every operation does to the record of each slot and to the list of live records. An arena is
sound if nothing is reserved, every record knows its slot, and the live slots are counted; then
the records stand in the order of their slots, so that membership determines the list.
-/

namespace Plexus

/-- What a slot adds to the number of live slots. -/
def Slot.weight {α : Type} (s : Slot α) : Nat := s.record?.isSome.toNat

namespace Arena

variable {α : Type} {a b : Arena α} {slot i : Nat} {r : α}

/-- A record is read from the slot that holds it live. -/
theorem get?_eq_some_iff : a.get? i = some r ↔ a.slots[i]? = some (.live r) := by
  unfold get?
  cases h : a.slots[i]? with
  | none => simp
  | some s => cases s <;> simp [Slot.record?]

/-- Only a slot that exists holds a record. -/
theorem lt_capacity_of_get? (h : a.get? i = some r) : i < a.capacity := by
  obtain ⟨hi, -⟩ := Array.getElem?_eq_some_iff.1 (get?_eq_some_iff.1 h)
  exact hi

@[simp] theorem get?_empty : (empty : Arena α).get? i = none := by
  simp [get?, empty]

/-- An inserted record is found in the next slot, and everything else where it was. -/
theorem get?_insert (a : Arena α) (r : α) (i : Nat) :
    (a.insert r).1.get? i = if i = a.capacity then some r else a.get? i := by
  by_cases h : i = a.slots.size <;>
    simp [get?, insert, capacity, Array.getElem?_push, h, Slot.record?]

@[simp] theorem get?_pushTombstone (a : Arena α) (i : Nat) :
    a.pushTombstone.1.get? i = a.get? i := by
  by_cases h : i = a.slots.size <;>
    simp [get?, pushTombstone, Array.getElem?_push, h, Slot.record?]

/-- Writing one slot changes what that slot holds and nothing else. -/
theorem getElem?_set (a : Arena α) (s : Slot α) (hi : slot < a.slots.size) (j : Nat) :
    (a.slots.setIfInBounds slot s)[j]? = if j = slot then some s else a.slots[j]? := by
  rw [Array.getElem?_setIfInBounds]
  by_cases hj : slot = j
  · simp [hj, hj ▸ hi]
  · have hj' : j ≠ slot := Ne.symm hj
    simp [hj, hj']

/-- A live slot can be changed. -/
theorem modify_of_get? (f : α → α) (h : a.get? slot = some r) :
    a.modify slot f = .ok { a with slots := a.slots.setIfInBounds slot (.live (f r)) } := by
  simp [modify, h]

/-- A live slot can be freed, and its record is handed out. -/
theorem free_of_get? (h : a.get? slot = some r) :
    a.free slot = .ok (⟨a.slots.setIfInBounds slot .tombstone, a.live - 1⟩, some r) := by
  simp [free, get?_eq_some_iff.1 h]

/-- Changing one record leaves every other slot alone. -/
theorem get?_set_live (h : a.get? slot = some r) (s : α) (live j : Nat) :
    Arena.get? ⟨a.slots.setIfInBounds slot (.live s), live⟩ j =
      if j = slot then some s else a.get? j := by
  unfold get?
  rw [getElem?_set a _ (lt_capacity_of_get? h)]
  split <;> rfl

/-- Retiring one slot leaves every other slot alone. -/
theorem get?_set_tombstone (h : a.get? slot = some r) (live j : Nat) :
    Arena.get? ⟨a.slots.setIfInBounds slot .tombstone, live⟩ j =
      if j = slot then none else a.get? j := by
  unfold get?
  rw [getElem?_set a _ (lt_capacity_of_get? h)]
  split <;> rfl

/-- A slot is live if a record can be read from it. -/
theorem isLive_iff : a.isLive i ↔ ∃ r, a.get? i = some r := Option.isSome_iff_exists

/-- The records are what the slots hold. -/
theorem mem_records : r ∈ a.records ↔ ∃ i, a.get? i = some r := by
  simp only [records, List.mem_filterMap, Array.mem_toList_iff, Array.mem_iff_getElem?,
    get?_eq_some_iff]
  constructor
  · rintro ⟨s, ⟨i, hi⟩, hs⟩
    cases s with
    | live x =>
      cases hs
      exact ⟨i, hi⟩
    | reserved => cases hs
    | tombstone => cases hs
  · rintro ⟨i, hi⟩
    exact ⟨_, ⟨i, hi⟩, rfl⟩

@[simp] theorem records_empty : (empty : Arena α).records = [] := rfl

@[simp] theorem records_insert (a : Arena α) (r : α) :
    (a.insert r).1.records = a.records ++ [r] := by
  simp [records, insert, Slot.record?]

@[simp] theorem records_pushTombstone (a : Arena α) :
    a.pushTombstone.1.records = a.records := by
  simp [records, pushTombstone, Slot.record?]

/-- As many slots are live as there are records. -/
theorem countP_isLive (a : Arena α) :
    (List.range a.capacity).countP (a.isLive ·) = a.records.length := by
  have hmap : (List.range a.capacity).map (fun i => a.slots[i]?) =
      a.slots.toList.map some := by
    apply List.ext_getElem
    · simp [capacity]
    · intro n h₁ h₂
      have hn : n < a.slots.size := by simpa using h₂
      simp [hn]
  have hcount := List.countP_map (p := fun s => (s.bind Slot.record?).isSome)
    (f := fun i => a.slots[i]?) (l := List.range a.capacity)
  rw [hmap, List.countP_map] at hcount
  rw [records, List.length_filterMap_eq_countP]
  exact hcount.symm

private theorem length_records (a : Arena α) :
    a.records.length = a.slots.toList.countP fun s => s.record?.isSome :=
  List.length_filterMap_eq_countP

/-- A new slot adds its weight to the number of records. -/
theorem length_records_push (a : Arena α) (s : Slot α) (live : Nat) :
    (Arena.records ⟨a.slots.push s, live⟩).length = a.records.length + s.weight := by
  cases s <;> simp [records, Slot.record?, Slot.weight]

/-- Changing a slot changes the number of records by what the slot counted and counts. -/
theorem length_records_set {old : Slot α} (h : a.slots[slot]? = some old) (s : Slot α)
    (live : Nat) : (Arena.records ⟨a.slots.setIfInBounds slot s, live⟩).length + old.weight =
      a.records.length + s.weight := by
  obtain ⟨hsize, hget⟩ := Array.getElem?_eq_some_iff.1 h
  have hi : slot < a.slots.toList.length := by simpa using hsize
  have hget' : a.slots.toList[slot] = old := by simpa using hget
  have hpos : old.weight ≤ a.slots.toList.countP fun s => s.record?.isSome := by
    cases hold : old.record?.isSome with
    | false => simp [Slot.weight, hold]
    | true =>
      rw [Slot.weight, hold]
      exact List.countP_pos_iff.2 ⟨_, List.getElem_mem hi, by rw [hget', hold]⟩
  have hweight (t : Slot α) : (if t.record?.isSome = true then 1 else 0) = t.weight := by
    cases t <;> rfl
  rw [length_records, length_records, Array.toList_setIfInBounds, List.countP_set hi, hget',
    hweight, hweight]
  omega

/-- No slot waits for its record, every record knows its slot, and the live slots are counted. -/
structure Sound (a : Arena α) (slotOf : α → Nat) : Prop where
  settled : ∀ i : Nat, a.slots[i]? ≠ some Slot.reserved
  slotOf_eq : ∀ i r, a.get? i = some r → slotOf r = i
  live_eq : a.live = a.records.length

namespace Sound

variable {slotOf : α → Nat}

/-- The empty arena has no record in a wrong slot and counts none. -/
theorem empty (slotOf : α → Nat) : (empty : Arena α).Sound slotOf :=
  ⟨by simp [Arena.empty], by simp, rfl⟩

/-- A record is found in the slot it names. -/
theorem get?_slotOf (h : a.Sound slotOf) (hr : r ∈ a.records) : a.get? (slotOf r) = some r := by
  obtain ⟨i, hi⟩ := mem_records.1 hr
  rw [h.slotOf_eq i r hi]
  exact hi

/-- The records stand in the order of their slots. -/
theorem ascending (h : a.Sound slotOf) :
    a.records.Pairwise fun r s => slotOf r < slotOf s := by
  rw [records, List.pairwise_filterMap, List.pairwise_iff_getElem]
  intro i j hi hj hij r hr s hs
  have hlive (k : Nat) (hk : k < a.slots.toList.length) (x : α)
      (hx : (a.slots.toList[k]).record? = some x) : a.get? k = some x := by
    have hk' : k < a.slots.size := by simpa using hk
    simpa [get?, hk'] using hx
  rw [h.slotOf_eq i r (hlive i hi r hr), h.slotOf_eq j s (hlive j hj s hs)]
  exact hij

/-- Records that stand in the order of their slots are determined by their membership. -/
theorem records_eq (h : a.Sound slotOf) {l : List α}
    (hl : l.Pairwise fun r s => slotOf r < slotOf s) (hmem : ∀ r, r ∈ l ↔ r ∈ a.records) :
    a.records = l := by
  have : Std.Irrefl fun r s => slotOf r < slotOf s := ⟨fun r => Nat.lt_irrefl _⟩
  have : Std.Antisymm fun r s => slotOf r < slotOf s :=
    ⟨fun r s hrs hsr => absurd hrs (Nat.lt_asymm hsr)⟩
  exact List.Pairwise.eq_of_mem_iff h.ascending hl fun r => (hmem r).symm

/-- Inserting a record that knows its slot keeps an arena sound. -/
theorem insert (h : a.Sound slotOf) (hr : slotOf r = a.capacity) :
    (a.insert r).1.Sound slotOf where
  settled j := by
    simp only [Arena.insert, Array.getElem?_push]
    split
    · simp
    · exact h.settled j
  slotOf_eq j s hs := by
    rw [get?_insert] at hs
    split at hs
    · rename_i hj
      cases hs
      exact hr.trans hj.symm
    · exact h.slotOf_eq j s hs
  live_eq := by simp [Arena.insert, records, Slot.record?, h.live_eq]

/-- A tombstone at the end keeps an arena sound. -/
theorem pushTombstone (h : a.Sound slotOf) : a.pushTombstone.1.Sound slotOf where
  settled j := by
    simp only [Arena.pushTombstone, Array.getElem?_push]
    split
    · simp
    · exact h.settled j
  slotOf_eq j s hs := h.slotOf_eq j s (by simpa using hs)
  live_eq := by simp [Arena.pushTombstone, records, Slot.record?, h.live_eq]

/-- Rewriting a live record by one of the same slot keeps an arena sound. -/
theorem set_live (h : a.Sound slotOf) (hr : a.get? slot = some r) {s : α} (hs : slotOf s = slot) :
    Arena.Sound ⟨a.slots.setIfInBounds slot (.live s), a.live⟩ slotOf where
  settled j := by
    have hj := h.settled j
    simp only [getElem?_set a _ (lt_capacity_of_get? hr)]
    split <;> simp [hj]
  slotOf_eq j x hx := by
    rw [get?_set_live hr] at hx
    split at hx
    · rename_i hj
      cases hx
      exact hs.trans hj.symm
    · exact h.slotOf_eq j x hx
  live_eq := by
    have hlen := length_records_set (get?_eq_some_iff.1 hr) (.live s) a.live
    exact h.live_eq.trans (Nat.add_right_cancel hlen).symm

/-- Freeing a live slot and counting one record less keeps an arena sound. -/
theorem set_tombstone (h : a.Sound slotOf) (hr : a.get? slot = some r) :
    Arena.Sound ⟨a.slots.setIfInBounds slot .tombstone, a.live - 1⟩ slotOf where
  settled j := by
    have hj := h.settled j
    simp only [getElem?_set a _ (lt_capacity_of_get? hr)]
    split <;> simp [hj]
  slotOf_eq j x hx := by
    rw [get?_set_tombstone hr] at hx
    split at hx
    · cases hx
    · exact h.slotOf_eq j x hx
  live_eq := by
    have hlen := length_records_set (get?_eq_some_iff.1 hr) .tombstone (a.live - 1)
    change _ + 1 = a.records.length at hlen
    rw [h.live_eq, ← hlen]
    rfl

/-- With one record changed, the records are the old ones with that one replaced. -/
theorem records_set_live (h : a.Sound slotOf) (hr : a.get? slot = some r) {s : α}
    (hs : slotOf s = slot) :
    Arena.records ⟨a.slots.setIfInBounds slot (.live s), a.live⟩ =
      a.records.map fun x => if slotOf x = slot then s else x := by
  have hslot (x : α) : slotOf (if slotOf x = slot then s else x) = slotOf x := by
    split
    · rename_i hx
      exact hs.trans hx.symm
    · rfl
  refine (h.set_live hr hs).records_eq ?_ fun x => ?_
  · rw [List.pairwise_map]
    exact h.ascending.imp fun hxy => by simpa only [hslot] using hxy
  · simp only [List.mem_map, mem_records, get?_set_live hr]
    constructor
    · rintro ⟨y, ⟨j, hj⟩, rfl⟩
      refine ⟨j, ?_⟩
      rw [h.slotOf_eq j y hj]
      split <;> simp [hj]
    · rintro ⟨j, hj⟩
      split at hj
      · rename_i hjs
        cases hj
        exact ⟨r, ⟨slot, hr⟩, by simp [h.slotOf_eq slot r hr]⟩
      · rename_i hjs
        exact ⟨x, ⟨j, hj⟩, by simp [h.slotOf_eq j x hj, hjs]⟩

/-- With one slot retired, the records are the old ones without that slot's. -/
theorem records_set_tombstone (h : a.Sound slotOf) (hr : a.get? slot = some r) :
    Arena.records ⟨a.slots.setIfInBounds slot .tombstone, a.live - 1⟩ =
      a.records.filter fun x => slotOf x ≠ slot := by
  refine (h.set_tombstone hr).records_eq (h.ascending.filter _) fun x => ?_
  simp only [List.mem_filter, mem_records, get?_set_tombstone hr, decide_eq_true_eq]
  constructor
  · rintro ⟨⟨j, hj⟩, hx⟩
    rw [h.slotOf_eq j x hj] at hx
    exact ⟨j, by simp [hx, hj]⟩
  · rintro ⟨j, hj⟩
    split at hj
    · cases hj
    · rename_i hjs
      exact ⟨⟨j, hj⟩, by rw [h.slotOf_eq j x hj]; exact hjs⟩

end Sound

end Arena

end Plexus
