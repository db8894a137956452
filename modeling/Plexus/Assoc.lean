/-!
# Insertion-ordered bindings

A list of key-value pairs in which a key that is set again keeps its first position and takes
its last value. The lemmas give the value of every key after `set` and `erase`.
-/

namespace Plexus

/-- Key-value pairs in the order in which the keys were first set. -/
abbrev Assoc (κ α : Type) := List (κ × α)

namespace Assoc

variable {κ α : Type} [DecidableEq κ]

/-- The keys in order. -/
def keys (pairs : Assoc κ α) : List κ := pairs.map Prod.fst

/-- The value of a key. -/
def get? : Assoc κ α → κ → Option α
  | [], _ => none
  | (k, a) :: rest, key => if k = key then some a else get? rest key

/-- Give a key a value, in its old position if it has one and else at the end. -/
def set : Assoc κ α → κ → α → Assoc κ α
  | [], key, a => [(key, a)]
  | (k, b) :: rest, key, a => if k = key then (k, a) :: rest else (k, b) :: set rest key a

/-- Remove the first pair with the given key. -/
def erase : Assoc κ α → κ → Assoc κ α
  | [], _ => []
  | (k, a) :: rest, key => if k = key then rest else (k, a) :: erase rest key

/-- Set every pair of a list, from left to right. -/
def setAll (pairs more : Assoc κ α) : Assoc κ α := more.foldl (fun acc p => set acc p.1 p.2) pairs

/-- The bindings of a list in which keys may repeat. -/
def ofList (pairs : List (κ × α)) : Assoc κ α := setAll [] pairs

/-- A key that is set has the new value, and every other key keeps its own. -/
theorem get?_set (pairs : Assoc κ α) (key k : κ) (a : α) :
    (pairs.set key a).get? k = if key = k then some a else pairs.get? k := by
  induction pairs with
  | nil => rfl
  | cons p rest ih =>
    simp only [set, get?]
    by_cases h : p.1 = key
    · subst h
      by_cases hk : p.1 = k <;> simp [get?, hk]
    · by_cases hk : p.1 = k
      · have : key ≠ k := fun e => h (hk.trans e.symm)
        simp [get?, hk, this, this.symm]
      · simp [get?, h, hk, ih]

/-- Erasing a key leaves the value of every other key. -/
theorem get?_erase_of_ne (pairs : Assoc κ α) {key k : κ} (h : key ≠ k) :
    (pairs.erase key).get? k = pairs.get? k := by
  induction pairs with
  | nil => rfl
  | cons p rest ih =>
    simp only [erase, get?]
    by_cases hp : p.1 = key
    · have : p.1 ≠ k := fun e => h (hp.symm.trans e)
      simp [hp, h]
    · by_cases hk : p.1 = k
      · simp [get?, hk, h.symm]
      · simp [get?, hp, hk, ih]

/-- A key has a value exactly when it is listed. -/
theorem get?_isSome_iff (pairs : Assoc κ α) (key : κ) :
    (pairs.get? key).isSome ↔ key ∈ pairs.keys := by
  induction pairs with
  | nil => simp [get?, keys]
  | cons p rest ih =>
    by_cases h : p.1 = key
    · simp [get?, keys, h]
    · have : ¬key = p.1 := fun e => h e.symm
      simpa [get?, keys, h, this] using ih

end Assoc

end Plexus
