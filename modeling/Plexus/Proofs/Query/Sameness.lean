import Plexus.Proofs.IndexKey
import Plexus.Proofs.Operator.Aggregated

/-!
# Comparisons of values agree

Values are compared in four ways: predicates find them equal, less or greater, grouping finds them
structurally equal, hashing feeds them to a hasher, and sorting orders them. The first three fold
the two zeros where the last one does not, and NaN is unequal to itself for predicates alone. Still
no two of them contradict each other.
-/

namespace Plexus

namespace Double

variable {x y : Double}

/-- Only the two zeros share a place in the numeric order. -/
theorem place_eq_iff : x.place = y.place ↔ x = y ∨ (x.isZero = true ∧ y.isZero = true) := by
  rw [← folded_eq_iff, folded, folded]
  constructor
  · intro h
    split at h <;> split at h
    · rename_i hx hy
      exact .inr ⟨hx, hy⟩
    · rename_i hx hy
      exact absurd (h ▸ rfl : y.isZero = true) hy
    · rename_i hx hy
      exact absurd (h ▸ rfl : x.isZero = true) hx
    · exact .inl h
  · rintro (rfl | ⟨hx, hy⟩)
    · rfl
    · rw [if_pos hx, if_pos hy]

/-- The total order goes on from the numeric order. -/
theorem rank_lt_of_place_lt (h : x.place < y.place) : x.rank < y.rank := by
  cases hx : x.isNegative <;> cases hy : y.isNegative <;>
    simp only [place, rank, hx, hy, if_true, if_false, Bool.false_eq_true] at h ⊢ <;> omega

/-- Where predicates find an order, sorting goes by it. -/
theorem compare_eq_of_compare? {o : Ordering} (h : x.compare? y = some o) (ho : o ≠ .eq) :
    compare x y = o := by
  unfold compare? at h
  split at h
  · cases h
  · have hplaces := Option.some.inj h
    have hranks : compare x y = compare x.rank y.rank := rfl
    rcases lt_trichotomy x.place y.place with hlt | heq | hgt
    · rw [compare_lt_iff_lt.2 hlt] at hplaces
      rw [hranks, ← hplaces, compare_lt_iff_lt]
      exact rank_lt_of_place_lt hlt
    · rw [compare_eq_iff_eq.2 heq] at hplaces
      exact absurd hplaces.symm ho
    · rw [compare_gt_iff_gt.2 hgt] at hplaces
      rw [hranks, ← hplaces, compare_gt_iff_gt]
      exact rank_lt_of_place_lt hgt

end Double

/-- Sorting orders property values as predicates do where these find them less or greater. -/
theorem Scalar.order_eq_of_compare? {a b : Scalar} {o : Ordering} (h : a.compare? b = some o)
    (ho : o ≠ .eq) : a.order b = o := by
  cases a with
  | null => cases h
  | boolean p =>
    cases b with
    | boolean q => exact Option.some.inj h
    | _ => cases h
  | number x =>
    cases b with
    | number y => exact Double.compare_eq_of_compare? h ho
    | _ => cases h
  | text s =>
    cases b with
    | text t => exact Option.some.inj h
    | _ => cases h

namespace Value

variable {a b : Value}

/-- A number that is none. -/
def isNaN : Value → Bool
  | scalar (.number x) => x.isNaN
  | _ => false

/-- The test of sameness decides whether grouping takes two values for the same. -/
theorem isSame_iff : a.isSame b = true ↔ a.Same b := by
  rw [isSame, decide_eq_true_iff, canonical_eq_iff]

/-- Predicates find numbers equal if grouping does and they are not NaN. -/
theorem equals_iff {x y : Double} :
    x.equals y = true ↔ x.canonical = y.canonical ∧ x.isNaN = false := by
  simp only [Double.equals, Bool.and_eq_true, Bool.not_eq_true', beq_iff_eq, Double.place_eq_iff,
    Double.canonical_eq_iff]
  constructor
  · rintro ⟨⟨hx, -⟩, h⟩
    exact ⟨h.imp_right .inl, hx⟩
  · rintro ⟨rfl | ⟨hx, hy⟩ | ⟨hx, -⟩, hnan⟩
    · exact ⟨⟨hnan, hnan⟩, .inl rfl⟩
    · exact ⟨⟨hnan, Double.isNaN_of_isZero hy⟩, .inr ⟨hx, hy⟩⟩
    · exact absurd (hx.symm.trans hnan) (by simp)

/-- Predicates find values equal if grouping does and they are not null or NaN. -/
theorem holds?_eq_iff : holds? .eq a b = some true ↔
    a.Same b ∧ a.isNull = false ∧ a.isNaN = false := by
  rw [← canonical_eq_iff]
  rcases a with i | i | (_ | p | x | s) <;> rcases b with j | j | (_ | q | y | t) <;>
    simp [holds?, ofEquality, compareScalars, Scalar.equals, canonical, Scalar.canonical, isNull,
      Scalar.isNull, isNaN, equals_iff]

/-- Only a value is tied with itself in the order of sorting. -/
theorem order_eq_iff : a.order b = .eq ↔ a = b := by
  rcases a with i | i | (_ | p | x | s) <;> rcases b with j | j | (_ | q | y | t) <;>
    simp [order, Scalar.order, sortRank, Scalar.sortRank]

/-- A comparison that needs an order is true of property values that predicates find in order. -/
theorem compare?_of_holds {op : BinaryOp} (hop : op = .lt ∨ op = .gt)
    (h : holds? op a b = some true) :
    ∃ s t o, a = scalar s ∧ b = scalar t ∧ s.compare? t = some o ∧ fits op o = true := by
  have hequality (equal : Bool) : ofEquality op equal = none := by
    rcases hop with rfl | rfl <;> rfl
  have hscalars (s t : Scalar) : compareScalars op s t = (s.compare? t).map (fits op) := by
    rcases hop with rfl | rfl <;> rfl
  rcases a with i | i | (_ | p | x | s) <;> rcases b with j | j | (_ | q | y | t) <;>
    simp only [holds?, hequality, hscalars, Option.map_eq_some_iff, reduceCtorEq] at h
  all_goals
    obtain ⟨o, ho, hfits⟩ := h
    exact ⟨_, _, o, rfl, rfl, ho, hfits⟩

/-- What predicates find less is sorted before. -/
theorem order_of_holds_lt (h : holds? .lt a b = some true) : a.order b = .lt := by
  obtain ⟨s, t, o, rfl, rfl, ho, hfits⟩ := compare?_of_holds (.inl rfl) h
  obtain rfl := of_decide_eq_true hfits
  exact Scalar.order_eq_of_compare? ho (by decide)

/-- What predicates find greater is sorted behind. -/
theorem order_of_holds_gt (h : holds? .gt a b = some true) : a.order b = .gt := by
  obtain ⟨s, t, o, rfl, rfl, ho, hfits⟩ := compare?_of_holds (.inr rfl) h
  obtain rfl := of_decide_eq_true hfits
  exact Scalar.order_eq_of_compare? ho (by decide)

private theorem index_eq_iff {kind : Kind} {i j : Id kind} : i.index = j.index ↔ i = j :=
  ⟨fun h => congrArg Id.mk h, congrArg Id.index⟩

private theorem toNat_bits_eq_iff {x y : Double} : x.bits.toNat = y.bits.toNat ↔ x = y := by
  rw [UInt64.toNat_inj]
  exact ⟨fun h => congrArg Double.mk h, congrArg Double.bits⟩

/-- A hasher is fed the same for values that grouping does not tell apart, and only for these. -/
theorem hashed_eq_iff : a.hashed = b.hashed ↔ a.Same b := by
  rw [← canonical_eq_iff]
  rcases a with i | i | (_ | p | x | s) <;> rcases b with j | j | (_ | q | y | t) <;>
    simp [hashed, Scalar.hashed, canonical, Scalar.canonical, index_eq_iff, toNat_bits_eq_iff]

/-- How the comparisons of some values agree. -/
structure Agree (a b c : Value) : Prop where
  same_of_equal : holds? .eq a b = some true → a.isSame b = true
  equal_of_same : a.isSame b = true → a.isNull = false → a.isNaN = false →
    holds? .eq a b = some true
  same_of_tied : a.order b = .eq → a.isSame b = true
  sorted_of_less : holds? .lt a b = some true → a.order b = .lt
  sorted_of_greater : holds? .gt a b = some true → a.order b = .gt
  refl : a.isSame a = true
  symm : a.isSame b = true → b.isSame a = true
  trans : a.isSame b = true → b.isSame c = true → a.isSame c = true
  /-- Structural equality tells all values apart but the zeros and the NaNs. -/
  same_iff : a.isSame b = true ↔ a.Same b
  /-- A hasher is fed the same for structurally equal values, and for no others. -/
  hashed_iff : a.hashed = b.hashed ↔ a.isSame b = true

/-- Values that predicates find equal are structurally equal, and structurally equal ones are found
equal unless they are null or NaN. Values that sorting ties are structurally equal, and what
predicates find less or greater is sorted so. Structural equality is an equivalence that hashing
respects. -/
theorem comparisons_agree (a b c : Value) : Agree a b c where
  same_of_equal h := isSame_iff.2 (holds?_eq_iff.1 h).1
  equal_of_same h hnull hnan := holds?_eq_iff.2 ⟨isSame_iff.1 h, hnull, hnan⟩
  same_of_tied h := by
    rw [order_eq_iff.1 h]
    exact isSame_iff.2 (.refl b)
  sorted_of_less := order_of_holds_lt
  sorted_of_greater := order_of_holds_gt
  refl := isSame_iff.2 (.refl a)
  symm h := by
    rw [isSame, decide_eq_true_iff] at h ⊢
    exact h.symm
  trans h h' := by
    rw [isSame, decide_eq_true_iff] at h h' ⊢
    exact h.trans h'
  same_iff := isSame_iff
  hashed_iff := by rw [isSame_iff, hashed_eq_iff]

/-- The zeros are equal and hashed as one although sorting tells them apart, and the least positive
number is greater than both. Two NaNs are structurally equal, but predicates find none equal. -/
theorem comparisons_agree_of_zeros :
    let negative := scalar (.number (.ofMagnitude true 0))
    let positive := scalar (.number .zero)
    let least := scalar (.number ⟨1⟩)
    let nan := scalar (.number .nan)
    let other := scalar (.number ⟨0xfff0000000000001⟩)
    holds? .eq negative positive = some true ∧ negative.isSame positive = true ∧
      negative.hashed = positive.hashed ∧ negative.order positive = .lt ∧
      holds? .lt positive least = some true ∧ positive.order least = .lt ∧
      holds? .gt least negative = some true ∧ least.order negative = .gt ∧
      nan.isSame other = true ∧ nan.hashed = other.hashed ∧
      holds? .eq nan other = some false := by
  intro negative positive least nan other
  have hequal : holds? .eq negative positive = some true := by decide
  have hless : holds? .lt positive least = some true := by decide
  have hgreater : holds? .gt least negative = some true := by decide
  have hzeros := comparisons_agree negative positive least
  have hnans := comparisons_agree nan other least
  have hsame : negative.isSame positive = true := hzeros.same_of_equal hequal
  have hnan : nan.isSame other = true := hnans.same_iff.2 (.nan (by decide) (by decide))
  exact ⟨hequal, hsame, hzeros.hashed_iff.2 hsame, by decide, hless,
    (comparisons_agree positive least nan).sorted_of_less hless, hgreater,
    (comparisons_agree least negative nan).sorted_of_greater hgreater, hnan,
    hnans.hashed_iff.2 hnan, by decide⟩

end Value

end Plexus
