import Mathlib.Algebra.Group.Nat.Defs
import Mathlib.Order.Compare
import Mathlib.Order.Monotone.Basic
import Plexus.Double.Arithmetic
import Plexus.Index.Key

/-!
# Index keys against predicates

Values have a common key exactly if a predicate finds them equal, and where both have keys and are
of one kind the keys are ordered as predicates order the values. For numbers this ties the total
order on words, after both zeros are made one and NaNs are left out, to the numeric order, which on
finite numbers is the order of the multiples of the least power of two that they are.
-/

namespace Plexus

namespace Double

/-- The number with both zeros made one. -/
def folded (x : Double) : Double := if x.isZero then zero else x

private theorem rank_folded (x : Double) :
    x.folded.rank = if x.place < 0 then x.place - 1 else x.place := by
  unfold folded
  split
  · rename_i hzero
    have hmagnitude : x.magnitude = 0 := of_decide_eq_true hzero
    have hrank : zero.rank = 0 := rfl
    rw [hrank, place, hmagnitude]
    split <;> rfl
  · rename_i hzero
    have hmagnitude : x.magnitude ≠ 0 := fun h => hzero (decide_eq_true h)
    rw [rank, place]
    split <;> split <;> omega

/-- With both zeros made one, the total order is the numeric order. -/
theorem compare_folded (x y : Double) : compare x.folded y.folded = compare x.place y.place := by
  have hcompare : compare x.folded y.folded = compare x.folded.rank y.folded.rank := rfl
  rw [hcompare, rank_folded, rank_folded]
  rcases lt_trichotomy x.place y.place with h | h | h
  · rw [compare_lt_iff_lt.2 h, compare_lt_iff_lt]
    split <;> split <;> omega
  · rw [h, compare_eq_iff_eq.2 rfl, compare_eq_iff_eq.2 rfl]
  · rw [compare_gt_iff_gt.2 h, compare_gt_iff_gt]
    split <;> split <;> omega

/-- Numbers are folded to one key if they are at one place in the order. -/
theorem folded_eq_iff {x y : Double} : x.folded = y.folded ↔ x.place = y.place := by
  rw [← Std.LawfulEqOrd.compare_eq_iff_eq (a := x.folded), compare_folded, compare_eq_iff_eq]

/-- The number of least powers of two that a word without its sign bit stands for. -/
private def scaled (m : Nat) : Nat :=
  if m < exponentUnit then m
  else (m % exponentUnit + exponentUnit) * 2 ^ (m / exponentUnit - 1)

private theorem scaled_of_le {q r : Nat} (hr : r < exponentUnit) :
    scaled (exponentUnit * (q + 1) + r) = (r + exponentUnit) * 2 ^ q := by
  have hpos : 0 < exponentUnit := by decide
  have hle : ¬exponentUnit * (q + 1) + r < exponentUnit := by
    rw [Nat.mul_succ]
    omega
  rw [scaled, if_neg hle, Nat.mul_add_mod, Nat.mod_eq_of_lt hr, Nat.mul_add_div hpos,
    Nat.div_eq_of_lt hr, Nat.add_zero, Nat.add_sub_cancel]

private theorem scaled_lt_succ (m : Nat) : scaled m < scaled (m + 1) := by
  have hpos : 0 < exponentUnit := by decide
  by_cases hm : m < exponentUnit
  · rcases Nat.lt_or_eq_of_le (Nat.succ_le_of_lt hm) with hlt | heq
    · rw [scaled, if_pos hm, scaled, if_pos hlt]
      exact Nat.lt_succ_self m
    · have hnext := scaled_of_le (q := 0) hpos
      rw [Nat.zero_add, Nat.mul_one, Nat.add_zero, Nat.zero_add, Nat.pow_zero, Nat.mul_one] at hnext
      rw [scaled, if_pos hm, ← Nat.succ_eq_add_one, heq, hnext]
      exact hm
  · -- within a binade a word is the next multiple, and past its end the multiples double
    obtain ⟨q, r, hr, rfl⟩ : ∃ q r, r < exponentUnit ∧ m = exponentUnit * (q + 1) + r := by
      refine ⟨m / exponentUnit - 1, m % exponentUnit, Nat.mod_lt _ hpos, ?_⟩
      have hone : 1 ≤ m / exponentUnit := (Nat.one_le_div_iff hpos).2 (Nat.le_of_not_lt hm)
      rw [Nat.sub_add_cancel hone, Nat.div_add_mod]
    rw [scaled_of_le hr]
    rcases Nat.lt_or_eq_of_le (Nat.succ_le_of_lt hr) with hlt | heq
    · rw [Nat.add_assoc, scaled_of_le hlt]
      exact Nat.mul_lt_mul_of_pos_right (by omega) (Nat.two_pow_pos q)
    · have hend : exponentUnit * (q + 1) + r + 1 = exponentUnit * (q + 1 + 1) + 0 := by
        rw [Nat.mul_succ _ (q + 1)]
        omega
      rw [hend, scaled_of_le hpos, Nat.pow_succ, Nat.zero_add, Nat.mul_comm (2 ^ q) 2,
        ← Nat.mul_assoc]
      exact Nat.mul_lt_mul_of_pos_right (by omega) (Nat.two_pow_pos q)

private theorem strictMono_scaled : StrictMono scaled := strictMono_nat_of_lt_succ scaled_lt_succ

/-- The least power of two times this is a finite number; an infinity counts as the first power of
two that is too large. -/
def multiple (x : Double) : Int :=
  let n := x.significand * 2 ^ (x.exponent - leastExponent).toNat
  if x.isNegative then -n else n

private theorem multiple_eq (x : Double) :
    x.multiple = if x.isNegative then -(scaled x.magnitude : Int) else scaled x.magnitude := by
  have hscaled : x.significand * 2 ^ (x.exponent - leastExponent).toNat = scaled x.magnitude := by
    unfold significand exponent scaled
    split
    · rw [Int.sub_self, Int.toNat_zero, Nat.pow_zero, Nat.mul_one]
    · have hexponent : ((x.magnitude / exponentUnit : Nat) - 1 + leastExponent - leastExponent :
          Int).toNat = x.magnitude / exponentUnit - 1 := by omega
      rw [hexponent]
  rw [multiple, hscaled]

/-- The numeric order is that of the multiples. -/
theorem compare_place (x y : Double) : compare x.place y.place = compare x.multiple y.multiple := by
  have hlt (x y : Double) : x.place < y.place ↔ x.multiple < y.multiple := by
    have hxy := strictMono_scaled.lt_iff_lt (a := x.magnitude) (b := y.magnitude)
    have hyx := strictMono_scaled.lt_iff_lt (a := y.magnitude) (b := x.magnitude)
    have hx := strictMono_scaled.lt_iff_lt (a := 0) (b := x.magnitude)
    have hy := strictMono_scaled.lt_iff_lt (a := 0) (b := y.magnitude)
    have hzero : scaled 0 = 0 := rfl
    rw [multiple_eq, multiple_eq, place, place]
    split <;> split <;> omega
  rcases lt_trichotomy x.place y.place with h | h | h
  · rw [compare_lt_iff_lt.2 h, eq_comm, compare_lt_iff_lt]
    exact (hlt x y).1 h
  · have hx := hlt x y
    have hy := hlt y x
    rw [compare_eq_iff_eq.2 h, eq_comm, compare_eq_iff_eq]
    omega
  · rw [compare_gt_iff_gt.2 h, eq_comm, compare_gt_iff_gt]
    exact (hlt y x).1 h

end Double

namespace IndexKey

private theorem ofScalar?_number {x : Double} {k : IndexKey} :
    ofScalar? (.number x) = some k ↔ x.isNaN = false ∧ number x.folded = k := by
  simp only [ofScalar?]
  cases x.isNaN <;> simp [Double.folded]

/-- Two values have a common key if a predicate finds them equal. -/
theorem ofScalar?_common {a b : Scalar} :
    (∃ k, ofScalar? a = some k ∧ ofScalar? b = some k) ↔ a.equals b = some true := by
  have hnull {k : IndexKey} : ofScalar? .null = some k ↔ False := by simp [ofScalar?]
  have hboolean (b : Bool) {k : IndexKey} : ofScalar? (.boolean b) = some k ↔ boolean b = k := by
    simp [ofScalar?]
  have htext (s : String) {k : IndexKey} : ofScalar? (.text s) = some k ↔ text s = k := by
    simp [ofScalar?]
  cases a <;> cases b <;> simp only [hnull, hboolean, htext, ofScalar?_number, Scalar.equals]
  case number.number x y =>
    simp only [Double.equals, Option.some.injEq, Bool.and_eq_true, Bool.not_eq_true', beq_iff_eq,
      ← Double.folded_eq_iff]
    constructor
    · rintro ⟨k, ⟨hx, rfl⟩, hy, hk⟩
      exact ⟨⟨hx, hy⟩, (number.inj hk).symm⟩
    · rintro ⟨⟨hx, hy⟩, heq⟩
      exact ⟨_, ⟨hx, rfl⟩, hy, congrArg number heq.symm⟩
  all_goals simp
  case boolean.boolean a b => exact eq_comm
  case text.text a b => exact eq_comm

/-- A value without a key is one that does not even equal itself. -/
theorem ofScalar?_eq_none {a : Scalar} : ofScalar? a = none ↔ a.equals a ≠ some true := by
  rw [ne_eq, ← ofScalar?_common, Option.eq_none_iff_forall_ne_some]
  exact ⟨fun h ⟨k, hk, _⟩ => h k hk, fun h k hk => h ⟨k, hk, hk⟩⟩

private theorem compare_of_numbers {x y : Double} {k l : IndexKey}
    (hx : ofScalar? (.number x) = some k) (hy : ofScalar? (.number y) = some l) :
    x.isNaN = false ∧ y.isNaN = false ∧ compare k l = compare x.place y.place := by
  obtain ⟨hnan, rfl⟩ := ofScalar?_number.1 hx
  obtain ⟨hnan', rfl⟩ := ofScalar?_number.1 hy
  exact ⟨hnan, hnan', Double.compare_folded x y⟩

/-- Keys of values of one kind are ordered as the values. -/
theorem compare?_of_keys {a b : Scalar} {k l : IndexKey} (ha : ofScalar? a = some k)
    (hb : ofScalar? b = some l) (hkind : a.kindName = b.kindName) :
    a.compare? b = some (compare k l) := by
  cases a with
  | null => cases ha
  | boolean p =>
    cases b with
    | boolean q =>
      cases ha
      cases hb
      rfl
    | _ => simp [Scalar.kindName] at hkind
  | number x =>
    cases b with
    | number y =>
      obtain ⟨hx, hy, hcompare⟩ := compare_of_numbers ha hb
      simp [Scalar.compare?, Double.compare?, hx, hy, hcompare]
    | _ => simp [Scalar.kindName] at hkind
  | text s =>
    cases b with
    | text t =>
      cases ha
      cases hb
      rfl
    | _ => simp [Scalar.kindName] at hkind

/-- Keys stand for values as predicates see them. A value has no key if it equals nothing, two
values have one key exactly if they are equal, and keys of one kind are ordered as their values,
numbers as the multiples that they are. The order of all keys is total, and only equal keys are
equal in it. -/
theorem agrees_with_predicates (a b : Scalar) :
    (ofScalar? a = none ↔ ¬∃ x, a.equals x = some true) ∧
      ((∃ k, ofScalar? a = some k ∧ ofScalar? b = some k) ↔ a.equals b = some true) ∧
      (∀ k l, ofScalar? a = some k → ofScalar? b = some l → a.kindName = b.kindName →
        a.compare? b = some (compare k l) ∧ ∀ x y, a = .number x → b = .number y →
          compare k l = compare x.multiple y.multiple) ∧
      ∀ k l m : IndexKey, (compare k l = .eq ↔ k = l) ∧ compare l k = (compare k l).swap ∧
        ((compare k l).isLE → (compare l m).isLE → (compare k m).isLE) := by
  refine ⟨?_, ofScalar?_common, fun k l ha hb hkind => ⟨compare?_of_keys ha hb hkind, ?_⟩,
    fun k l m => ⟨Std.LawfulEqOrd.compare_eq_iff_eq, Std.OrientedOrd.eq_swap,
      Std.TransOrd.isLE_trans⟩⟩
  · rw [ofScalar?_eq_none]
    constructor
    · rintro hself ⟨x, hx⟩
      -- a value that equals another one shares its key with it, and so equals itself
      obtain ⟨k, hk, -⟩ := ofScalar?_common.2 hx
      exact hself (ofScalar?_common.1 ⟨k, hk, hk⟩)
    · exact fun hnone hself => hnone ⟨a, hself⟩
  · rintro x y rfl rfl
    rw [(compare_of_numbers ha hb).2.2, Double.compare_place]

/-- The negative zero and the least positive number. -/
theorem agrees_with_predicates_of_least :
    let a : Scalar := .number ⟨0x8000000000000000⟩
    let b : Scalar := .number ⟨1⟩
    ofScalar? a = some (.number .zero) ∧ ofScalar? b = some (.number ⟨1⟩) ∧
      a.compare? b = some .lt ∧ compare (IndexKey.number .zero) (.number ⟨1⟩) = .lt ∧
        compare (Double.multiple ⟨0x8000000000000000⟩) (Double.multiple ⟨1⟩) = .lt := by
  intro a b
  have hkeys := (agrees_with_predicates a b).2.2.1 (.number .zero) (.number ⟨1⟩) rfl rfl rfl
  have hless : compare (IndexKey.number .zero) (.number ⟨1⟩) = .lt := by decide
  refine ⟨rfl, rfl, hless ▸ hkeys.1, hless, ?_⟩
  rw [← hkeys.2 _ _ rfl rfl, hless]

end IndexKey

end Plexus
