import Std.Data.ExtTreeMap

/-!
# Double-precision numbers

A number is the word of a binary floating-point value with 11 exponent and 52 fraction bits. Two
orders live on it. The numeric comparison identifies the two zeros and leaves every NaN
incomparable, itself included. The total order ranks every word: negative NaNs, negative
numbers, -0, +0, positive numbers, positive NaNs. Both are read off the sign and the remaining
63 bits, whose order as a natural number is the order of magnitudes.
-/

namespace Plexus

/-- A double-precision number, kept as its 64-bit word so that every NaN and both zeros differ. -/
structure Double where
  bits : UInt64
  deriving DecidableEq, Repr

namespace Double

/-- The place value of the sign bit. -/
abbrev signUnit : Nat := 0x8000000000000000

/-- The place value of the lowest exponent bit; smaller words are fractions. -/
abbrev exponentUnit : Nat := 0x10000000000000

/-- The word without its sign bit. -/
def magnitude (x : Double) : Nat := x.bits.toNat % signUnit

/-- The sign bit is set. -/
def isNegative (x : Double) : Bool := signUnit ≤ x.bits.toNat

/-- The magnitude shared by both infinities; NaNs lie above it. -/
def infiniteMagnitude : Nat := 0x7ff * exponentUnit

def isNaN (x : Double) : Bool := infiniteMagnitude < x.magnitude

def isFinite (x : Double) : Bool := x.magnitude < infiniteMagnitude

def isZero (x : Double) : Bool := x.magnitude = 0

/-- The number with the given sign and magnitude. -/
def ofMagnitude (negative : Bool) (magnitude : Nat) : Double :=
  ⟨UInt64.ofNat (if negative then signUnit + magnitude else magnitude)⟩

def zero : Double := ⟨0⟩

/-- Infinity of the given sign. -/
def infinite (negative : Bool) : Double := ofMagnitude negative infiniteMagnitude

/-- The quiet NaN with a clear sign and payload. -/
def nan : Double := ⟨0x7ff8000000000000⟩

/-- Place of a number in the numeric order; both zeros have place 0. -/
def place (x : Double) : Int := if x.isNegative then -x.magnitude else x.magnitude

/-- Rank of a word in the total order, where -0 is just below +0. -/
def rank (x : Double) : Int := if x.isNegative then -x.magnitude - 1 else x.magnitude

/-- Numeric equality: the zeros are equal, and no NaN equals anything. -/
def equals (x y : Double) : Bool := !x.isNaN && !y.isNaN && x.place == y.place

/-- Numeric comparison; absent when an operand is NaN. -/
def compare? (x y : Double) : Option Ordering :=
  if x.isNaN || y.isNaN then none else some (compare x.place y.place)

/-- One representative for the two zeros and one for all NaNs. -/
def canonical (x : Double) : Double := if x.isZero then zero else if x.isNaN then nan else x

/-- Words are ordered by rank. -/
instance : Ord Double := ⟨compareOn rank⟩

instance : Std.TransOrd Double := inferInstanceAs (Std.TransCmp (compareOn rank))

/-- Different words have different ranks. -/
theorem rank_injective {x y : Double} (h : x.rank = y.rank) : x = y := by
  obtain ⟨a⟩ := x
  obtain ⟨b⟩ := y
  have ha := a.toNat_lt
  have hb := b.toNat_lt
  simp only [rank, isNegative, magnitude, signUnit, decide_eq_true_eq] at h
  congr 1
  apply UInt64.toNat_inj.1
  split at h <;> split at h <;> omega

instance : Std.LawfulEqOrd Double where
  eq_of_compare h := rank_injective (Std.LawfulEqOrd.eq_of_compare h)

end Double

end Plexus
