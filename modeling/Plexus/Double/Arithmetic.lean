import Plexus.Double.Basic

/-!
# Arithmetic on doubles

A finite double is an integer multiple of a power of two, so sums and quotients are exact
rationals until the last step, which rounds to the nearest double and takes the even significand
on a tie. That step is `ofRatio`; everything else here decides signs, infinities and NaNs.
-/

namespace Plexus.Double

/-- The least power of two a double can be a multiple of is `2 ^ (-1074)`. -/
def leastExponent : Int := -1074

/-- The integer factor of a finite number's magnitude. -/
def significand (x : Double) : Nat :=
  if x.magnitude < exponentUnit then x.magnitude else x.magnitude % exponentUnit + exponentUnit

/-- The power of two that the significand of a finite number is multiplied by. -/
def exponent (x : Double) : Int :=
  if x.magnitude < exponentUnit then leastExponent
  else (x.magnitude / exponentUnit : Nat) - 1 + leastExponent

/-- The integer nearest to `num / den`, the even one on a tie. -/
def roundQuotient (num den : Nat) : Nat :=
  let floor := num / den
  let twice := 2 * (num % den)
  if den < twice || (twice = den && floor % 2 = 1) then floor + 1 else floor

/-- An exponent at which the rounded significand of `num / den` has at most 53 binary digits,
and 53 of them unless the exponent is already the least one. -/
def roundingExponent (num den : Nat) : Int :=
  let estimate : Int := (Nat.log2 num : Int) - Nat.log2 den - 53
  let scaled := num <<< (-estimate).toNat / (den <<< estimate.toNat)
  max leastExponent (if scaled < 2 * exponentUnit then estimate else estimate + 1)

/-- The double nearest to `num / den`, with the given sign; too large a quotient is infinite.
Adding the exponent field to the rounded significand lets a carry move into the exponent. -/
def ofRatio (negative : Bool) (num den : Nat) : Double :=
  if num = 0 then ofMagnitude negative 0
  else
    let e := roundingExponent num den
    let m := roundQuotient (num <<< (-e).toNat) (den <<< e.toNat)
    ofMagnitude negative (min infiniteMagnitude ((e - leastExponent).toNat * exponentUnit + m))

/-- The double nearest to a natural number. -/
def ofNat (n : Nat) : Double := ofRatio false n 1

/-- The double nearest to an integer. -/
def ofInt (n : Int) : Double := ofRatio (decide (n < 0)) n.natAbs 1

/-- The integer that a finite number is, if it is one. -/
def toInt? (x : Double) : Option Int :=
  let unit := 1 <<< (-x.exponent).toNat
  let whole := x.significand <<< x.exponent.toNat
  if x.isFinite ∧ whole % unit = 0 then
    let n : Int := (whole / unit : Nat)
    some (if x.isNegative then -n else n)
  else none

/-- A finite number as an integer multiple of `2 ^ e`, for `e` at most its exponent. -/
def multipleAt (x : Double) (e : Int) : Int :=
  let m : Nat := x.significand <<< (x.exponent - e).toNat
  if x.isNegative then -m else m

/-- The NaN with its quiet bit set. -/
def quiet (x : Double) : Double := ⟨x.bits ||| 0x0008000000000000⟩

/-- What an operation without a meaningful result gives: the quiet NaN with its sign bit set. -/
def invalid : Double := ⟨0xfff8000000000000⟩

/-- The first NaN among the operands, made quiet. -/
def nanOf (x y : Double) : Double := if x.isNaN then x.quiet else y.quiet

/-- The nearest double to `m * 2 ^ e` with the sign of `m`. -/
def ofMultiple (m e : Int) : Double :=
  ofRatio (decide (m < 0)) (m.natAbs <<< e.toNat) (1 <<< (-e).toNat)

/-- The sum. A zero sum is positive unless both operands are negative zeros. -/
def add (x y : Double) : Double :=
  if x.isNaN || y.isNaN then nanOf x y
  else if !x.isFinite then
    if y.isFinite || x.isNegative == y.isNegative then x else invalid
  else if !y.isFinite then y
  else
    let e := min x.exponent y.exponent
    let m := x.multipleAt e + y.multipleAt e
    if m = 0 then ofMagnitude (x.isNegative && y.isNegative) 0 else ofMultiple m e

/-- The quotient; its sign is negative when exactly one operand's is. -/
def div (x y : Double) : Double :=
  let negative := x.isNegative != y.isNegative
  if x.isNaN || y.isNaN then nanOf x y
  else if !x.isFinite then if y.isFinite then infinite negative else invalid
  else if !y.isFinite then ofMagnitude negative 0
  else if y.isZero then if x.isZero then invalid else infinite negative
  else
    let e := x.exponent - y.exponent
    ofRatio negative (x.significand <<< e.toNat) (y.significand <<< (-e).toNat)

instance : Add Double := ⟨add⟩

instance : Div Double := ⟨div⟩

end Plexus.Double
