import Plexus.Double.Arithmetic

/-!
# Shortest decimal text

The text of a finite number has the fewest significant digits that still read back as the same
number, and of those the decimal nearest to it. A decimal reads back when it lies in the interval
of reals that round to the number; the ends belong to the interval exactly when the significand
is even. On a grid of equidistant decimals, a point in the interval exists only if one of the
number's two neighbours on that grid is in it, so two candidates per grid are enough.

The text is always positional: no exponent, no point on integers, a minus sign on -0.
-/

namespace Plexus

/-- The decimal `digits * 10 ^ exponent`. -/
structure Decimal where
  digits : Nat
  exponent : Int
  deriving DecidableEq, Repr

/-- The same decimal without trailing zero digits, which `fuel` bounds. -/
def Decimal.stripped : Nat → Decimal → Decimal
  | 0, d => d
  | fuel + 1, d =>
    if d.digits ≠ 0 ∧ d.digits % 10 = 0 then stripped fuel ⟨d.digits / 10, d.exponent + 1⟩ else d

/-- Digits with the point in its place and no exponent. -/
def Decimal.positional (d : Decimal) : String :=
  let digits := (Nat.toDigits 10 d.digits)
  if 0 ≤ d.exponent then String.ofList (digits ++ List.replicate d.exponent.toNat '0')
  else
    let places := d.exponent.natAbs
    let padded := List.replicate (places + 1 - digits.length) '0' ++ digits
    let whole := padded.length - places
    String.ofList (padded.take whole ++ '.' :: padded.drop whole)

namespace Double

/-- A positive finite number with the interval of reals that round to it, all over one
denominator. -/
structure RoundingInterval where
  value : Nat
  lower : Nat
  upper : Nat
  denominator : Nat
  /-- The ends round to the number as well. -/
  closed : Bool

/-- The interval reaches half way to the neighbouring doubles. The one below is twice as near
when the significand is the least of its binade. -/
def roundingInterval (x : Double) : RoundingInterval :=
  let e := x.exponent - 2
  let m := x.significand
  let below := if m = exponentUnit ∧ 2 * exponentUnit ≤ x.magnitude then 1 else 2
  let scale := 1 <<< e.toNat
  ⟨4 * m * scale, (4 * m - below) * scale, (4 * m + 2) * scale, 1 <<< (-e).toNat, m % 2 = 0⟩

/-- The number `n / denominator` rounds to the same double. -/
def RoundingInterval.holds (i : RoundingInterval) (n : Nat) : Bool :=
  if i.closed then i.lower ≤ n && n ≤ i.upper else i.lower < n && n < i.upper

/-- The multiple of `10 ^ exponent` in the interval that is nearest to its number, the upper one
on a tie. -/
def RoundingInterval.nearest? (i : RoundingInterval) (exponent : Int) : Option Decimal :=
  let up := Nat.pow 10 (-exponent).toNat
  let unit := i.denominator * Nat.pow 10 exponent.toNat
  let scaled : RoundingInterval := ⟨i.value * up, i.lower * up, i.upper * up, unit, i.closed⟩
  let floor := scaled.value / unit
  let low := scaled.holds (floor * unit)
  let high := scaled.holds ((floor + 1) * unit)
  if low && (!high || 2 * (scaled.value % unit) < unit) then some ⟨floor, exponent⟩
  else if high then some ⟨floor + 1, exponent⟩
  else none

/-- The exponent of the leading decimal digit, or one less for a power of ten below one. -/
def RoundingInterval.leading (i : RoundingInterval) : Int :=
  if i.denominator ≤ i.value then
    ((Nat.toDigits 10 (i.value / i.denominator)).length : Int) - 1
  else -(Nat.toDigits 10 (i.denominator / i.value)).length

/-- The shortest decimal that reads back as a positive finite number. Seventeen digits always
suffice. -/
def shortest (x : Double) : Decimal :=
  let i := x.roundingInterval
  let hit := (List.range 17).findSome? fun (n : Nat) => i.nearest? (i.leading - n)
  (hit.getD ⟨0, 0⟩).stripped 20

/-- The text of a number. -/
def text (x : Double) : String :=
  if x.isNaN then "NaN"
  else
    let sign := if x.isNegative then "-" else ""
    if !x.isFinite then sign ++ "inf"
    else if x.isZero then sign ++ "0"
    else sign ++ (ofMagnitude false x.magnitude).shortest.positional

end Double

end Plexus
