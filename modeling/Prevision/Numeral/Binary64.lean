import Prevision.Numeral.Shortest

/-!
# Binary floating-point numbers

A number of the IEEE 754 format of 64 bits stands for the decimal that it is
written as, and not for its exact binary value: the shortest decimal among
those that round to it, the nearest of these, the larger when two are
equally near. A decimal rounds to a number if it lies closer to it than to
any other of the format; one in the middle goes to the even neighbour.
-/

namespace Prevision.Numeral

/-- A binary floating-point number of 64 bits: a sign, an exponent of 11 bits and a fraction of
52 bits, from the highest bit on. -/
structure Binary64 where
  bits : UInt64
  deriving DecidableEq

namespace Binary64

/-- Whether the sign bit is set. -/
def isNegative (x : Binary64) : Bool := x.bits.toNat / 9223372036854775808 == 1

/-- The biased exponent. -/
def exponentField (x : Binary64) : Nat := x.bits.toNat / 4503599627370496 % 2048

/-- The bits of the fraction. -/
def fractionField (x : Binary64) : Nat := x.bits.toNat % 4503599627370496

/-- Whether the number is finite. -/
def isFinite (x : Binary64) : Bool := x.exponentField != 2047

/-- The absolute value is `significand · 2 ^ exponent`. -/
def significand (x : Binary64) : Nat :=
  if x.exponentField = 0 then x.fractionField else 4503599627370496 + x.fractionField

/-- The power of two in `significand · 2 ^ exponent`. -/
def exponent (x : Binary64) : Int :=
  if x.exponentField = 0 then -1074 else Int.ofNat x.exponentField - 1075

/-- The reals that round to the absolute value. Below a power of two the numbers of the format lie
twice as close as above it. -/
def rounding (x : Binary64) : Interval :=
  let quarter := power 2 (x.exponent - 2)
  let center := Int.ofNat (4 * x.significand)
  let below : Int := if x.fractionField = 0 ∧ 1 < x.exponentField then 1 else 2
  { low := Rat.ofInt (center - below) * quarter
    high := Rat.ofInt (center + 2) * quarter
    closed := x.significand % 2 == 0 }

/-- The decimal that a finite number is written as: 17 digits tell all of them apart. -/
def toDecimal (x : Binary64) : Rat :=
  if x.significand = 0 then 0
  else
    let size := x.rounding.shortest (Rat.ofInt (Int.ofNat x.significand) * power 2 x.exponent) 24
    if x.isNegative then -size else size

/-- The least number that rounds to no finite one: `2 ^ 1024`, the first power of two beyond the
format, less half the distance to the greatest number below it. -/
def overflow : Nat := Nat.pow 2 1024 - Nat.pow 2 970

/-- How a number that is not finite is written. -/
def nonFiniteText (x : Binary64) : String :=
  if x.fractionField ≠ 0 then "NaN" else if x.isNegative then "-inf" else "inf"

example : toDecimal ⟨0x3fb999999999999a⟩ = 1 / 10 := by decide +kernel

end Binary64

end Prevision.Numeral
