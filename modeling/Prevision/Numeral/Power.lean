/-!
# Whole powers of a number

The scales of decimal and binary numerals: a power of ten or two, with an
exponent of either sign.
-/

namespace Prevision.Numeral

/-- `base ^ exponent`. -/
def power (base : Nat) (exponent : Int) : Rat :=
  if 0 ≤ exponent then Rat.ofInt (Int.ofNat (Nat.pow base exponent.toNat))
  else Rat.divInt 1 (Int.ofNat (Nat.pow base (-exponent).toNat))

example : power 10 3 = 1000 ∧ power 10 0 = 1 ∧ power 2 (-2) = 1 / 4 := by decide +kernel

end Prevision.Numeral
