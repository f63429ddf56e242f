import Prevision.Error
import Prevision.Numeral.Binary64
import Prevision.Numeral.Parse

/-!
# Quantities

The ways in which a rational number can be given. Each stands for exactly
the number that it shows: a text for what it reads as, a binary
floating-point number for the decimal that it is written as.
-/

namespace Prevision

/-- A rational number as it is given. -/
inductive Quantity where
  | rational (q : Rat)
  | integer (z : Int)
  /-- `mantissa / 10 ^ scale`. -/
  | decimal (mantissa : Int) (scale : Nat)
  | binary (x : Numeral.Binary64)
  | text (s : String)

namespace Quantity

/-- The number that a quantity stands for. -/
def toRational : Quantity → Except Error Rat
  | rational q => .ok q
  | integer z => .ok (Rat.ofInt z)
  | decimal mantissa scale => .ok (Rat.ofInt mantissa * Numeral.power 10 (-Int.ofNat scale))
  | binary x => if x.isFinite then .ok x.toDecimal else .error (.notARational x.nonFiniteText)
  | text s =>
    match Numeral.parse? s with
    | some q => .ok q
    | none => .error (.notARational s)

/-- The quotient of two integers, if there is one. -/
def ratio? (n d : Int) : Option Rat := if d = 0 then none else some (Rat.divInt n d)

end Quantity

end Prevision
