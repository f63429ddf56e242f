import Prevision.Numeral.Power

/-!
# Shortest decimals

Of the decimals inside an interval, the one with the fewest digits that lies
nearest to a given point of it. The multiples of a power of ten form a grid;
the first grid, from coarse to fine, with a point in the interval fixes the
number of digits, and if it has one then a neighbour of the given point on
the grid is one.
-/

namespace Prevision.Numeral

/-- An interval, with both ends or with neither. -/
structure Interval where
  low : Rat
  high : Rat
  closed : Bool

/-- Whether `q` lies in the interval. -/
def Interval.contains (I : Interval) (q : Rat) : Bool :=
  if I.closed then decide (I.low ≤ q) && decide (q ≤ I.high)
  else decide (I.low < q) && decide (q < I.high)

/-- The neighbour of `q` on the grid of multiples of `step` that lies in the interval, the nearer
of two, and the upper one when `q` is in the middle. -/
def Interval.neighbour? (I : Interval) (q step : Rat) : Option Rat :=
  let below := Rat.ofInt (q / step).floor * step
  let above := below + step
  match I.contains below, I.contains above with
  | true, true => some (if q - below < above - q then below else above)
  | true, false => some below
  | false, true => some above
  | false, false => none

/-- A power of ten above twice the positive number `q` has this exponent. -/
def magnitude (q : Rat) : Int :=
  Int.ofNat (Nat.toDigits 10 q.num.toNat).length - Int.ofNat (Nat.toDigits 10 q.den).length + 2

/-- The shortest decimal in the interval, by its point `q`, sought on as many grids below the
magnitude of `q` as `grids` says; `q` itself if none of them has a point inside. -/
def Interval.shortest (I : Interval) (q : Rat) (grids : Nat) : Rat :=
  ((List.range grids).findSome? fun i =>
    I.neighbour? q (power 10 (magnitude q - Int.ofNat i))).getD q

end Prevision.Numeral
