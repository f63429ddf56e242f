/-!
# Writing rational numbers

A rational is written in lowest terms: its numerator, and the denominator
after a bar unless that is one.
-/

namespace Prevision.Numeral

/-- A rational as its numerator over its denominator. -/
def render (q : Rat) : String :=
  if q.den = 1 then q.num.repr else q.num.repr ++ "/" ++ q.den.repr

end Prevision.Numeral
