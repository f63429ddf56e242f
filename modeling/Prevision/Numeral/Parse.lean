import Prevision.Numeral.Power
import Prevision.Text.Blank

/-!
# Reading rational numbers

A numeral is a fraction `n/d` of two integers, or a decimal number with an
optional power of ten. Every digit counts: `0.4` is exactly two fifths,
however long the numeral and however large its exponent.

* An integer is an optional sign, a digit, and then digits and underscores,
  which only group the digits. A fraction has an integer on either side of
  its first `/`, with blanks around each allowed, and the lower one not zero.
* A decimal is an optional sign, digits with at most one point among them,
  and an optional exponent after `e` or `E`. There is at least one digit
  beside the point. The exponent, and the exponent less the number of digits
  after the point, fit in 64 bits with a sign.

Blanks around a numeral are not part of it.
-/

namespace Prevision.Numeral

/-- The number that a list of decimal digits writes. -/
def digitsValue (ds : List Char) : Nat := ds.foldl (fun n d => 10 * n + (d.toNat - '0'.toNat)) 0

/-- A leading sign, as whether it is a minus, and the text after it. -/
def splitSign : List Char → Bool × List Char
  | '-' :: rest => (true, rest)
  | '+' :: rest => (false, rest)
  | cs => (false, cs)

/-- The text before and after the first character that passes a test. -/
def splitAtFirst (p : Char → Bool) (cs : List Char) : Option (List Char × List Char) :=
  match cs.dropWhile (!p ·) with
  | [] => none
  | _ :: rest => some (cs.takeWhile (!p ·), rest)

/-- The negation of `n` where `negative` says so. -/
def signed (negative : Bool) (n : Nat) : Int := if negative then -Int.ofNat n else Int.ofNat n

/-- Whether `z` fits in 64 bits with a sign. -/
def fitsInt64 (z : Int) : Bool := -9223372036854775808 ≤ z && z ≤ 9223372036854775807

/-- Reads an integer whose digits may be grouped by underscores. -/
def integer? (cs : List Char) : Option Int :=
  let (negative, body) := splitSign cs
  match body with
  | [] => none
  | first :: rest =>
    if first.isDigit && rest.all fun c => c.isDigit || c == '_' then
      some (signed negative (digitsValue (body.filter Char.isDigit)))
    else none

/-- Reads a fraction, given the texts on either side of its bar. -/
def fraction? (numerator denominator : List Char) : Option Rat := do
  let n ← integer? (Text.trim numerator)
  let d ← integer? (Text.trim denominator)
  if d = 0 then none else some (Rat.divInt n d)

/-- Reads an exponent, which has a digit and fits in 64 bits. -/
def exponent? (cs : List Char) : Option Int :=
  let (negative, digits) := splitSign cs
  let value := signed negative (digitsValue digits)
  if !digits.isEmpty && digits.all Char.isDigit && fitsInt64 value then some value else none

/-- Reads the digits of a decimal, as the whole ones and those after the point. -/
def mantissa? (cs : List Char) : Option (List Char × List Char) :=
  let (whole, fraction) := (splitAtFirst (· == '.') cs).getD (cs, [])
  if (whole ++ fraction).isEmpty then none
  else if (whole ++ fraction).all Char.isDigit then some (whole, fraction)
  else none

/-- Reads a decimal with an optional exponent. -/
def decimal? (cs : List Char) : Option Rat := do
  let (body, exponent) ← match splitAtFirst (fun c => c == 'e' || c == 'E') cs with
    | some (body, tail) => (exponent? tail).map (body, ·)
    | none => some (cs, 0)
  let (negative, digits) := splitSign body
  let (whole, fraction) ← mantissa? digits
  let scale := exponent - Int.ofNat fraction.length
  if fitsInt64 scale then
    some (Rat.ofInt (signed negative (digitsValue (whole ++ fraction))) * power 10 scale)
  else none

/-- Reads a numeral. -/
def parse? (s : String) : Option Rat :=
  let cs := Text.trim s.toList
  match splitAtFirst (· == '/') cs with
  | some (numerator, denominator) => fraction? numerator denominator
  | none => decimal? cs

theorem splitAtFirst_eq_some {p : Char → Bool} {cs before after : List Char} :
    splitAtFirst p cs = some (before, after) ↔
      ∃ c, cs = before ++ c :: after ∧ p c = true ∧ ∀ b ∈ before, p b = false := by
  induction cs generalizing before with
  | nil => simp [splitAtFirst]
  | cons x rest ih =>
    by_cases h : p x = true
    · simp only [splitAtFirst, List.dropWhile_cons, List.takeWhile_cons, h, Bool.not_true]
      constructor
      · intro e
        simp only [Bool.false_eq_true, if_false, Option.some.injEq, Prod.mk.injEq] at e
        exact ⟨x, by simp [← e.1, ← e.2], h, by simp [← e.1]⟩
      · rintro ⟨c, e, hc, hb⟩
        cases before with
        | nil => simp_all
        | cons b before => simp_all
    · have split : splitAtFirst p (x :: rest) =
          (splitAtFirst p rest).map fun r => (x :: r.1, r.2) := by
        simp only [splitAtFirst, List.dropWhile_cons, List.takeWhile_cons, h]
        cases List.dropWhile (fun c => !p c) rest <;> simp
      rw [split, Option.map_eq_some_iff]
      constructor
      · rintro ⟨⟨b, a⟩, e, e'⟩
        obtain ⟨rfl, rfl⟩ := Prod.mk.inj e'
        obtain ⟨c, rfl, hc, hb⟩ := ih.1 e
        exact ⟨c, rfl, hc, by simpa [h] using hb⟩
      · rintro ⟨c, e, hc, hb⟩
        cases before with
        | nil => simp_all
        | cons b before =>
          simp only [List.cons_append, List.cons.injEq] at e
          exact ⟨(before, after), ih.2 ⟨c, e.2, hc, fun b hb' => hb b (.tail _ hb')⟩, by simp [e.1]⟩

end Prevision.Numeral
