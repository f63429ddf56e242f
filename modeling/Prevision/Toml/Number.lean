import Prevision.Numeral.Binary64
import Prevision.Numeral.Parse
import Prevision.Toml.Scalar

/-!
# Numbers of settings

A number in the TOML format is an integer of 64 bits with a sign, in decimal
or in another base that is marked, or a floating-point number. Underscores
group digits and stand between two of them, and no needless zero stands in
front.

A floating-point number has a point, an exponent or both, or is one of two
names. Its value has no use here, but one too large for 64 bits is an error.
Only a positive number is too large: a negative one has no limit.
-/

namespace Prevision.Toml

/-- The number that digits of a base write; underscores stand between digits only. -/
def digits? (base : Nat) : List Char → Option Nat
  | [] => none
  | first :: rest => do
    let digit (c : Char) : Option Nat := (hexDigit? c).filter (· < base)
    let rec go (value : Nat) : List Char → Option Nat
      | [] => some value
      | '_' :: c :: rest => do go (base * value + (← digit c)) rest
      | c :: rest => do go (base * value + (← digit c)) rest
    go (← digit first) rest

/-- The value of decimal digits without a needless zero in front. -/
def decimalDigits? (cs : List Char) : Option Nat :=
  match cs with
  | '0' :: _ :: _ => none
  | _ => digits? 10 cs

/-- Reads an integer. -/
def integer? (cs : List Char) : Option Int := do
  let z ← match cs with
    | '0' :: 'x' :: ds => (digits? 16 ds).map Int.ofNat
    | '0' :: 'o' :: ds => (digits? 8 ds).map Int.ofNat
    | '0' :: 'b' :: ds => (digits? 2 ds).map Int.ofNat
    | _ =>
      let (negative, ds) := Numeral.splitSign cs
      (decimalDigits? ds).map (Numeral.signed negative)
  if Numeral.fitsInt64 z then some z else none

/-- The number `mantissa * 10 ^ exponent`. -/
structure Decimal where
  mantissa : Nat
  exponent : Int

namespace Decimal

/-- Reads digits with a point among them, for a given exponent. -/
def ofPoint? (exponent : Int) (whole fraction : List Char) : Option Decimal := do
  let places := (fraction.filter (· != '_')).length
  let high ← decimalDigits? whole
  let low ← digits? 10 fraction
  return ⟨high * Nat.pow 10 places + low, exponent - Int.ofNat places⟩

/-- Reads an exponent. -/
def exponent? (cs : List Char) : Option Int :=
  let (negative, ds) := Numeral.splitSign cs
  (digits? 10 ds).map (Numeral.signed negative)

/-- Reads digits with a point, an exponent or both. -/
def read? (cs : List Char) : Option Decimal :=
  match Numeral.splitAtFirst (fun c => c == 'e' || c == 'E') cs with
  | none => do
    let (whole, fraction) ← Numeral.splitAtFirst (· == '.') cs
    ofPoint? 0 whole fraction
  | some (body, tail) => do
    let exponent ← exponent? tail
    match Numeral.splitAtFirst (· == '.') body with
    | none => return ⟨← decimalDigits? body, exponent⟩
    | some (whole, fraction) => ofPoint? exponent whole fraction

/-- Whether the number rounds to none of 64 bits. The least such number has 309 digits, so a number
with fewer or more digits before its point is not compared. -/
def isTooLarge (d : Decimal) : Bool :=
  let length := Int.ofNat (Nat.toDigits 10 d.mantissa).length + d.exponent
  d.mantissa != 0 && (309 < length || (length == 309 &&
    decide (Rat.ofInt (Int.ofNat Numeral.Binary64.overflow) ≤
      Rat.ofInt (Int.ofNat d.mantissa) * Numeral.power 10 d.exponent)))

end Decimal

/-- Whether characters form a floating-point number. -/
def isFloat (cs : List Char) : Bool :=
  let (negative, body) := Numeral.splitSign cs
  body == ['i', 'n', 'f'] || body == ['n', 'a', 'n'] ||
    (Decimal.read? body).any fun d => negative || !d.isTooLarge

example : isFloat "1.5e3".toList = true ∧ isFloat "-2e308".toList = true ∧
    isFloat "2e308".toList = false ∧ isFloat "12".toList = false := by decide +kernel

end Prevision.Toml
