/-!
# Dates and times of settings

A date of the calendar, a time of day, or a date with a time after it, which
may say how far it is from universal time. A text of settings may hold such
values, but only their extent matters here, so a reader takes one off the
front and hands back the rest.

A date lies in its month, an hour below twenty-four and a minute below sixty;
a second may be the sixtieth, which is added to some days.
-/

namespace Prevision.Toml

/-- Takes a number of so many digits off the front. -/
def number? (length : Nat) (cs : List Char) : Option (Nat × List Char) :=
  let digits := cs.take length
  if digits.length = length ∧ digits.all Char.isDigit then
    some (digits.foldl (fun n c => 10 * n + (c.toNat - '0'.toNat)) 0, cs.drop length)
  else none

/-- Takes a number of two digits between bounds off the front. -/
def pair? (least greatest : Nat) (cs : List Char) : Option (Nat × List Char) :=
  (number? 2 cs).filter fun r => least ≤ r.1 && r.1 ≤ greatest

/-- Takes a character off the front. -/
def mark? (c : Char) : List Char → Option (List Char)
  | [] => none
  | first :: rest => if first == c then some rest else none

/-- The number of days in a month. -/
def monthLength (year month : Nat) : Nat :=
  if month = 2 then
    if year % 4 = 0 ∧ (year % 100 ≠ 0 ∨ year % 400 = 0) then 29 else 28
  else if [4, 6, 9, 11].contains month then 30
  else 31

/-- Takes a date off the front. -/
def date? (cs : List Char) : Option (List Char) := do
  let (year, cs) ← number? 4 cs
  let (month, cs) ← pair? 1 12 (← mark? '-' cs)
  let (_, cs) ← pair? 1 (monthLength year month) (← mark? '-' cs)
  return cs

/-- Takes a time of day off the front, with digits after its second. -/
def time? (cs : List Char) : Option (List Char) := do
  let (_, cs) ← pair? 0 23 cs
  let (_, cs) ← pair? 0 59 (← mark? ':' cs)
  let (_, cs) ← pair? 0 60 (← mark? ':' cs)
  match cs with
  | '.' :: c :: rest => if c.isDigit then return rest.dropWhile Char.isDigit else none
  | _ => return cs

/-- Takes the distance from universal time off the front, if there is one. -/
def offset? (cs : List Char) : Option (List Char) :=
  match cs with
  | [] => some cs
  | c :: rest =>
    if c == 'Z' || c == 'z' then some rest
    else if c == '+' || c == '-' then do
      let (_, rest) ← pair? 0 23 rest
      let (_, rest) ← pair? 0 59 (← mark? ':' rest)
      return rest
    else some cs

/-- Takes a date, a time or both off the front. -/
def moment? (cs : List Char) : Option (List Char) :=
  match date? cs with
  | none => time? cs
  | some [] => some []
  | some (c :: rest) =>
    if c == 'T' || c == 't' then (time? rest).bind offset?
    else if c == ' ' then
      match time? rest with
      | none => some (c :: rest)
      | some rest => offset? rest
    else some (c :: rest)

end Prevision.Toml
