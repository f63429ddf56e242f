import Prevision.Linear.Row

/-!
# Rank

The rank of a list of rows, by Gaussian elimination in place. The rows in front
are in echelon form already. For each column the first of the other rows that
has an entry there comes to the front of them, clears the column from those
below it, and counts one; a column in which none of them has an entry is skipped.
-/

namespace Prevision

/-- Rows on their way to echelon form, and how many in front are in it. -/
structure Elimination where
  rows : List Row
  rank : Nat

namespace Elimination

/-- The rows with those at two positions exchanged. -/
def exchange (rows : List Row) (i j : Nat) : List Row :=
  (rows.set i (rows.getD j [])).set j (rows.getD i [])

/-- The row with its entry in a column cleared by a multiple of `lead`. -/
def clear (column : Nat) (lead row : Row) : Row :=
  if row.entry column = 0 then row else row.subMul (row.entry column / lead.entry column) lead

/-- The position of the first row with an entry in the column, past the rows in echelon form. -/
def pivot? (e : Elimination) (column : Nat) : Option Nat :=
  ((e.rows.drop e.rank).findIdx? fun row => row.entry column != 0).map (e.rank + ·)

/-- Elimination in one column. -/
def step (e : Elimination) (column : Nat) : Elimination :=
  match e.pivot? column with
  | none => e
  | some pivot =>
    let rows := exchange e.rows e.rank pivot
    let lead := rows.getD e.rank []
    { rows := rows.take (e.rank + 1) ++ (rows.drop (e.rank + 1)).map (clear column lead)
      rank := e.rank + 1 }

/-- Elimination in the first columns, one after another. -/
def run (rows : List Row) (columns : Nat) : Elimination :=
  (List.range columns).foldl step { rows, rank := 0 }

end Elimination

/-- The rank of a list of rows of one width. -/
def Row.rank (rows : List Row) : Nat := (Elimination.run rows (rows.headD []).length).rank

end Prevision
