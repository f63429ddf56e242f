import Prevision.Simplex.Tableau

/-!
# Pivoting by smallest indices

A tableau is improved pivot by pivot. The first column with a positive
reduced cost enters the basis. Of the lines with a positive coefficient for
it, one with the least ratio of right-hand side to coefficient leaves, and
among these the one with the smallest basic column. Choosing by smallest
indices keeps the pivots from going in circles.

A budget bounds the number of pivots; `optimize` hands back what is left.
-/

namespace Prevision

namespace Tableau

/-- What to do with a tableau next. -/
inductive Move where
  /-- No column improves the objective. -/
  | stop
  /-- A column improves the objective without end. -/
  | escape
  /-- Solve line `row` for column `column`. -/
  | pivot (row column : Nat)
  deriving DecidableEq

/-- How far the entering column may grow before the basic column of a line reaches zero. -/
structure Ratio where
  row : Nat
  limit : Rat
  basic : Nat

/-- Whether `a` leaves before `b`: by the limit, then by the basic column. -/
def Ratio.precedes (a b : Ratio) : Bool :=
  decide (a.limit < b.limit) || (a.limit == b.limit && decide (a.basic < b.basic))

/-- The limits that the lines set to column `j`. -/
def ratios (t : Tableau) (j : Nat) : List Ratio :=
  (t.lines.zipIdx.filter fun l => 0 < l.1.entry j).map fun l =>
    ⟨l.2, l.1.rhs / l.1.entry j, l.1.basic⟩

/-- The first of the ratios to leave. -/
def Ratio.first? : List Ratio → Option Ratio
  | [] => none
  | a :: rest =>
    match first? rest with
    | none => some a
    | some b => some (if b.precedes a then b else a)

/-- The first of the allowed columns with a positive reduced cost. -/
def entering? (reduced : Row) (allowed : Nat) : Option Nat :=
  (reduced.take allowed).findIdx? (0 < ·)

/-- The next move, with the first `allowed` columns for entry. -/
def move (t : Tableau) (reduced : Row) (allowed : Nat) : Move :=
  match entering? reduced allowed with
  | none => .stop
  | some j =>
    match Ratio.first? (t.ratios j) with
    | none => .escape
    | some ratio => .pivot ratio.row j

/-- The reduced costs after line `r` of the tableau was solved for column `j`. -/
def updateReduced (t : Tableau) (reduced : Row) (r j : Nat) : Row :=
  match t.lines[r]? with
  | none => reduced
  | some line => Row.subMul reduced (Row.entry reduced j) line.entries

/-- How a run of pivots ends. -/
inductive Outcome where
  /-- The tableau is optimal; so many pivots are left. -/
  | optimal (tableau : Tableau) (left : Nat)
  | unbounded
  | exhausted

/-- Pivots until the objective cannot grow, grows without end, or the budget is spent. -/
def optimize (allowed budget : Nat) (t : Tableau) (reduced : Row) : Outcome :=
  match t.move reduced allowed with
  | .stop => .optimal t budget
  | .escape => .unbounded
  | .pivot r j =>
    match budget with
    | 0 => .exhausted
    | budget + 1 =>
      let next := t.pivot r j
      optimize allowed budget next (next.updateReduced reduced r j)

/-- Maximizes `costs` over the first `allowed` columns. -/
def maximize (t : Tableau) (costs : Row) (allowed budget : Nat) : Outcome :=
  optimize allowed budget t (t.reducedCosts costs)

/-- Takes artificial columns out of the basis, for `count` lines from line `i` on: a line is solved
for its first structural column, and a line without one holds by the others and is dropped. -/
def driveOut : Nat → Nat → Tableau → Tableau
  | 0, _, t => t
  | count + 1, i, t =>
    match t.lines[i]? with
    | none => t
    | some line =>
      if line.basic < t.structural then driveOut count (i + 1) t
      else
        match (line.entries.take t.structural).findIdx? (· != 0) with
        | some j => driveOut count (i + 1) (t.pivot i j)
        | none => driveOut count i { t with lines := t.lines.eraseIdx i }

/-- The tableau with no artificial column in its basis. -/
def withoutArtificials (t : Tableau) : Tableau := driveOut t.lines.length 0 t

end Tableau

end Prevision
