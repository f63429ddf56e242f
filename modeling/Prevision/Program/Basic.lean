import Prevision.Linear.Row
import Prevision.Order.SortedSet

/-!
# Linear programs

A linear program asks for a point `x` that satisfies every constraint, and
among these for one with the best objective if there is an objective. A
constraint is a row `b :: a`, read as `b + a · x ≥ 0`, or `= 0` for the rows
listed as equalities. The variables have no sign of their own: a sign is a
constraint like any other.

`Feasible` says which points satisfy a program; `fault?` finds the first
reason why rows, objective and equalities do not fit together.
-/

namespace Prevision

/-- Whether an objective is to be large or small. -/
inductive Sense where
  | maximize
  | minimize
  deriving DecidableEq

/-- The affine form `c + a · x`, as the row `c :: a`, and the wanted direction. -/
structure Objective where
  sense : Sense
  coefficients : Row
  deriving DecidableEq

/-- Constraint rows, the indices of those that hold with equality, and an optional objective. -/
structure LinearProgram where
  rows : List Row
  equalities : SortedSet Nat
  objective : Option Objective
  deriving DecidableEq

/-- What a solver found out about a program. -/
inductive Status where
  /-- A point with the best objective, or any feasible point of a program without one. -/
  | optimal
  /-- No point satisfies the constraints. -/
  | inconsistent
  /-- The objective has no bound on the feasible points. -/
  | unbounded
  /-- The solver gave up. -/
  | undecided
  deriving DecidableEq

/-- The word for a status. -/
def Status.text : Status → String
  | optimal => "optimal"
  | inconsistent => "inconsistent"
  | unbounded => "unbounded"
  | undecided => "undecided"

/-- A solver's answer: a status, and for an optimum the objective's value and the point. -/
structure Solution where
  status : Status
  value : Option Rat
  primal : Row
  deriving DecidableEq

/-- The answer that is only a status. -/
def Solution.failed (status : Status) : Solution := ⟨status, none, []⟩

namespace LinearProgram

/-- Why a program or its solution is not well formed. -/
inductive Fault where
  /-- A row has another number of entries than the first. -/
  | rowWidth (index entries expected : Nat)
  /-- The objective has another number of entries than the rows. -/
  | objectiveWidth (entries expected : Nat)
  /-- An equality names a row that is not there. -/
  | equalityRange (index : Nat)
  /-- A solution has another number of values than there are variables. -/
  | primalCount (values variableCount : Nat)
  /-- An optimum came without the value of its objective. -/
  | missingValue
  deriving DecidableEq

/-- The number of variables, by the first row, or by the objective if there is no row. -/
def variableCount (p : LinearProgram) : Nat :=
  match p.rows, p.objective with
  | row :: _, _ => row.length - 1
  | [], some objective => objective.coefficients.length - 1
  | [], none => 0

/-- The first row whose width is not the given one, with its index. -/
def rowFault? (width : Nat) (rows : List Row) : Option (Nat × Nat) :=
  (rows.findIdx? fun row => row.length != width).map fun i => (i, (rows.getD i []).length)

/-- The first fault of a program: a row, else the objective, else an equality. -/
def fault? (p : LinearProgram) : Option Fault :=
  let width := p.variableCount + 1
  match rowFault? width p.rows with
  | some (index, entries) => some (.rowWidth index entries width)
  | none =>
    match p.objective.filter fun objective => objective.coefficients.length != width with
    | some objective => some (.objectiveWidth objective.coefficients.length width)
    | none => (p.equalities.toList.find? fun i => p.rows.length ≤ i).map .equalityRange

/-- Whether `x` satisfies the constraint with a given index. -/
def Holds (p : LinearProgram) (index : Nat) (row x : Row) : Prop :=
  if index ∈ p.equalities then Row.eval row x = 0 else 0 ≤ Row.eval row x

/-- Whether `x` gives every variable a value that together satisfy every constraint. -/
def Feasible (p : LinearProgram) (x : Row) : Prop :=
  x.length = p.variableCount ∧ ∀ index row, p.rows[index]? = some row → p.Holds index row x

end LinearProgram

end Prevision
