import Prevision.Simplex.Optimize

/-!
# Solving linear programs

A program is solved in two phases, in exact arithmetic. The first maximizes
the negated sum of the artificial columns: the constraints have a solution
just when that sum can reach zero. The second maximizes the objective over
the other columns, from the solution that the first has found.

Both phases draw on one budget of pivots. A program whose budget runs out,
or that is not well formed, is undecided.
-/

namespace Prevision

namespace Simplex

/-- The number of pivots allowed where nothing else is said. -/
def defaultMaxPivots : Nat := 100000

/-- The objective of the first phase: minus the sum of the artificial columns. -/
def phaseOneCosts (t : Tableau) : Row :=
  Row.zero t.structural ++ List.replicate (t.columns - t.structural) (-1)

/-- The objective of the second phase: that of the program, to be maximized. -/
def phaseTwoCosts (t : Tableau) (objective : Objective) : Row :=
  let c := match objective.sense with
    | .maximize => objective.coefficients.tail
    | .minimize => Row.neg objective.coefficients.tail
  c ++ Row.neg c ++ Row.zero (t.columns - 2 * c.length)

/-- The second phase, from a tableau without artificial columns in the basis. -/
def phaseTwo (p : LinearProgram) (t : Tableau) (budget : Nat) : Solution :=
  match p.objective with
  | none => ⟨.optimal, none, t.primal p.variableCount⟩
  | some objective =>
    match t.maximize (phaseTwoCosts t objective) t.structural budget with
    | .unbounded => .failed .unbounded
    | .exhausted => .failed .undecided
    | .optimal t _ =>
      let x := t.primal p.variableCount
      ⟨.optimal, some (Row.eval objective.coefficients x), x⟩

/-- Solves a well-formed program. -/
def run (maxPivots : Nat) (p : LinearProgram) : Solution :=
  let start := Tableau.standardForm p
  match start.maximize (phaseOneCosts start) start.columns maxPivots with
  | .unbounded => .failed .undecided
  | .exhausted => .failed .undecided
  | .optimal t left =>
    if 0 < t.artificialMass then .failed .inconsistent
    else phaseTwo p t.withoutArtificials left

/-- Solves a program with at most `maxPivots` pivots. -/
def solve (maxPivots : Nat) (p : LinearProgram) : Solution :=
  if p.fault?.isSome then .failed .undecided else run maxPivots p

end Simplex

end Prevision
