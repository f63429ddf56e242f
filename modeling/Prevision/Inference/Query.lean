import Prevision.Error

/-!
# Queries

A question to a model is answered with the help of a solver for linear
programs or an enumerator for polyhedra. Either may be anything that answers
by steps of a monad: a function, when the monad is `Id`, or something that
keeps a record of what it was asked. Its answers need not be right. An
optimum is accepted only with a value for every variable.
-/

namespace Prevision

/-- Answers linear programs. -/
abbrev Solver (m : Type → Type) := LinearProgram → m Solution

/-- Turns descriptions of polyhedra into the other form, and finds the rows that they can do
without. -/
structure Enumerator (m : Type → Type) where
  convert : Description → m (Except Error Description)
  redundantRows : Description → m (Except Error (SortedSet Nat))

/-- A computation with a solver or an enumerator that may fail. -/
abbrev Query (m : Type → Type) := ExceptT Error m

/-- The optimum that a solution reports; any other status is an error. -/
def Solution.optimum (s : Solution) : Except Error Solution :=
  match s.status with
  | .optimal => .ok s
  | status => .error (.unsolved status)

/-- The optimum that a solution of `p` reports, with a value for every variable. -/
def Solution.optimumOf (s : Solution) (p : LinearProgram) : Except Error Solution := do
  let s ← s.optimum
  if s.primal.length = p.variableCount then return s
  else .error (.malformedProgram (.primalCount s.primal.length p.variableCount))

/-- A description that is in the given form. -/
def Description.expect (d : Description) (form : Form) : Except Error Description :=
  if d.form = form then .ok d else .error (.unexpectedForm form d.form)

namespace Query

variable {m : Type → Type} [Monad m] {α : Type}

/-- A result that needs no solver. -/
def ofExcept (r : Except Error α) : Query m α := ExceptT.mk (pure r)

/-- Asks the solver for the optimum of a program. -/
def optimum (solve : Solver m) (p : LinearProgram) : Query m Solution :=
  ExceptT.mk ((·.optimumOf p) <$> solve p)

end Query

end Prevision
