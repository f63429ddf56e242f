import Prevision.Polyhedron.Basic
import Prevision.Program.Basic
import Prevision.Text.Quoted

/-!
# Errors

What can go wrong: an input that means nothing, a question to a model
without assessments, or a solver whose answer is of no use. `Error.message`
is how each is reported.
-/

namespace Prevision

/-- The cause of a failure. -/
inductive Error where
  /-- A text is no numeral. -/
  | notARational (literal : String)
  /-- A gamble that is zero everywhere has no direction. -/
  | degenerateRay
  /-- A probability mass function has a negative value. -/
  | negativeMass
  /-- The values of a mass function sum to zero. -/
  | zeroMass
  | divisionByZero
  /-- A function has no value at a state, given by its label. -/
  | keyMissing (label : String)
  /-- A description has the other form than the one asked for. -/
  | unexpectedForm (expected found : Form)
  /-- A credal set without members has no expectations. -/
  | emptyCredalSet
  /-- A set of desirable gambles without cones has no possibility space. -/
  | emptyDesirabilitySet
  /-- A linear program has no optimum, or none was found. -/
  | unsolved (status : Status)
  | malformedProgram (fault : LinearProgram.Fault)
  | malformedDescription (fault : Description.Fault)
  /-- An enumeration had more rays alive than it may. -/
  | enumerationLimit (rays : Nat)
  deriving DecidableEq

/-- Says that a row, which is part of what `owner` names, has the wrong width. -/
def widthMessage (owner : String) (entries expected : Nat) : String :=
  owner ++ " has " ++ entries.repr ++ " entries, expected " ++ expected.repr

/-- What a fault of a linear program is reported as. -/
def LinearProgram.Fault.message : Fault → String
  | rowWidth index entries expected => widthMessage ("row " ++ index.repr) entries expected
  | objectiveWidth entries expected => widthMessage "objective" entries expected
  | equalityRange index => "equality index " ++ index.repr ++ " is out of range"
  | primalCount values variableCount =>
    "solver returned " ++ values.repr ++ " primal values for " ++ variableCount.repr ++ " variables"
  | missingValue => "solver reported an optimum without a value"

/-- What a fault of a description is reported as. -/
def Description.Fault.message : Fault → String
  | noColumns => "matrix has no columns"
  | rowWidth index entries expected => widthMessage ("row " ++ index.repr) entries expected
  | linearRange index => "linear index " ++ index.repr ++ " is out of range"

/-- What an error is reported as. -/
def Error.message : Error → String
  | notARational literal => Text.quote literal ++ " is not a rational number"
  | degenerateRay => "rays cannot be generated by an identically zero gamble"
  | negativeMass => "probability mass functions must have nonnegative values"
  | zeroMass => "mass function has a total mass of zero"
  | divisionByZero => "division by zero"
  | keyMissing label => label ++ " is outside the domain of the function"
  | unexpectedForm expected found =>
    "expected a " ++ expected.text ++ " representation, got a " ++ found.text ++ " representation"
  | emptyCredalSet => "empty credal sets have no expectations"
  | emptyDesirabilitySet => "empty sets of desirable gambles have no possibility space"
  | unsolved status => "the linear program is " ++ status.text
  | malformedProgram fault => "malformed linear program: " ++ fault.message
  | malformedDescription fault => "malformed polyhedron matrix: " ++ fault.message
  | enumerationLimit rays => "double description exceeded " ++ rays.repr ++ " intermediate rays"

end Prevision
