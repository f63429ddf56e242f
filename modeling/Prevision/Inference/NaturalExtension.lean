import Prevision.DesirabilitySet
import Prevision.Inference.Query
import Prevision.Program.AffineForm

/-!
# Natural extension

The lower expectation of a gamble `f` on an event `E` is the supremum of the
prices `c` for which `f - c · I_E` is at least some nonnegative combination of
the rays, in every state of the possibility space and of `E`. The upper
expectation is what this says of the opposite gamble.
-/

namespace Prevision.DesirabilitySet

variable {σ : Type} [State σ] {m : Type → Type} [Monad m]

/-- The program for the lower expectation of a gamble: the price is variable zero, and the weights
of the rays follow. -/
def priceProgram (D : DesirabilitySet σ) (f : Gamble σ) : LinearProgram :=
  let rays := D.generators.toList
  let variableCount := 1 + rays.length
  let signs : List AffineForm := (List.range rays.length).map fun j => ⟨0, [(1 + j, 1)]⟩
  let margins : List AffineForm := (D.domain ∪ f.domain).toList.map fun x =>
    ⟨f.payoff x, (rays.zipIdx.map fun r => (1 + r.2, -r.1.payoff x)) ++
      if f.domain.contains x then [(0, -1)] else []⟩
  { rows := (signs ++ margins).map (AffineForm.toRow variableCount)
    equalities := ∅
    objective := some ⟨.maximize, AffineForm.toRow variableCount ⟨0, [(0, 1)]⟩⟩ }

/-- The lower expectation of a gamble, conditional on its domain. -/
def lowerExpectation (solve : Solver m) (D : DesirabilitySet σ) (f : Gamble σ) : Query m Rat :=
  if D.cones.isEmpty then throw .emptyDesirabilitySet
  else do
    let solution ← Query.optimum solve (D.priceProgram f)
    match solution.value with
    | some value => return value
    | none => throw (.malformedProgram .missingValue)

/-- The upper expectation of a gamble, conditional on its domain. -/
def upperExpectation (solve : Solver m) (D : DesirabilitySet σ) (f : Gamble σ) : Query m Rat :=
  return -(← D.lowerExpectation solve (-f))

end Prevision.DesirabilitySet
