import Prevision.Inference.ConeStrip
import Prevision.Inference.Duality
import Prevision.Inference.NaturalExtension
import Prevision.Inference.PartialLoss
import Prevision.Inference.SureLoss
import Prevision.Polyhedron.DoubleDescription
import Prevision.Simplex.Solve

/-!
# Reasoners

A reasoner answers every question to sets of desirable gambles and credal
sets with one solver and one enumerator. The exact reasoner uses the simplex
method and the double description method in exact arithmetic, each within a
limit.
-/

namespace Prevision

/-- How much work a linear program and an enumeration may take. -/
structure Limits where
  maxPivots : Nat := Simplex.defaultMaxPivots
  maxRays : Nat := DoubleDescription.defaultMaxRays
  deriving DecidableEq

/-- A solver and an enumerator. -/
structure Reasoner (m : Type → Type) where
  solver : Solver m
  enumerator : Enumerator m

namespace Reasoner

/-- The exact reasoner within the given limits. -/
def within (limits : Limits) : Reasoner Id where
  solver := Simplex.solve limits.maxPivots
  enumerator := {
    convert := DoubleDescription.convert limits.maxRays
    redundantRows := DoubleDescription.redundantRows limits.maxRays }

/-- The exact reasoner within the usual limits. -/
def exact : Reasoner Id := within {}

variable {σ : Type} [State σ] {m : Type → Type} [Monad m] (r : Reasoner m)

/-- Whether desirable gambles avoid sure loss. -/
def avoidsSureLoss (D : DesirabilitySet σ) : Query m Bool := D.avoidsSureLoss r.solver

/-- Whether desirable gambles avoid partial loss. -/
def avoidsPartialLoss (D : DesirabilitySet σ) : Query m Bool := D.avoidsPartialLoss r.solver

/-- The lower expectation of a gamble under desirable gambles. -/
def lowerExpectation (D : DesirabilitySet σ) (f : Gamble σ) : Query m Rat :=
  D.lowerExpectation r.solver f

/-- The upper expectation of a gamble under desirable gambles. -/
def upperExpectation (D : DesirabilitySet σ) (f : Gamble σ) : Query m Rat :=
  D.upperExpectation r.solver f

/-- A positive combination of cones equal to a positive multiple of the target, or to zero. -/
def feasible (cones : List (Cone σ)) (target : Option (Gamble σ)) : Query m (Option (Witness σ)) :=
  ConeStrip.feasible r.solver cones target

/-- Whether desirable gambles make another gamble desirable. -/
def isDesirable (D : DesirabilitySet σ) (f : Gamble σ) : Query m Bool := D.isDesirable r.solver f

/-- The credal set of desirable gambles. -/
def toCredalSet (D : DesirabilitySet σ) : Query m (CredalSet σ) := D.toCredalSet r.enumerator

/-- The desirable gambles of a credal set. -/
def toDesirabilitySet (K : CredalSet σ) : Query m (DesirabilitySet σ) :=
  K.toDesirabilitySet r.enumerator

/-- The desirable gambles of a credal set, over some more states. -/
def toDesirabilitySetOn (K : CredalSet σ) (space : SortedSet σ) : Query m (DesirabilitySet σ) :=
  K.toDesirabilitySetOn r.enumerator space

/-- A credal set without the members that are mixtures of others, and how many those are. -/
def discardRedundant (K : CredalSet σ) : Query m (CredalSet σ × Nat) :=
  K.discardRedundant r.enumerator

end Reasoner

end Prevision
