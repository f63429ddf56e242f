import Prevision.DesirabilitySet
import Prevision.Inference.Query
import Prevision.Program.AffineForm

/-!
# Avoiding sure loss

Desirable gambles incur sure loss if some nonnegative combination of the rays
of their cones is at most minus one in every state of the possibility space.
One linear program without objective asks for such a combination.
-/

namespace Prevision.DesirabilitySet

variable {σ : Type} [State σ] {m : Type → Type} [Monad m]

/-- The program whose points are the combinations that make a sure loss. -/
def sureLossProgram (D : DesirabilitySet σ) : LinearProgram :=
  let rays := D.generators.toList
  let signs : List AffineForm := (List.range rays.length).map fun j => ⟨0, [(j, 1)]⟩
  let losses : List AffineForm := D.domain.toList.map fun x =>
    ⟨-1, rays.zipIdx.map fun r => (r.2, -r.1.payoff x)⟩
  ⟨(signs ++ losses).map (AffineForm.toRow rays.length), ∅, none⟩

/-- Whether no nonnegative combination of rays is a sure loss. The empty set avoids it. -/
def avoidsSureLoss (solve : Solver m) (D : DesirabilitySet σ) : Query m Bool :=
  if D.cones.isEmpty then return true
  else ExceptT.mk do
    match (← solve D.sureLossProgram).status with
    | .optimal => return .ok false
    | .inconsistent => return .ok true
    | status => return .error (.unsolved status)

end Prevision.DesirabilitySet
