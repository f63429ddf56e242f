import Prevision.DesirabilitySet
import Prevision.Inference.Activation
import Prevision.Inference.Query

/-!
# Positive combinations of open cones

Is some positive multiple of a target gamble a sum of elements of some of the
given cones? Without a target the question is for a sum that is zero. One
linear program cannot ask this, since a cone takes part wholly or not at all.
So each round maximizes the number of activated cones and strips those that
are not activated, until no stripped cone has weight left: the activated
cones and their weights are then a `Witness`.

Every round but the last strips a cone, so there are at most as many rounds
as cones with rays.
-/

namespace Prevision

/-- Cones with a weight for each of their rays, that sum to `scale` times the target. -/
structure Witness (σ : Type) [State σ] where
  cones : List (Cone σ × Row)
  scale : Rat

namespace Witness

variable {σ : Type} [State σ]

/-- The weighted sum of the rays of all cones. -/
def combination (w : Witness σ) : Gamble σ :=
  .sum <| w.cones.flatMap fun c => (c.1.rays.toList.zip c.2).map fun e => e.1.gamble.scale e.2

end Witness

namespace ConeStrip

variable {σ : Type} [State σ] {m : Type → Type} [Monad m]

/-- The number of the variable for the multiple of the target. -/
def scaleVariable (active : List (Cone σ)) : Nat := Slot.rayCount active + active.length

/-- The slots of the active cones. -/
def slots (active : List (Cone σ)) : List (Slot σ) := Slot.ofCones active 0 (Slot.rayCount active)

/-- The weighted sum of the rays agrees with the multiple of the target in a state. -/
def balance (active : List (Cone σ)) (target : Option (Gamble σ)) (x : σ) : AffineForm :=
  ⟨0, (slots active).flatMap (Slot.payoffTerms 1 x) ++
    (target.map fun f => (scaleVariable active, -f.payoff x)).toList⟩

/-- The sum of the activations. -/
def activations (active : List (Cone σ)) : List (Nat × Rat) :=
  (slots active).map fun s => (s.activation, 1)

/-- The program of one round: to activate as many cones as possible, and at least one, in a
combination that agrees in every state with at least once the target. -/
def program (active : List (Cone σ)) (states : SortedSet σ) (target : Option (Gamble σ)) :
    LinearProgram :=
  let variableCount := scaleVariable active + target.toList.length
  let forms := states.toList.map (balance active target) ++
    (slots active).flatMap Slot.constraints ++
    [⟨-1, activations active⟩] ++
    target.toList.map fun _ => ⟨-1, [(scaleVariable active, 1)]⟩
  { rows := forms.map (AffineForm.toRow variableCount)
    equalities := .ofList (List.range states.size)
    objective := some ⟨.maximize, AffineForm.toRow variableCount ⟨0, activations active⟩⟩ }

/-- What the activated cones witness at an optimal point. -/
def witness (active : List (Cone σ)) (target : Option (Gamble σ)) (point : Row) : Witness σ where
  cones := ((slots active).filter (Slot.isActive point)).map fun s =>
    (s.cone, s.weights.map (Row.entry point))
  scale := if target.isSome then Row.entry point (scaleVariable active) else 1

/-- Strips cones round by round. -/
def strip (solve : Solver m) (states : SortedSet σ) (target : Option (Gamble σ))
    (active : List (Cone σ)) : Query m (Option (Witness σ)) :=
  if active.isEmpty then return none
  else ExceptT.mk do
    match ← (Query.optimum solve (program active states target)).run with
    | .error (.unsolved .inconsistent) => return .ok none
    | .error e => return .error e
    | .ok solution =>
      if h : (slots active).any (Slot.isStray solution.primal) = true then
        have : (Slot.activeCones solution.primal (slots active)).length < active.length := by
          simpa [slots] using Slot.length_activeCones_lt h
        (strip solve states target (Slot.activeCones solution.primal (slots active))).run
      else return .ok (some (witness active target solution.primal))
termination_by active.length

/-- Looks for a positive combination of the cones that is a positive multiple of the target, or,
without a target, one of at least one cone that is zero. -/
def feasible (solve : Solver m) (cones : List (Cone σ)) (target : Option (Gamble σ)) :
    Query m (Option (Witness σ)) :=
  let states := SortedSet.flatMap cones Cone.domain ∪ (target.map Gamble.domain).getD ∅
  strip solve states target (cones.filter fun C => !C.isEmpty)

end ConeStrip

namespace DesirabilitySet

variable {σ : Type} [State σ] {m : Type → Type} [Monad m]

/-- Whether a gamble is a sum of elements of the cones and of indicators of states. The zero gamble
is, if such a sum can be zero. -/
def isDesirable (solve : Solver m) (D : DesirabilitySet σ) (f : Gamble σ) : Query m Bool := do
  let cones := D.cones.toList ++ (vacuous (D.domain ∪ f.domain)).cones.toList
  let target := if f.isZero then none else some f
  return (← ConeStrip.feasible solve cones target).isSome

end DesirabilitySet

end Prevision
