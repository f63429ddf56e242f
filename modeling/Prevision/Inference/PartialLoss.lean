import Prevision.DesirabilitySet
import Prevision.Inference.Activation
import Prevision.Inference.Query

/-!
# Avoiding partial loss

Desirable gambles incur partial loss if a sum of elements of some of their
cones is nowhere positive and somewhere negative. Each round looks at some of
the states and some of the cones, and maximizes the number of these states
where a combination is negative together with the number of these cones that
are activated. Only states and cones that count fully at the optimum go into
the next round. There is a loss once all states count and no cone is used
without being activated, and none once no state counts.

Every round but the last leaves out a state or a cone.
-/

namespace Prevision

namespace PartialLoss

variable {σ : Type} [State σ] {m : Type → Type} [Monad m]

/-- The slots of the active cones, after a variable for each active state. -/
def slots (states : List σ) (cones : List (Cone σ)) : List (Slot σ) :=
  Slot.ofCones cones 0 (Slot.rayCount cones + states.length)

/-- The number of the variable for the loss in the active state at a position. -/
def lossVariable (cones : List (Cone σ)) (position : Nat) : Nat := Slot.rayCount cones + position

/-- The combination is at most zero in a state, and at most minus its loss in an active one. -/
def loss (states : List σ) (cones : List (Cone σ)) (x : σ) : AffineForm :=
  let position := states.findIdx? fun y => compare x y == .eq
  ⟨0, (slots states cones).flatMap (Slot.payoffTerms (-1) x) ++
    (position.map fun i => (lossVariable cones i, -1)).toList⟩

/-- The loss in an active state counts up to one. -/
def lossBounds (cones : List (Cone σ)) (position : Nat) : List AffineForm :=
  [⟨0, [(lossVariable cones position, 1)]⟩, ⟨1, [(lossVariable cones position, -1)]⟩]

/-- The program of one round, over a possibility space and its active states and cones. -/
def program (space : SortedSet σ) (states : List σ) (cones : List (Cone σ)) : LinearProgram :=
  let variableCount := Slot.rayCount cones + states.length + cones.length
  let forms := (slots states cones).flatMap Slot.constraints ++
    (List.range states.length).flatMap (lossBounds cones) ++
    space.toList.map (loss states cones)
  let counted := (List.range (states.length + cones.length)).map fun i => (lossVariable cones i, 1)
  { rows := forms.map (AffineForm.toRow variableCount)
    equalities := ∅
    objective := some ⟨.maximize, AffineForm.toRow variableCount ⟨0, counted⟩⟩ }

/-- The active states where a point has a loss that counts fully. -/
def losingStates (states : List σ) (cones : List (Cone σ)) (point : Row) : List σ :=
  (states.zipIdx.filter fun x => Row.entry point (lossVariable cones x.2) == 1).map Prod.fst

theorem length_losingStates_le (states : List σ) (cones : List (Cone σ)) (point : Row) :
    (losingStates states cones point).length ≤ states.length := by
  rw [losingStates, List.length_map]
  exact Nat.le_trans (List.length_filter_le _ _) (by simp)

/-- Whether a point uses one of the active cones that it does not activate. -/
def hasStray (states : List σ) (cones : List (Cone σ)) (point : Row) : Bool :=
  (slots states cones).any (Slot.isStray point)

/-- The active cones that a point activates. -/
def activeCones (states : List σ) (cones : List (Cone σ)) (point : Row) : List (Cone σ) :=
  Slot.activeCones point (slots states cones)

/-- A round that does not end with a loss leaves out a state or a cone. -/
theorem next_lt {states : List σ} {cones : List (Cone σ)} {point : Row}
    (h : ¬((losingStates states cones point).length = states.length ∧
      hasStray states cones point = false)) :
    (losingStates states cones point).length + (activeCones states cones point).length <
      states.length + cones.length := by
  have fewerStates := length_losingStates_le states cones point
  have fewerCones := Slot.length_activeCones_le point (slots states cones)
  rw [slots, Slot.length_ofCones] at fewerCones
  by_cases stray : hasStray states cones point = true
  · have := Slot.length_activeCones_lt stray
    rw [slots, Slot.length_ofCones] at this
    exact Nat.add_lt_add_of_le_of_lt fewerStates this
  · have : (losingStates states cones point).length ≠ states.length :=
      fun e => h ⟨e, Bool.eq_false_iff.2 stray⟩
    exact Nat.add_lt_add_of_lt_of_le (by omega) fewerCones

/-- Decides round by round whether the active cones avoid partial loss in the active states. -/
def avoids (solve : Solver m) (space : SortedSet σ) (states : List σ) (cones : List (Cone σ)) :
    Query m Bool :=
  if states.isEmpty || cones.isEmpty then return true
  else do
    let point := (← Query.optimum solve (program space states cones)).primal
    if (losingStates states cones point).isEmpty then return true
    else if h : (losingStates states cones point).length = states.length ∧
        hasStray states cones point = false then
      return false
    else
      have := next_lt h
      avoids solve space (losingStates states cones point) (activeCones states cones point)
termination_by states.length + cones.length

end PartialLoss

/-- Whether no sum of elements of some cones is nowhere positive and somewhere negative. The empty
set avoids partial loss. -/
def DesirabilitySet.avoidsPartialLoss {σ : Type} [State σ] {m : Type → Type} [Monad m]
    (solve : Solver m) (D : DesirabilitySet σ) : Query m Bool :=
  PartialLoss.avoids solve D.domain D.domain.toList D.cones.toList

end Prevision
