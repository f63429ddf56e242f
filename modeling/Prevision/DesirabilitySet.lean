import Prevision.Cone

/-!
# Sets of desirable gambles

An assessment calls every gamble of a cone desirable. A set of desirable
gambles holds finitely many such cones and stands for every sum of their
elements. A cone without rays says nothing, so the set never holds it.

A lower prevision `v` for a gamble `f` on an event `E` is the assessment that
`f - v · I_E` is desirable together with `I_E`, and an upper prevision is a
lower one for the opposite gamble.
-/

namespace Prevision

/-- A finite set of cones of desirable gambles, none of them without rays. -/
structure DesirabilitySet (σ : Type) [State σ] where
  cones : SortedSet (Cone σ)
  nonempty : ∀ C ∈ cones, C.isEmpty = false
  deriving DecidableEq

namespace DesirabilitySet

variable {σ : Type} [State σ]

/-- The set without assessments. -/
def empty : DesirabilitySet σ := ⟨∅, by simp⟩

/-- Adds a cone, unless it has no rays. -/
def insert (D : DesirabilitySet σ) (C : Cone σ) : DesirabilitySet σ :=
  if h : C.isEmpty = true then D
  else ⟨D.cones.insert C, fun A hA => by
    rcases SortedSet.mem_insert.1 hA with rfl | hA
    · simpa using h
    · exact D.nonempty A hA⟩

/-- Removes a cone. -/
def erase (D : DesirabilitySet σ) (C : Cone σ) : DesirabilitySet σ :=
  ⟨D.cones.erase C, fun A hA => D.nonempty A (SortedSet.mem_erase.1 hA).1⟩

/-- Adds the cones of a list. -/
def insertAll (D : DesirabilitySet σ) (Cs : List (Cone σ)) : DesirabilitySet σ := Cs.foldl insert D

/-- The set of a list of cones. -/
def ofCones (Cs : List (Cone σ)) : DesirabilitySet σ := empty.insertAll Cs

/-- Whether a cone is one of the assessments. -/
def contains (D : DesirabilitySet σ) (C : Cone σ) : Bool := D.cones.contains C

/-- Complete ignorance about an event: every state's indicator is desirable. -/
def vacuous (event : SortedSet σ) : DesirabilitySet σ :=
  ofCones (event.toList.map fun x => .singleton (.unit x))

/-- Adds the cone of one gamble. -/
def insertGamble (D : DesirabilitySet σ) (f : Gamble σ) : Except Error (DesirabilitySet σ) :=
  return D.insert (.singleton (← Ray.ofGamble f))

/-- The set of the cones of single gambles. -/
def ofGambles (fs : List (Gamble σ)) : Except Error (DesirabilitySet σ) :=
  fs.foldlM insertGamble empty

/-- The cone of one gamble, if the gamble has a direction and the cone is an assessment. -/
def gambleCone? (D : DesirabilitySet σ) (f : Gamble σ) : Option (Cone σ) :=
  match Ray.ofGamble f with
  | .ok r => if D.contains (.singleton r) then some (.singleton r) else none
  | .error _ => none

/-- Removes the cone of one gamble. -/
def eraseGamble (D : DesirabilitySet σ) (f : Gamble σ) : DesirabilitySet σ :=
  match D.gambleCone? f with
  | some C => D.erase C
  | none => D

/-- The states where some ray has a payoff. -/
def domain (D : DesirabilitySet σ) : SortedSet σ := .flatMap D.cones.toList Cone.domain

/-- The possibility space: the states where some ray has a payoff. -/
def possibilitySpace (D : DesirabilitySet σ) : Except Error (SortedSet σ) :=
  if D.cones.isEmpty then .error .emptyDesirabilitySet else .ok D.domain

/-- The rays of all cones. -/
def generators (D : DesirabilitySet σ) : SortedSet (Ray σ) := .flatMap D.cones.toList Cone.rays

/-- The cone of the assessment that `f` has the lower prevision `v`. Of a gamble that is `v` on all of
its domain only the indicator of the domain is left. -/
def lowerPrevisionCone (f : Gamble σ) (v : Rat) : Except Error (Cone σ) := do
  let indicator ← Ray.indicator f.domain
  let marginal := f - indicator.gamble.scale v
  if marginal.isZero then return .singleton indicator
  else return .ofRays [← Ray.ofGamble marginal, indicator]

/-- Assesses the lower prevision of `f` as `v`. -/
def setLowerPrevision (D : DesirabilitySet σ) (f : Gamble σ) (v : Rat) :
    Except Error (DesirabilitySet σ) :=
  return D.insert (← lowerPrevisionCone f v)

/-- Assesses the upper prevision of `f` as `v`. -/
def setUpperPrevision (D : DesirabilitySet σ) (f : Gamble σ) (v : Rat) :
    Except Error (DesirabilitySet σ) :=
  D.setLowerPrevision (-f) (-v)

/-- Assesses the lower and the upper prevision of `f` as `v`. -/
def setPrevision (D : DesirabilitySet σ) (f : Gamble σ) (v : Rat) :
    Except Error (DesirabilitySet σ) := do
  (← D.setLowerPrevision f v).setUpperPrevision f v

end DesirabilitySet

end Prevision
