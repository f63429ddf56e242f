import Prevision.DesirabilitySet

/-!
# Linear maps between gambles

A linear map is given by the image gamble of every state's indicator, and
takes a gamble to the sum of the images times its payoffs. Rays, cones and
sets of desirable gambles are mapped ray by ray.
-/

namespace Prevision

/-- A linear map, by the images of finitely many states. -/
structure GambleMap (σ τ : Type) [State σ] [State τ] where
  images : SortedMap σ (Gamble τ)
  deriving DecidableEq

namespace GambleMap

variable {σ τ : Type} [State σ] [State τ]

/-- The map without images. -/
def empty : GambleMap σ τ := ⟨∅⟩

/-- The map with the given images; of several for one state the last holds. -/
def ofList (images : List (σ × Gamble τ)) : GambleMap σ τ := ⟨.ofList images⟩

/-- The map that reads a gamble as one on pairs, which looks at the first component only. -/
def cylindrical (states : SortedSet σ) (other : SortedSet τ) : GambleMap σ (σ × τ) :=
  ⟨.tabulate states fun x => .indicator (.ofList (other.toList.map fun y => (x, y)))⟩

/-- The map with another image for a state. -/
def insert (M : GambleMap σ τ) (x : σ) (image : Gamble τ) : GambleMap σ τ :=
  ⟨M.images.insert x image⟩

/-- The map without the image of a state. -/
def erase (M : GambleMap σ τ) (x : σ) : GambleMap σ τ := ⟨M.images.erase x⟩

/-- The image of a state. -/
def image? (M : GambleMap σ τ) (x : σ) : Option (Gamble τ) := M.images.get? x

/-- Adds the image of a state times a payoff. -/
def addImage (M : GambleMap σ τ) (sum : Gamble τ) (x : σ) (payoff : Rat) :
    Except Error (Gamble τ) :=
  match M.image? x with
  | none => .error (.keyMissing (State.label x))
  | some image => .ok (sum + image.scale payoff)

/-- The image of a gamble, whose states all have one. -/
def apply (M : GambleMap σ τ) (f : Gamble σ) : Except Error (Gamble τ) :=
  f.table.toList.foldlM (fun sum e => M.addImage sum e.1 e.2) .empty

/-- The direction of the image of a ray. -/
def applyRay (M : GambleMap σ τ) (r : Ray σ) : Except Error (Ray τ) := do
  Ray.ofGamble (← M.apply r.gamble)

/-- The cone of the images of the rays of a cone. -/
def applyCone (M : GambleMap σ τ) (C : Cone σ) : Except Error (Cone τ) :=
  return .ofRays (← C.rays.toList.mapM M.applyRay)

/-- The set of the images of the cones of a set. -/
def applySet (M : GambleMap σ τ) (D : DesirabilitySet σ) : Except Error (DesirabilitySet τ) :=
  return .ofCones (← D.cones.toList.mapM M.applyCone)

end GambleMap

end Prevision
