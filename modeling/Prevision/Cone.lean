import Prevision.Ray

/-!
# Cones

A cone is given by finitely many rays. It is relatively open: its elements
are the sums of its rays with a positive weight on every one of them.
-/

namespace Prevision

/-- The relatively open cone of finitely many rays. -/
structure Cone (σ : Type) [State σ] where
  rays : SortedSet (Ray σ)
  deriving DecidableEq

namespace Cone

variable {σ : Type} [State σ]

theorem rays_injective {C D : Cone σ} (h : C.rays = D.rays) : C = D := by
  cases C; cases D; cases h; rfl

/-- Cones compare by their rays. -/
instance : Ordered (Cone σ) := .lift rays rays_injective

/-- The cone of a list of rays. -/
def ofRays (rs : List (Ray σ)) : Cone σ := ⟨.ofList rs⟩

/-- The cone of the directions of a list of gambles. -/
def ofGambles (fs : List (Gamble σ)) : Except Error (Cone σ) := return ofRays (← fs.mapM Ray.ofGamble)

/-- The cone of one ray. -/
def singleton (r : Ray σ) : Cone σ := ⟨.singleton r⟩

/-- The cone of the indicators of the states of an event. -/
def units (event : SortedSet σ) : Cone σ := ofRays (event.toList.map .unit)

/-- The cone of the opposite directions. -/
def negated (C : Cone σ) : Cone σ := ofRays (C.rays.toList.map .negated)

/-- The states where some ray has a payoff. -/
def domain (C : Cone σ) : SortedSet σ := .flatMap C.rays.toList Ray.domain

/-- The number of rays. -/
def size (C : Cone σ) : Nat := C.rays.size

/-- Whether there is no ray. -/
def isEmpty (C : Cone σ) : Bool := C.rays.isEmpty

/-- The element of the cone with weight one on every ray. -/
def barycenter (C : Cone σ) : Gamble σ := .sum (C.rays.toList.map Ray.gamble)

end Cone

end Prevision
