import Prevision.Cone
import Prevision.Program.AffineForm

/-!
# Activating cones in a linear program

A relatively open cone takes part in a combination with a positive weight on
every ray, or not at all. A linear program states this by a variable between
zero and one for each cone, its activation, which no weight of the cone may
fall below: activation one means that the cone takes part.

`slots` numbers the variables: first the weights, ray by ray through all
cones, and the activations from a given number on.
-/

namespace Prevision

/-- A cone with the variables for the weights of its rays and for its activation. -/
structure Slot (σ : Type) [State σ] where
  cone : Cone σ
  weights : List Nat
  activation : Nat

namespace Slot

variable {σ : Type} [State σ]

/-- The slots of a list of cones, with weights and activations numbered on from the given ones. -/
def ofCones : List (Cone σ) → Nat → Nat → List (Slot σ)
  | [], _, _ => []
  | C :: rest, weight, activation =>
    ⟨C, List.range' weight C.size, activation⟩ ::
      ofCones rest (weight + C.size) (activation + 1)

/-- The number of rays of a list of cones. -/
def rayCount : List (Cone σ) → Nat
  | [] => 0
  | C :: rest => C.size + rayCount rest

/-- The activation lies between zero and one, and each weight is nonnegative and not below it. -/
def constraints (s : Slot σ) : List AffineForm :=
  [⟨0, [(s.activation, 1)]⟩, ⟨1, [(s.activation, -1)]⟩] ++
    s.weights.flatMap fun w => [⟨0, [(w, 1)]⟩, ⟨0, [(w, 1), (s.activation, -1)]⟩]

/-- The terms of `sign` times the payoff in a state of the weighted sum of the rays. -/
def payoffTerms (sign : Rat) (x : σ) (s : Slot σ) : List (Nat × Rat) :=
  (s.weights.zip s.cone.rays.toList).map fun e => (e.1, sign * e.2.payoff x)

/-- Whether a point activates the cone. -/
def isActive (point : Row) (s : Slot σ) : Bool := Row.entry point s.activation == 1

/-- Whether a point gives a ray of the cone a weight that is not zero. -/
def isUsed (point : Row) (s : Slot σ) : Bool := s.weights.any fun w => Row.entry point w != 0

/-- Whether a point uses a cone that it does not activate. -/
def isStray (point : Row) (s : Slot σ) : Bool := !s.isActive point && s.isUsed point

/-- The activated cones among a list of slots. -/
def activeCones (point : Row) (slots : List (Slot σ)) : List (Cone σ) :=
  (slots.filter (isActive point)).map Slot.cone

@[simp] theorem length_ofCones (Cs : List (Cone σ)) (w a : Nat) :
    (ofCones Cs w a).length = Cs.length := by
  induction Cs generalizing w a with
  | nil => rfl
  | cons C rest ih => simp [ofCones, ih]

theorem length_activeCones_le (point : Row) (slots : List (Slot σ)) :
    (activeCones point slots).length ≤ slots.length := by
  rw [activeCones, List.length_map]
  exact List.length_filter_le _ _

/-- A stray cone is not activated. -/
theorem length_activeCones_lt {point : Row} {slots : List (Slot σ)}
    (h : slots.any (isStray point) = true) : (activeCones point slots).length < slots.length := by
  rw [activeCones, List.length_map]
  obtain ⟨s, hs, stray⟩ := List.any_eq_true.1 h
  refine List.length_filter_lt_length_iff_exists.2 ⟨s, hs, ?_⟩
  simp only [isStray, Bool.and_eq_true, Bool.not_eq_true'] at stray
  simp [stray.1]

end Slot

end Prevision
