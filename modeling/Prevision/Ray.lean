import Prevision.Gamble

/-!
# Rays

A ray is a direction among gambles: all positive multiples of one gamble. It
is held as the multiple of norm one on its support, so gambles that are
positive multiples of each other have one ray.
-/

namespace Prevision

/-- A direction, as the gamble of norm one on its support. -/
structure Ray (σ : Type) [State σ] where
  gamble : Gamble σ
  norm_eq_one : gamble.norm = 1
  ne_zero : ∀ v ∈ gamble.values, v ≠ 0
  deriving DecidableEq

namespace Ray

variable {σ : Type} [State σ]

theorem gamble_injective {r s : Ray σ} (h : r.gamble = s.gamble) : r = s := by
  cases r; cases s; cases h; rfl

/-- Rays compare by their gambles. -/
instance : Ordered (Ray σ) := .lift gamble gamble_injective

/-- The direction of a gamble, which is not zero everywhere. -/
def ofGamble (f : Gamble σ) : Except Error (Ray σ) :=
  if h : f.norm = 0 then .error .degenerateRay
  else .ok {
    gamble := (f.scale f.norm⁻¹).trimmed
    norm_eq_one := by
      have pos : 0 < f.norm := Rat.lt_of_le_of_ne f.norm_nonneg (Ne.symm h)
      rw [Gamble.norm_trimmed, Gamble.norm_scale (Rat.inv_pos.2 pos), Rat.inv_mul_cancel _ h]
    ne_zero := fun _ => Gamble.ne_zero_of_mem_values_trimmed }

/-- The direction of the indicator of an event, which is not empty. -/
def indicator (event : SortedSet σ) : Except Error (Ray σ) := ofGamble (.indicator event)

/-- The direction of the indicator of one state. -/
def unit (x : σ) : Ray σ where
  gamble := .indicator (.singleton x)
  norm_eq_one := by
    show Row.norm [1] = 1
    decide +kernel
  ne_zero := by
    intro v h
    have : v ∈ [(1 : Rat)] := h
    rw [List.mem_singleton.1 this]
    decide

/-- The payoff in a state. -/
def payoff (r : Ray σ) (x : σ) : Rat := r.gamble.payoff x

/-- The states with a payoff, which is not zero. -/
def domain (r : Ray σ) : SortedSet σ := r.gamble.domain

/-- The opposite direction. -/
def negated (r : Ray σ) : Ray σ where
  gamble := -r.gamble
  norm_eq_one := by rw [Gamble.norm_neg, r.norm_eq_one]
  ne_zero := by
    intro v h
    have h : v ∈ r.gamble.table.neg.values := h
    rw [Table.values_neg] at h
    obtain ⟨w, hw, rfl⟩ := List.mem_map.1 h
    have := r.ne_zero w hw
    grind

end Ray

end Prevision
