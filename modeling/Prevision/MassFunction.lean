import Prevision.Gamble

/-!
# Mass functions

A mass function spreads a total mass of one over finitely many states, none
of which is left without mass; its masses may have either sign. A probability
mass function is one without a negative mass.

Restricted to an event, a mass function is conditioned: it is divided by the
mass of the event, which must not be zero. An expectation is conditional on
the domain of its gamble.
-/

namespace Prevision

/-- Masses that sum to one, on the states where they are not zero. -/
structure MassFunction (σ : Type) [State σ] where
  table : Table σ
  total_eq_one : table.total = 1
  ne_zero : ∀ v ∈ table.values, v ≠ 0
  deriving DecidableEq

namespace MassFunction

variable {σ : Type} [State σ]

theorem table_injective {m n : MassFunction σ} (h : m.table = n.table) : m = n := by
  cases m; cases n; cases h; rfl

/-- Mass functions compare by their tables. -/
instance : Ordered (MassFunction σ) := .lift table table_injective

/-- The mass function proportional to a gamble, whose payoffs do not sum to zero. -/
def ofGamble (f : Gamble σ) : Except Error (MassFunction σ) :=
  if h : f.mass = 0 then .error .zeroMass
  else .ok {
    table := (f.scale f.mass⁻¹).trimmed.table
    total_eq_one := by
      show (f.scale f.mass⁻¹).trimmed.mass = 1
      rw [Gamble.mass_trimmed, Gamble.mass_scale, Rat.inv_mul_cancel _ h]
    ne_zero := fun _ => Gamble.ne_zero_of_mem_values_trimmed }

/-- The same mass on every state of an event, which is not empty. -/
def uniform (event : SortedSet σ) : Except Error (MassFunction σ) := ofGamble (.indicator event)

/-- The mass of a state. -/
def mass (m : MassFunction σ) (x : σ) : Rat := m.table.payoff x

/-- The states that have mass. -/
def domain (m : MassFunction σ) : SortedSet σ := m.table.domain

/-- The mass function as a gamble. -/
def toGamble (m : MassFunction σ) : Gamble σ := ⟨m.table⟩

/-- The mass function conditional on an event. -/
def condition (m : MassFunction σ) (event : SortedSet σ) : Except Error (MassFunction σ) :=
  ofGamble ⟨m.table.restrict event⟩

/-- The expectation of a gamble conditional on its domain. -/
def expectation (m : MassFunction σ) (f : Gamble σ) : Except Error Rat := do
  let conditional ← m.condition (f.domain.filter m.table.contains)
  return Row.total (conditional.table.toList.map fun e => e.2 * f.payoff e.1)

/-- Whether no mass is negative. -/
def isNonnegative (m : MassFunction σ) : Bool := m.table.values.all (0 ≤ ·)

end MassFunction

/-- A mass function without negative masses. -/
structure Pmf (σ : Type) [State σ] where
  mass : MassFunction σ
  nonneg : mass.isNonnegative = true
  deriving DecidableEq

namespace Pmf

variable {σ : Type} [State σ]

theorem mass_injective {p q : Pmf σ} (h : p.mass = q.mass) : p = q := by
  cases p; cases q; cases h; rfl

/-- Probability mass functions compare by their masses. -/
instance : Ordered (Pmf σ) := .lift mass mass_injective

/-- The probability mass function of a mass function without negative masses. -/
def ofMass (m : MassFunction σ) : Except Error (Pmf σ) :=
  if h : m.isNonnegative = true then .ok ⟨m, h⟩ else .error .negativeMass

/-- The probability mass function proportional to a gamble. -/
def ofGamble (f : Gamble σ) : Except Error (Pmf σ) := MassFunction.ofGamble f >>= ofMass

/-- The same probability for every state of an event, which is not empty. -/
def uniform (event : SortedSet σ) : Except Error (Pmf σ) := MassFunction.uniform event >>= ofMass

/-- All probability on one state. -/
def dirac (x : σ) : Pmf σ where
  mass := {
    table := Table.indicator (.singleton x)
    total_eq_one := by
      show Row.total [1] = 1
      decide +kernel
    ne_zero := by
      intro v h
      have : v ∈ [(1 : Rat)] := h
      rw [List.mem_singleton.1 this]
      decide }
  nonneg := by
    show [(1 : Rat)].all (0 ≤ ·) = true
    decide

/-- The probability of a state. -/
def probability (p : Pmf σ) (x : σ) : Rat := p.mass.mass x

/-- The states of positive probability. -/
def domain (p : Pmf σ) : SortedSet σ := p.mass.domain

/-- The probability mass function conditional on an event. -/
def condition (p : Pmf σ) (event : SortedSet σ) : Except Error (Pmf σ) :=
  p.mass.condition event >>= ofMass

/-- The expectation of a gamble conditional on its domain. -/
def expectation (p : Pmf σ) (f : Gamble σ) : Except Error Rat := p.mass.expectation f

end Pmf

end Prevision
