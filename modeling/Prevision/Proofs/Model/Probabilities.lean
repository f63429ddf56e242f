import Mathlib.Algebra.BigOperators.Field
import Mathlib.Algebra.Order.BigOperators.Group.Finset
import Prevision.CredalSet
import Prevision.Proofs.Model.Payoffs

/-!
# Probabilities and conditional expectations

What the values of a mass function say of it, of either sign or as probabilities,
and its expectations as quotients.

* `MassFunction.mass_injective`, `Pmf.probability_injective`: the values tell mass functions apart;
* `MassFunction.sum_mass`, `Pmf.sum_probability`: they sum to one;
* `Pmf.exists_ofGamble`: a nonnegative gamble with a positive mass is normalized to a mass function;
* `MassFunction.exists_condition`: given an event that does not sum to zero, the values in the
  event are divided by their sum, and the others are zero;
* `MassFunction.expectation_eq`, `Pmf.expectation_eq`: an expectation is the sum of the payoffs
  times the values over the measure of the event;
* `MassFunction.expectation_eq_error`, `Pmf.expectation_eq_error`: given an event of measure zero,
  there is none;
* `Pmf.expectation_eq_ok_iff`: a value is the expectation if it weighs the event as the payoffs
  weigh its states;
* `Pmf.expectation_neg_eq_ok_iff`: the opposite gamble has the opposite expectation.
-/

namespace Prevision

variable {σ : Type} [State σ]

/-! ## Mass functions of either sign -/

namespace MassFunction

variable {m n : MassFunction σ} {f : Gamble σ} {E S : SortedSet σ} {x : σ}

theorem mass_eq_zero (h : x ∉ m.domain) : m.mass x = 0 := Table.payoff_eq_zero h

theorem exists_mem_table (h : x ∈ m.domain) : (x, m.mass x) ∈ m.table.toList := by
  obtain ⟨v, hv⟩ := Table.mem_domain.1 h
  rwa [show m.mass x = v from Table.payoff_of_mem hv]

theorem mem_domain : x ∈ m.domain ↔ m.mass x ≠ 0 := by
  refine ⟨fun h => ?_, fun ne => not_not.1 fun out => ne (mass_eq_zero out)⟩
  exact m.ne_zero _ (List.mem_map_of_mem (exists_mem_table h))

theorem sum_mass (within : ∀ x ∈ m.domain, x ∈ S) : ∑ x ∈ S.toFinset, m.mass x = 1 :=
  (Table.total_eq_sum within).symm.trans m.total_eq_one

/-- Mass functions with the same values are equal, since they have an entry where they are not zero. -/
theorem mass_injective (h : m.mass = n.mass) : m = n := by
  have domain : m.toGamble.domain = n.toGamble.domain := SortedSet.ext fun x => by
    rw [show x ∈ m.toGamble.domain ↔ _ from mem_domain, h]
    exact mem_domain.symm
  exact table_injective (congrArg Gamble.table (Gamble.ext_payoff domain h))

theorem isNonnegative_iff : m.isNonnegative = true ↔ ∀ x, 0 ≤ m.mass x := by
  rw [isNonnegative, List.all_eq_true]
  constructor
  · intro nonneg x
    by_cases hx : x ∈ m.domain
    · exact of_decide_eq_true (nonneg _ (List.mem_map_of_mem (exists_mem_table hx)))
    · exact (mass_eq_zero hx).ge
  · intro nonneg v hv
    obtain ⟨e, he, rfl⟩ := List.mem_map.1 hv
    rw [← Table.payoff_of_mem (v := e.2) he]
    exact decide_eq_true (nonneg e.1)

theorem exists_ofGamble (h : f.mass ≠ 0) :
    ∃ m, ofGamble f = .ok m ∧ ∀ x, m.mass x = f.mass⁻¹ * f.payoff x := by
  rw [ofGamble, dif_neg h]
  refine ⟨_, rfl, fun x => ?_⟩
  exact (Table.payoff_trimmed (f := (f.scale f.mass⁻¹).table)).trans (Gamble.payoff_scale _ f x)

theorem ofGamble_eq_error (h : f.mass = 0) : ofGamble f = .error .zeroMass := dif_pos h

/-- The measure of an event, which may have either sign. -/
def measure (m : MassFunction σ) (event : SortedSet σ) : ℚ := ∑ x ∈ event.toFinset, m.mass x

theorem mass_restrict (m : MassFunction σ) (E : SortedSet σ) :
    (⟨m.table.restrict E⟩ : Gamble σ).mass = m.measure E := by
  have within : ∀ x ∈ Table.domain (m.table.restrict E), x ∈ E := fun x hx => Table.domain_tabulate E _ ▸ hx
  exact (Table.total_eq_sum within).trans
    (Finset.sum_congr rfl fun x hx => Table.payoff_restrict.trans (if_pos hx))

/-- Given an event of measure zero, there is no mass function. -/
theorem condition_eq_error (zero : m.measure E = 0) : m.condition E = .error .zeroMass :=
  ofGamble_eq_error ((m.mass_restrict E).trans zero)

/-- Given an event of another measure, the values in the event are divided by it. -/
theorem exists_condition (ne : m.measure E ≠ 0) :
    ∃ n, m.condition E = .ok n ∧ ∀ x, n.mass x = if x ∈ E then m.mass x / m.measure E else 0 := by
  obtain ⟨n, found, value⟩ := exists_ofGamble ((m.mass_restrict E).trans_ne ne)
  refine ⟨n, found, fun x => ?_⟩
  rw [value, mass_restrict, show Gamble.payoff ⟨m.table.restrict E⟩ x = _ from Table.payoff_restrict,
    mul_ite, mul_zero, inv_mul_eq_div]
  rfl

theorem mem_filter_contains : x ∈ E.filter m.table.contains ↔ x ∈ E ∧ x ∈ m.domain :=
  SortedSet.mem_filter.trans (and_congr_right fun _ => Table.contains_iff)

/-- States without mass have no part in a measure. -/
theorem measure_filter_contains (m : MassFunction σ) (E : SortedSet σ) :
    m.measure (E.filter m.table.contains) = m.measure E := by
  refine Finset.sum_subset (SortedSet.toFinset_subset.2 fun x hx => (mem_filter_contains.1 hx).1)
    fun x hx out => ?_
  exact mass_eq_zero fun charged => out (mem_filter_contains.2 ⟨hx, charged⟩)

theorem expectation_eq_error (zero : m.measure f.domain = 0) : m.expectation f = .error .zeroMass := by
  rw [expectation, condition_eq_error ((m.measure_filter_contains f.domain).trans zero)]
  rfl

/-- An expectation is a quotient. -/
theorem expectation_eq (ne : m.measure f.domain ≠ 0) : m.expectation f =
    .ok ((∑ x ∈ f.domain.toFinset, m.mass x * f.payoff x) / m.measure f.domain) := by
  obtain ⟨n, found, value⟩ := exists_condition ((m.measure_filter_contains f.domain).trans_ne ne)
  rw [measure_filter_contains] at value
  have within : ∀ x ∈ n.domain, x ∈ f.domain := fun x hx => by
    have charged := mem_domain.1 hx
    rw [value] at charged
    exact (mem_filter_contains.1 (by_contra fun out => charged (if_neg out))).1
  have at_state : ∀ x ∈ f.domain, n.mass x = m.mass x / m.measure f.domain := fun x hx => by
    rw [value]
    split
    · rfl
    · rename_i out
      rw [mass_eq_zero fun charged => out (mem_filter_contains.2 ⟨hx, charged⟩), zero_div]
  have unfolded : m.expectation f = .ok (Row.total (n.table.toList.map fun e => e.2 * f.payoff e.1)) := by
    rw [expectation, found]
    rfl
  rw [unfolded, Table.total_map_mul, Table.sum_payoff_of_subset within, Finset.sum_div]
  refine congrArg Except.ok (Finset.sum_congr rfl fun x hx => ?_)
  rw [show n.table.payoff x = _ from at_state x hx, div_mul_eq_mul_div]

end MassFunction

/-! ## Probability mass functions -/

namespace Pmf

variable {p q : Pmf σ} {f : Gamble σ} {S : SortedSet σ} {x : σ}

theorem probability_eq_zero (h : x ∉ p.domain) : p.probability x = 0 := MassFunction.mass_eq_zero h

theorem probability_nonneg (p : Pmf σ) (x : σ) : 0 ≤ p.probability x :=
  MassFunction.isNonnegative_iff.1 p.nonneg x

theorem mem_domain : x ∈ p.domain ↔ p.probability x ≠ 0 := MassFunction.mem_domain

theorem sum_probability (within : ∀ x ∈ p.domain, x ∈ S) : ∑ x ∈ S.toFinset, p.probability x = 1 :=
  MassFunction.sum_mass within

theorem probability_injective (h : p.probability = q.probability) : p = q :=
  mass_injective (MassFunction.mass_injective h)

theorem exists_ofMass {m : MassFunction σ} (nonneg : ∀ x, 0 ≤ m.mass x) :
    ∃ p, ofMass m = .ok p ∧ p.mass = m :=
  ⟨_, dif_pos (MassFunction.isNonnegative_iff.2 nonneg), rfl⟩

/-- A gamble whose payoffs have the sign of their sum is proportional to a mass function. -/
theorem exists_ofGamble_of_quotients (ne : f.mass ≠ 0) (signs : ∀ x, 0 ≤ f.payoff x / f.mass) :
    ∃ p, ofGamble f = .ok p ∧ ∀ x, p.probability x = f.payoff x / f.mass := by
  obtain ⟨m, hm, mass⟩ := MassFunction.exists_ofGamble ne
  simp only [inv_mul_eq_div] at mass
  obtain ⟨p, hp, rfl⟩ := exists_ofMass fun x => (signs x).trans_eq (mass x).symm
  refine ⟨p, ?_, mass⟩
  rw [ofGamble, hm]
  exact hp

/-- A gamble without negative payoffs and with a positive mass is proportional to a mass function. -/
theorem exists_ofGamble (nonneg : ∀ v ∈ f.values, 0 ≤ v) (pos : 0 < f.mass) :
    ∃ p, ofGamble f = .ok p ∧ ∀ x, p.probability x = f.mass⁻¹ * f.payoff x := by
  simp only [inv_mul_eq_div]
  exact exists_ofGamble_of_quotients pos.ne' fun x =>
    div_nonneg (Gamble.payoff_nonneg_of_values nonneg x) pos.le

/-! ## Expectations -/

/-- The probability of an event. -/
def chance (p : Pmf σ) (event : SortedSet σ) : ℚ := ∑ x ∈ event.toFinset, p.probability x

theorem chance_nonneg (p : Pmf σ) (event : SortedSet σ) : 0 ≤ p.chance event :=
  Finset.sum_nonneg fun x _ => p.probability_nonneg x

theorem probability_eq_zero_of_chance {event : SortedSet σ} (zero : p.chance event = 0) (h : x ∈ event) :
    p.probability x = 0 :=
  (Finset.sum_eq_zero_iff_of_nonneg fun x _ => p.probability_nonneg x).1 zero x (SortedSet.mem_toFinset.2 h)

/-- Given an event without probability, there is no expectation. -/
theorem expectation_eq_error (zero : p.chance f.domain = 0) : p.expectation f = .error .zeroMass :=
  MassFunction.expectation_eq_error zero

/-- Given an event of positive probability, an expectation is a quotient. -/
theorem expectation_eq (pos : 0 < p.chance f.domain) : p.expectation f =
    .ok ((∑ x ∈ f.domain.toFinset, p.probability x * f.payoff x) / p.chance f.domain) :=
  MassFunction.expectation_eq pos.ne'

theorem expectation_eq_ok_iff {v : ℚ} : p.expectation f = .ok v ↔
    0 < p.chance f.domain ∧
    v * p.chance f.domain = ∑ x ∈ f.domain.toFinset, p.probability x * f.payoff x := by
  rcases (p.chance_nonneg f.domain).eq_or_lt with zero | pos
  · rw [expectation_eq_error zero.symm]
    exact iff_of_false nofun fun h => h.1.ne zero
  · rw [expectation_eq pos, and_iff_right pos, Except.ok.injEq, div_eq_iff pos.ne', eq_comm]

/-- The expectation of the opposite gamble is the opposite one. -/
theorem expectation_neg_eq_ok_iff {v : ℚ} : p.expectation (-f) = .ok v ↔ p.expectation f = .ok (-v) := by
  rw [expectation_eq_ok_iff, expectation_eq_ok_iff, Gamble.domain_neg, neg_mul, neg_eq_iff_eq_neg,
    ← Finset.sum_neg_distrib]
  simp only [Gamble.payoff_neg, mul_neg]

end Pmf

end Prevision
