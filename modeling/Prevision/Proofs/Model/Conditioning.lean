import Prevision.Proofs.Model.Expectations

/-!
# Conditioning twice

Given an event that does not sum to zero, a mass function of either sign is divided
by the measure of the event, so the measure of another event is that of both over
that of the first (`MassFunction.measure_of_condition`). Conditioning on a second
event is therefore conditioning on both, and an expectation given the first event is
that of the gamble on both, failures included (`MassFunction.condition_condition`,
`MassFunction.expectation_of_condition`).

The masses of a probability mass function stay nonnegative, so the same holds of it,
and of a credal set whose members all charge the events: then no member is lost and
the set is not made vacuous (`CredalSet.mem_condition`). Members may become equal.
-/

namespace Prevision

variable {σ : Type} [State σ] {E F : SortedSet σ} {f : Gamble σ}

/-! ## Mass functions of either sign -/

namespace MassFunction

variable {m n : MassFunction σ}

theorem condition_eq_ok_iff : m.condition E = .ok n ↔
    m.measure E ≠ 0 ∧ ∀ x, n.mass x = if x ∈ E then m.mass x / m.measure E else 0 := by
  constructor
  · intro found
    have ne : m.measure E ≠ 0 := fun zero => by cases (condition_eq_error zero).symm.trans found
    obtain ⟨n', found', value⟩ := exists_condition ne
    cases found.symm.trans found'
    exact ⟨ne, value⟩
  · rintro ⟨ne, value⟩
    obtain ⟨n', found, value'⟩ := exists_condition ne
    rw [found, mass_injective (funext fun x => (value' x).trans (value x).symm)]

theorem condition_eq_error_iff : m.condition E = .error .zeroMass ↔ m.measure E = 0 := by
  refine ⟨fun failed => by_contra fun ne => ?_, condition_eq_error⟩
  obtain ⟨n, found, -⟩ := exists_condition ne
  cases failed.symm.trans found

/-- The measure of an event given another is that of both over that of the other. -/
theorem measure_of_condition (found : m.condition E = .ok n) (F : SortedSet σ) :
    n.measure F = m.measure (E ∩ F) / m.measure E := by
  obtain ⟨-, value⟩ := condition_eq_ok_iff.1 found
  rw [measure, measure, SortedSet.sum_inter, Finset.sum_div]
  refine Finset.sum_congr rfl fun x _ => ?_
  rw [value, ite_div, zero_div]

/-- Given one event and then another is given both. -/
theorem condition_condition (found : m.condition E = .ok n) (F : SortedSet σ) :
    n.condition F = m.condition (E ∩ F) := by
  obtain ⟨ne, value⟩ := condition_eq_ok_iff.1 found
  have measure := measure_of_condition found F
  by_cases zero : m.measure (E ∩ F) = 0
  · rw [condition_eq_error zero, condition_eq_error (by rw [measure, zero, zero_div])]
  · obtain ⟨k, found', value'⟩ := exists_condition zero
    rw [found', condition_eq_ok_iff]
    refine ⟨measure ▸ div_ne_zero zero ne, fun x => ?_⟩
    rw [value', value, measure, ite_div, zero_div, div_div_div_cancel_right₀ ne, ← ite_and]
    exact if_congr (SortedSet.mem_inter.trans and_comm) rfl rfl

/-- An expectation given an event is that of the gamble on the event. -/
theorem expectation_of_condition (found : m.condition E = .ok n) (f : Gamble σ) :
    n.expectation f = m.expectation (f.restrict (E ∩ f.domain)) := by
  obtain ⟨ne, value⟩ := condition_eq_ok_iff.1 found
  have measure := measure_of_condition found f.domain
  have domain := f.domain_restrict (E ∩ f.domain)
  by_cases zero : m.measure (E ∩ f.domain) = 0
  · rw [expectation_eq_error (by rw [measure, zero, zero_div]), expectation_eq_error (by rw [domain, zero])]
  · have part : ∑ x ∈ f.domain.toFinset, n.mass x * f.payoff x =
        (∑ x ∈ (E ∩ f.domain).toFinset, m.mass x * f.payoff x) / m.measure E := by
      rw [SortedSet.sum_inter, Finset.sum_div]
      refine Finset.sum_congr rfl fun x _ => ?_
      rw [value, ite_mul, zero_mul, ite_div, zero_div, div_mul_eq_mul_div]
    have given : n.measure f.domain ≠ 0 := measure ▸ div_ne_zero zero ne
    rw [expectation_eq given, expectation_eq (by rwa [domain]), domain, part, measure,
      div_div_div_cancel_right₀ ne]
    refine congrArg (fun sum => Except.ok (sum / _)) (Finset.sum_congr rfl fun x hx => ?_)
    rw [Gamble.payoff_restrict, if_pos (SortedSet.mem_toFinset.1 hx)]

end MassFunction

/-! ## Probability mass functions -/

namespace Pmf

variable {p q : Pmf σ}

theorem exists_condition (ne : p.chance E ≠ 0) : ∃ q, p.condition E = .ok q := by
  obtain ⟨n, found, value⟩ := MassFunction.exists_condition ne
  have signs : ∀ x, 0 ≤ n.mass x := fun x => by
    rw [value]
    split
    · exact div_nonneg (p.probability_nonneg x) (p.chance_nonneg E)
    · exact le_rfl
  obtain ⟨q, hq, -⟩ := exists_ofMass signs
  refine ⟨q, ?_⟩
  rw [condition, found]
  exact hq

theorem mass_of_condition (found : p.condition E = .ok q) : p.mass.condition E = .ok q.mass := by
  rw [condition] at found
  cases given : p.mass.condition E with
  | error e =>
    rw [given] at found
    cases found
  | ok n =>
    rw [given] at found
    change (if h : n.isNonnegative = true then Except.ok (⟨n, h⟩ : Pmf σ) else _) = _ at found
    split at found
    · cases found
      rfl
    · cases found

theorem chance_of_condition (found : p.condition E = .ok q) (F : SortedSet σ) :
    q.chance F = p.chance (E ∩ F) / p.chance E :=
  MassFunction.measure_of_condition (mass_of_condition found) F

theorem condition_condition (found : p.condition E = .ok q) (F : SortedSet σ) :
    q.condition F = p.condition (E ∩ F) := by
  rw [condition, condition, MassFunction.condition_condition (mass_of_condition found)]

theorem expectation_of_condition (found : p.condition E = .ok q) (f : Gamble σ) :
    q.expectation f = p.expectation (f.restrict (E ∩ f.domain)) :=
  MassFunction.expectation_of_condition (mass_of_condition found) f

theorem chance_pos_of_subset (within : ∀ x ∈ F, x ∈ E) (pos : 0 < p.chance F) : 0 < p.chance E :=
  pos.trans_le (Finset.sum_le_sum_of_subset_of_nonneg (SortedSet.toFinset_subset.2 within)
    fun x _ _ => p.probability_nonneg x)

end Pmf

/-! ## Credal sets -/

namespace CredalSet

variable {K L : CredalSet σ} {g : Gamble σ} {q : Pmf σ}

/-- If every member can be conditioned, these are the members. -/
theorem mem_condition (charged : ∀ p ∈ K.members, ∃ q, p.condition E = .ok q) :
    q ∈ (K.condition E).members ↔ ∃ p ∈ K.members, p.condition E = .ok q := by
  obtain ⟨ps, done, mem⟩ := exists_mapM charged
  rw [condition, done]
  exact SortedSet.mem_ofList.trans (mem q)

theorem isEmpty_condition (charged : ∀ p ∈ K.members, ∃ q, p.condition E = .ok q) :
    (K.condition E).members.isEmpty = K.members.isEmpty := by
  refine Bool.eq_iff_iff.2 ((SortedSet.eq_empty_iff.trans ?_).trans SortedSet.eq_empty_iff.symm)
  constructor
  · intro none p hp
    obtain ⟨q, given⟩ := charged p hp
    exact none q ((mem_condition charged).2 ⟨p, hp, given⟩)
  · intro none q hq
    obtain ⟨p, hp, -⟩ := (mem_condition charged).1 hq
    exact none p hp

/-- Given one event and then another is given both, if all members charge both. -/
theorem condition_condition (charged : ∀ p ∈ K.members, 0 < p.chance (E ∩ F)) :
    (K.condition E).condition F = K.condition (E ∩ F) := by
  have both : ∀ p ∈ K.members, ∃ q, p.condition (E ∩ F) = .ok q :=
    fun p hp => Pmf.exists_condition (charged p hp).ne'
  have first : ∀ p ∈ K.members, ∃ q, p.condition E = .ok q := fun p hp =>
    Pmf.exists_condition
      (Pmf.chance_pos_of_subset (fun x hx => (SortedSet.mem_inter.1 hx).1) (charged p hp)).ne'
  have second : ∀ q ∈ (K.condition E).members, ∃ k, q.condition F = .ok k := fun q hq => by
    obtain ⟨p, hp, given⟩ := (mem_condition first).1 hq
    rw [Pmf.condition_condition given]
    exact both p hp
  refine eq_of_mem_iff fun k => ?_
  rw [mem_condition second, mem_condition both]
  constructor
  · rintro ⟨q, hq, given⟩
    obtain ⟨p, hp, given'⟩ := (mem_condition first).1 hq
    exact ⟨p, hp, (Pmf.condition_condition given' F).symm.trans given⟩
  · rintro ⟨p, hp, given⟩
    obtain ⟨q, given'⟩ := first p hp
    exact ⟨q, (mem_condition first).2 ⟨p, hp, given'⟩, (Pmf.condition_condition given' F).trans given⟩

theorem memberExpectations_condition (charged : ∀ p ∈ K.members, ∃ q, p.condition E = .ok q) (f : Gamble σ) :
    (K.condition E).memberExpectations f = K.memberExpectations (f.restrict (E ∩ f.domain)) := by
  ext v
  constructor
  · rintro ⟨q, hq, expected⟩
    obtain ⟨p, hp, given⟩ := (mem_condition charged).1 hq
    exact ⟨p, hp, (Pmf.expectation_of_condition given f).symm.trans expected⟩
  · rintro ⟨p, hp, expected⟩
    obtain ⟨q, given⟩ := charged p hp
    exact ⟨q, (mem_condition charged).2 ⟨p, hp, given⟩, (Pmf.expectation_of_condition given f).trans expected⟩

/-- The lower and the upper expectation are settled by the expectations under the members. -/
theorem expectations_congr (same_empty : K.members.isEmpty = L.members.isEmpty)
    (charged : ∀ p ∈ K.members, 0 < p.chance f.domain) (charged' : ∀ p ∈ L.members, 0 < p.chance g.domain)
    (same : K.memberExpectations f = L.memberExpectations g) :
    K.lowerExpectation f = L.lowerExpectation g ∧ K.upperExpectation f = L.upperExpectation g := by
  cases none : K.members.isEmpty with
  | true =>
    have failed := expectations_of_isEmpty none f
    have failed' := expectations_of_isEmpty (same_empty.symm.trans none) g
    rw [lowerExpectation_of_error failed, lowerExpectation_of_error failed', upperExpectation_of_error failed,
      upperExpectation_of_error failed']
    exact ⟨rfl, rfl⟩
  | false =>
    obtain ⟨v, lower, least⟩ := lowerExpectation_isLeast none charged
    obtain ⟨w, upper, greatest⟩ := upperExpectation_isGreatest none charged
    rw [same] at least greatest
    rw [lower, upper, (lowerExpectation_eq_ok_iff (same_empty ▸ none)).2 ⟨charged', least⟩,
      (upperExpectation_eq_ok_iff (same_empty ▸ none)).2 ⟨charged', greatest⟩]
    exact ⟨rfl, rfl⟩

/-- Expectations given an event are those of the gamble on the event, if all members charge that. -/
theorem expectations_of_condition (charged : ∀ p ∈ K.members, 0 < p.chance (E ∩ f.domain)) :
    (K.condition E).lowerExpectation f = K.lowerExpectation (f.restrict (E ∩ f.domain)) ∧
    (K.condition E).upperExpectation f = K.upperExpectation (f.restrict (E ∩ f.domain)) := by
  have pos : ∀ p ∈ K.members, 0 < p.chance E := fun p hp =>
    Pmf.chance_pos_of_subset (fun x hx => (SortedSet.mem_inter.1 hx).1) (charged p hp)
  have given : ∀ p ∈ K.members, ∃ q, p.condition E = .ok q := fun p hp => Pmf.exists_condition (pos p hp).ne'
  refine expectations_congr (isEmpty_condition given) (fun q hq => ?_) (fun p hp => ?_)
    (memberExpectations_condition given f)
  · obtain ⟨p, hp, found⟩ := (mem_condition given).1 hq
    rw [Pmf.chance_of_condition found]
    exact div_pos (charged p hp) (pos p hp)
  · rw [Gamble.domain_restrict]
    exact charged p hp

end CredalSet

/-- Conditioning on one event and then on another is conditioning on both, and expectations given
an event are those of the gamble on the event, failures included: for mass functions of either
sign whose measure of the first event is not zero, for probability mass functions, and for credal
sets whose members all charge both events. -/
theorem conditioning_composes (E F : SortedSet σ) :
    (∀ m : MassFunction σ, m.measure E ≠ 0 →
      ∃ n, m.condition E = .ok n ∧ n.condition F = m.condition (E ∩ F) ∧
      (n.condition F = .error .zeroMass ↔ m.measure (E ∩ F) = 0) ∧
      ∀ f, n.expectation f = m.expectation (f.restrict (E ∩ f.domain))) ∧
    (∀ p : Pmf σ, p.chance E ≠ 0 → ∃ q, p.condition E = .ok q ∧ q.condition F = p.condition (E ∩ F) ∧
      ∀ f, q.expectation f = p.expectation (f.restrict (E ∩ f.domain))) ∧
    ∀ K : CredalSet σ,
      ((∀ p ∈ K.members, 0 < p.chance (E ∩ F)) → (K.condition E).condition F = K.condition (E ∩ F)) ∧
      ∀ f, (∀ p ∈ K.members, 0 < p.chance (E ∩ f.domain)) →
        (K.condition E).lowerExpectation f = K.lowerExpectation (f.restrict (E ∩ f.domain)) ∧
        (K.condition E).upperExpectation f = K.upperExpectation (f.restrict (E ∩ f.domain)) := by
  refine ⟨fun m ne => ?_, fun p ne => ?_,
    fun K => ⟨K.condition_condition, fun f => K.expectations_of_condition⟩⟩
  · obtain ⟨n, given, -⟩ := MassFunction.exists_condition ne
    have both := MassFunction.condition_condition given F
    exact ⟨n, given, both, both ▸ MassFunction.condition_eq_error_iff,
      MassFunction.expectation_of_condition given⟩
  · obtain ⟨q, given⟩ := Pmf.exists_condition ne
    exact ⟨q, given, Pmf.condition_condition given F, Pmf.expectation_of_condition given⟩

/-- Masses that cancel on both events, and two members that become equal. -/
theorem conditioning_composes_merging :
    let E : SortedSet Int := .ofList [0, 1, 2]
    let F : SortedSet Int := .ofList [1, 2, 5]
    let m : MassFunction Int :=
      ⟨.ofList [(0, 2), (1, -1), (2, 1), (3, -1)], by decide +kernel, by decide +kernel⟩
    let p : Pmf Int :=
      ⟨⟨.ofList [(0, 1 / 2), (1, 1 / 4), (2, 1 / 4)], by decide +kernel, by decide +kernel⟩,
        by decide +kernel⟩
    let q : Pmf Int :=
      ⟨⟨.ofList [(1, 1 / 4), (2, 1 / 4), (3, 1 / 2)], by decide +kernel, by decide +kernel⟩,
        by decide +kernel⟩
    let K : CredalSet Int := .ofList [p, q]
    let f : Gamble Int := .ofList [(1, 3), (2, 0), (3, 7)]
    m.measure E ≠ 0 ∧ (∃ n, m.condition E = .ok n ∧ n.condition F = .error .zeroMass) ∧
      (∀ p ∈ K.members, 0 < p.chance (E ∩ F)) ∧ (K.condition E).condition F = K.condition (E ∩ F) ∧
      (K.condition (E ∩ F)).members.size = 1 ∧ (∀ p ∈ K.members, 0 < p.chance (E ∩ f.domain)) ∧
      (K.condition E).lowerExpectation f = K.lowerExpectation (f.restrict (E ∩ f.domain)) := by
  intro E F m p q K f
  have ne : m.measure E ≠ 0 := by decide +kernel
  have charged : ∀ p ∈ K.members, 0 < p.chance (E ∩ F) := by decide +kernel
  have charged' : ∀ p ∈ K.members, 0 < p.chance (E ∩ f.domain) := by decide +kernel
  obtain ⟨masses, -, sets⟩ := conditioning_composes E F
  obtain ⟨n, given, -, cancels, -⟩ := masses m ne
  exact ⟨ne, ⟨n, given, cancels.2 (by decide +kernel)⟩, charged, (sets K).1 charged,
    by decide +kernel, charged', ((sets K).2 f charged').1⟩

end Prevision
