import Prevision.Proofs.Duality.Envelope
import Prevision.Proofs.Duality.RoundTrip
import Prevision.Proofs.Model.Expectations

/-!
# Expectations under the desirable gambles of a credal set

The desirable gambles of a credal set, over more states or just those of its
members, have the lower envelope of its conditional expectations as natural
extension. States of the possibility space in which no member has a
probability do not matter; outside the possibility space the payoffs are
values of their own (`CredalSet.valuesOver`).

If all members give the domain of a gamble a probability, this is the lower
expectation of the credal set (`CredalSet.toDesirabilitySetOn_keeps_lowerExpectation`).
Without members there is none, while the natural extension is unbounded.
-/

namespace Prevision

variable {σ : Type} [State σ] {K : CredalSet σ} {D : DesirabilitySet σ} {space : SortedSet σ}
    {f : Gamble σ} {v : ℚ}
  {limits : Limits}

namespace CredalSet

/-- The expectations under the members that give the domain of the gamble a positive probability,
and the payoffs in states that neither are given nor have a probability under a member. -/
def valuesOver (K : CredalSet σ) (space : SortedSet σ) (f : Gamble σ) : Set ℚ :=
  {v | (∃ p ∈ K.members, 0 < p.chance f.domain ∧ p.expectation f = .ok v) ∨
    ∃ x ∈ f.domain, x ∉ space ∧ (∀ p ∈ K.members, x ∉ p.domain) ∧ f.payoff x = v}

theorem conditionalValues_eq_valuesOver (domain : D.domain = space ∪ K.domain) (f : Gamble σ) :
    K.conditionalValues D f = K.valuesOver space f := by
  have outside (x : σ) : x ∉ D.domain ↔ x ∉ space ∧ ∀ p ∈ K.members, x ∉ p.domain := by
    rw [domain, SortedSet.mem_union, not_or, mem_domain]
    simp only [not_exists, not_and]
  simp only [conditionalValues, valuesOver, outside, and_assoc]

/-- Within the possibility space, if all members give the domain a probability the values are the
expectations. -/
theorem valuesOver_eq_memberExpectations (inside : ∀ x ∈ f.domain, x ∈ space ∪ K.domain)
    (charged : ∀ p ∈ K.members, 0 < p.chance f.domain) : K.valuesOver space f = K.memberExpectations f := by
  ext v
  constructor
  · rintro (⟨p, hp, -, expected⟩ | ⟨x, hx, out, uncharged, -⟩)
    · exact ⟨p, hp, expected⟩
    · rcases SortedSet.mem_union.1 (inside x hx) with given | member
      · exact absurd given out
      · obtain ⟨p, hp, mem⟩ := mem_domain.1 member
        exact absurd mem (uncharged p hp)
  · rintro ⟨p, hp, expected⟩
    exact .inl ⟨p, hp, charged p hp, expected⟩

/-- Members have states, so with members or given states there are states. -/
theorem states_of_or (states : K.members.isEmpty = false ∨ space.isEmpty = false) :
    (space ∪ K.domain).isEmpty = false := by
  rw [SortedSet.isEmpty_eq_false_iff]
  rcases states with some_member | some_state
  · obtain ⟨x, hx⟩ := SortedSet.isEmpty_eq_false_iff.1 (exists_mem_domain some_member)
    exact ⟨x, SortedSet.mem_union.2 (.inr hx)⟩
  · obtain ⟨x, hx⟩ := SortedSet.isEmpty_eq_false_iff.1 some_state
    exact ⟨x, SortedSet.mem_union.2 (.inl hx)⟩

/-- The desirable gambles of a credal set are on all the states, and represented by it. -/
theorem exists_represents_of_states (states : K.members.isEmpty = false ∨ space.isEmpty = false)
    (fits : ((Reasoner.within limits).toDesirabilitySetOn K space).hitsLimit = false) :
    ∃ D : DesirabilitySet σ, ((Reasoner.within limits).toDesirabilitySetOn K space).run = .ok D ∧
      D.cones.isEmpty = false ∧ D.domain = space ∪ K.domain ∧ K.Represents D := by
  obtain ⟨D, run, closure⟩ := exists_toDesirabilitySetOn (states_of_or states) fits
  refine ⟨D, run, closure.assessed (states_of_or states), closure.domain_eq,
    closure.represents fun p hp x out => ?_⟩
  exact supports_domain hp x fun inside => out (SortedSet.mem_union.2 (.inr inside))

/-- The desirable gambles of a credal set have its lower expectations: the least of the
conditional expectations under members and of the payoffs outside the possibility space. -/
theorem toDesirabilitySetOn_keeps_lowerExpectation
    (states : K.members.isEmpty = false ∨ space.isEmpty = false)
    (conversion : ((Reasoner.within limits).toDesirabilitySetOn K space).hitsLimit = false) :
    ∃ D : DesirabilitySet σ, ((Reasoner.within limits).toDesirabilitySetOn K space).run = .ok D ∧
      D.possibilitySpace = .ok (space ∪ K.domain) ∧
      ∀ f : Gamble σ, ((Reasoner.within limits).lowerExpectation D f).hitsLimit = false →
        (∀ p ∈ K.members, 0 < p.chance f.domain → ∃ v, p.expectation f = .ok v) ∧
        ((K.valuesOver space f).Nonempty → ∃ v, IsLeast (K.valuesOver space f) v ∧
          ((Reasoner.within limits).lowerExpectation D f).run = .ok v) ∧
        (K.valuesOver space f = ∅ →
          ((Reasoner.within limits).lowerExpectation D f).run = .error (.unsolved .unbounded)) ∧
        (K.members.isEmpty = false → (∀ x ∈ f.domain, x ∈ space ∪ K.domain) →
          (∀ p ∈ K.members, 0 < p.chance f.domain) →
          ((Reasoner.within limits).lowerExpectation D f).run = K.lowerExpectation f) := by
  obtain ⟨D, run, assessed, domain, represents⟩ := exists_represents_of_states states conversion
  refine ⟨D, run, (D.possibilitySpace_eq assessed).trans (congrArg Except.ok domain), fun f fits => ?_⟩
  have lower := represents.lowerExpectation_eq assessed fits
  rw [conditionalValues_eq_valuesOver domain] at lower
  refine ⟨fun p _ pos => ⟨_, Pmf.expectation_eq pos⟩, lower.1, lower.2, fun some_member inside charged => ?_⟩
  -- Both are the least of the same values, as no state of the domain adds one.
  obtain ⟨v, answer, least⟩ := lowerExpectation_isLeast some_member charged
  rw [← valuesOver_eq_memberExpectations inside charged] at least
  obtain ⟨w, least', answer'⟩ := lower.1 ⟨v, least.1⟩
  rw [answer, answer', least'.unique least]

/-- The mixed members with one more state, which none of them gives a probability, and a gamble on
all states. -/
theorem toDesirabilitySetOn_keeps_lowerExpectation_mixed :
    (mixed.members.isEmpty = false ∨ (SortedSet.singleton (2 : Int)).isEmpty = false) ∧
    (Reasoner.exact.toDesirabilitySetOn mixed (.singleton 2)).hitsLimit = false ∧
    ∃ D : DesirabilitySet Int, (Reasoner.exact.toDesirabilitySetOn mixed (.singleton 2)).run = .ok D ∧
      D.possibilitySpace = .ok (.singleton 2 ∪ mixed.domain) ∧
      (Reasoner.exact.lowerExpectation D wager).hitsLimit = false ∧
      ((mixed.valuesOver (.singleton 2) wager).Nonempty →
        ∃ v, IsLeast (mixed.valuesOver (.singleton 2) wager) v ∧
        (Reasoner.exact.lowerExpectation D wager).run = .ok v) ∧
      (mixed.valuesOver (.singleton 2) wager = ∅ →
        (Reasoner.exact.lowerExpectation D wager).run = .error (.unsolved .unbounded)) ∧
      (Reasoner.exact.lowerExpectation D wager).run = mixed.lowerExpectation wager := by
  have states : mixed.members.isEmpty = false ∨ (SortedSet.singleton (2 : Int)).isEmpty = false :=
    .inl (by decide +kernel)
  have conversion : (Reasoner.exact.toDesirabilitySetOn mixed (.singleton 2)).hitsLimit = false := by
    decide +kernel
  have both : (Reasoner.exact.toDesirabilitySetOn mixed (.singleton 2) >>= fun D =>
      Reasoner.exact.lowerExpectation D wager).hitsLimit = false := by decide +kernel
  have inside : ∀ x ∈ wager.domain, x ∈ SortedSet.singleton 2 ∪ mixed.domain := by decide +kernel
  have charged : ∀ p ∈ mixed.members, 0 < p.chance wager.domain := by decide +kernel
  obtain ⟨D, run, space, keeps⟩ := toDesirabilitySetOn_keeps_lowerExpectation states conversion
  have fits := Query.hitsLimit_of_bind_ok both run
  obtain ⟨-, least, unbounded, same⟩ := keeps wager fits
  exact ⟨states, conversion, D, run, space, fits, least, unbounded, same (by decide +kernel) inside charged⟩

/-- One for certain, in the only state. -/
def certain : Gamble Int := .indicator (.singleton 0)

/-- Without members the two fail for different reasons, although all members give every event a
probability. -/
theorem toDesirabilitySetOn_lowerExpectation_empty :
    (SortedSet.singleton (0 : Int)).isEmpty = false ∧
    (Reasoner.exact.toDesirabilitySetOn .empty (.singleton (0 : Int))).hitsLimit = false ∧
    ∃ D : DesirabilitySet Int, (Reasoner.exact.toDesirabilitySetOn .empty (.singleton 0)).run = .ok D ∧
      (Reasoner.exact.lowerExpectation D certain).hitsLimit = false ∧
      (∀ x ∈ certain.domain, x ∈ SortedSet.singleton 0 ∪ empty.domain) ∧
      (∀ p ∈ (empty : CredalSet Int).members, 0 < p.chance certain.domain) ∧
      (Reasoner.exact.lowerExpectation D certain).run = .error (.unsolved .unbounded) ∧
      empty.lowerExpectation certain = .error .emptyCredalSet ∧
      (Reasoner.exact.lowerExpectation D certain).run ≠ empty.lowerExpectation certain := by
  have some_state : (SortedSet.singleton (0 : Int)).isEmpty = false := by decide +kernel
  have conversion : (Reasoner.exact.toDesirabilitySetOn .empty (.singleton (0 : Int))).hitsLimit = false := by
    decide +kernel
  have both : (Reasoner.exact.toDesirabilitySetOn .empty (.singleton (0 : Int)) >>= fun D =>
      Reasoner.exact.lowerExpectation D certain).hitsLimit = false := by decide +kernel
  have inside : ∀ x ∈ certain.domain, x ∈ SortedSet.singleton 0 ∪ empty.domain := by decide +kernel
  have charged : ∀ p ∈ (empty : CredalSet Int).members, 0 < p.chance certain.domain := fun p hp => nomatch hp
  have no_value : empty.valuesOver (.singleton 0) certain = ∅ := by
    rw [valuesOver_eq_memberExpectations inside charged, Set.eq_empty_iff_forall_notMem]
    rintro v ⟨p, hp, -⟩
    cases hp
  have failed : empty.lowerExpectation certain = .error .emptyCredalSet :=
    lowerExpectation_of_error (expectations_of_isEmpty rfl certain)
  obtain ⟨D, run, assessed, domain, represents⟩ := exists_represents_of_states (.inr some_state) conversion
  have fits := Query.hitsLimit_of_bind_ok both run
  have unbounded := (represents.lowerExpectation_eq assessed fits).2
    ((conditionalValues_eq_valuesOver domain certain).trans no_value)
  refine ⟨some_state, conversion, D, run, fits, inside, charged, unbounded, failed, fun same => ?_⟩
  cases unbounded.symm.trans (same.trans failed)

end CredalSet

end Prevision
