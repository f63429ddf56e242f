import Mathlib.Tactic.Ring
import Prevision.Proofs.Model.Expectations

/-!
# Coherence of lower and upper expectations

Given one event, expectations are linear and monotone, so they keep between the bounds of
the payoffs (`Pmf.expectation_affine`, `Pmf.expectation_add`, `Pmf.expectation_mono`). Each
member of a credal set is conditional on the same event, so the expectations of an affine
image are the affine image of the expectations, and those of a union are the union
(`CredalSet.memberExpectations_affine`, `CredalSet.memberExpectations_union`). Least and
greatest elements follow. A sum attains its least expectation under one member, under
which neither gamble expects less than its own.

Whether there are bounds is a matter of the members and of the event alone, so the laws
hold of the failures as well.
-/

namespace Prevision

variable {σ : Type} [State σ] {f g : Gamble σ} {a b v w : ℚ}

/-! ## One mass function -/

namespace Pmf

variable {p : Pmf σ}

theorem expectation_affine (image : Gamble.IsAffine a b f g) (expected : p.expectation f = .ok v) :
    p.expectation g = .ok (a * v + b) := by
  obtain ⟨pos, weighted⟩ := expectation_eq_ok_iff.1 expected
  have term : ∀ x ∈ f.domain.toFinset,
      p.probability x * g.payoff x = a * (p.probability x * f.payoff x) + b * p.probability x :=
        fun x hx => by
    rw [image.payoff x (SortedSet.mem_toFinset.1 hx)]
    ring
  rw [expectation_eq_ok_iff, image.domain, Finset.sum_congr rfl term, Finset.sum_add_distrib,
    ← Finset.mul_sum, ← Finset.mul_sum, ← weighted, add_mul, mul_assoc]
  exact ⟨pos, rfl⟩

theorem expectation_add (same : g.domain = f.domain) (left : p.expectation f = .ok v)
    (right : p.expectation g = .ok w) : p.expectation (f + g) = .ok (v + w) := by
  obtain ⟨pos, weighted⟩ := expectation_eq_ok_iff.1 left
  obtain ⟨-, weighted'⟩ := expectation_eq_ok_iff.1 right
  rw [same] at weighted'
  rw [expectation_eq_ok_iff, Gamble.domain_add_of_eq same, add_mul, weighted, weighted',
    ← Finset.sum_add_distrib]
  exact ⟨pos, Finset.sum_congr rfl fun x _ => by rw [Gamble.payoff_add, mul_add]⟩

theorem expectation_mono (same : g.domain = f.domain) (le : ∀ x ∈ f.domain, f.payoff x ≤ g.payoff x)
    (left : p.expectation f = .ok v) (right : p.expectation g = .ok w) : v ≤ w := by
  obtain ⟨pos, weighted⟩ := expectation_eq_ok_iff.1 left
  obtain ⟨-, weighted'⟩ := expectation_eq_ok_iff.1 right
  rw [same] at weighted'
  refine le_of_mul_le_mul_right ?_ pos
  rw [weighted, weighted']
  refine Finset.sum_le_sum fun x hx => mul_le_mul_of_nonneg_left ?_ (p.probability_nonneg x)
  exact le x (SortedSet.mem_toFinset.1 hx)

theorem expectation_constant (expected : p.expectation f = .ok v) (c : ℚ) :
    p.expectation (.constant f.domain c) = .ok c := by
  rw [expectation_affine (.constant c f) expected, zero_mul, zero_add]

theorem bounds_of_expectation (expected : p.expectation f = .ok v) : f.least ≤ v ∧ v ≤ f.greatest := by
  have level (c : ℚ) := Gamble.IsAffine.constant c f
  constructor
  · refine expectation_mono (level _).domain.symm (fun x hx => ?_)
      (expectation_constant expected f.least) expected
    rw [(level _).domain] at hx
    rw [(level _).payoff x hx, zero_mul, zero_add]
    exact Gamble.least_le hx
  · refine expectation_mono (level _).domain (fun x hx => ?_) expected
      (expectation_constant expected f.greatest)
    rw [(level _).payoff x hx, zero_mul, zero_add]
    exact Gamble.le_greatest hx

end Pmf

namespace CredalSet

variable {K L : CredalSet σ}

/-! ## The expectations under the members -/

theorem memberExpectations_affine (image : Gamble.IsAffine a b f g) :
    K.memberExpectations g = (a * · + b) '' K.memberExpectations f := by
  ext w
  constructor
  · rintro ⟨p, hp, expected⟩
    obtain ⟨pos, -⟩ := Pmf.expectation_eq_ok_iff.1 expected
    have expected' := Pmf.expectation_eq (image.domain ▸ pos)
    exact ⟨_, ⟨p, hp, expected'⟩,
      Except.ok.inj ((Pmf.expectation_affine image expected').symm.trans expected)⟩
  · rintro ⟨v, ⟨p, hp, expected⟩, rfl⟩
    exact ⟨p, hp, Pmf.expectation_affine image expected⟩

theorem memberExpectations_union :
    (K.union L).memberExpectations f = K.memberExpectations f ∪ L.memberExpectations f := by
  ext v
  simp only [memberExpectations, union, SortedSet.mem_union, or_and_right, exists_or, Set.mem_union,
    Set.mem_ofPred_eq]

/-! ## The laws -/

section

variable (some_member : K.members.isEmpty = false)

include some_member

theorem lowerExpectation_affine (image : Gamble.IsAffine a b f g) (nonneg : 0 ≤ a) :
    K.lowerExpectation g = (a * · + b) <$> K.lowerExpectation f := by
  rcases bounds_cases some_member f with ⟨charged, v, -, lower, -, least, -⟩ | ⟨uncharged, failed, -⟩
  · rw [lower]
    refine (lowerExpectation_eq_ok_iff some_member).2 ⟨image.domain ▸ charged, ?_⟩
    exact memberExpectations_affine image ▸ (Gamble.IsAffine.monotone nonneg b).map_isLeast least
  · rw [failed, (expectations_eq_zeroMass (image.domain ▸ uncharged)).1]
    rfl

theorem upperExpectation_affine_of_nonpos (image : Gamble.IsAffine a b f g) (nonpos : a ≤ 0) :
    K.upperExpectation g = (a * · + b) <$> K.lowerExpectation f := by
  rcases bounds_cases some_member f with ⟨charged, v, -, lower, -, least, -⟩ | ⟨uncharged, failed, -⟩
  · rw [lower]
    refine (upperExpectation_eq_ok_iff some_member).2 ⟨image.domain ▸ charged, ?_⟩
    exact memberExpectations_affine image ▸ (Gamble.IsAffine.antitone nonpos b).map_isLeast least
  · rw [failed, (expectations_eq_zeroMass (image.domain ▸ uncharged)).2]
    rfl

theorem bounds_of_expectations {u : ℚ} (lower : K.lowerExpectation f = .ok v)
    (upper : K.upperExpectation f = .ok u) :
    f.least ≤ v ∧ v ≤ u ∧ u ≤ f.greatest := by
  obtain ⟨-, ⟨p, hp, expected⟩, -⟩ := (lowerExpectation_eq_ok_iff some_member).1 lower
  obtain ⟨-, ⟨q, hq, expected'⟩, above⟩ := (upperExpectation_eq_ok_iff some_member).1 upper
  exact ⟨(Pmf.bounds_of_expectation expected).1, above ⟨p, hp, expected⟩,
    (Pmf.bounds_of_expectation expected').2⟩

theorem lowerExpectation_superadditive (same : g.domain = f.domain) (lower : K.lowerExpectation f = .ok v)
    (lower' : K.lowerExpectation g = .ok w) : ∃ s, K.lowerExpectation (f + g) = .ok s ∧ v + w ≤ s := by
  obtain ⟨charged, -, below⟩ := (lowerExpectation_eq_ok_iff some_member).1 lower
  obtain ⟨-, -, below'⟩ := (lowerExpectation_eq_ok_iff some_member).1 lower'
  obtain ⟨s, sum, ⟨p, hp, expected⟩, -⟩ := lowerExpectation_isLeast (f := f + g) some_member
    (Gamble.domain_add_of_eq same ▸ charged)
  -- The member that the sum attains its least expectation under gives both gambles an expectation.
  have left := Pmf.expectation_eq (charged p hp)
  have right := Pmf.expectation_eq (f := g) (same ▸ charged p hp)
  cases (Pmf.expectation_add same left right).symm.trans expected
  exact ⟨_, sum, add_le_add (below ⟨p, hp, left⟩) (below' ⟨p, hp, right⟩)⟩

end

/-- The bounds of a union are the lesser lower and the greater upper ones. -/
theorem expectations_union (some_member : K.members.isEmpty = false)
    (some_member' : L.members.isEmpty = false) (f : Gamble σ) :
    (K.union L).lowerExpectation f = min <$> K.lowerExpectation f <*> L.lowerExpectation f ∧
    (K.union L).upperExpectation f = max <$> K.upperExpectation f <*> L.upperExpectation f := by
  have charges : (∀ p ∈ (K.union L).members, 0 < p.chance f.domain) ↔
      (∀ p ∈ K.members, 0 < p.chance f.domain) ∧ ∀ p ∈ L.members, 0 < p.chance f.domain := by
    simp only [union, SortedSet.mem_union, or_imp, forall_and]
  rcases bounds_cases some_member f with
    ⟨charged, v, u, lower, upper, least, greatest⟩ | ⟨uncharged, lower, upper⟩
  · rcases bounds_cases some_member' f with ⟨charged', w, t, lower', upper', least', greatest'⟩ |
      ⟨uncharged', lower', upper'⟩
    · have some_both : (K.union L).members.isEmpty = false := by
        obtain ⟨p, hp⟩ := SortedSet.isEmpty_eq_false_iff.1 some_member
        exact SortedSet.isEmpty_eq_false_iff.2 ⟨p, SortedSet.mem_union.2 (.inl hp)⟩
      have all := charges.2 ⟨charged, charged'⟩
      have least_both := least.union least'
      have greatest_both := greatest.union greatest'
      rw [← memberExpectations_union] at least_both greatest_both
      rw [lower, lower', upper, upper', (lowerExpectation_eq_ok_iff some_both).2 ⟨all, least_both⟩,
        (upperExpectation_eq_ok_iff some_both).2 ⟨all, greatest_both⟩]
      exact ⟨rfl, rfl⟩
    · have failed := expectations_eq_zeroMass (mt charges.1 fun both => uncharged' both.2)
      rw [lower, lower', upper, upper', failed.1, failed.2]
      exact ⟨rfl, rfl⟩
  · have failed := expectations_eq_zeroMass (mt charges.1 fun both => uncharged both.1)
    rw [lower, upper, failed.1, failed.2]
    exact ⟨rfl, rfl⟩

/-- The expectations of credal sets with members are coherent. They exist if all members give the
domain of the gamble a probability, and otherwise fail since one does not. They keep between the
bounds of the payoffs, the lower before the upper, and the upper expectation is the opposite of
the lower one of the opposite gamble. The lower expectation is superadditive and follows
nonnegative multiples and shifts, and a union has the lesser lower and the greater upper
expectation. -/
theorem expectations_coherent (some_member : K.members.isEmpty = false)
    (some_member' : L.members.isEmpty = false) (same : g.domain = f.domain) :
    ((∃ v, K.lowerExpectation f = .ok v) ↔ ∀ p ∈ K.members, 0 < p.chance f.domain) ∧
    ((∃ u, K.upperExpectation f = .ok u) ↔ ∀ p ∈ K.members, 0 < p.chance f.domain) ∧
    ((¬∀ p ∈ K.members, 0 < p.chance f.domain) →
      K.lowerExpectation f = .error .zeroMass ∧ K.upperExpectation f = .error .zeroMass) ∧
    (∀ v u, K.lowerExpectation f = .ok v → K.upperExpectation f = .ok u →
      f.least ≤ v ∧ v ≤ u ∧ u ≤ f.greatest) ∧
    K.upperExpectation (-f) = (-·) <$> K.lowerExpectation f ∧
    (∀ v w, K.lowerExpectation f = .ok v → K.lowerExpectation g = .ok w →
      ∃ s, K.lowerExpectation (f + g) = .ok s ∧ v + w ≤ s) ∧
    (∀ a, 0 ≤ a → K.lowerExpectation (f.scale a) = (a * ·) <$> K.lowerExpectation f) ∧
    (∀ c, K.lowerExpectation (f.shift c) = (· + c) <$> K.lowerExpectation f) ∧
    (K.union L).lowerExpectation f = min <$> K.lowerExpectation f <*> L.lowerExpectation f ∧
    (K.union L).upperExpectation f = max <$> K.upperExpectation f <*> L.upperExpectation f := by
  refine ⟨⟨fun ⟨v, lower⟩ => ((lowerExpectation_eq_ok_iff some_member).1 lower).1, fun charged => ?_⟩,
    ⟨fun ⟨u, upper⟩ => ((upperExpectation_eq_ok_iff some_member).1 upper).1, fun charged => ?_⟩,
    expectations_eq_zeroMass, fun v u => bounds_of_expectations some_member, ?_,
    fun v w => lowerExpectation_superadditive some_member same, fun a nonneg => ?_, fun c => ?_,
    expectations_union some_member some_member' f⟩
  · obtain ⟨v, lower, -⟩ := lowerExpectation_isLeast some_member charged
    exact ⟨v, lower⟩
  · obtain ⟨u, upper, -⟩ := upperExpectation_isGreatest some_member charged
    exact ⟨u, upper⟩
  · simpa only [neg_one_mul, add_zero] using
      upperExpectation_affine_of_nonpos some_member (.neg f) (neg_nonpos.2 zero_le_one)
  · simpa only [add_zero] using lowerExpectation_affine some_member (.scale a f) nonneg
  · simpa only [one_mul] using lowerExpectation_affine some_member (.shift c f) zero_le_one

/-- Two members that charge different parts of the domain, in a set and in its union with a third
one that charges none of it. -/
theorem expectations_coherent_partly :
    let p : Pmf Int :=
      ⟨⟨.ofList [(0, 1 / 2), (1, 1 / 4), (3, 1 / 4)], by decide +kernel, by decide +kernel⟩,
        by decide +kernel⟩
    let q : Pmf Int :=
      ⟨⟨.ofList [(1, 1 / 3), (2, 2 / 3)], by decide +kernel, by decide +kernel⟩, by decide +kernel⟩
    let K : CredalSet Int := .ofList [p, q]
    let L : CredalSet Int := .ofList [.dirac 3]
    let f : Gamble Int := .ofList [(0, 3), (1, 0), (2, 6)]
    let g : Gamble Int := .ofList [(0, -3), (1, 3), (2, -3)]
    g.domain = f.domain ∧ K.lowerExpectation f = .ok 2 ∧ K.upperExpectation (-f) = .ok (-2) ∧
      K.lowerExpectation g = .ok (-1) ∧ (∃ s, K.lowerExpectation (f + g) = .ok s ∧ 1 ≤ s) ∧
      K.lowerExpectation (f.scale 2) = .ok 4 ∧ K.lowerExpectation (f.shift 5) = .ok 7 ∧
      (K.union L).lowerExpectation f = .error .zeroMass := by
  intro p q K L f g
  have same : g.domain = f.domain := by decide +kernel
  have lower : K.lowerExpectation f = .ok 2 := by decide +kernel
  have lower' : K.lowerExpectation g = .ok (-1) := by decide +kernel
  have failed : L.lowerExpectation f = .error .zeroMass := by decide +kernel
  obtain ⟨-, -, -, -, opposite, superadditive, scale, shift, union, -⟩ :=
    expectations_coherent (K := K) (L := L) (by decide +kernel) (by decide +kernel) same
  rw [lower] at opposite
  refine ⟨same, lower, opposite, lower', ?_, ?_, ?_, ?_⟩
  · obtain ⟨s, sum, le⟩ := superadditive 2 (-1) lower lower'
    exact ⟨s, sum, le.trans_eq' (by norm_num)⟩
  · rw [scale 2 zero_le_two, lower]
    decide +kernel
  · rw [shift 5, lower]
    decide +kernel
  · rw [union, lower, failed]
    rfl

end CredalSet

end Prevision
