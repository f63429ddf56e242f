import Prevision.Proofs.Duality.Polar
import Prevision.Proofs.Inference.Losses

/-!
# Partial loss and full support

The product of a sum of elements of cones with a member of the credal set is not
negative. A sum that loses has only nonpositive terms in it, so no member gives
a state where it is negative a probability. If every state has a probability
under some member there is no such sum (`CredalSet.Represents.not_loses`).

Conversely, the loss of one in a state without probability is accepted. It is at
least what some rays generate, which is a sum of elements of cones if the rays
are cones of their own (`eq_zero_or_isSum`), but need not be if a cone takes part
only as a whole. So of gambles assessed one by one, partial loss is avoided
exactly if the credal set is on the whole possibility space
(`exists_avoidsPartialLoss_iff_support`).
-/

namespace Prevision

variable {σ : Type} [State σ] {D : DesirabilitySet σ} {K : CredalSet σ} {x : σ} {u : σ → ℚ}
    {limits : Limits}

namespace CredalSet

/-- The possibility spaces are the same exactly if every state has a probability under some member. -/
theorem Represents.possibilitySpace_eq_iff (represents : K.Represents D)
    (assessed : D.cones.isEmpty = false) :
    K.members.isEmpty = false ∧ K.possibilitySpace = D.possibilitySpace ↔ ∀ x ∈ D.domain, x ∈ K.domain := by
  rw [D.possibilitySpace_eq assessed, possibilitySpace]
  constructor
  · rintro ⟨some_member, same⟩ x hx
    rw [some_member, if_neg Bool.false_ne_true, Except.ok.injEq] at same
    rwa [same]
  · intro within
    obtain ⟨x, hx⟩ := DesirabilitySet.exists_mem_domain assessed
    obtain ⟨p, hp, -⟩ := CredalSet.mem_domain.1 (within x hx)
    have some_member : K.members.isEmpty = false := SortedSet.isEmpty_eq_false_iff.2 ⟨p, hp⟩
    rw [some_member, if_neg Bool.false_ne_true]
    exact ⟨rfl, congrArg Except.ok (SortedSet.ext fun y => ⟨represents.mem_domain, within y⟩)⟩

/-- If every state has a probability under some member, no selection loses. -/
theorem Represents.not_loses (represents : K.Represents D) (full : ∀ x ∈ D.domain, x ∈ K.domain) :
    ¬∃ s : Selection D.cones.toList, s.Loses := by
  rw [exists_loses_iff]
  rintro ⟨f, sum, nonpos, x, negative⟩
  have inside : x ∈ D.domain := not_not.1 fun out => negative.ne (DesirabilitySet.supports_of_isSum sum x out)
  obtain ⟨p, hp, charged⟩ := CredalSet.mem_domain.1 (full x inside)
  have pos : 0 < p.probability x := (p.probability_nonneg x).lt_of_ne' (Pmf.mem_domain.1 charged)
  have accepted : D.Accepts f := ⟨f, DesirabilitySet.generated_of_isSum sum, fun _ _ => le_rfl⟩
  refine absurd ((represents.accepts f).1 accepted p hp) (not_le.2 ?_)
  rw [SortedSet.product_apply]
  exact Finset.sum_neg' (fun y _ => mul_nonpos_of_nonpos_of_nonneg (nonpos y) (p.probability_nonneg y))
    ⟨x, inside, mul_neg_of_neg_of_pos negative pos⟩

end CredalSet

/-! ## Gambles assessed one by one -/

/-- A state without probability gives a selection that loses there. -/
theorem CredalSet.Represents.exists_loses (represents : K.Represents D)
    (single : ∀ C ∈ D.cones, C.rays.size = 1)
    (inside : x ∈ D.domain) (uncharged : x ∉ K.domain) : ∃ s : Selection D.cones.toList, s.Loses := by
  have accepted : D.Accepts (-(Ray.unit x).payoff) := (represents.accepts _).2 fun p hp => by
    have zero : p.probability x = 0 := Pmf.probability_eq_zero fun charged =>
      uncharged (CredalSet.mem_domain.2 ⟨p, hp, charged⟩)
    rw [SortedSet.product_comm, map_neg, SortedSet.product_comm, Ray.product_unit inside, zero, neg_zero]
  obtain ⟨u, generated, le⟩ := accepted
  have negative : u x < 0 := by
    have := le x inside
    rw [Pi.neg_apply, Ray.payoff_unit_self] at this
    exact this.trans_lt neg_one_lt_zero
  have sum : IsSum D.cones.toList u :=
    (DesirabilitySet.eq_zero_or_isSum single generated).resolve_left fun zero => by
    rw [zero] at negative
    exact lt_irrefl 0 negative
  refine exists_loses_iff.2 ⟨u, sum, fun y => ?_, x, negative⟩
  by_cases hy : y ∈ D.domain
  · exact (le y hy).trans (neg_nonpos.2 (Ray.payoff_unit_nonneg x y))
  · exact (DesirabilitySet.supports_of_isSum sum y hy).le

/-- Within the limits, partial loss is avoided if the credal set is on the whole possibility
space, and of gambles assessed one by one only then. -/
theorem DesirabilitySet.exists_avoidsPartialLoss_iff_support (assessed : D.cones.isEmpty = false)
    (enumerated : ((Reasoner.within limits).toCredalSet D).hitsLimit = false)
    (solved : ((Reasoner.within limits).avoidsPartialLoss D).hitsLimit = false) :
    ∃ (K : CredalSet σ) (b : Bool), ((Reasoner.within limits).toCredalSet D).run = .ok K ∧
      ((Reasoner.within limits).avoidsPartialLoss D).run = .ok b ∧
      (K.members.isEmpty = false ∧ K.possibilitySpace = D.possibilitySpace → b = true) ∧
      ((∀ C ∈ D.cones, C.rays.size = 1) →
        (b = true ↔ K.members.isEmpty = false ∧ K.possibilitySpace = D.possibilitySpace)) := by
  obtain ⟨K, converted, polar⟩ := exists_toCredalSet assessed enumerated
  obtain ⟨b, answer, avoids⟩ := exists_avoidsPartialLoss_of_fits solved
  have represents := polar.represents
  refine ⟨K, b, converted, answer, ?_⟩
  rw [represents.possibilitySpace_eq_iff assessed, avoids]
  refine ⟨represents.not_loses, fun single => ⟨fun never x inside => ?_, represents.not_loses⟩⟩
  exact not_not.1 fun uncharged => never (represents.exists_loses single inside uncharged)

/-- Zero is at least half as probable as one. -/
def ranked : DesirabilitySet Int :=
  .ofCones [.singleton ⟨.ofList [(0, 1), (1, -1 / 2)], by decide +kernel, by decide +kernel⟩]

theorem exists_avoidsPartialLoss_iff_support_ranked : ranked.cones.isEmpty = false ∧
    (Reasoner.exact.toCredalSet ranked).hitsLimit = false ∧
    (Reasoner.exact.avoidsPartialLoss ranked).hitsLimit = false ∧ (∀ C ∈ ranked.cones, C.rays.size = 1) ∧
    ∃ K : CredalSet Int, (Reasoner.exact.toCredalSet ranked).run = .ok K ∧
      (Reasoner.exact.avoidsPartialLoss ranked).run = .ok true ∧ K.members.isEmpty = false ∧
      K.possibilitySpace = ranked.possibilitySpace := by
  have assessed : ranked.cones.isEmpty = false := by decide +kernel
  have enumerated : (Reasoner.exact.toCredalSet ranked).hitsLimit = false := by decide +kernel
  have solved : (Reasoner.exact.avoidsPartialLoss ranked).hitsLimit = false := by decide +kernel
  have single : ∀ C ∈ ranked.cones.toList, C.rays.size = 1 := by decide +kernel
  have avoids : (Reasoner.exact.avoidsPartialLoss ranked).run = .ok true := by
    show (_ : Except Error Bool) = _
    decide +kernel
  obtain ⟨K, b, converted, answer, -, support⟩ :=
    DesirabilitySet.exists_avoidsPartialLoss_iff_support assessed enumerated solved
  cases answer.symm.trans avoids
  exact ⟨assessed, enumerated, solved, single, K, converted, avoids, (support single).1 rfl⟩

/-- A cone that takes part only as a whole: with the loss of one in state zero goes a gain in both
states, so partial loss is avoided, but state zero has no probability. -/
example :
    let D : DesirabilitySet Int :=
      .ofCones [.ofRays [⟨.ofList [(0, -1)], by decide +kernel, by decide +kernel⟩,
      ⟨.ofList [(0, 1), (1, 1)], by decide +kernel, by decide +kernel⟩]]
    (Reasoner.exact.avoidsPartialLoss D).run.toOption = some true ∧
      ((Reasoner.exact.toCredalSet D).run.toOption.map fun K => K.domain.toList) = some [1] := by
  decide +kernel

end Prevision
