import Prevision.Proofs.Duality.Polar
import Prevision.Proofs.Inference.SureLoss

/-!
# Sure loss or a mass function

Either some nonnegative combination of the rays is negative in every state, or
some mass function is compatible with the rays. A sure loss is the same as
accepting the gamble that is minus one everywhere, and its product with a mass
function is minus one. So a credal set that represents the desirable gambles is
without members exactly if they incur sure loss
(`CredalSet.Represents.isEmpty_iff`).

The solver decides the one side and the enumerator the other
(`exists_alternative`).
-/

namespace Prevision

variable {σ : Type} [State σ] {D : DesirabilitySet σ} {K : CredalSet σ} {limits : Limits}

/-- The expectation of minus one. -/
theorem product_neg_one {p : Pmf σ} (supports : D.domain.Supports p.probability) :
    D.domain.product (fun _ => -1) p.probability = -1 := by
  have within : ∀ x ∈ p.domain, x ∈ D.domain := fun x hx =>
    not_not.1 fun out => Pmf.mem_domain.1 hx (supports x out)
  rw [SortedSet.product_apply, ← Finset.mul_sum, Pmf.sum_probability within, mul_one]

theorem DesirabilitySet.incursSureLoss_iff_accepts : D.IncursSureLoss ↔ D.Accepts fun _ => -1 :=
  incursSureLoss_iff_le_neg_one

theorem CredalSet.Represents.isEmpty_iff (represents : K.Represents D) :
    K.members.isEmpty = true ↔ D.IncursSureLoss := by
  rw [SortedSet.eq_empty_iff, DesirabilitySet.incursSureLoss_iff_accepts, represents.accepts]
  refine forall_congr' fun p => ⟨fun out hp => absurd hp out, fun product hp => ?_⟩
  have positive := product hp
  rw [product_neg_one (represents.supports p hp)] at positive
  exact absurd positive (by decide)

/-- Within the limits, there is a sure loss if and only if the credal set is without members. -/
theorem DesirabilitySet.exists_alternative (assessed : D.cones.isEmpty = false)
    (solved : ((Reasoner.within limits).avoidsSureLoss D).hitsLimit = false)
    (enumerated : ((Reasoner.within limits).toCredalSet D).hitsLimit = false) :
    ∃ (b : Bool) (K : CredalSet σ), ((Reasoner.within limits).avoidsSureLoss D).run = .ok b ∧
      ((Reasoner.within limits).toCredalSet D).run = .ok K ∧
      (b = false ↔ D.IncursSureLoss) ∧ (K.members.isEmpty = true ↔ D.IncursSureLoss) := by
  obtain ⟨b, answer, loss⟩ := exists_avoidsSureLoss assessed solved
  obtain ⟨K, converted, polar⟩ := exists_toCredalSet assessed enumerated
  exact ⟨b, K, answer, converted, loss, polar.represents.isEmpty_iff⟩

/-- Two gambles whose sum is negative in both states. -/
def losing : DesirabilitySet Int :=
  .ofCones [.singleton ⟨.ofList [(0, 1 / 2), (1, -1)], by decide +kernel, by decide +kernel⟩,
    .singleton ⟨.ofList [(0, -1), (1, 1 / 2)], by decide +kernel, by decide +kernel⟩]

theorem exists_alternative_losing : losing.cones.isEmpty = false ∧
    (Reasoner.exact.avoidsSureLoss losing).hitsLimit = false ∧
    (Reasoner.exact.toCredalSet losing).hitsLimit = false ∧
    ∃ (b : Bool) (K : CredalSet Int), (Reasoner.exact.avoidsSureLoss losing).run = .ok b ∧
      (Reasoner.exact.toCredalSet losing).run = .ok K ∧
      (b = false ↔ losing.IncursSureLoss) ∧ (K.members.isEmpty = true ↔ losing.IncursSureLoss) := by
  have assessed : losing.cones.isEmpty = false := by decide +kernel
  have solved : (Reasoner.exact.avoidsSureLoss losing).hitsLimit = false := by decide +kernel
  have enumerated : (Reasoner.exact.toCredalSet losing).hitsLimit = false := by decide +kernel
  exact ⟨assessed, solved, enumerated, DesirabilitySet.exists_alternative assessed solved enumerated⟩

end Prevision
