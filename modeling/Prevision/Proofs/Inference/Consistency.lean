import Prevision.Proofs.Inference.Extension
import Prevision.Proofs.Inference.PartialLoss

/-!
# Partial loss and the desirability of a loss

To lose one in some state is desirable exactly if some sum of elements of the
cones is nowhere positive and negative in that state, since the loss of one is at
least a multiple of that sum (`exists_exact_lossIn_iff`). So desirable gambles
incur partial loss exactly if a loss in some state is desirable, and that state is
in the possibility space (`exists_partialLoss_iff_isDesirable`).
-/

namespace Prevision

variable {σ : Type} [State σ]

/-- A loss of one in a state. -/
def Gamble.lossIn (x : σ) : Gamble σ := -.indicator (.singleton x)

theorem Gamble.payoff_lossIn (x : σ) : (lossIn x).payoff = -(Ray.unit x).payoff :=
  funext fun y => Gamble.payoff_neg _ y

namespace DesirabilitySet

variable {D : DesirabilitySet σ} {f : σ → ℚ} {x : σ}

/-- A loss in a state is an exact sum together with indicators if a sum of the assessments alone is nowhere
positive and negative in that state. -/
theorem exists_exact_lossIn_iff :
    (∃ s : Selection (D.conesFor (.lossIn x)), s.Exact (targetOf (.lossIn x))) ↔
      ∃ f, IsSum D.cones.toList f ∧ (∀ y, f y ≤ 0) ∧ f x < 0 := by
  rw [exists_exact_targetOf_iff, Gamble.payoff_lossIn]
  constructor
  · rintro (pos | ⟨f, sum, le⟩)
    · exact absurd pos (neg_nonpos.2 (payoff_unit_pos x).le).not_gt
    · refine ⟨f, sum, fun y => (le y).trans (neg_nonpos.2 (Ray.payoff_unit_nonneg x y)), (le x).trans_lt ?_⟩
      rw [Pi.neg_apply, Ray.payoff_unit_self]
      exact neg_one_lt_zero
  · rintro ⟨f, sum, nonpos, negative⟩
    have pos : 0 < (-f x)⁻¹ := inv_pos.2 (neg_pos.2 negative)
    refine .inr ⟨(-f x)⁻¹ • f, sum.smul pos, fun y => ?_⟩
    rw [Pi.smul_apply, Pi.neg_apply, smul_eq_mul]
    rcases eq_or_ne y x with rfl | ne
    · rw [Ray.payoff_unit_self, inv_neg, neg_mul, inv_mul_cancel₀ negative.ne]
    · rw [Ray.payoff_unit_of_ne ne, neg_zero]
      exact mul_nonpos_of_nonneg_of_nonpos pos.le (nonpos y)

theorem exists_loses_iff_exists_exact : (∃ s : Selection D.cones.toList, s.Loses) ↔
    ∃ x, ∃ s : Selection (D.conesFor (.lossIn x)), s.Exact (targetOf (.lossIn x)) := by
  rw [exists_loses_iff]
  simp only [exists_exact_lossIn_iff]
  constructor
  · rintro ⟨f, sum, nonpos, x, negative⟩
    exact ⟨x, f, sum, nonpos, negative⟩
  · rintro ⟨x, f, sum, nonpos, negative⟩
    exact ⟨f, sum, nonpos, x, negative⟩

/-- A loss is desirable only in a state of the possibility space. -/
theorem mem_domain_of_exact
    (exact : ∃ s : Selection (D.conesFor (.lossIn x)), s.Exact (targetOf (.lossIn x))) :
    x ∈ D.domain := by
  obtain ⟨f, sum, -, negative⟩ := exists_exact_lossIn_iff.1 exact
  exact not_not.1 fun out => negative.ne (supports_of_isSum sum x out)

theorem possibilitySpace_eq_of_mem (hx : x ∈ D.domain) : D.possibilitySpace = .ok D.domain := by
  obtain ⟨r, hr, -⟩ := mem_domain.1 hx
  exact possibilitySpace_eq (Bool.eq_false_iff.2 fun empty => isEmpty_iff_no_generator.1 empty r hr)

/-- With enough pivots, desirable gambles incur partial loss exactly if a loss in some state is desirable,
and that state is in the possibility space. -/
theorem exists_partialLoss_iff_isDesirable (D : DesirabilitySet σ) : ∃ limit, ∀ maxPivots ≥ limit,
    (∃ b, (D.avoidsPartialLoss (m := Id) (Simplex.solve maxPivots)).run = .ok b) ∧
    (∀ x ∈ D.domain, ∃ b, (D.isDesirable (m := Id) (Simplex.solve maxPivots) (.lossIn x)).run = .ok b) ∧
    ((D.avoidsPartialLoss (m := Id) (Simplex.solve maxPivots)).run = .ok false ↔
      ∃ x, (D.isDesirable (m := Id) (Simplex.solve maxPivots) (.lossIn x)).run = .ok true) ∧
    ∀ x, (D.isDesirable (m := Id) (Simplex.solve maxPivots) (.lossIn x)).run = .ok true →
      ∃ S, D.possibilitySpace = .ok S ∧ x ∈ S := by
  obtain ⟨limit, partialLoss⟩ := exists_limit_avoidsPartialLoss D
  choose limits answer answers decides using fun x => exists_isDesirable D (.lossIn x)
  refine ⟨max limit (D.domain.toFinset.sup limits), fun maxPivots le => ?_⟩
  obtain ⟨b, avoids, noPartialLoss⟩ := partialLoss maxPivots ((le_max_left _ _).trans le)
  have within (x : σ) (hx : x ∈ D.domain) :
      (D.isDesirable (m := Id) (Simplex.solve maxPivots) (.lossIn x)).run = .ok (answer x) :=
    answers x maxPivots ((Finset.le_sup (f := limits) hx).trans ((le_max_right _ _).trans le))
  refine ⟨⟨b, avoids⟩, fun x hx => ⟨_, within x hx⟩, ?_, fun x desirable => ?_⟩
  · rw [avoids, Except.ok.injEq, ← Bool.not_eq_true, noPartialLoss, not_not, exists_loses_iff_exists_exact]
    refine exists_congr fun x => ⟨fun exact => ?_, fun desirable => (isDesirable_eq_iff desirable).1 rfl⟩
    rw [within x (mem_domain_of_exact exact), (decides x).2 exact]
  · have hx := mem_domain_of_exact ((isDesirable_eq_iff desirable).1 rfl)
    exact ⟨D.domain, possibilitySpace_eq_of_mem hx, hx⟩

end DesirabilitySet

end Prevision
