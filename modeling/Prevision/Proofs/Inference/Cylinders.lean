import Prevision.Proofs.Inference.Answers
import Prevision.Proofs.Inference.Images

/-!
# Cylindrical extensions

Desirable gambles on one component are read as gambles on pairs by the
cylindrical map. A cylinder is at most another exactly if the functions compare
so, and the rays of the image generate cylinders only. So what is at least some
cylinder of a combination says nothing that the combination does not say: the
prices, the losses and the desirable gambles are those of the original
(`IsCylinder.isPrice_iff`, `IsCylinder.loses_iff`, `IsCylinder.incursSureLoss_iff`,
`IsCylinder.dominates_iff`), and every question about them has the same answer
(`GambleMap.exists_applySet_cylindrical`).
-/

namespace Prevision

variable {σ τ : Type} [State σ] [State τ] {other : SortedSet τ}

/-! ## Extended gambles -/

namespace Gamble

theorem payoff_shift_extend (c : ℚ) (f : Gamble σ) (other : SortedSet τ) :
    ((f.extend other).shift c).payoff = cylinder other (f.shift c).payoff := by
  funext z
  rw [payoff_shift, cylinder_apply, payoff_shift, payoff_extend, cylinder_apply]
  by_cases hz : z.2 ∈ other
  · rw [if_pos hz, if_pos hz]
    exact if_congr (mem_domain_extend.trans (and_iff_left hz)) rfl rfl
  · rw [if_neg hz, if_neg hz, if_neg fun mem => hz (mem_domain_extend.1 mem).2]

theorem neg_extend (f : Gamble σ) (other : SortedSet τ) : -f.extend other = (-f).extend other := by
  refine ext_payoff (SortedSet.ext fun z => ?_) (funext fun z => ?_)
  · rw [domain_neg, mem_domain_extend, mem_domain_extend, domain_neg]
  · rw [payoff_neg, payoff_extend, payoff_extend, cylinder_apply, cylinder_apply, payoff_neg]
    split
    · rfl
    · exact neg_zero

end Gamble

/-! ## Cylinders of desirable gambles -/

namespace DesirabilitySet

variable {D : DesirabilitySet σ} {D' : DesirabilitySet (σ × τ)} {f : Gamble σ} {h : σ → ℚ} {c : ℚ}

/-- The cylinders of desirable gambles, over some values of the second component. -/
structure IsCylinder (other : SortedSet τ) (D : DesirabilitySet σ) (D' : DesirabilitySet (σ × τ)) : Prop where
  some_value : other.isEmpty = false
  image : D.IsImage (cylinder other) D'

namespace IsCylinder

/-- Cylinders are negative as the functions are. -/
theorem cylinder_neg_iff (cylinders : D.IsCylinder other D') : cylinder other h < 0 ↔ h < 0 := by
  have le {g k : σ → ℚ} : cylinder other g ≤ cylinder other k ↔ g ≤ k :=
    cylinder_le_iff cylinders.some_value
  rw [← map_zero (cylinder other), lt_iff_le_not_ge, le, le, ← lt_iff_le_not_ge]

theorem mem_domain (cylinders : D.IsCylinder other D') {z : σ × τ} :
    z ∈ D'.domain ↔ z.1 ∈ D.domain ∧ z.2 ∈ other := by
  have pays {r : Ray σ} {s : Ray (σ × τ)} (parallel : Parallel (cylinder other r.payoff) s.payoff) :
      z ∈ s.domain ↔ z.1 ∈ r.domain ∧ z.2 ∈ other := by
    obtain ⟨a, pos, same⟩ := parallel.symm
    have at_z : s.payoff z = a * cylinder other r.payoff z := congrFun same z
    rw [Ray.mem_domain, Ray.mem_domain, at_z, cylinder_apply, mul_ne_zero_iff, and_iff_right pos.ne',
      ne_eq, ite_eq_right_iff]
    tauto
  rw [DesirabilitySet.mem_domain, DesirabilitySet.mem_domain]
  constructor
  · rintro ⟨s, hs, hz⟩
    obtain ⟨r, hr, parallel⟩ := cylinders.image.of_generator hs
    obtain ⟨hx, hy⟩ := (pays parallel).1 hz
    exact ⟨⟨r, hr, hx⟩, hy⟩
  · rintro ⟨⟨r, hr, hx⟩, hy⟩
    obtain ⟨s, hs, parallel⟩ := cylinders.image.generator hr
    exact ⟨s, hs, (pays parallel).2 ⟨hx, hy⟩⟩

theorem isPrice_iff (cylinders : D.IsCylinder other D') : D'.IsPrice (f.extend other) c ↔ D.IsPrice f c := by
  rw [isPrice_iff_le_shift, isPrice_iff_le_shift, Gamble.payoff_shift_extend,
    cylinders.image.exists_generated_iff]
  simp only [cylinder_le_iff cylinders.some_value]

theorem dominates_iff (cylinders : D.IsCylinder other D') :
    Dominates D'.cones.toList (cylinder other h) ↔ Dominates D.cones.toList h := by
  have pos : 0 < cylinder other h ↔ 0 < h := by
    rw [← neg_neg_iff_pos, ← map_neg, cylinders.cylinder_neg_iff, neg_neg_iff_pos]
  rw [Dominates, Dominates, pos, cylinders.image.exists_isSum_iff]
  simp only [cylinder_le_iff cylinders.some_value]

theorem loses_iff (cylinders : D.IsCylinder other D') :
    (∃ s : Selection D'.cones.toList, s.Loses) ↔ ∃ s : Selection D.cones.toList, s.Loses := by
  rw [exists_loses_iff_neg, exists_loses_iff_neg, cylinders.image.exists_isSum_iff]
  simp only [cylinders.cylinder_neg_iff]

theorem incursSureLoss_iff (cylinders : D.IsCylinder other D') : D'.IncursSureLoss ↔ D.IncursSureLoss := by
  obtain ⟨y, hy⟩ := SortedSet.isEmpty_eq_false_iff.1 cylinders.some_value
  have negative (u : σ → ℚ) : (∀ z ∈ D'.domain, cylinder other u z < 0) ↔ ∀ x ∈ D.domain, u x < 0 := by
    refine ⟨fun negative x hx => ?_, fun negative z hz => ?_⟩
    · rw [← cylinder_of_mem (z := (x, y)) hy u]
      exact negative (x, y) (cylinders.mem_domain.2 ⟨hx, hy⟩)
    · obtain ⟨hx, hz⟩ := cylinders.mem_domain.1 hz
      rw [cylinder_of_mem hz]
      exact negative z.1 hx
  rw [incursSureLoss_iff_generated, incursSureLoss_iff_generated, cylinders.image.exists_generated_iff]
  simp only [negative]

/-! ## Answers -/

theorem exists_losses_agree (cylinders : D.IsCylinder other D') : ∃ limit, ∀ maxPivots ≥ limit, ∃ b c,
    (D.avoidsSureLoss (m := Id) (Simplex.solve maxPivots)).run = .ok b ∧
      (D'.avoidsSureLoss (m := Id) (Simplex.solve maxPivots)).run = .ok b ∧
      (D.avoidsPartialLoss (m := Id) (Simplex.solve maxPivots)).run = .ok c ∧
      (D'.avoidsPartialLoss (m := Id) (Simplex.solve maxPivots)).run = .ok c := by
  obtain ⟨limit, answers⟩ := exists_limit_and
    (exists_limit_and D.exists_limit_avoidsSureLoss D'.exists_limit_avoidsSureLoss)
    (exists_limit_and D.exists_limit_avoidsPartialLoss D'.exists_limit_avoidsPartialLoss)
  refine ⟨limit, fun maxPivots le => ?_⟩
  obtain ⟨⟨⟨b, run, right⟩, ⟨b', run', right'⟩⟩, ⟨c, answer, loses⟩,
    ⟨c', answer', loses'⟩⟩ := answers maxPivots le
  rw [cylinders.image.isEmpty_eq, cylinders.incursSureLoss_iff, ← right, ← Bool.eq_iff_iff] at right'
  rw [cylinders.loses_iff, ← loses, ← Bool.eq_iff_iff] at loses'
  exact ⟨b, c, run, right' ▸ run', answer, loses' ▸ answer'⟩

theorem exists_isDesirable_agrees (cylinders : D.IsCylinder other D') (f : Gamble σ) :
    ∃ limit, ∀ maxPivots ≥ limit, ∃ b, (D.isDesirable (m := Id) (Simplex.solve maxPivots) f).run = .ok b ∧
      (D'.isDesirable (m := Id) (Simplex.solve maxPivots) (f.extend other)).run = .ok b := by
  obtain ⟨limit, answers⟩ := exists_limit_and (exists_isDesirable_iff_dominates D f)
    (exists_isDesirable_iff_dominates D' (f.extend other))
  refine ⟨limit, fun maxPivots le => ?_⟩
  obtain ⟨⟨b, run, right⟩, ⟨b', run', right'⟩⟩ := answers maxPivots le
  rw [Gamble.payoff_extend, cylinders.dominates_iff, ← right, ← Bool.eq_iff_iff] at right'
  exact ⟨b, run, right' ▸ run'⟩

end IsCylinder

end DesirabilitySet

/-! ## The cylindrical map -/

namespace GambleMap

variable {D : DesirabilitySet σ} {states : SortedSet σ}

/-- The cylindrical map takes the rays of desirable gambles to the directions of their cylinders. -/
theorem exists_applySet_isCylinder (some_value : other.isEmpty = false)
    (within : ∀ x ∈ D.domain, x ∈ states) :
    ∃ D', (cylindrical states other).applySet D = .ok D' ∧ D.IsCylinder other D' := by
  have takes : ∀ r ∈ D.generators, (cylindrical states other).Takes (cylinder other) r := fun r hr => by
    obtain ⟨g, applied, payoff⟩ := exists_apply_cylindrical (f := r.gamble)
      (fun x hx => within x (DesirabilitySet.mem_domain.2 ⟨r, hr, hx⟩)) other
    refine ⟨g, applied, payoff, fun zero => r.payoff_ne_zero ?_⟩
    have none : cylinder other r.payoff = cylinder other 0 := (payoff.symm.trans zero).trans (map_zero _).symm
    exact le_antisymm ((cylinder_le_iff some_value).1 none.le) ((cylinder_le_iff some_value).1 none.ge)
  obtain ⟨D', applied, image⟩ := exists_applySet takes
  exact ⟨D', applied, some_value, image⟩

/-- The cylindrical map has an image of desirable gambles. With enough pivots, each question about
the image has the answer of the original, and the gambles in question are extended. -/
theorem exists_applySet_cylindrical (assessed : D.cones.isEmpty = false) (some_value : other.isEmpty = false)
    (within : ∀ x ∈ D.domain, x ∈ states) : ∃ D', (cylindrical states other).applySet D = .ok D' ∧
    (∃ limit, ∀ maxPivots ≥ limit, ∃ b c,
      (D.avoidsSureLoss (m := Id) (Simplex.solve maxPivots)).run = .ok b ∧
      (D'.avoidsSureLoss (m := Id) (Simplex.solve maxPivots)).run = .ok b ∧
      (D.avoidsPartialLoss (m := Id) (Simplex.solve maxPivots)).run = .ok c ∧
      (D'.avoidsPartialLoss (m := Id) (Simplex.solve maxPivots)).run = .ok c) ∧
    ∀ f : Gamble σ, ∃ limit, ∀ maxPivots ≥ limit,
      (D.lowerExpectation (m := Id) (Simplex.solve maxPivots) f).Agrees
        (D'.lowerExpectation (m := Id) (Simplex.solve maxPivots) (f.extend other)) ∧
      (D.upperExpectation (m := Id) (Simplex.solve maxPivots) f).Agrees
        (D'.upperExpectation (m := Id) (Simplex.solve maxPivots) (f.extend other)) ∧
      ∃ b, (D.isDesirable (m := Id) (Simplex.solve maxPivots) f).run = .ok b ∧
        (D'.isDesirable (m := Id) (Simplex.solve maxPivots) (f.extend other)).run = .ok b := by
  obtain ⟨D', applied, cylinders⟩ := exists_applySet_isCylinder some_value within
  have assessed' : D'.cones.isEmpty = false := cylinders.image.isEmpty_eq.trans assessed
  refine ⟨D', applied, cylinders.exists_losses_agree, fun f => ?_⟩
  have opposite (c : ℚ) : D'.IsPrice (-f.extend other) c ↔ D.IsPrice (-f) c := by
    rw [Gamble.neg_extend, cylinders.isPrice_iff]
  exact exists_limit_and
    (DesirabilitySet.exists_lowerExpectation_agrees assessed assessed' fun _ => cylinders.isPrice_iff)
    (exists_limit_and (DesirabilitySet.exists_upperExpectation_agrees assessed assessed' opposite)
      (cylinders.exists_isDesirable_agrees f))

theorem exists_applySet_cylindrical_favoured :
    let states : SortedSet Int := .ofList [0, 1, 2]
    let other : SortedSet Int := .ofList [5, 7]
    favoured.cones.isEmpty = false ∧ other.isEmpty = false ∧ (∀ x ∈ favoured.domain, x ∈ states) ∧
    ∃ D', (cylindrical states other).applySet favoured = .ok D' ∧
      ∃ limit, ∀ maxPivots ≥ limit,
        (favoured.lowerExpectation (m := Id) (Simplex.solve maxPivots) wager).Agrees
          (D'.lowerExpectation (m := Id) (Simplex.solve maxPivots) (wager.extend other)) := by
  intro states other
  have assessed : favoured.cones.isEmpty = false := by decide +kernel
  have some_value : other.isEmpty = false := by decide +kernel
  have within : ∀ x ∈ favoured.domain.toList, x ∈ states.toList := by decide +kernel
  obtain ⟨D', applied, -, agrees⟩ := exists_applySet_cylindrical assessed some_value within
  obtain ⟨limit, agrees⟩ := agrees wager
  exact ⟨assessed, some_value, within, D', applied, limit, fun maxPivots le => (agrees maxPivots le).1⟩

end GambleMap

end Prevision
