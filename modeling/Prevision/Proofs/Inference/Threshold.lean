import Prevision.Proofs.Inference.Extension
import Prevision.Proofs.Inference.Losses
import Prevision.Proofs.Inference.Prices

/-!
# The lower expectation as a threshold

A price of a gamble is what can be taken from it on its domain so that the rest
is at least what the rays generate (`isPrice_iff_le_shift`). To be desirable the
rest has to be at least a sum of whole cones, or positive. So what is desirable
is a price (`isPrice_of_dominates`), and below a price there is something left
for the rays of the cones that the price does not use, provided that they pay
nothing where the gamble is not given, or that there are none since every ray is
a cone of its own (`dominates_of_isPrice`).

Hence a gamble less some amount is desirable below its lower expectation and not
above it (`exists_isDesirable_of_lowerExpectation`).
-/

namespace Prevision

variable {σ : Type} [State σ]

namespace Gamble

theorem payoff_shift_neg {f : Gamble σ} {x : σ} {v : ℚ} (hx : x ∈ f.domain) :
    (f.shift (-v)).payoff x = f.payoff x - v := by
  rw [payoff_shift, if_pos hx, sub_eq_add_neg]

theorem supports_shift (f : Gamble σ) (c : ℚ) : f.domain.Supports (f.shift c).payoff := fun x out => by
  rw [payoff_shift, if_neg out]

theorem payoff_shift_mono {c v : ℚ} (le : c ≤ v) (f : Gamble σ) :
    (f.shift c).payoff ≤ (f.shift v).payoff := fun x => by
  rw [payoff_shift, payoff_shift]
  split
  · exact add_le_add_right le _
  · exact le_rfl

theorem payoff_shift_lt {c v : ℚ} (lt : c < v) {f : Gamble σ} {x : σ} (hx : x ∈ f.domain) :
    (f.shift c).payoff x < (f.shift v).payoff x := by
  rw [payoff_shift, payoff_shift, if_pos hx, if_pos hx]
  exact add_lt_add_right lt _

end Gamble

namespace DesirabilitySet

variable {D : DesirabilitySet σ} {f : Gamble σ} {c v : ℚ}

/-- A price leaves at least what the rays generate, also where there is nothing to be paid. -/
theorem isPrice_iff_le_shift :
    D.IsPrice f c ↔ ∃ u, Generated D.payoffs ⊥ u ∧ u ≤ (f.shift (-c)).payoff := by
  refine exists_congr fun u => and_congr_right fun generated => ?_
  have rest (x : σ) :
      u x + (if x ∈ f.domain then c else 0) ≤ f.payoff x ↔ u x ≤ (f.shift (-c)).payoff x := by
    rw [Gamble.payoff_shift]
    split
    · rw [← sub_eq_add_neg, le_sub_iff_add_le]
    · rename_i out
      rw [show f.payoff x = 0 from Table.payoff_eq_zero out, add_zero]
  simp only [rest]
  refine ⟨fun le x => ?_, fun le x _ => le x⟩
  by_cases hx : x ∈ D.domain ∪ f.domain
  · exact le x hx
  · rw [SortedSet.mem_union, not_or] at hx
    rw [supports_of_generated generated x hx.1, Gamble.payoff_shift, if_neg hx.2]

/-- What is paid at least everywhere is a price. -/
theorem isPrice_of_forall_le (least : ∀ x ∈ f.domain, c ≤ f.payoff x) : D.IsPrice f c := by
  refine isPrice_iff_le_shift.2 ⟨0, .zero, fun x => ?_⟩
  rw [Gamble.payoff_shift]
  split
  · rename_i hx
    rw [← sub_eq_add_neg]
    exact sub_nonneg.2 (least x hx)
  · exact le_rfl

theorem exists_isPrice (D : DesirabilitySet σ) (f : Gamble σ) : ∃ c, D.IsPrice f c := by
  obtain ⟨c, least⟩ := (f.domain.toFinset.image f.payoff).bddBelow
  exact ⟨c, isPrice_of_forall_le fun x hx => least (Finset.mem_coe.2 (Finset.mem_image_of_mem _ hx))⟩

/-! ## Prices and desirability -/

/-- A desirable rest is at least what the rays generate. -/
theorem isPrice_of_dominates (least : Dominates D.cones.toList (f.shift (-c)).payoff) : D.IsPrice f c := by
  rw [isPrice_iff_le_shift]
  rcases least with pos | ⟨u, sum, le⟩
  · exact ⟨0, .zero, pos.le⟩
  · exact ⟨u, generated_of_isSum sum, le⟩

/-- If every ray is a cone of its own, less than a price leaves a sum of these or something positive. -/
theorem dominates_of_single (single : ∀ C ∈ D.cones, C.rays.size = 1) (event : f.domain.isEmpty = false)
    (price : D.IsPrice f v) (lt : c < v) : Dominates D.cones.toList (f.shift (-c)).payoff := by
  obtain ⟨u, generated, le⟩ := isPrice_iff_le_shift.1 price
  have lt' : -v < -c := neg_lt_neg lt
  rcases eq_zero_or_isSum single generated with rfl | sum
  · obtain ⟨x, hx⟩ := SortedSet.isEmpty_eq_false_iff.1 event
    exact .inl (Pi.lt_def.2
      ⟨le.trans (f.payoff_shift_mono lt'.le), x, (le x).trans_lt (Gamble.payoff_shift_lt lt' hx)⟩)
  · exact .inr ⟨u, sum, le.trans (f.payoff_shift_mono lt'.le)⟩

/-- If the rays pay nothing outside the domain of the gamble, less than a price leaves a sum of
whole cones, as small weights on all rays cost less than the difference. -/
theorem dominates_of_covers (assessed : D.cones.isEmpty = false) (covers : ∀ x ∈ D.domain, x ∈ f.domain)
    (price : D.IsPrice f v) (lt : c < v) : Dominates D.cones.toList (f.shift (-c)).payoff := by
  obtain ⟨u, generated, le⟩ := isPrice_iff_le_shift.1 price
  obtain ⟨g, sums⟩ := exists_isSum_of_generated assessed generated
  have short : ∀ x ∈ (f.domain.toFinset : Set σ), (u - (f.shift (-c)).payoff) x < 0 := fun x hx =>
    sub_neg.2 ((le x).trans_lt (Gamble.payoff_shift_lt (neg_lt_neg lt) hx))
  obtain ⟨ε, pos, small⟩ := exists_small_multiple f.domain.toFinset.finite_toSet short g
  refine .inr ⟨u + ε • g, sums ε pos, fun x => ?_⟩
  by_cases hx : x ∈ f.domain
  · have := small x hx
    simp only [Pi.sub_apply, Pi.add_apply, Pi.smul_apply, smul_eq_mul] at this ⊢
    linarith
  · rw [supports_of_isSum (sums ε pos) x fun inside => hx (covers x inside), Gamble.payoff_shift, if_neg hx]

/-- Less than a price leaves something desirable. -/
theorem dominates_of_isPrice (assessed : D.cones.isEmpty = false) (event : f.domain.isEmpty = false)
    (covers : (∀ x ∈ D.domain, x ∈ f.domain) ∨ ∀ C ∈ D.cones, C.rays.size = 1)
    (price : D.IsPrice f v) (lt : c < v) :
    Dominates D.cones.toList (f.shift (-c)).payoff := by
  rcases covers with covers | single
  · exact dominates_of_covers assessed covers price lt
  · exact dominates_of_single single event price lt

/-- With enough pivots, there is a lower expectation or it is unbounded. A gamble less some amount
on its domain is desirable if the amount is below the lower expectation, and not if it is above. -/
theorem exists_isDesirable_of_lowerExpectation (assessed : D.cones.isEmpty = false)
    (event : f.domain.isEmpty = false)
    (covers : (∀ x ∈ D.domain, x ∈ f.domain) ∨ ∀ C ∈ D.cones, C.rays.size = 1) :
    ∃ limit, ∀ maxPivots ≥ limit,
    (∃ v, (D.lowerExpectation (m := Id) (Simplex.solve maxPivots) f).run = .ok v ∧
      ∀ c ≠ v, ∃ limit, ∀ maxPivots ≥ limit,
        (D.isDesirable (m := Id) (Simplex.solve maxPivots) (f.shift (-c))).run = .ok (decide (c < v))) ∨
    (D.lowerExpectation (m := Id) (Simplex.solve maxPivots) f).run = .error (.unsolved .unbounded) ∧
      ∀ c, ∃ limit, ∀ maxPivots ≥ limit,
        (D.isDesirable (m := Id) (Simplex.solve maxPivots) (f.shift (-c))).run = .ok true := by
  obtain ⟨limit, s, decided, eq⟩ := Simplex.exists_decided (maximizes_priceProgram assessed f).wellFormed
  refine ⟨limit, fun maxPivots le => ?_⟩
  have settled : (Simplex.solve maxPivots (D.priceProgram f)).status ≠ .undecided := by rwa [eq maxPivots le]
  have outcome : PriceOutcome D f ((Reasoner.within { maxPivots }).lowerExpectation D f).run :=
    priceOutcome_of_decided assessed settled
  cases outcome with
  | @greatest v top answer =>
    refine .inl ⟨v, answer, fun c ne => exists_isDesirable_eq ?_⟩
    rw [decide_eq_true_iff]
    exact ⟨dominates_of_isPrice assessed event covers top.1,
      fun least => (top.2 (isPrice_of_dominates least)).lt_of_ne ne⟩
  | none never _ =>
    obtain ⟨c, price⟩ := D.exists_isPrice f
    exact absurd price (never c)
  | unbounded beyond answer =>
    refine .inr ⟨answer, fun c => exists_isDesirable_eq ?_⟩
    obtain ⟨v, price, lt⟩ := not_bddAbove_iff.1 beyond c
    exact iff_of_true rfl (dominates_of_isPrice assessed event covers price lt)

end DesirabilitySet

/-- One is at least as probable as two: a cone of two rays. -/
def evenOdds : DesirabilitySet Int :=
  .ofCones [.ofRays [⟨.ofList [(1, 1), (2, -1)], by decide +kernel, by decide +kernel⟩,
    ⟨.ofList [(1, 1), (2, 1)], by decide +kernel, by decide +kernel⟩]]

theorem exists_isDesirable_of_lowerExpectation_evenOdds :
    let f : Gamble Int := .ofList [(1, 1), (2, 0)]
    evenOdds.cones.isEmpty = false ∧ f.domain.isEmpty = false ∧ (∀ x ∈ evenOdds.domain, x ∈ f.domain) ∧
    ∃ limit, ∀ maxPivots ≥ limit,
      (∃ v, (evenOdds.lowerExpectation (m := Id) (Simplex.solve maxPivots) f).run = .ok v ∧
        ∀ c ≠ v, ∃ limit, ∀ maxPivots ≥ limit,
          (evenOdds.isDesirable (m := Id) (Simplex.solve maxPivots) (f.shift (-c))).run =
            .ok (decide (c < v))) ∨
      (evenOdds.lowerExpectation (m := Id) (Simplex.solve maxPivots) f).run = .error (.unsolved .unbounded) ∧
        ∀ c, ∃ limit, ∀ maxPivots ≥ limit,
          (evenOdds.isDesirable (m := Id) (Simplex.solve maxPivots) (f.shift (-c))).run = .ok true := by
  intro f
  have assessed : evenOdds.cones.isEmpty = false := by decide +kernel
  have event : f.domain.isEmpty = false := by decide +kernel
  have covers : ∀ x ∈ evenOdds.domain.toList, x ∈ f.domain.toList := by decide +kernel
  exact ⟨assessed, event, covers,
    DesirabilitySet.exists_isDesirable_of_lowerExpectation assessed event (.inl covers)⟩

end Prevision
