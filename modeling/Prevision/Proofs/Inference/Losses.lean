import Prevision.Proofs.Inference.Limits
import Prevision.Proofs.Inference.PartialLoss
import Prevision.Proofs.Inference.Sums
import Prevision.Proofs.Inference.SureLoss
import Prevision.Proofs.Simplex.Budget

/-!
# Sure loss and partial loss

A nonnegative combination of rays may use a cone in part only. With any small
weight on all rays of the cones that it uses, it becomes a sum of elements of
these cones (`exists_isSum_of_generated`), and what is negative in finitely many
states stays so. So a sure loss gives a partial loss
(`exists_loses_of_incursSureLoss`), and what avoids partial loss avoids sure loss
(`exists_avoidsSureLoss_of_avoidsPartialLoss`).

An answer about partial loss within few pivots is the one within more
(`PartialLoss.avoids_eq_of_le`), so any answer is right (`exists_avoidsPartialLoss_of_fits`).
-/

namespace Prevision

variable {σ : Type} [State σ] {maxPivots morePivots : Nat}

/-! ## Fewer pivots -/

/-- Within more pivots, the rounds are the same. -/
theorem PartialLoss.Run.of_le {space : SortedSet σ} {states : List σ} {active : List (Cone σ)}
    {r : Except Error Bool}
    (run : Run (Simplex.solve maxPivots) space states active r) (decided : r ≠ .error (.unsolved .undecided))
    (le : maxPivots ≤ morePivots) : Run (Simplex.solve morePivots) space states active r := by
  induction run with
  | empty empty => exact .empty empty
  | failed some_left solved =>
    refine .failed some_left (Simplex.optimumOf_eq_of_le solved (fun undecided => decided ?_) le)
    rw [Except.error.inj undecided]
  | none some_left solved none => exact .none some_left (Simplex.optimumOf_eq_of_le solved nofun le) none
  | all some_left solved some_state all =>
    exact .all some_left (Simplex.optimumOf_eq_of_le solved nofun le) some_state all
  | next some_left solved some_state done _ ih =>
    exact .next some_left (Simplex.optimumOf_eq_of_le solved nofun le) some_state done (ih decided)

theorem PartialLoss.avoids_eq_of_le {space : SortedSet σ} {states : List σ} {active : List (Cone σ)}
    (fits : (avoids (m := Id) (Simplex.solve maxPivots) space states active).hitsLimit = false)
    (le : maxPivots ≤ morePivots) : (avoids (m := Id) (Simplex.solve morePivots) space states active).run =
      (avoids (m := Id) (Simplex.solve maxPivots) space states active).run := by
  refine ((run_avoids (Simplex.solve maxPivots) space states active).of_le (fun undecided => ?_) le).eq
  cases Query.not_isLimit fits undecided

namespace DesirabilitySet

variable {D : DesirabilitySet σ}

/-- Unless pivots run out, the answer is whether no selection loses. -/
theorem exists_avoidsPartialLoss_of_fits
    (fits : (D.avoidsPartialLoss (m := Id) (Simplex.solve maxPivots)).hitsLimit = false) :
    ∃ b, (D.avoidsPartialLoss (m := Id) (Simplex.solve maxPivots)).run = .ok b ∧
      (b = true ↔ ¬∃ s : Selection D.cones.toList, s.Loses) := by
  obtain ⟨limit, decides⟩ := exists_limit_avoidsPartialLoss D
  obtain ⟨b, answer, right⟩ := decides (max maxPivots limit) (le_max_right _ _)
  have same : (D.avoidsPartialLoss (m := Id) (Simplex.solve (max maxPivots limit))).run =
      (D.avoidsPartialLoss (m := Id) (Simplex.solve maxPivots)).run :=
    PartialLoss.avoids_eq_of_le fits (le_max_left _ _)
  exact ⟨b, same.symm.trans answer, right⟩

/-- With enough pivots, sure loss is decided. -/
theorem exists_limit_avoidsSureLoss (D : DesirabilitySet σ) : ∃ limit, ∀ maxPivots ≥ limit, ∃ b,
    (D.avoidsSureLoss (m := Id) (Simplex.solve maxPivots)).run = .ok b ∧
      (b = true ↔ D.cones.isEmpty = true ∨ ¬D.IncursSureLoss) := by
  cases assessed : D.cones.isEmpty with
  | true =>
    refine ⟨0, fun maxPivots _ => ⟨true, ?_, iff_of_true rfl (.inl rfl)⟩⟩
    rw [avoidsSureLoss, assessed, if_pos rfl]
    rfl
  | false =>
    have wellFormed : D.sureLossProgram.WellFormed :=
      (poses_sureLossProgram assessed).wellFormed fun o objective => by
      cases objective
    obtain ⟨limit, s, decided, eq⟩ := Simplex.exists_decided wellFormed
    refine ⟨limit, fun maxPivots le => ?_⟩
    rw [← eq maxPivots le] at decided
    obtain ⟨b, answer, loss⟩ := exists_avoidsSureLoss_of_decided assessed decided
    refine ⟨b, answer, ?_⟩
    rw [or_iff_right Bool.false_ne_true, ← loss, Bool.not_eq_false]

end DesirabilitySet

/-! ## Small weights on whole cones -/

/-- A weight on one ray alone. -/
theorem Cone.payoff_single [DecidableEq (Ray σ)] {C : Cone σ} {r : Ray σ} (hr : r ∈ C.rays) (a : ℚ) :
    C.payoff (fun s => if s = r then a else 0) = a • r.payoff := by
  funext x
  show ∑ s ∈ C.rays.toFinset, (if s = r then a else 0) * s.payoff x = a * r.payoff x
  rw [Finset.sum_eq_single_of_mem r hr fun s _ ne => by rw [if_neg ne, zero_mul], if_pos rfl]

/-- What is negative at finitely many places stays so if little enough is added. -/
theorem exists_small_multiple {α : Type*} {T : Set α} (finite : T.Finite) {u : α → ℚ}
    (negative : ∀ x ∈ T, u x < 0)
    (g : α → ℚ) : ∃ ε : ℚ, 0 < ε ∧ ∀ x ∈ T, u x + ε * g x < 0 := by
  obtain ⟨n, pos, bound⟩ := exists_multiple_le finite g u negative
  refine ⟨(2 * n)⁻¹, by positivity, fun x hx => ?_⟩
  have half : (2 * n)⁻¹ * g x ≤ -u x / 2 := by
    rw [inv_mul_le_iff₀ (by positivity)]
    have := le_abs_self (g x)
    linarith [bound x hx]
  have := negative x hx
  linarith

namespace DesirabilitySet

variable {D : DesirabilitySet σ} {C : Cone σ} {r : Ray σ} {u : σ → ℚ}

/-- A small weight on all rays of a cone makes an element of a multiple of one of them. -/
theorem isSum_ray (hC : C ∈ D.cones) (hr : r ∈ C.rays) {a ε : ℚ} (ha : 0 ≤ a) (pos : 0 < ε) :
    IsSum D.cones.toList (a • r.payoff + ε • C.payoff fun _ => 1) := by
  classical
  have parts : a • r.payoff + ε • C.payoff (fun _ => 1) = C.payoff fun s =>
      (if s = r then a else 0) + ε * 1 := by
    rw [← Cone.payoff_single hr, ← Cone.payoff_smul]
    exact funext fun x => (C.payoff_add _ _ x).symm
  rw [parts]
  refine .element hC (D.nonempty C hC) fun s _ => ?_
  rw [mul_one]
  refine add_pos_of_nonneg_of_pos ?_ pos
  split
  · exact ha
  · exact le_rfl

/-- What the rays generate is a sum of elements of the cones, up to any positive multiple of some function. -/
theorem exists_isSum_of_generated (assessed : D.cones.isEmpty = false) (generated : Generated D.payoffs ⊥ u) :
    ∃ g, ∀ ε : ℚ, 0 < ε → IsSum D.cones.toList (u + ε • g) := by
  -- `g` adds up the cones of the rays that are used, and a cone that there is for zero.
  induction generated with
  | @line l hl =>
    obtain ⟨C, hC⟩ := SortedSet.isEmpty_eq_false_iff.1 assessed
    obtain ⟨r, hr⟩ := SortedSet.isEmpty_eq_false_iff.1 (D.nonempty C hC)
    refine ⟨C.payoff fun _ => 1, fun ε pos => ?_⟩
    rw [(Submodule.mem_bot ℚ).1 hl, ← zero_smul ℚ r.payoff]
    exact isSum_ray hC hr le_rfl pos
  | @addRay y _ a _ hr ha ih =>
    obtain ⟨g, sums⟩ := ih
    obtain ⟨r, hr, rfl⟩ := hr
    obtain ⟨C, hC, hr⟩ := mem_generators.1 hr
    refine ⟨g + C.payoff fun _ => 1, fun ε pos => ?_⟩
    rw [smul_add, add_add_add_comm]
    exact (sums ε pos).add (isSum_ray hC hr ha pos)

/-- What the rays generate is zero or a sum of elements of cones, if every ray is a cone of its own. -/
theorem eq_zero_or_isSum (single : ∀ C ∈ D.cones, C.rays.size = 1)
    (generated : Generated D.payoffs ⊥ u) : u = 0 ∨ IsSum D.cones.toList u := by
  induction generated with
  | line hl => exact .inl ((Submodule.mem_bot ℚ).1 hl)
  | @addRay y _ a _ hr ha ih =>
    obtain ⟨r, hr, rfl⟩ := hr
    obtain ⟨C, hC, hr⟩ := mem_generators.1 hr
    rcases ha.eq_or_lt with rfl | pos
    · rwa [zero_smul, add_zero]
    · have element : IsSum D.cones.toList (a • r.payoff) := by
        rw [← Cone.payoff_of_size_one (single C hC) hr fun _ => a]
        exact .element hC (D.nonempty C hC) fun _ _ => pos
      rcases ih with rfl | sum
      · rw [zero_add]
        exact .inr element
      · exact .inr (sum.add element)

/-- A combination that is negative in every state has sums of elements of the cones near it, and those are
negative there too. -/
theorem exists_loses_of_incursSureLoss (assessed : D.cones.isEmpty = false) (loss : D.IncursSureLoss) :
    ∃ s : Selection D.cones.toList, s.Loses := by
  obtain ⟨u, generated, negative⟩ := incursSureLoss_iff_generated.1 loss
  obtain ⟨g, sums⟩ := exists_isSum_of_generated assessed generated
  obtain ⟨ε, pos, small⟩ := exists_small_multiple D.domain.toFinset.finite_toSet negative g
  obtain ⟨x, hx⟩ := exists_mem_domain assessed
  refine exists_loses_iff.2 ⟨u + ε • g, sums ε pos, fun y => ?_, x, small x hx⟩
  by_cases hy : y ∈ D.domain
  · exact (small y hy).le
  · exact (supports_of_isSum (sums ε pos) y hy).le

/-- With enough pivots both questions are answered, partial loss by selections of whole cones and sure loss by
combinations of single rays, and what avoids partial loss avoids sure loss. -/
theorem exists_avoidsSureLoss_of_avoidsPartialLoss (D : DesirabilitySet σ) : ∃ limit, ∀ maxPivots ≥ limit,
    ∃ b c : Bool, (D.avoidsPartialLoss (m := Id) (Simplex.solve maxPivots)).run = .ok b ∧
      (D.avoidsSureLoss (m := Id) (Simplex.solve maxPivots)).run = .ok c ∧
      (b = true ↔ ¬∃ s : Selection D.cones.toList, s.Loses) ∧
      (c = true ↔ D.cones.isEmpty = true ∨ ¬D.IncursSureLoss) ∧ (b = true → c = true) := by
  obtain ⟨limit, partialLoss⟩ := exists_limit_avoidsPartialLoss D
  obtain ⟨limit', sureLoss⟩ := exists_limit_avoidsSureLoss D
  refine ⟨max limit limit', fun maxPivots le => ?_⟩
  obtain ⟨b, answer, noPartialLoss⟩ := partialLoss maxPivots ((le_max_left _ _).trans le)
  obtain ⟨c, answer', noSureLoss⟩ := sureLoss maxPivots ((le_max_right _ _).trans le)
  refine ⟨b, c, answer, answer', noPartialLoss, noSureLoss, fun avoids => noSureLoss.2 ?_⟩
  cases assessed : D.cones.isEmpty with
  | true => exact .inl rfl
  | false => exact .inr fun loss => noPartialLoss.1 avoids (exists_loses_of_incursSureLoss assessed loss)

end DesirabilitySet

end Prevision
