import Prevision.Proofs.Inference.ConeStrip
import Prevision.Proofs.Inference.PartialLoss

/-!
# Optimal counts are zero or one

A round reads from its optimum which cones are activated and which states
count as losing, by comparing variables with one. It may do so whatever optimum
the solver finds: in every optimal point of either program these variables are
zero or one.

The rows that bound the weights from below by the counts become weaker as the
weights grow. So a point may be added to itself, many times, until every count
that is not zero may be raised to one (`PartialLoss.exists_whole`), and a point
with a count in between is not optimal. In a round about partial loss this needs
nothing of the active states, which may be outside the possibility space or
listed twice.
-/

namespace Prevision

open Slot (totalPayoff rayCount Raised)

variable {σ : Type} [State σ] {active : List (Cone σ)} {states : List σ} {space : SortedSet σ} {p : Row}

namespace ConeStrip

variable {target : Option (Gamble σ)} {s : Slot σ}

theorem exists_slot {k : Nat} (hk : k < active.length) :
    ∃ s ∈ slots active, s.activation = rayCount active + k := by
  refine List.mem_map.1 ?_
  rw [slots, Slot.map_activation_ofCones, List.mem_range'_1]
  omega

theorem optimum_of_isOptimal (h : (program active space target).IsOptimal p) :
    Optimum active space target p := by
  obtain ⟨feasible, best⟩ := (program_maximizes active space target).isOptimal_iff.1 h
  exact ⟨round_feasible_iff.1 feasible, fun p' point => best p' (round_feasible_iff.2 point)⟩

theorem Optimum.activation_cases (h : Optimum active space target p) (hs : s ∈ slots active) :
    Row.entry p s.activation = 0 ∨ Row.entry p s.activation = 1 := by
  cases active : s.isActive p with
  | true => exact .inr (beq_iff_eq.1 active)
  | false => exact .inl (h.activation_eq hs active)

/-- An optimum activates some cone. -/
theorem Optimum.exists_active (h : Optimum active space target p) :
    ∃ s ∈ slots active, Row.entry p s.activation = 1 := by
  by_contra none
  have zero : ∀ a ∈ (slots active).map fun s => Row.entry p s.activation, a = 0 := by
    intro a ha
    obtain ⟨s, hs, rfl⟩ := List.mem_map.1 ha
    exact (h.activation_cases hs).resolve_right fun one => none ⟨s, hs, one⟩
  have some_active := h.some_active
  rw [sumTerms_activations, List.sum_eq_zero zero] at some_active
  exact absurd some_active (by decide)

end ConeStrip

namespace PartialLoss

/-- The variables that count are from zero to one. -/
theorem count_range (point : ∀ F ∈ bounds space states active, 0 ≤ F.value p) {i : Nat}
    (hi : i < states.length + active.length) :
    0 ≤ Row.entry p (lossVariable active i) ∧ Row.entry p (lossVariable active i) ≤ 1 := by
  obtain ⟨holds, counts, -⟩ := bounds_nonneg_iff.1 point
  rcases Nat.lt_or_ge i states.length with low | high
  · exact counts i low
  · obtain ⟨s, hs, same⟩ := exists_slot high hi
    rw [← same]
    exact ⟨(holds s hs).nonneg, (holds s hs).le_one⟩

/-- A point may be added to itself until every count that is not zero is one. -/
theorem exists_whole (point : ∀ F ∈ bounds space states active, 0 ≤ F.value p) :
    ∃ p', p'.length = variableCount states active ∧ (∀ F ∈ bounds space states active, 0 ≤ F.value p') ∧
      ∀ i < states.length + active.length, 0 < Row.entry p (lossVariable active i) →
        Row.entry p' (lossVariable active i) = 1 := by
  obtain ⟨holds, counts, losses⟩ := bounds_nonneg_iff.1 point
  obtain ⟨p', c, length, raised, large, others⟩ := Slot.exists_raised (n := variableCount states active)
    (Nat.le_add_right (rayCount active) states.length) le_rfl p (fun s hs => (holds s hs).weights)
    ((List.range states.length).map fun i => Row.entry p (lossVariable active i))
    fun _ v => if 0 < Row.entry p v then 1 else 0
  have raised : Raised p p p' c (slots states active) := raised
  have loss (i : Nat) (hi : i < states.length) : Row.entry p' (lossVariable active i) =
      if 0 < Row.entry p (lossVariable active i) then 1 else 0 :=
    others _ (lossVariable_lt (Nat.lt_add_right _ hi)) (Nat.le_add_right _ _)
      (.inl (Nat.add_lt_add_left hi _))
  refine ⟨p', length,
    bounds_nonneg_iff.2 ⟨fun s hs => raised.holds hs (holds s hs), fun i hi => ?_, fun x hx => ?_⟩,
    fun i hi pos => ?_⟩
  · rw [loss i hi]
    split
    · exact ⟨zero_le_one, le_rfl⟩
    · exact ⟨le_rfl, zero_le_one⟩
  · have nonneg : 0 ≤ -totalPayoff p (slots states active) x :=
      (lossIn_nonneg (fun i hi => (counts i hi).1) x).trans (losses x hx)
    have more : 0 ≤ c * -totalPayoff p (slots states active) x := mul_nonneg raised.factor nonneg
    rw [raised.totalPayoff_eq, neg_add, ← mul_neg]
    rcases lossIn_cases states active x with zero | ⟨i, hi, same⟩
    · rw [zero]
      exact add_nonneg nonneg more
    rw [same, loss i hi]
    split
    · rename_i pos
      calc (1 : Rat) ≤ c * Row.entry p (lossVariable active i) :=
            large _ (List.mem_map_of_mem (List.mem_range.2 hi)) pos
        _ ≤ c * -totalPayoff p (slots states active) x :=
            mul_le_mul_of_nonneg_left ((same p).symm.trans_le (losses x hx)) raised.factor
        _ ≤ -totalPayoff p (slots states active) x + c * -totalPayoff p (slots states active) x :=
            le_add_of_nonneg_left nonneg
    · exact add_nonneg nonneg more
  · rcases Nat.lt_or_ge i states.length with low | high
    · rw [loss i low, if_pos pos]
    · obtain ⟨s, hs, same⟩ := exists_slot high hi
      rw [← same] at pos ⊢
      exact raised.activated s hs fun v hv => pos.trans_le ((holds s hs).covered v hv)

/-- In an optimal point, the variables that count are zero or one. -/
theorem count_cases (h : (program space states active).IsOptimal p) {i : Nat}
    (hi : i < states.length + active.length) :
    Row.entry p (lossVariable active i) = 0 ∨ Row.entry p (lossVariable active i) = 1 := by
  have some_left : states ≠ [] ∨ active ≠ [] := by
    rw [← List.length_pos_iff, ← List.length_pos_iff]
    omega
  have maximizes := program_maximizes space some_left
  obtain ⟨feasible, best⟩ := maximizes.isOptimal_iff.1 h
  obtain ⟨-, -, point⟩ := maximizes.feasible_iff.1 feasible
  obtain ⟨p', length, point', whole⟩ := exists_whole point
  have more (j : Nat) (hj : j < states.length + active.length) :
      Row.entry p (lossVariable active j) ≤ Row.entry p' (lossVariable active j) := by
    rcases (count_range point hj).1.eq_or_lt with zero | pos
    · rw [← zero]
      exact (count_range point' hj).1
    · rw [whole j hj pos]
      exact (count_range point hj).2
  by_contra between
  obtain ⟨ne_zero, ne_one⟩ := not_or.1 between
  have pos := (count_range point hi).1.lt_of_ne' ne_zero
  have worse :=
    best p' (maximizes.feasible_iff.2 ⟨length, fun _ none => absurd none List.not_mem_nil, point'⟩)
  rw [sumTerms_counted, sumTerms_counted] at worse
  refine absurd worse (not_le.2 (List.sum_lt_sum _ _ (fun j hj => more j (List.mem_range.1 hj))
    ⟨i, List.mem_range.2 hi, ?_⟩))
  rw [whole i hi pos]
  exact (count_range point hi).2.lt_of_ne ne_one

end PartialLoss

/-- In every optimal point of a stripping round, each activation is zero or one, and some activation is
one. In every optimal point of a round about partial loss, the count of each active state and the
activation of each active cone is zero or one. -/
theorem optimal_counts (active : List (Cone σ)) (target : Option (Gamble σ)) (states : List σ)
    (space : SortedSet σ) :
    (∀ p, (ConeStrip.program active space target).IsOptimal p →
      (∀ k < active.length, Row.entry p (rayCount active + k) = 0 ∨ Row.entry p (rayCount active + k) = 1) ∧
      ∃ k < active.length, Row.entry p (rayCount active + k) = 1) ∧
    ∀ p, (PartialLoss.program space states active).IsOptimal p →
      (∀ i < states.length, Row.entry p (rayCount active + i) = 0 ∨ Row.entry p (rayCount active + i) = 1) ∧
      ∀ k < active.length, Row.entry p (rayCount active + states.length + k) = 0 ∨
        Row.entry p (rayCount active + states.length + k) = 1 := by
  refine ⟨fun p optimal => ?_, fun p optimal => ⟨fun i hi => ?_, fun k hk => ?_⟩⟩
  · have optimum := ConeStrip.optimum_of_isOptimal optimal
    refine ⟨fun k hk => ?_, ?_⟩
    · obtain ⟨s, hs, same⟩ := ConeStrip.exists_slot hk
      rw [← same]
      exact optimum.activation_cases hs
    · obtain ⟨s, hs, one⟩ := optimum.exists_active
      obtain ⟨low, high⟩ := Slot.activation_mem hs
      obtain ⟨k, same⟩ := Nat.exists_eq_add_of_le low
      exact ⟨k, by omega, same ▸ one⟩
  · exact PartialLoss.count_cases optimal (Nat.lt_add_right _ hi)
  · rw [Nat.add_assoc]
    exact PartialLoss.count_cases optimal (Nat.add_lt_add_left hk _)

/-- A cone of two rays that sum to zero. -/
def balanced : Cone Int :=
  .ofRays [⟨.ofList [(1, 1), (4, -1)], by decide +kernel, by decide +kernel⟩,
    ⟨.ofList [(1, -1), (4, 1)], by decide +kernel, by decide +kernel⟩]

theorem optimal_counts_balanced :
    let space : SortedSet Int := .ofList [1, 4]
    (∃ p, (ConeStrip.program [balanced] space none).IsOptimal p ∧
      (∀ k < 1, Row.entry p (2 + k) = 0 ∨ Row.entry p (2 + k) = 1) ∧ ∃ k < 1, Row.entry p (2 + k) = 1) ∧
    ∃ p, (PartialLoss.program space [4] [balanced]).IsOptimal p ∧
      (∀ i < 1, Row.entry p (2 + i) = 0 ∨ Row.entry p (2 + i) = 1) ∧
      ∀ k < 1, Row.entry p (2 + 1 + k) = 0 ∨ Row.entry p (2 + 1 + k) = 1 := by
  intro space
  have strip : (Simplex.solve 20 (ConeStrip.program [balanced] space none)).status = .optimal := by
    decide +kernel
  have loss : (Simplex.solve 20 (PartialLoss.program space [4] [balanced])).status = .optimal := by
    decide +kernel
  have optimal := LinearProgram.isOptimal_of_status strip
  have optimal' := LinearProgram.isOptimal_of_status loss
  exact ⟨⟨_, optimal, (optimal_counts [balanced] none [] space).1 _ optimal⟩,
    _, optimal', (optimal_counts [balanced] none [4] space).2 _ optimal'⟩

end Prevision
