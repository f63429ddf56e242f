import Prevision.Proofs.Inference.Limits
import Prevision.Proofs.Inference.Weights
import Prevision.Proofs.Polyhedron.Facet

/-!
# Sure loss

Desirable gambles incur sure loss if some nonnegative combination of their rays
is negative in every state of the possibility space. A multiple of it is then at
most minus one in these states, so the program for sure loss has a point
(`incursSureLoss_iff_feasible`). Unless pivots run out, the answer is whether it
has none (`exists_avoidsSureLoss`).
-/

namespace Prevision.DesirabilitySet

variable {σ : Type} [State σ] {D : DesirabilitySet σ} {limits : Limits} {x : Row}

/-- Some nonnegative combination of the rays is negative in every state of the possibility space. -/
def IncursSureLoss (D : DesirabilitySet σ) : Prop :=
  ∃ w : Ray σ → ℚ, (∀ r ∈ D.generators, 0 ≤ w r) ∧
    ∀ x ∈ D.domain, ∑ r ∈ D.generators.toFinset, w r * r.payoff x < 0

theorem incursSureLoss_iff_generated :
    D.IncursSureLoss ↔ ∃ u, Generated D.payoffs ⊥ u ∧ ∀ x ∈ D.domain, u x < 0 := by
  constructor
  · rintro ⟨w, nonneg, negative⟩
    exact ⟨_, generated_iff_sum.2 ⟨w, nonneg, rfl⟩, negative⟩
  · rintro ⟨u, generated, negative⟩
    obtain ⟨w, nonneg, rfl⟩ := generated_iff_sum.1 generated
    exact ⟨w, nonneg, negative⟩

/-- There are finitely many states, so a multiple of the combination is at most minus one. -/
theorem incursSureLoss_iff_le_neg_one :
    D.IncursSureLoss ↔ ∃ u, Generated D.payoffs ⊥ u ∧ ∀ x ∈ D.domain, u x ≤ -1 := by
  rw [incursSureLoss_iff_generated]
  constructor
  · rintro ⟨u, generated, negative⟩
    obtain ⟨n, pos, bound⟩ := exists_multiple_le D.domain.toFinset.finite_toSet (fun _ => 1) u negative
    rw [abs_one] at bound
    exact ⟨n • u, generated.smul pos.le, bound⟩
  · rintro ⟨u, generated, le⟩
    exact ⟨u, generated, fun x hx => (le x hx).trans_lt neg_one_lt_zero⟩

/-! ## The program -/

/-- The weights, which are to be nonnegative. -/
def weightForms (D : DesirabilitySet σ) : List AffineForm :=
  (List.range D.generators.toList.length).map fun j => ⟨0, [(j, 1)]⟩

/-- By how much the combination is below minus one. -/
def lossForm (D : DesirabilitySet σ) (s : σ) : AffineForm :=
  ⟨-1, D.generators.toList.zipIdx.map fun r => (r.2, -r.1.payoff s)⟩

theorem poses_sureLossProgram (assessed : D.cones.isEmpty = false) : D.sureLossProgram.Poses
    D.generators.toList.length [] (D.weightForms ++ D.domain.toList.map D.lossForm) := by
  refine ⟨rfl, ?_, rfl, fun F hF => AffineForm.isWithin_iff.2 ?_⟩
  · obtain ⟨r, hr⟩ := exists_generator assessed
    have pos : 0 < D.generators.toList.length := List.length_pos_of_mem hr
    exact List.append_ne_nil_of_left_ne_nil
      (List.ne_nil_of_mem (List.mem_map_of_mem (List.mem_range.2 pos))) _
  · rw [List.nil_append] at hF
    rcases List.mem_append.1 hF with weight | loss
    · obtain ⟨j, hj, rfl⟩ := List.mem_map.1 weight
      simpa using hj
    · obtain ⟨s, -, rfl⟩ := List.mem_map.1 loss
      intro t ht
      obtain ⟨r, hr, rfl⟩ := List.mem_map.1 ht
      exact List.snd_lt_of_mem_zipIdx hr

theorem value_lossForm (D : DesirabilitySet σ) (s : σ) (x : Row) :
    (D.lossForm s).value x = -1 - weighted D.generators.toList 0 (Row.entry x) s := by
  rw [AffineForm.value_eq, lossForm, sumTerms_weighted D.generators.toList (fun j => j) s x, ← sub_eq_add_neg]

theorem feasible_sureLossProgram_iff (assessed : D.cones.isEmpty = false) :
    D.sureLossProgram.Feasible x ↔ x.length = D.generators.toList.length ∧
      (∀ j < D.generators.toList.length, 0 ≤ Row.entry x j) ∧
      ∀ s ∈ D.domain, weighted D.generators.toList 0 (Row.entry x) s ≤ -1 := by
  rw [(poses_sureLossProgram assessed).feasible_iff]
  simp only [List.not_mem_nil, false_imp_iff, implies_true, true_and, List.forall_mem_append, weightForms,
    List.forall_mem_map, List.mem_range, AffineForm.value_single, zero_add, one_mul, value_lossForm,
    sub_nonneg, SortedSet.mem_toList]

/-- The points are the weights of the combinations that are at most minus one. -/
theorem incursSureLoss_iff_feasible (assessed : D.cones.isEmpty = false) :
    D.IncursSureLoss ↔ ∃ x, D.sureLossProgram.Feasible x := by
  rw [incursSureLoss_iff_le_neg_one]
  constructor
  · rintro ⟨u, generated, le⟩
    obtain ⟨x, width, nonneg, rfl⟩ := generated_iff_row.1 generated
    exact ⟨x, (feasible_sureLossProgram_iff assessed).2 ⟨width, nonneg, le⟩⟩
  · rintro ⟨x, feasible⟩
    obtain ⟨width, nonneg, le⟩ := (feasible_sureLossProgram_iff assessed).1 feasible
    exact ⟨_, generated_iff_row.2 ⟨x, width, nonneg, rfl⟩, le⟩

/-! ## The answer -/

theorem run_avoidsSureLoss (assessed : D.cones.isEmpty = false) (solve : Solver Id) :
    (D.avoidsSureLoss solve).run = match (solve D.sureLossProgram).status with
      | .optimal => .ok false
      | .inconsistent => .ok true
      | status => .error (.unsolved status) := by
  rw [avoidsSureLoss, assessed, if_neg Bool.false_ne_true]
  rfl

theorem run_avoidsSureLoss_of_undecided (assessed : D.cones.isEmpty = false) {maxPivots : ℕ}
    (undecided : (Simplex.solve maxPivots D.sureLossProgram).status = .undecided) :
    (D.avoidsSureLoss (m := Id) (Simplex.solve maxPivots)).run = .error (.unsolved .undecided) := by
  rw [run_avoidsSureLoss assessed, undecided]

/-- Once its program is decided, the answer is whether there is no sure loss. -/
theorem exists_avoidsSureLoss_of_decided (assessed : D.cones.isEmpty = false) {maxPivots : ℕ}
    (decided : (Simplex.solve maxPivots D.sureLossProgram).status ≠ .undecided) :
    ∃ b, (D.avoidsSureLoss (m := Id) (Simplex.solve maxPivots)).run = .ok b ∧
      (b = false ↔ D.IncursSureLoss) := by
  rw [run_avoidsSureLoss assessed, incursSureLoss_iff_feasible assessed]
  rcases Simplex.status_of_no_objective rfl decided with ⟨optimal, point⟩ | ⟨inconsistent, none⟩
  · rw [optimal]
    exact ⟨false, rfl, iff_of_true rfl point⟩
  · rw [inconsistent]
    exact ⟨true, rfl, iff_of_false Bool.true_eq_false.mp fun ⟨x, feasible⟩ => none x feasible⟩

/-- Within the limits, the answer is whether there is no sure loss. -/
theorem exists_avoidsSureLoss (assessed : D.cones.isEmpty = false)
    (fits : ((Reasoner.within limits).avoidsSureLoss D).hitsLimit = false) :
    ∃ b, ((Reasoner.within limits).avoidsSureLoss D).run = .ok b ∧ (b = false ↔ D.IncursSureLoss) := by
  refine exists_avoidsSureLoss_of_decided assessed fun undecided => ?_
  cases Query.not_isLimit fits (run_avoidsSureLoss_of_undecided assessed undecided)

end Prevision.DesirabilitySet
