import Mathlib.Algebra.Module.BigOperators
import Mathlib.Algebra.Module.LinearMap.Defs
import Mathlib.Algebra.Order.BigOperators.Group.Finset
import Mathlib.Algebra.Order.Field.Rat
import Mathlib.Tactic.Tauto

/-!
# Parallel families of vectors

Two vectors are parallel if one is a positive multiple of the other. This is an
equivalence that linear maps keep (`Parallel.trans`, `Parallel.map`). Where each
vector of a family is parallel to one of another family and conversely, positive
weights on the one give the same sum as some positive weights on the other
(`exists_parallel_weights`).
-/

namespace Prevision

variable {ι κ V : Type*} [AddCommGroup V] [Module ℚ V] {a : ι → V} {b : κ → V}

/-- One vector is a positive multiple of another. -/
def Parallel (u v : V) : Prop := ∃ c : ℚ, 0 < c ∧ u = c • v

namespace Parallel

variable {W : Type*} [AddCommGroup W] [Module ℚ W] {u v w : V}

theorem refl (u : V) : Parallel u u := ⟨1, one_pos, (one_smul ℚ u).symm⟩

theorem symm (h : Parallel u v) : Parallel v u := by
  obtain ⟨c, pos, rfl⟩ := h
  exact ⟨c⁻¹, inv_pos.2 pos, (inv_smul_smul₀ pos.ne' v).symm⟩

theorem trans (huv : Parallel u v) (hvw : Parallel v w) : Parallel u w := by
  obtain ⟨c, pos, rfl⟩ := huv
  obtain ⟨d, pos', rfl⟩ := hvw
  exact ⟨c * d, mul_pos pos pos', smul_smul c d w⟩

theorem map (T : V →ₗ[ℚ] W) (h : Parallel u v) : Parallel (T u) (T v) := by
  obtain ⟨c, pos, rfl⟩ := h
  exact ⟨c, pos, map_smul T c v⟩

theorem eq_zero_iff (h : Parallel u v) : u = 0 ↔ v = 0 := by
  constructor
  · rintro rfl
    obtain ⟨c, -, rfl⟩ := h.symm
    exact smul_zero c
  · rintro rfl
    obtain ⟨c, -, rfl⟩ := h
    exact smul_zero c

end Parallel

/-- If each vector of one family is parallel to one of the other, and conversely, a combination of
the one with positive weights is one of the other. -/
theorem exists_parallel_weights {I : Finset ι} {J : Finset κ}
    (some : ∀ i ∈ I, ∃ j ∈ J, Parallel (a i) (b j))
    (all : ∀ j ∈ J, ∃ i ∈ I, Parallel (a i) (b j)) {w : ι → ℚ} (pos : ∀ i ∈ I, 0 < w i) :
    ∃ v : κ → ℚ, (∀ j ∈ J, 0 < v j) ∧ ∑ i ∈ I, w i • a i = ∑ j ∈ J, v j • b j := by
  classical
  choose! c multiple using fun i j (h : Parallel (a i) (b j)) => h
  -- A vector shares its weight among all those that it is parallel to.
  let share i : ℚ := w i / ({j ∈ J | Parallel (a i) (b j)} : Finset κ).card
  have partners {i : ι} (hi : i ∈ I) : ({j ∈ J | Parallel (a i) (b j)} : Finset κ).Nonempty := by
    obtain ⟨j, hj, parallel⟩ := some i hi
    exact ⟨j, Finset.mem_filter.2 ⟨hj, parallel⟩⟩
  have share_pos {i : ι} (hi : i ∈ I) : 0 < share i :=
    div_pos (pos i hi) (Nat.cast_pos.2 (Finset.card_pos.2 (partners hi)))
  refine ⟨fun j => ∑ i ∈ I with Parallel (a i) (b j), share i * c i j, fun j hj => ?_, ?_⟩
  · refine Finset.sum_pos (fun i hi => ?_) ?_
    · obtain ⟨hi, parallel⟩ := Finset.mem_filter.1 hi
      exact mul_pos (share_pos hi) (multiple i j parallel).1
    · obtain ⟨i, hi, parallel⟩ := all j hj
      exact ⟨i, Finset.mem_filter.2 ⟨hi, parallel⟩⟩
  · have parts : ∀ j ∈ J, (∑ i ∈ I with Parallel (a i) (b j), share i * c i j) • b j =
        ∑ i ∈ I with Parallel (a i) (b j), share i • a i := fun j _ => by
      rw [Finset.sum_smul]
      refine Finset.sum_congr rfl fun i hi => ?_
      rw [mul_smul, ← (multiple i j (Finset.mem_filter.1 hi).2).2]
    have swap : ∑ j ∈ J, ∑ i ∈ I with Parallel (a i) (b j), share i • a i =
        ∑ i ∈ I, ∑ j ∈ J with Parallel (a i) (b j), share i • a i :=
      Finset.sum_comm' fun j i => by simp only [Finset.mem_filter]; tauto
    rw [Finset.sum_congr rfl parts, swap]
    refine Finset.sum_congr rfl fun i hi => ?_
    have some_partner : (({j ∈ J | Parallel (a i) (b j)} : Finset κ).card : ℚ) ≠ 0 :=
      Nat.cast_ne_zero.2 (Finset.card_pos.2 (partners hi)).ne'
    rw [Finset.sum_const, ← Nat.cast_smul_eq_nsmul ℚ, smul_smul, mul_div_cancel₀ _ some_partner]

end Prevision
