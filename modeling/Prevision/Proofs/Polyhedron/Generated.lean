import Mathlib.Algebra.Module.Submodule.Map
import Mathlib.Algebra.Order.Field.Rat
import Mathlib.LinearAlgebra.Span.Basic
import Mathlib.Tactic.Linarith
import Mathlib.Tactic.Module
import Mathlib.Tactic.NthRewrite

/-!
# Generated cones

`Generated R L y` says that `y` is a nonnegative combination of the rays `R`
plus an element of the space of lines `L`.

* `Generated.add`, `Generated.smul`, `Generated.trans`, `Generated.map`: the
  closure properties of what is generated;
* `Generated.face`: where forms that are nonnegative on the rays and zero on
  the lines vanish, only the rays on which they vanish have a part;
* `Generated.split`: a combination parts into the rays with a property and
  the rays without it.
-/

namespace Prevision

variable {V W : Type*} [AddCommGroup V] [Module ℚ V] [AddCommGroup W] [Module ℚ W]

/-- `y` is a nonnegative combination of rays in `R` plus an element of `L`. -/
inductive Generated (R : Set V) (L : Submodule ℚ V) : V → Prop
  | line {l : V} : l ∈ L → Generated R L l
  | addRay {y r : V} {a : ℚ} : Generated R L y → r ∈ R → 0 ≤ a → Generated R L (y + a • r)

namespace Generated

variable {R S : Set V} {L M : Submodule ℚ V} {y z : V}

theorem zero : Generated R L 0 := line L.zero_mem

theorem add_line (h : Generated R L y) {l : V} (hl : l ∈ L) : Generated R L (y + l) := by
  induction h with
  | line hy => exact line (L.add_mem hy hl)
  | @addRay y r a _ hr ha ih =>
    rw [add_right_comm]
    exact ih.addRay hr ha

theorem add (hy : Generated R L y) (hz : Generated R L z) : Generated R L (y + z) := by
  induction hz with
  | line hl => exact hy.add_line hl
  | addRay _ hr ha ih =>
    rw [← add_assoc]
    exact ih.addRay hr ha

theorem ray {r : V} (hr : r ∈ R) {a : ℚ} (ha : 0 ≤ a) : Generated R L (a • r) := by
  rw [← zero_add (a • r)]
  exact zero.addRay hr ha

theorem of_mem {r : V} (hr : r ∈ R) : Generated R L r := by
  rw [← one_smul ℚ r]
  exact ray hr zero_le_one

theorem smul (h : Generated R L y) {c : ℚ} (hc : 0 ≤ c) : Generated R L (c • y) := by
  induction h with
  | line hl => exact line (L.smul_mem c hl)
  | addRay _ hr ha ih =>
    rw [smul_add, smul_smul]
    exact ih.addRay hr (mul_nonneg hc ha)

theorem smul_iff {c : ℚ} (hc : 0 < c) : Generated R L (c • y) ↔ Generated R L y := by
  refine ⟨fun h => ?_, fun h => h.smul hc.le⟩
  have back := h.smul (inv_nonneg.2 hc.le)
  rwa [inv_smul_smul₀ hc.ne'] at back

theorem trans (h : Generated R L y) (rays : ∀ r ∈ R, Generated S M r) (lines : L ≤ M) :
    Generated S M y := by
  induction h with
  | line hl => exact line (lines hl)
  | addRay _ hr ha ih => exact ih.add ((rays _ hr).smul ha)

theorem mono (h : Generated R L y) (rays : R ⊆ S) : Generated S L y := by
  exact h.trans (fun r hr => of_mem (rays hr)) le_rfl

/-- Of two vectors that are positive multiples of one another up to a line, both are generated. -/
theorem of_multiple (h : Generated R L z) {a : ℚ} (ha : 0 < a) (near : z - a • y ∈ L) :
    Generated R L y := by
  have parts : y = a⁻¹ • z + (-a⁻¹) • (z - a • y) := by
    have : y = (a⁻¹ * a) • y := by rw [inv_mul_cancel₀ ha.ne', one_smul]
    nth_rewrite 1 [this]
    module
  rw [parts]
  exact (h.smul (inv_nonneg.2 ha.le)).add_line (L.smul_mem _ near)

/-- A linear map takes what is generated to what the images generate. -/
theorem map (f : V →ₗ[ℚ] W) {R' : Set W} {L' : Submodule ℚ W} (h : Generated R L y)
    (rays : ∀ r ∈ R, Generated R' L' (f r)) (lines : ∀ l ∈ L, f l ∈ L') : Generated R' L' (f y) := by
  induction h with
  | line hl => exact line (lines _ hl)
  | addRay _ hr ha ih =>
    rw [map_add, map_smul]
    exact ih.add ((rays _ hr).smul ha)

/-- Lines may be mapped to what is generated along with its negation. -/
theorem map_span (f : V →ₗ[ℚ] W) {M : Set V} {R' : Set W} {L' : Submodule ℚ W}
    (h : Generated R (Submodule.span ℚ M) y) (rays : ∀ r ∈ R, Generated R' L' (f r))
    (lines : ∀ m ∈ M, Generated R' L' (f m) ∧ Generated R' L' (-f m)) : Generated R' L' (f y) := by
  have both : ∀ l ∈ Submodule.span ℚ M, Generated R' L' (f l) ∧ Generated R' L' (-f l) := fun l hl => by
    induction hl using Submodule.span_induction with
    | mem m hm => exact lines m hm
    | zero =>
      rw [map_zero, neg_zero]
      exact ⟨zero, zero⟩
    | add u v _ _ hu hv =>
      rw [map_add, neg_add]
      exact ⟨hu.1.add hv.1, hu.2.add hv.2⟩
    | smul c u _ hu =>
      rw [map_smul, ← smul_neg]
      rcases le_total 0 c with pos | neg
      · exact ⟨hu.1.smul pos, hu.2.smul pos⟩
      · rw [← neg_smul_neg c (f u), ← neg_smul_neg c (-f u), neg_neg]
        exact ⟨hu.2.smul (neg_nonneg.2 neg), hu.1.smul (neg_nonneg.2 neg)⟩
  induction h with
  | line hl => exact (both _ hl).1
  | addRay _ hr ha ih =>
    rw [map_add, map_smul]
    exact ih.add ((rays _ hr).smul ha)

theorem nonneg {f : V →ₗ[ℚ] ℚ} (h : Generated R L y) (rays : ∀ r ∈ R, 0 ≤ f r)
    (lines : ∀ l ∈ L, f l = 0) : 0 ≤ f y := by
  induction h with
  | line hl => exact (lines _ hl).ge
  | addRay _ hr ha ih =>
    rw [map_add, map_smul, smul_eq_mul]
    exact add_nonneg ih (mul_nonneg ha (rays _ hr))

/-- Without lines, only the rays count. -/
theorem map_bot (f : V →ₗ[ℚ] W) {T : Set W} (h : Generated R ⊥ y)
    (rays : ∀ r ∈ R, Generated T ⊥ (f r)) :
    Generated T ⊥ (f y) :=
  h.map f rays fun l hl => by
    rw [(Submodule.mem_bot ℚ).1 hl, map_zero]
    exact Submodule.zero_mem _

theorem nonneg_bot {f : V →ₗ[ℚ] ℚ} (h : Generated R ⊥ y) (rays : ∀ r ∈ R, 0 ≤ f r) : 0 ≤ f y :=
  h.nonneg rays fun l hl => by rw [(Submodule.mem_bot ℚ).1 hl, map_zero]

/-- Where forms that are nonnegative on the rays vanish, only rays on which they all vanish have
a part. -/
theorem face {ι : Type*} {f : ι → V →ₗ[ℚ] ℚ} {T : Set ι} (h : Generated R L y)
    (rays : ∀ i ∈ T, ∀ r ∈ R, 0 ≤ f i r) (lines : ∀ i ∈ T, ∀ l ∈ L, f i l = 0)
    (vanish : ∀ i ∈ T, f i y = 0) : Generated {r ∈ R | ∀ i ∈ T, f i r = 0} L y := by
  induction h with
  | line hl => exact line hl
  | @addRay y r a hy hr ha ih =>
    have parts : ∀ i ∈ T, f i y = 0 ∧ a * f i r = 0 := by
      intro i hi
      have sum := vanish i hi
      rw [map_add, map_smul, smul_eq_mul] at sum
      exact (add_eq_zero_iff_of_nonneg (hy.nonneg (rays i hi) (lines i hi))
        (mul_nonneg ha (rays i hi r hr))).1 sum
    have rest := ih fun i hi => (parts i hi).1
    rcases eq_or_ne a 0 with rfl | ne
    · rwa [zero_smul, add_zero]
    · exact rest.addRay ⟨hr, fun i hi => (mul_eq_zero.1 (parts i hi).2).resolve_left ne⟩ ha

/-- A combination parts into one of the rays with a property and one of the rays without it. -/
theorem split (h : Generated R L y) (P : V → Prop) :
    ∃ u v, Generated {r ∈ R | P r} L u ∧ Generated {r ∈ R | ¬P r} L v ∧ y = u + v := by
  induction h with
  | @line l hl => exact ⟨l, 0, line hl, zero, (add_zero l).symm⟩
  | @addRay y r a _ hr ha ih =>
    obtain ⟨u, v, hu, hv, rfl⟩ := ih
    by_cases holds : P r
    · exact ⟨u + a • r, v, hu.addRay ⟨hr, holds⟩ ha, hv, add_right_comm u v (a • r)⟩
    · exact ⟨u, v + a • r, hu, hv.addRay ⟨hr, holds⟩ ha, add_assoc u v (a • r)⟩

/-- A combination of two rays at most. -/
theorem pair {p n : V} (h : Generated R L y) (two : ∀ r ∈ R, r = p ∨ r = n) :
    ∃ a b : ℚ, 0 ≤ a ∧ 0 ≤ b ∧ y - (a • p + b • n) ∈ L := by
  induction h with
  | line hl => exact ⟨0, 0, le_rfl, le_rfl, by simpa using hl⟩
  | @addRay y r c _ hr hc ih =>
    obtain ⟨a, b, ha, hb, rest⟩ := ih
    rcases two r hr with rfl | rfl
    · refine ⟨a + c, b, add_nonneg ha hc, hb, ?_⟩
      convert rest using 1
      module
    · refine ⟨a, b + c, ha, add_nonneg hb hc, ?_⟩
      convert rest using 1
      module

/-- What no ray generates is a line. -/
theorem mem_of_no_ray (h : Generated R L y) (none : ∀ r, r ∉ R) : y ∈ L := by
  cases h with
  | line hl => exact hl
  | addRay _ hr => exact absurd hr (none _)

/-- Where a form vanishes on what is no line, it is positive on some ray or zero on one. -/
theorem exists_pos {f : V →ₗ[ℚ] ℚ} (h : Generated R L y) (lines : ∀ l ∈ L, f l = 0) (zero : f y = 0)
    (ne : y ∉ L) (never : ∀ r ∈ R, f r ≠ 0) : ∃ r ∈ R, 0 < f r := by
  by_contra none
  push Not at none
  have inFace := h.face (f := fun _ : Unit => -f) (T := Set.univ) (fun _ _ r hr => neg_nonneg.2 (none r hr))
    (fun _ _ l hl => by rw [LinearMap.neg_apply, lines l hl, neg_zero])
    (fun _ _ => by rw [LinearMap.neg_apply, zero, neg_zero])
  exact ne (inFace.mem_of_no_ray fun r hr => never r hr.1 (neg_eq_zero.1 (hr.2 () (Set.mem_univ _))))

/-- A set that contains the lines and is closed under adding rays contains what they generate. -/
theorem mem_of_closed {C : Set V} (h : Generated R L y) (lines : ∀ l ∈ L, l ∈ C)
    (add : ∀ u ∈ C, ∀ r ∈ R, ∀ a : ℚ, 0 ≤ a → u + a • r ∈ C) : y ∈ C := by
  induction h with
  | line hl => exact lines _ hl
  | addRay _ hr ha ih => exact add _ ih _ hr _ ha

end Generated

end Prevision
