import Prevision.Proofs.Polyhedron.Hull
import Prevision.Proofs.Polyhedron.Separation

/-!
# Facets and extreme forms

Finitely many forms that are one on a common vector cut out a cone. A form of
them defines a facet of it if the generators of the cone on which it vanishes
span all but one dimension, and that is so exactly if the form is extreme in
the cone that the forms generate (`Facets.finrank_iff_extreme`). No two forms
define one facet (`Facets.eq_of_facet`).
-/

namespace Prevision

variable {V : Type*} [AddCommGroup V] [Module ℚ V] {A : Set (Module.Dual ℚ V)} {R : Set V} {L : Submodule ℚ V}
  {a b : Module.Dual ℚ V} {e y : V}

theorem Generated.mem_span (h : Generated R L y) : y ∈ Submodule.span ℚ R ⊔ L := by
  induction h with
  | line hl => exact Submodule.mem_sup_right hl
  | @addRay y r a _ hr _ ih =>
    exact Submodule.add_mem _ ih (Submodule.mem_sup_left (Submodule.smul_mem _ a (Submodule.subset_span hr)))

/-- A number of times the second of two functions, positive where it is zero only if the first is, is at least
the first on finitely many vectors. -/
theorem exists_multiple_ge {α : Type*} {T : Set α} (finite : T.Finite) (f g : α → ℚ)
    (nonneg : ∀ x ∈ T, 0 ≤ g x)
    (zero : ∀ x ∈ T, g x = 0 → f x = 0) : ∃ n : ℚ, 0 < n ∧ ∀ x ∈ T, |f x| ≤ n * g x := by
  obtain ⟨n, bound⟩ := (finite.image fun x => |f x| / g x).bddAbove
  refine ⟨max n 1, lt_max_of_lt_right one_pos, fun x hx => ?_⟩
  rcases (nonneg x hx).eq_or_lt with e | pos
  · rw [zero x hx e.symm, ← e, abs_zero, mul_zero]
  · rw [← div_le_iff₀ pos]
    exact (bound (Set.mem_image_of_mem _ hx)).trans (le_max_left n 1)

/-- What is negative at finitely many places is below any bound, up to a positive multiple. -/
theorem exists_multiple_le {α : Type*} {T : Set α} (finite : T.Finite) (f u : α → ℚ)
    (negative : ∀ x ∈ T, u x < 0) :
    ∃ n : ℚ, 0 < n ∧ ∀ x ∈ T, n * u x ≤ -|f x| := by
  obtain ⟨n, pos, bound⟩ :=
    exists_multiple_ge finite f (fun x => -u x) (fun x hx => neg_nonneg.2 (negative x hx).le)
    fun x hx zero => absurd (neg_eq_zero.1 zero) (negative x hx).ne
  refine ⟨n, pos, fun x hx => le_neg.1 ?_⟩
  rw [← mul_neg]
  exact bound x hx

/-- Forms that are one on a common vector, and the generators of the cone that they cut out. -/
structure Facets (A : Set (Module.Dual ℚ V)) (R : Set V) (L : Submodule ℚ V) (e : V) : Prop where
  finite_forms : A.Finite
  finite_rays : R.Finite
  one : ∀ a ∈ A, a e = 1
  rays : ∀ r ∈ R, ∀ a ∈ A, 0 ≤ a r
  lines : ∀ l ∈ L, ∀ a ∈ A, a l = 0
  generates : ∀ y, (∀ a ∈ A, 0 ≤ a y) → Generated R L y

/-- The space spanned by the generators on which a form vanishes. -/
def facetSpan (R : Set V) (L : Submodule ℚ V) (a : Module.Dual ℚ V) : Submodule ℚ V :=
  Submodule.span ℚ {r ∈ R | a r = 0} ⊔ L

namespace Facets

variable (h : Facets A R L e)

include h

theorem ne_zero (ha : a ∈ A) : a ≠ 0 := by
  rintro rfl
  exact zero_ne_one (h.one 0 ha)

/-- The cone is as wide as the space, since the common vector is in its inside. -/
theorem span_eq_top : Submodule.span ℚ R ⊔ L = ⊤ := by
  refine (Submodule.eq_top_iff').2 fun v => ?_
  obtain ⟨n, pos, bound⟩ := exists_multiple_ge h.finite_forms (fun a => a v) (fun a => a e)
    (fun a ha => (h.one a ha).ge.trans' zero_le_one) fun a ha e =>
      absurd ((h.one a ha).symm.trans e) one_ne_zero
  have near : Generated R L (n • e + v) := h.generates _ fun a ha => by
    have := (abs_le.1 (bound a ha)).1
    rw [map_add, map_smul, smul_eq_mul]
    linarith
  have inside : Generated R L (n • e) := h.generates _ fun a ha => by
    rw [map_smul, h.one a ha, smul_eq_mul, mul_one]
    exact pos.le
  rw [← add_sub_cancel_left (n • e) v]
  exact Submodule.sub_mem _ near.mem_span inside.mem_span

theorem facetSpan_le_ker (ha : a ∈ A) : facetSpan R L a ≤ LinearMap.ker a := by
  refine sup_le (Submodule.span_le.2 fun r hr => ?_) fun l hl => ?_
  · exact LinearMap.mem_ker.2 hr.2
  · exact LinearMap.mem_ker.2 (h.lines l hl a ha)

/-- A vector less its part along the common vector is in the kernel of a form. -/
theorem sub_mem_ker (ha : a ∈ A) (v : V) : v - a v • e ∈ LinearMap.ker a := by
  rw [LinearMap.mem_ker, map_sub, map_smul, h.one a ha, smul_eq_mul, mul_one, sub_self]

/-- Two forms that span the same facet are multiples of one another, and both are one on a common vector. -/
theorem eq_of_facet (ha : a ∈ A) (hb : b ∈ A) (facet : facetSpan R L a = LinearMap.ker a)
    (same : facetSpan R L a = facetSpan R L b) : a = b := by
  ext v
  have mem := h.sub_mem_ker ha v
  rw [← facet, same] at mem
  have zero := LinearMap.mem_ker.1 (h.facetSpan_le_ker hb mem)
  rw [map_sub, map_smul, h.one b hb, smul_eq_mul, mul_one, sub_eq_zero] at zero
  exact zero.symm

/-- A form that defines a facet is extreme: summands vanish where it does. -/
theorem extreme_of_facet (ha : a ∈ A) (facet : facetSpan R L a = LinearMap.ker a) :
    IsExtremeIn (Generated A ⊥) a := by
  intro u v hu hv sum
  have nonneg {w : Module.Dual ℚ V} (hw : Generated A ⊥ w) {r : V} (hr : r ∈ R) : 0 ≤ w r :=
    hw.nonneg_bot (f := Module.Dual.eval ℚ V r) fun a ha => h.rays r hr a ha
  have line {w : Module.Dual ℚ V} (hw : Generated A ⊥ w) {l : V} (hl : l ∈ L) : 0 ≤ w l :=
    hw.nonneg_bot (f := Module.Dual.eval ℚ V l) fun a ha => (h.lines l hl a ha).ge
  have vanish : facetSpan R L a ≤ LinearMap.ker u := by
    refine sup_le (Submodule.span_le.2 fun r hr => ?_) fun l hl => ?_
    · have total := hr.2
      rw [← sum, LinearMap.add_apply] at total
      exact ((add_eq_zero_iff_of_nonneg (nonneg hu hr.1) (nonneg hv hr.1)).1 total).1
    · have below := line hu (L.neg_mem hl)
      rw [map_neg, neg_nonneg] at below
      exact le_antisymm below (line hu hl)
  refine ⟨u e, LinearMap.ext fun v => ?_⟩
  have mem := h.sub_mem_ker ha v
  rw [← facet] at mem
  have zero := LinearMap.mem_ker.1 (vanish mem)
  rw [map_sub, map_smul, smul_eq_mul, sub_eq_zero] at zero
  rw [zero, LinearMap.smul_apply, smul_eq_mul, mul_comm]

/-- A vector on which the extreme forms are not negative is in the cone. -/
theorem nonneg_of_extreme (extreme : ∀ a ∈ A, IsExtremeIn (Generated A ⊥) a → 0 ≤ a y)
    (ha : a ∈ A) : 0 ≤ a y := by
  have height : ∀ a ∈ A, Module.Dual.eval ℚ V e a = 1 := h.one
  have generated := generated_extreme height h.finite_forms ha
  exact generated.nonneg_bot (f := Module.Dual.eval ℚ V y) fun c hc => extreme c hc.1 hc.2

variable [Module.Finite ℚ V]

/-- A form that is not negative in the cone is generated by those that cut it out. -/
theorem generated_of_nonneg (nonneg : ∀ y, (∀ a ∈ A, 0 ≤ a y) → 0 ≤ b y) : Generated A ⊥ b := by
  rw [Generated.iff_forms h.finite_forms]
  intro φ forms _
  obtain ⟨y, rfl⟩ := (Module.evalEquiv ℚ V).surjective φ
  exact nonneg y forms

theorem finrank_iff (ha : a ∈ A) :
    Module.finrank ℚ (facetSpan R L a) + 1 = Module.finrank ℚ V ↔ facetSpan R L a = LinearMap.ker a := by
  rw [← Module.Dual.finrank_ker_add_one_of_ne_zero (h.ne_zero ha), Nat.add_right_cancel_iff]
  exact ⟨Submodule.eq_of_le_of_finrank_eq (h.facetSpan_le_ker ha), fun same => by rw [same]⟩

/-- Some multiple of a form can be varied by another that vanishes on its facet. -/
theorem exists_variation (ha : a ∈ A) (vanish : ∀ v ∈ facetSpan R L a, b v = 0) :
    ∃ n : ℚ, 0 < n ∧ ∀ c : ℚ, |c| = 1 → Generated A ⊥ (n • a + c • b) := by
  obtain ⟨n, pos, bound⟩ := exists_multiple_ge h.finite_rays (fun r => b r) (fun r => a r)
    (fun r hr => h.rays r hr a ha)
    fun r hr zero => vanish r (Submodule.mem_sup_left (Submodule.subset_span ⟨hr, zero⟩))
  refine ⟨n, pos, fun c hc => h.generated_of_nonneg fun y inside => ?_⟩
  refine (h.generates y inside).nonneg (f := n • a + c • b) (fun r hr => ?_) fun l hl => ?_
  · have size : |c * b r| ≤ n * a r := by
      rw [abs_mul, hc, one_mul]
      exact bound r hr
    have := (abs_le.1 size).1
    rw [LinearMap.add_apply, LinearMap.smul_apply, LinearMap.smul_apply, smul_eq_mul, smul_eq_mul]
    linarith
  · rw [LinearMap.add_apply, LinearMap.smul_apply, LinearMap.smul_apply, h.lines l hl a ha,
      vanish l (Submodule.mem_sup_right hl), smul_zero, smul_zero, add_zero]

/-- If the facet of a form is too narrow, another form vanishes on it. A multiple of the form is
half the sum of its variations by that form, so the variations are multiples too, and the other
form vanishes with it. -/
theorem facet_of_extreme (ha : a ∈ A) (extreme : IsExtremeIn (Generated A ⊥) a) :
    facetSpan R L a = LinearMap.ker a := by
  refine le_antisymm (h.facetSpan_le_ker ha) fun x hx => ?_
  refine (Subspace.forall_mem_dualAnnihilator_apply_eq_zero_iff _ x).1 fun b hb => ?_
  obtain ⟨n, pos, varied⟩ := h.exists_variation ha ((Submodule.mem_dualAnnihilator b).1 hb)
  have half : (0 : ℚ) ≤ (2 * n)⁻¹ := by positivity
  have sum : (2 * n)⁻¹ • (n • a + (1 : ℚ) • b) + (2 * n)⁻¹ • (n • a + (-1 : ℚ) • b) = a := by
    rw [← smul_add, one_smul, neg_one_smul, add_add_add_comm, add_neg_cancel, add_zero, ← add_smul, smul_smul,
      ← two_mul, inv_mul_cancel₀ (by positivity), one_smul]
  obtain ⟨t, part⟩ :=
    extreme _ _ ((varied 1 abs_one).smul half) ((varied (-1) (by rw [abs_neg, abs_one])).smul half)
    sum
  have at_x := LinearMap.congr_fun part x
  rw [LinearMap.smul_apply, LinearMap.smul_apply, LinearMap.add_apply, LinearMap.smul_apply,
    LinearMap.mem_ker.1 hx, smul_zero, zero_add, one_smul, smul_zero] at at_x
  exact (smul_eq_zero.1 at_x).resolve_left (by positivity)

/-- A form defines a facet exactly if it is extreme. -/
theorem finrank_iff_extreme (ha : a ∈ A) : Module.finrank ℚ (facetSpan R L a) + 1 = Module.finrank ℚ V ↔
    IsExtremeIn (Generated A ⊥) a :=
  (h.finrank_iff ha).trans ⟨h.extreme_of_facet ha, h.facet_of_extreme ha⟩

end Facets

end Prevision
