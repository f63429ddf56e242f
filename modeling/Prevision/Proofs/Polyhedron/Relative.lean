import Prevision.Proofs.Polyhedron.Facet

/-!
# Facets of a cone in the space that it spans

Of the forms that cut out a cone some may vanish on the whole of it. The others
are positive on a point inside (`Bounds.inner`), and so, on the space that the
cone spans, they are multiples of forms that are one on a common vector
(`Bounds.facets`). The forms that define facets of the cone are therefore
enough to tell which vectors of that space belong to it
(`Bounds.generated_of_facets`).

A vector that is not negative where forms vanish on the whole cone is carried
into the cone by a multiple of the point inside (`Bounds.exists_raised`).
-/

namespace Prevision

variable {V : Type*} [AddCommGroup V] [Module ℚ V] {F : Set (Module.Dual ℚ V)} {R : Set V} {L : Submodule ℚ V}
  {a b : Module.Dual ℚ V} {y u : V}

/-- The space that a cone spans. -/
abbrev spanned (R : Set V) (L : Submodule ℚ V) : Submodule ℚ V := Submodule.span ℚ R ⊔ L

/-- What is in a space and generated by rays and lines in it is generated there. -/
theorem Generated.comap {E : Submodule ℚ V} (rays : R ⊆ E) (lines : L ≤ E) {y : E} (h : Generated R L y) :
    Generated (Set.preimage Subtype.val R) (L.comap E.subtype) y := by
  obtain ⟨φ, back⟩ := E.subtype.exists_leftInverse_of_injective E.ker_subtype
  have same (z : E) : φ z = z := LinearMap.congr_fun back z
  rw [← same y]
  refine h.map φ (fun r hr => .of_mem ?_) fun l hl => ?_
  · rwa [same ⟨r, rays hr⟩]
  · rw [Submodule.mem_comap, same ⟨l, lines hl⟩]
    exact hl

/-- Forms that cut a cone out of the space that its generators span. -/
structure Bounds (F : Set (Module.Dual ℚ V)) (R : Set V) (L : Submodule ℚ V) : Prop where
  finite_forms : F.Finite
  finite_rays : R.Finite
  rays : ∀ r ∈ R, ∀ a ∈ F, 0 ≤ a r
  lines : ∀ l ∈ L, ∀ a ∈ F, a l = 0
  generates : ∀ y ∈ spanned R L, (∀ a ∈ F, 0 ≤ a y) → Generated R L y

namespace Bounds

variable (h : Bounds F R L)

/-- The sum of the rays. -/
noncomputable def inner : V := ∑ r ∈ h.finite_rays.toFinset, r

theorem generated_inner : Generated R L h.inner :=
  Finset.sum_induction _ (Generated R L) (fun _ _ => Generated.add) .zero fun _ hr =>
    .of_mem (h.finite_rays.mem_toFinset.1 hr)

theorem inner_nonneg (ha : a ∈ F) : 0 ≤ a h.inner :=
  h.generated_inner.nonneg (fun r hr => h.rays r hr a ha) fun l hl => h.lines l hl a ha

theorem inner_eq_zero_iff (ha : a ∈ F) : a h.inner = 0 ↔ ∀ r ∈ R, a r = 0 := by
  rw [inner, map_sum,
    Finset.sum_eq_zero_iff_of_nonneg fun r hr => h.rays r (h.finite_rays.mem_toFinset.1 hr) a ha]
  simp only [Set.Finite.mem_toFinset]

/-- A form that is zero inside is zero on all that the cone spans. -/
theorem spanned_le_ker (ha : a ∈ F) (zero : a h.inner = 0) : spanned R L ≤ LinearMap.ker a := by
  refine sup_le (Submodule.span_le.2 fun r hr => ?_) fun l hl => ?_
  · exact LinearMap.mem_ker.2 ((h.inner_eq_zero_iff ha).1 zero r hr)
  · exact LinearMap.mem_ker.2 (h.lines l hl a ha)

/-- A form on the space that the cone spans, scaled to be one inside. -/
noncomputable def scaled (a : Module.Dual ℚ V) : Module.Dual ℚ (spanned R L) :=
  (a.domRestrict (spanned R L)).smulRight (a h.inner)⁻¹

theorem scaled_apply (a : Module.Dual ℚ V) (y : spanned R L) : h.scaled a y = (a h.inner)⁻¹ * a y :=
  mul_comm _ _

/-- The forms that do not vanish on the cone, scaled to be one inside. -/
def scaledForms : Set (Module.Dual ℚ (spanned R L)) := {b | ∃ a ∈ F, a h.inner ≠ 0 ∧ b = h.scaled a}

theorem scaled_nonneg_iff (ha : a ∈ F) (ne : a h.inner ≠ 0) {y : spanned R L} :
    0 ≤ h.scaled a y ↔ 0 ≤ a y := by
  rw [scaled_apply, mul_nonneg_iff_of_pos_left (inv_pos.2 ((h.inner_nonneg ha).lt_of_ne' ne))]

theorem scaled_eq_zero_iff (ne : a h.inner ≠ 0) {y : spanned R L} : h.scaled a y = 0 ↔ a y = 0 := by
  rw [scaled_apply, mul_eq_zero_iff_left (inv_ne_zero ne)]

/-- On the space that the cone spans, the scaled forms cut it out. -/
theorem facets : Facets h.scaledForms (Set.preimage Subtype.val R) (L.comap (spanned R L).subtype)
    ⟨h.inner, h.generated_inner.mem_span⟩ := by
  refine ⟨?_, h.finite_rays.preimage Subtype.val_injective.injOn, ?_, ?_, ?_, fun y inside => ?_⟩
  · refine (h.finite_forms.image h.scaled).subset ?_
    rintro _ ⟨a, ha, -, rfl⟩
    exact Set.mem_image_of_mem _ ha
  · rintro _ ⟨a, -, ne, rfl⟩
    exact (h.scaled_apply a _).trans (inv_mul_cancel₀ ne)
  · rintro r hr _ ⟨a, ha, ne, rfl⟩
    exact (h.scaled_nonneg_iff ha ne).2 (h.rays r hr a ha)
  · rintro l hl _ ⟨a, ha, ne, rfl⟩
    exact (h.scaled_eq_zero_iff ne).2 (h.lines l hl a ha)
  · refine (h.generates y y.2 fun a ha => ?_).comap (fun r hr => ?_) le_sup_right
    · by_cases zero : a h.inner = 0
      · exact (LinearMap.mem_ker.1 (h.spanned_le_ker ha zero y.2)).ge
      · exact (h.scaled_nonneg_iff ha zero).1 (inside _ ⟨a, ha, zero, rfl⟩)
    · exact Submodule.mem_sup_left (Submodule.subset_span hr)

/-- The facet of a scaled form is that of the form. -/
theorem map_facetSpan (ne : a h.inner ≠ 0) :
    (facetSpan (Set.preimage Subtype.val R) (L.comap (spanned R L).subtype) (h.scaled a)).map
      (spanned R L).subtype =
      facetSpan R L a := by
  have rays :
      (spanned R L).subtype '' {r ∈ Set.preimage Subtype.val R | h.scaled a r = 0} = {r ∈ R | a r = 0} := by
    ext r
    constructor
    · rintro ⟨r, ⟨hr, zero⟩, rfl⟩
      exact ⟨hr, (h.scaled_eq_zero_iff ne).1 zero⟩
    · rintro ⟨hr, zero⟩
      have mem : r ∈ spanned R L := Submodule.mem_sup_left (Submodule.subset_span hr)
      exact ⟨⟨r, mem⟩, ⟨hr, (h.scaled_eq_zero_iff ne).2 zero⟩, rfl⟩
  rw [facetSpan, Submodule.map_sup, Submodule.map_span, rays, Submodule.map_comap_subtype, facetSpan,
    inf_eq_right.2 le_sup_right]

/-- Whether a form defines a facet of the cone, by dimensions. -/
def IsFacet (R : Set V) (L : Submodule ℚ V) (a : Module.Dual ℚ V) : Prop :=
  Module.finrank ℚ (facetSpan R L a) + 1 = Module.finrank ℚ (spanned R L)

/-- A form that defines a facet does not vanish inside. -/
theorem inner_ne_zero_of_isFacet (ha : a ∈ F) (facet : IsFacet R L a) : a h.inner ≠ 0 := by
  intro zero
  have all : {r ∈ R | a r = 0} = R := Set.sep_eq_self_iff_mem_true.2 ((h.inner_eq_zero_iff ha).1 zero)
  rw [IsFacet, facetSpan, all] at facet
  exact Nat.succ_ne_self _ facet

/-- A vector is carried into the cone along a point inside, unless a form is negative on it that
vanishes on the whole cone. -/
theorem exists_raised {T : Set (Module.Dual ℚ V)} (part : T ⊆ F)
    (flat : ∀ a ∈ T, a h.inner = 0 → 0 ≤ a u) :
    ∃ n : ℚ, 0 < n ∧ ∀ a ∈ T, 0 ≤ a (n • h.inner + u) := by
  obtain ⟨n, pos, bound⟩ :=
    exists_multiple_ge (h.finite_forms.subset part) (fun a => min (a u) 0) (fun a => a h.inner)
    (fun a ha => h.inner_nonneg (part ha)) fun a ha zero => min_eq_right (flat a ha zero)
  refine ⟨n, pos, fun a ha => ?_⟩
  have low := (abs_le.1 (bound a ha)).1
  rw [map_add, map_smul, smul_eq_mul]
  have := min_le_left (a u) 0
  linarith

variable [Module.Finite ℚ V]

theorem isFacet_iff_extreme (ha : a ∈ F) (ne : a h.inner ≠ 0) :
    IsFacet R L a ↔ IsExtremeIn (Generated h.scaledForms ⊥) (h.scaled a) := by
  rw [← h.facets.finrank_iff_extreme ⟨a, ha, ne, rfl⟩, IsFacet, ← h.map_facetSpan ne,
    Submodule.finrank_map_subtype_eq]

/-- Forms that define the same facet are multiples of one another on the space that the cone spans. -/
theorem scaled_eq_of_facetSpan_eq (ha : a ∈ F) (hb : b ∈ F) (facet : IsFacet R L a)
    (same : facetSpan R L a = facetSpan R L b) : b h.inner ≠ 0 ∧ h.scaled a = h.scaled b := by
  have ne := h.inner_ne_zero_of_isFacet ha facet
  have ne' : b h.inner ≠ 0 := h.inner_ne_zero_of_isFacet hb (by rwa [IsFacet, ← same])
  refine ⟨ne', h.facets.eq_of_facet ⟨a, ha, ne, rfl⟩ ⟨b, hb, ne', rfl⟩ ?_ ?_⟩
  · exact h.facets.facet_of_extreme ⟨a, ha, ne, rfl⟩ ((h.isFacet_iff_extreme ha ne).1 facet)
  · rw [← h.map_facetSpan ne, ← h.map_facetSpan ne'] at same
    exact Submodule.map_injective_of_injective (spanned R L).subtype_injective same

include h in
/-- For every facet, one form that defines it is enough to cut the cone out of the space that it spans. -/
theorem generated_of_facets (mem : y ∈ spanned R L)
    (facets : ∀ a ∈ F, IsFacet R L a → ∃ b ∈ F, facetSpan R L a = facetSpan R L b ∧ 0 ≤ b y) :
    Generated R L y := by
  have extreme : ∀ c ∈ h.scaledForms, IsExtremeIn (Generated h.scaledForms ⊥) c → 0 ≤ c ⟨y, mem⟩ := by
    rintro _ ⟨a, ha, ne, rfl⟩ extreme
    obtain ⟨b, hb, same, nonneg⟩ := facets a ha ((h.isFacet_iff_extreme ha ne).2 extreme)
    obtain ⟨ne', equal⟩ := h.scaled_eq_of_facetSpan_eq ha hb ((h.isFacet_iff_extreme ha ne).2 extreme) same
    rw [equal, h.scaled_nonneg_iff hb ne']
    exact nonneg
  refine h.generates y mem fun a ha => ?_
  by_cases zero : a h.inner = 0
  · exact (LinearMap.mem_ker.1 (h.spanned_le_ker ha zero mem)).ge
  · exact (h.scaled_nonneg_iff (y := ⟨y, mem⟩) ha zero).1
      (h.facets.nonneg_of_extreme extreme ⟨a, ha, zero, rfl⟩)

end Bounds

end Prevision
