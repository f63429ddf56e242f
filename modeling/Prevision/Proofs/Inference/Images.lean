import Prevision.Proofs.Inference.Sums
import Prevision.Proofs.Model.Expectations
import Prevision.Proofs.Model.Maps

/-!
# Images of desirable gambles

The rays of the image of a cone under a linear map are the directions of the
images of its rays; several rays may be taken to one direction. What the image
holds is still the image of what the cone holds, element by element
(`Cone.IsImage.exists_payoff_eq`, `Cone.IsImage.exists_eq_payoff`), since positive
weights on one family of vectors are turned into positive weights on a parallel
one (`exists_parallel_weights`).

So the sums of elements of the image of a set of desirable gambles, and what its
rays generate, are images (`DesirabilitySet.IsImage.isSum_iff`,
`DesirabilitySet.IsImage.generated_iff`).
-/

namespace Prevision

variable {σ τ : Type} [State σ] [State τ] {T : (σ → ℚ) →ₗ[ℚ] (τ → ℚ)}

/-! ## Images of cones -/

namespace Cone

theorem map_payoff {V : Type*} [AddCommGroup V] [Module ℚ V] (T : (σ → ℚ) →ₗ[ℚ] V) (C : Cone σ)
    (weight : Ray σ → ℚ) :
    T (C.payoff weight) = ∑ r ∈ C.rays.toFinset, weight r • T r.payoff := by
  rw [payoff_eq_sum, map_sum]
  exact Finset.sum_congr rfl fun r _ => map_smul T _ _

/-- The rays of one cone are the directions of the images of those of another. -/
structure IsImage (T : (σ → ℚ) →ₗ[ℚ] (τ → ℚ)) (C : Cone σ) (C' : Cone τ) : Prop where
  ray : ∀ r ∈ C.rays, ∃ s ∈ C'.rays, Parallel (T r.payoff) s.payoff
  of_ray : ∀ s ∈ C'.rays, ∃ r ∈ C.rays, Parallel (T r.payoff) s.payoff

namespace IsImage

variable {C : Cone σ} {C' : Cone τ}

/-- The image of an element is an element of the image. -/
theorem exists_payoff_eq (image : C.IsImage T C') {weight : Ray σ → ℚ}
    (positive : ∀ r ∈ C.rays, 0 < weight r) :
    ∃ weight' : Ray τ → ℚ, (∀ s ∈ C'.rays, 0 < weight' s) ∧ T (C.payoff weight) = C'.payoff weight' := by
  obtain ⟨weight', positive', same⟩ := exists_parallel_weights
    (a := fun r : Ray σ => T r.payoff) (b := Ray.payoff) (I := C.rays.toFinset) (J := C'.rays.toFinset)
    image.ray image.of_ray positive
  exact ⟨weight', positive', by rw [map_payoff, payoff_eq_sum]; exact same⟩

/-- An element of the image is the image of an element. -/
theorem exists_eq_payoff (image : C.IsImage T C') {weight' : Ray τ → ℚ}
    (positive : ∀ s ∈ C'.rays, 0 < weight' s) :
    ∃ weight : Ray σ → ℚ, (∀ r ∈ C.rays, 0 < weight r) ∧ T (C.payoff weight) = C'.payoff weight' := by
  obtain ⟨weight, positive', same⟩ := exists_parallel_weights
    (a := Ray.payoff) (b := fun r : Ray σ => T r.payoff) (I := C'.rays.toFinset) (J := C.rays.toFinset)
    (fun s hs => (image.of_ray s hs).imp fun r => .imp_right .symm)
    (fun r hr => (image.ray r hr).imp fun s => .imp_right .symm) positive
  exact ⟨weight, positive', by rw [map_payoff, payoff_eq_sum]; exact same.symm⟩

theorem isEmpty_eq (image : C.IsImage T C') : C'.isEmpty = C.isEmpty := by
  refine Bool.eq_iff_iff.2 ⟨fun none => SortedSet.eq_empty_iff.2 fun r hr => ?_, fun none =>
    SortedSet.eq_empty_iff.2 fun s hs => ?_⟩
  · obtain ⟨s, hs, -⟩ := image.ray r hr
    exact SortedSet.eq_empty_iff.1 none s hs
  · obtain ⟨r, hr, -⟩ := image.of_ray s hs
    exact SortedSet.eq_empty_iff.1 none r hr

end IsImage

end Cone

/-! ## Images of sets of desirable gambles -/

namespace DesirabilitySet

/-- The cones of one set are the images of those of another. -/
structure IsImage (T : (σ → ℚ) →ₗ[ℚ] (τ → ℚ)) (D : DesirabilitySet σ)
    (D' : DesirabilitySet τ) : Prop where
  cone : ∀ C ∈ D.cones, ∃ C' ∈ D'.cones, C.IsImage T C'
  of_cone : ∀ C' ∈ D'.cones, ∃ C ∈ D.cones, C.IsImage T C'

namespace IsImage

variable {D : DesirabilitySet σ} {D' : DesirabilitySet τ}

theorem generator (image : D.IsImage T D') {r : Ray σ} (hr : r ∈ D.generators) :
    ∃ s ∈ D'.generators, Parallel (T r.payoff) s.payoff := by
  obtain ⟨C, hC, hr⟩ := mem_generators.1 hr
  obtain ⟨C', hC', cone⟩ := image.cone C hC
  obtain ⟨s, hs, parallel⟩ := cone.ray r hr
  exact ⟨s, mem_generators.2 ⟨C', hC', hs⟩, parallel⟩

theorem of_generator (image : D.IsImage T D') {s : Ray τ} (hs : s ∈ D'.generators) :
    ∃ r ∈ D.generators, Parallel (T r.payoff) s.payoff := by
  obtain ⟨C', hC', hs⟩ := mem_generators.1 hs
  obtain ⟨C, hC, cone⟩ := image.of_cone C' hC'
  obtain ⟨r, hr, parallel⟩ := cone.of_ray s hs
  exact ⟨r, mem_generators.2 ⟨C, hC, hr⟩, parallel⟩

theorem isEmpty_eq (image : D.IsImage T D') : D'.cones.isEmpty = D.cones.isEmpty := by
  refine Bool.eq_iff_iff.2 ⟨fun none => SortedSet.eq_empty_iff.2 fun C hC => ?_, fun none =>
    SortedSet.eq_empty_iff.2 fun C' hC' => ?_⟩
  · obtain ⟨C', hC', -⟩ := image.cone C hC
    exact SortedSet.eq_empty_iff.1 none C' hC'
  · obtain ⟨C, hC, -⟩ := image.of_cone C' hC'
    exact SortedSet.eq_empty_iff.1 none C hC

/-- The sums of elements of the image are the images of sums. -/
theorem isSum_iff (image : D.IsImage T D') {h : τ → ℚ} :
    IsSum D'.cones.toList h ↔ ∃ f, IsSum D.cones.toList f ∧ T f = h := by
  constructor
  · intro sum
    induction sum with
    | @element C' weight' mem rays positive =>
      obtain ⟨C, hC, cone⟩ := image.of_cone C' mem
      obtain ⟨weight, positive', same⟩ := cone.exists_eq_payoff positive
      exact ⟨_, .element hC (D.nonempty C hC) positive', same⟩
    | add _ _ ihf ihg =>
      obtain ⟨f, hf, rfl⟩ := ihf
      obtain ⟨g, hg, rfl⟩ := ihg
      exact ⟨f + g, hf.add hg, map_add T f g⟩
  · rintro ⟨f, sum, rfl⟩
    induction sum with
    | @element C weight mem rays positive =>
      obtain ⟨C', hC', cone⟩ := image.cone C mem
      obtain ⟨weight', positive', same⟩ := cone.exists_payoff_eq positive
      rw [same]
      exact .element hC' (D'.nonempty C' hC') positive'
    | add _ _ ihf ihg =>
      rw [map_add]
      exact ihf.add ihg

/-- What the rays of the image generate are the images of what the rays generate. -/
theorem generated_iff (image : D.IsImage T D') {h : τ → ℚ} :
    Generated D'.payoffs ⊥ h ↔ ∃ f, Generated D.payoffs ⊥ f ∧ T f = h := by
  constructor
  · intro generated
    refine generated.mem_of_closed (C := {h | ∃ f, Generated D.payoffs ⊥ f ∧ T f = h}) (fun l hl => ?_) ?_
    · rw [(Submodule.mem_bot ℚ).1 hl]
      exact ⟨0, .zero, map_zero T⟩
    · rintro _ ⟨f, hf, rfl⟩ _ ⟨s, hs, rfl⟩ a ha
      obtain ⟨r, hr, parallel⟩ := image.of_generator hs
      obtain ⟨c, pos, same⟩ := parallel.symm
      have ray : r.payoff ∈ D.payoffs := ⟨r, hr, rfl⟩
      refine ⟨f + (a * c) • r.payoff, hf.addRay ray (mul_nonneg ha pos.le), ?_⟩
      rw [map_add, map_smul, mul_smul, ← same]
  · rintro ⟨f, generated, rfl⟩
    refine generated.map_bot T ?_
    rintro _ ⟨r, hr, rfl⟩
    obtain ⟨s, hs, c, pos, same⟩ := image.generator hr
    have ray : s.payoff ∈ D'.payoffs := ⟨s, hs, rfl⟩
    rw [same]
    exact .ray ray pos.le

theorem exists_isSum_iff (image : D.IsImage T D') {P : (τ → ℚ) → Prop} :
    (∃ h, IsSum D'.cones.toList h ∧ P h) ↔ ∃ f, IsSum D.cones.toList f ∧ P (T f) := by
  simp only [image.isSum_iff, exists_exists_and_eq_and]

theorem exists_generated_iff (image : D.IsImage T D') {P : (τ → ℚ) → Prop} :
    (∃ h, Generated D'.payoffs ⊥ h ∧ P h) ↔ ∃ f, Generated D.payoffs ⊥ f ∧ P (T f) := by
  simp only [image.generated_iff, exists_exists_and_eq_and]

end IsImage

end DesirabilitySet

/-! ## Linear maps -/

namespace GambleMap

variable {M : GambleMap σ τ}

/-- The gamble of a ray is mapped to what a linear function makes of its payoffs, which is not zero. -/
def Takes (M : GambleMap σ τ) (T : (σ → ℚ) →ₗ[ℚ] (τ → ℚ)) (r : Ray σ) : Prop :=
  ∃ g, M.apply r.gamble = .ok g ∧ g.payoff = T r.payoff ∧ g.payoff ≠ 0

theorem Takes.exists_applyRay {r : Ray σ} (takes : M.Takes T r) :
    ∃ s, M.applyRay r = .ok s ∧ Parallel (T r.payoff) s.payoff := by
  obtain ⟨g, applied, same, ne⟩ := takes
  obtain ⟨s, direction, parallel⟩ := Ray.exists_parallel ne
  refine ⟨s, ?_, same ▸ parallel⟩
  rw [applyRay, applied]
  exact direction

/-- A cone whose rays are all taken has an image. -/
theorem exists_applyCone {C : Cone σ} (takes : ∀ r ∈ C.rays, M.Takes T r) :
    ∃ C', M.applyCone C = .ok C' ∧ C.IsImage T C' := by
  obtain ⟨rays, done, mem⟩ := exists_mapM fun r hr => (takes r hr).exists_applyRay.imp fun s => And.left
  refine ⟨.ofRays rays, ?_, fun r hr => ?_, fun s hs => ?_⟩
  · rw [applyCone, done]
    rfl
  · obtain ⟨s, applied, parallel⟩ := (takes r hr).exists_applyRay
    exact ⟨s, SortedSet.mem_ofList.2 ((mem s).2 ⟨r, hr, applied⟩), parallel⟩
  · obtain ⟨r, hr, applied⟩ := (mem s).1 (SortedSet.mem_ofList.1 hs)
    obtain ⟨s', applied', parallel⟩ := (takes r hr).exists_applyRay
    cases applied.symm.trans applied'
    exact ⟨r, hr, parallel⟩

/-- A set of desirable gambles whose rays are all taken has an image. -/
theorem exists_applySet {D : DesirabilitySet σ} (takes : ∀ r ∈ D.generators, M.Takes T r) :
    ∃ D', M.applySet D = .ok D' ∧ D.IsImage T D' := by
  have cone (C : Cone σ) (hC : C ∈ D.cones) : ∃ C', M.applyCone C = .ok C' ∧ C.IsImage T C' :=
    exists_applyCone fun r hr => takes r (DesirabilitySet.mem_generators.2 ⟨C, hC, hr⟩)
  obtain ⟨cones, done, mem⟩ := exists_mapM fun C hC => (cone C hC).imp fun C' => And.left
  refine ⟨.ofCones cones, ?_, fun C hC => ?_, fun C' hC' => ?_⟩
  · rw [applySet, done]
    rfl
  · obtain ⟨C', applied, image⟩ := cone C hC
    have rays : C'.isEmpty = false := image.isEmpty_eq.trans (D.nonempty C hC)
    exact ⟨C', DesirabilitySet.mem_cones_ofCones.2 ⟨(mem C').2 ⟨C, hC, applied⟩, rays⟩, image⟩
  · obtain ⟨C, hC, applied⟩ := (mem C').1 (DesirabilitySet.mem_cones_ofCones.1 hC').1
    obtain ⟨C'', applied', image⟩ := cone C hC
    cases applied.symm.trans applied'
    exact ⟨C, hC, image⟩

end GambleMap

end Prevision
