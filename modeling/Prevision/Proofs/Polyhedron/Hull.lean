import Mathlib.Analysis.Convex.Extreme
import Prevision.Proofs.Polyhedron.Separation

/-!
# Convex hulls as slices of cones

Vectors on which a form takes the value one generate a cone, whose slice at
height one is their convex hull (`mem_convexHull_iff`). The extreme points of
the hull are the vectors at height one that are extreme in the cone
(`mem_extremePoints_iff`), so vectors of that kind that generate the same cone
are the extreme points (`eq_extremePoints`). Of finitely many vectors, those are
extreme that are not in the hull of the others (`mem_extremePoints_iff_notMem`).
-/

namespace Prevision

variable {V W : Type*} [AddCommGroup V] [Module ℚ V] [AddCommGroup W] [Module ℚ W] {R : Set V} {y : V}

/-- Summands of the vector in a cone are multiples of it. -/
def IsExtremeIn (C : V → Prop) (y : V) : Prop := ∀ u v, C u → C v → u + v = y → ∃ a : ℚ, u = a • y

/-- A map that keeps the rays keeps what they generate. -/
theorem Generated.apply_eq_self {φ : V →ₗ[ℚ] V} (h : Generated R ⊥ y) (fixed : ∀ r ∈ R, φ r = r) :
    φ y = y := by
  induction h with
  | line hl => rw [(Submodule.mem_bot ℚ).1 hl, map_zero]
  | @addRay y r a _ hr _ ih => rw [map_add, map_smul, ih, fixed r hr]

/-- Being extreme carries over to a cone that is mapped back and forth. -/
theorem isExtremeIn_image_iff (f : V →ₗ[ℚ] W) (g : W →ₗ[ℚ] V) (back : ∀ r ∈ R, g (f r) = r)
    (hy : Generated R ⊥ y) : IsExtremeIn (Generated (f '' R) ⊥) (f y) ↔ IsExtremeIn (Generated R ⊥) y := by
  have image {v : V} (hv : Generated R ⊥ v) : Generated (f '' R) ⊥ (f v) :=
    hv.map_bot f fun r hr => .of_mem (Set.mem_image_of_mem f hr)
  have preimage {w : W} (hw : Generated (f '' R) ⊥ w) : Generated R ⊥ (g w) := hw.map_bot g <| by
    rintro _ ⟨r, hr, rfl⟩
    rw [back r hr]
    exact .of_mem hr
  have left {v : V} (hv : Generated R ⊥ v) : g (f v) = v := hv.apply_eq_self (φ := g ∘ₗ f) back
  have right {w : W} (hw : Generated (f '' R) ⊥ w) : f (g w) = w := hw.apply_eq_self (φ := f ∘ₗ g) <| by
    rintro _ ⟨r, hr, rfl⟩
    exact congrArg f (back r hr)
  constructor
  · intro extreme u v hu hv sum
    obtain ⟨a, part⟩ := extreme (f u) (f v) (image hu) (image hv) (by rw [← map_add, sum])
    refine ⟨a, ?_⟩
    rw [← left hu, part, map_smul, left hy]
  · intro extreme u v hu hv sum
    obtain ⟨a, part⟩ := extreme (g u) (g v) (preimage hu) (preimage hv) (by rw [← map_add, sum, left hy])
    refine ⟨a, ?_⟩
    rw [← right hu, part, map_smul]

section Height

variable {τ : V →ₗ[ℚ] ℚ} (height : ∀ r ∈ R, τ r = 1)

include height

/-- What is generated is zero, or a positive multiple of a point of the hull. -/
theorem eq_zero_or_mem_convexHull (h : Generated R ⊥ y) :
    y = 0 ∨ 0 < τ y ∧ (τ y)⁻¹ • y ∈ convexHull ℚ R := by
  induction h with
  | line hl => exact .inl ((Submodule.mem_bot ℚ).1 hl)
  | @addRay y r a _ hr ha ih =>
    have one := height r hr
    have inside := subset_convexHull ℚ R hr
    rcases ha.eq_or_lt with rfl | pos
    · rwa [zero_smul, add_zero]
    · refine .inr ?_
      rw [map_add, map_smul, one, smul_eq_mul, mul_one]
      rcases ih with rfl | ⟨above, mem⟩
      · rw [map_zero, zero_add, zero_add, inv_smul_smul₀ pos.ne']
        exact ⟨pos, inside⟩
      · have sum : 0 < τ y + a := add_pos above pos
        refine ⟨sum, ?_⟩
        have parts : (τ y + a)⁻¹ • (y + a • r) = ((τ y + a)⁻¹ * τ y) • (τ y)⁻¹ • y +
            ((τ y + a)⁻¹ * a) • r := by
          rw [mul_smul, smul_inv_smul₀ above.ne', mul_smul, smul_add]
        rw [parts]
        refine convex_convexHull ℚ R mem inside (by positivity) (by positivity) ?_
        rw [← mul_add, inv_mul_cancel₀ sum.ne']

/-- The convex hull is the slice at height one of the cone. -/
theorem mem_convexHull_iff : y ∈ convexHull ℚ R ↔ Generated R ⊥ y ∧ τ y = 1 := by
  constructor
  · refine fun h => convexHull_min (s := R) (t := {y | Generated R ⊥ y ∧ τ y = 1}) (fun r hr => ?_) ?_ h
    · exact ⟨.of_mem hr, height r hr⟩
    · intro u hu v hv a b ha hb sum
      refine ⟨(hu.1.smul ha).add (hv.1.smul hb), ?_⟩
      rw [map_add, map_smul, map_smul, hu.2, hv.2, smul_eq_mul, smul_eq_mul, mul_one, mul_one, sum]
  · rintro ⟨h, one⟩
    rcases eq_zero_or_mem_convexHull height h with rfl | ⟨-, mem⟩
    · rw [map_zero] at one
      exact absurd one zero_ne_one
    · rwa [one, inv_one, one_smul] at mem

/-- The extreme points of the hull are the vectors at height one that are extreme in the cone. -/
theorem mem_extremePoints_iff : y ∈ (convexHull ℚ R).extremePoints ℚ ↔
    Generated R ⊥ y ∧ τ y = 1 ∧ IsExtremeIn (Generated R ⊥) y := by
  rw [mem_extremePoints_iff_left, mem_convexHull_iff height, and_assoc]
  refine and_congr_right fun hy => and_congr_right fun one =>
    ⟨fun extreme u v hu hv sum => ?_, fun extreme => ?_⟩
  · rcases eq_zero_or_mem_convexHull height hu with rfl | ⟨pos, inside⟩
    · exact ⟨0, (zero_smul ℚ y).symm⟩
    · rcases eq_zero_or_mem_convexHull height hv with rfl | ⟨pos', inside'⟩
      · exact ⟨1, by rw [one_smul, ← sum, add_zero]⟩
      · refine ⟨τ u, ?_⟩
        have between : y ∈ openSegment ℚ ((τ u)⁻¹ • u) ((τ v)⁻¹ • v) :=
          ⟨τ u, τ v, pos, pos', by rw [← map_add, sum, one], by
            rw [smul_inv_smul₀ pos.ne', smul_inv_smul₀ pos'.ne', sum]⟩
        rw [← extreme _ inside _ inside' between, smul_inv_smul₀ pos.ne']
  · rintro u hu v hv ⟨a, b, ha, hb, -, sum⟩
    rw [mem_convexHull_iff height] at hu hv
    obtain ⟨t, part⟩ := extreme (a • u) (b • v) (hu.1.smul ha.le) (hv.1.smul hb.le) sum
    have weight : a = t := by
      have := congrArg τ part
      rwa [map_smul, map_smul, hu.2, one, smul_eq_mul, smul_eq_mul, mul_one, mul_one] at this
    rw [← weight] at part
    exact smul_right_injective V ha.ne' part

/-- Vectors at height one that generate the same cone and are extreme in it are the extreme points. -/
theorem eq_extremePoints {T : Set V} (same : ∀ y, Generated T ⊥ y ↔ Generated R ⊥ y)
    (one : ∀ r ∈ T, τ r = 1)
    (extreme : ∀ r ∈ T, IsExtremeIn (Generated R ⊥) r) : T = (convexHull ℚ R).extremePoints ℚ := by
  have hull : convexHull ℚ T = convexHull ℚ R := by
    ext y
    rw [mem_convexHull_iff one, mem_convexHull_iff height, same]
  refine Set.Subset.antisymm (fun r hr => ?_) ?_
  · exact (mem_extremePoints_iff height).2 ⟨(same r).1 (.of_mem hr), one r hr, extreme r hr⟩
  · rw [← hull]
    exact extremePoints_convexHull_subset

/-- A vector of a least set that generates the cone is extreme: of a sum that it is, no part is
generated by the others, so both summands are multiples of it. -/
theorem isExtremeIn_of_minimal {S : Set V} {s : V}
    (minimal : Minimal (· ∈ {S | S ⊆ R ∧ ∀ r ∈ R, Generated S ⊥ r}) S) (hs : s ∈ S) :
    IsExtremeIn (Generated R ⊥) s := by
  intro u v hu hv sum
  obtain ⟨inside, generates⟩ := minimal.prop
  have parts {y : V} (hy : Generated R ⊥ y) : ∃ t : ℚ, 0 ≤ t ∧ Generated (S \ {s}) ⊥ (y - t • s) := by
    rw [← Generated.insert_iff, Set.insert_sdiff_self_of_mem hs]
    exact hy.trans generates le_rfl
  have above {y : V} (hy : Generated (S \ {s}) ⊥ y) : 0 ≤ τ y :=
    hy.nonneg_bot fun r hr => (height r (inside hr.1)).ge.trans' zero_le_one
  obtain ⟨a, -, restU⟩ := parts hu
  obtain ⟨b, -, restV⟩ := parts hv
  have multiple : u - a • s + (v - b • s) = (1 - a - b) • s := by
    rw [← sum]
    module
  have total : τ (u - a • s) + τ (v - b • s) = 1 - a - b := by
    rw [← map_add, multiple, map_smul, height s (inside hs), smul_eq_mul, mul_one]
  have few : ¬0 < 1 - a - b := fun pos => by
    have self : Generated (S \ {s}) ⊥ s := by
      have scaled := (restU.add restV).smul (inv_nonneg.2 pos.le)
      rwa [multiple, inv_smul_smul₀ pos.ne'] at scaled
    have fewer : S \ {s} ∈ {S | S ⊆ R ∧ ∀ r ∈ R, Generated S ⊥ r} := by
      refine ⟨Set.sdiff_subset.trans inside, fun r hr => (generates r hr).trans (fun t ht => ?_) le_rfl⟩
      by_cases same : t = s
      · rwa [same]
      · exact .of_mem ⟨ht, same⟩
    exact (minimal.le_of_le fewer Set.sdiff_subset hs).2 rfl
  have zero : τ (u - a • s) = 0 := by
    have := above restU
    have := above restV
    linarith
  refine ⟨a, sub_eq_zero.1 ?_⟩
  have height' : ∀ r ∈ S \ {s}, τ r = 1 := fun r hr => height r (inside hr.1)
  exact (eq_zero_or_mem_convexHull height' restU).resolve_right fun h => h.1.ne' zero

/-- Finitely many vectors at height one are generated by the extreme ones among them. -/
theorem generated_extreme (finite : R.Finite) {r : V} (hr : r ∈ R) :
    Generated {s ∈ R | IsExtremeIn (Generated R ⊥) s} ⊥ r := by
  have finite' : {S | S ⊆ R ∧ ∀ r ∈ R, Generated S ⊥ r}.Finite :=
    finite.finite_subsets.subset fun S hS => hS.1
  obtain ⟨S, minimal⟩ := finite'.exists_minimal ⟨R, subset_rfl, fun r => .of_mem⟩
  exact (minimal.prop.2 r hr).mono fun s hs => ⟨minimal.prop.1 hs, isExtremeIn_of_minimal height minimal hs⟩

/-- One of finitely many vectors at height one is an extreme point of their hull exactly if it is
not in the hull of the others. -/
theorem mem_extremePoints_iff_notMem (finite : R.Finite) {r : V} (hr : r ∈ R) :
    r ∈ (convexHull ℚ R).extremePoints ℚ ↔ r ∉ convexHull ℚ (R \ {r}) := by
  constructor
  · intro extreme inside
    rw [(convex_convexHull ℚ R).mem_extremePoints_iff_mem_sdiff_convexHull_sdiff] at extreme
    exact extreme.2 (convexHull_mono (Set.sdiff_subset_sdiff_left (subset_convexHull ℚ R)) inside)
  · intro outside
    by_contra none
    have others : {s ∈ R | IsExtremeIn (Generated R ⊥) s} ⊆ R \ {r} :=
      fun s hs => ⟨hs.1, fun same => none <| by
      rw [mem_extremePoints_iff height, ← Set.mem_singleton_iff.1 same]
      exact ⟨.of_mem hs.1, height s hs.1, hs.2⟩⟩
    refine outside ((mem_convexHull_iff fun s hs => height s hs.1).2 ⟨?_, height r hr⟩)
    exact (generated_extreme height finite hr).mono others

end Height

end Prevision
