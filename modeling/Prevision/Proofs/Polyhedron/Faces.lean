import Mathlib.Algebra.Order.Ring.Star
import Mathlib.Data.Rat.Star
import Mathlib.Geometry.Convex.Cone.Face.Basic
import Mathlib.LinearAlgebra.Dual.Lemmas
import Prevision.Proofs.Polyhedron.Cut

/-!
# The face between two rays

The vectors of a cone that meet some constraints with equality are a face of it,
and those that meet all the constraints which two vectors both meet are the
smallest face that contains the two (`isLeast_face`).

* `span_face`: this face spans the space where these constraints vanish, so its
  dimension and their rank add up to that of the whole space (`finrank_face`);
* `Describes.third_iff`: the face between two extreme rays is two dimensions
  larger than the space of lines exactly if no third ray lies in it.
-/

namespace Prevision.Halfspaces

variable {V : Type*} [AddCommGroup V] [Module ℚ V] {H : Halfspaces V} {k : ℕ} {R : Set V} {T : Finset ℕ}
  {p n r v x y z : V}

/-! ## Faces -/

/-- The cone of the first `k` constraints. -/
def pointedCone (H : Halfspaces V) (k : ℕ) : PointedCone ℚ V where
  carrier := H.cone k
  add_mem' := add_mem_cone
  zero_mem' := mem_cone_of_mem_lineality (Submodule.zero_mem _)
  smul_mem' := fun c _ hy => smul_mem_cone hy c.2

/-- The vectors of the cone that meet the constraints in `T` with equality. -/
def face (H : Halfspaces V) (k : ℕ) (T : Finset ℕ) : PointedCone ℚ V where
  carrier := {y | y ∈ H.cone k ∧ ∀ i ∈ T, H.form i y = 0}
  add_mem' :=
    fun hx hy => ⟨add_mem_cone hx.1 hy.1, fun i hi => by rw [map_add, hx.2 i hi, hy.2 i hi, add_zero]⟩
  zero_mem' := ⟨mem_cone_of_mem_lineality (Submodule.zero_mem _), fun i _ => map_zero (H.form i)⟩
  smul_mem' := fun c y hy => ⟨smul_mem_cone hy.1 c.2, fun i hi => by
    show H.form i ((c : ℚ) • y) = 0
    rw [map_smul, hy.2 i hi, smul_zero]⟩

/-- The faces of the cone that contain two vectors. -/
def facesThrough (H : Halfspaces V) (k : ℕ) (x y : V) : Set (PointedCone ℚ V) :=
  {F | F.IsFaceOf (H.pointedCone k) ∧ x ∈ F ∧ y ∈ F}

/-- The dimension of a face is that of the space which it spans. -/
noncomputable def dimension (F : PointedCone ℚ V) : ℕ := Module.finrank ℚ (Submodule.span ℚ (F : Set V))

theorem mem_face : y ∈ H.face k T ↔ y ∈ H.cone k ∧ ∀ i ∈ T, H.form i y = 0 := Iff.rfl

theorem mem_face_tight : y ∈ H.face k (H.tight k z) ↔ y ∈ H.cone k ∧ H.tight k z ⊆ H.tight k y := by
  rw [mem_face]
  refine and_congr_right fun _ => ⟨fun zero i hi => ?_, fun sub i hi => (mem_tight.1 (sub hi)).2⟩
  exact mem_tight.2 ⟨(mem_tight.1 hi).1, zero i hi⟩

theorem tight_add (hx : x ∈ H.cone k) (hy : y ∈ H.cone k) :
    H.tight k (x + y) = H.tight k x ∩ H.tight k y := by
  refine (Finset.subset_inter (tight_subset_of_add hx hy) ?_).antisymm fun i hi => ?_
  · rw [add_comm]
    exact tight_subset_of_add hy hx
  · obtain ⟨hx, hy⟩ := Finset.mem_inter.1 hi
    rw [mem_tight, map_add, (mem_tight.1 hx).2, (mem_tight.1 hy).2, add_zero]
    exact ⟨(mem_tight.1 hx).1, rfl⟩

/-- What vanishes where a vector of the cone does is below some multiple of that vector. -/
theorem exists_multiple_above (hz : z ∈ H.cone k) (hv : ∀ i ∈ H.tight k z, H.form i v = 0) :
    ∃ t : ℚ, 0 ≤ t ∧ t • z - v ∈ H.cone k := by
  by_cases line : z ∈ H.lineality k
  · refine ⟨0, le_rfl, mem_cone_of_mem_lineality fun i hi => ?_⟩
    rw [map_sub, zero_smul, map_zero, hv i (mem_tight.2 ⟨hi, line i hi⟩), sub_zero]
  · obtain ⟨t, above, -⟩ := exists_bound hz line hv
    have more : max t 0 • z - v = t • z - v + (max t 0 - t) • z := by module
    refine ⟨max t 0, le_max_right _ _, ?_⟩
    rw [more]
    exact add_mem_cone above (smul_mem_cone hz (sub_nonneg.2 (le_max_left t 0)))

theorem isFaceOf_face (H : Halfspaces V) (k : ℕ) (z : V) :
    (H.face k (H.tight k z)).IsFaceOf (H.pointedCone k) := by
  refine PointedCone.IsFaceOf.of_mem_of_add_mem_left (fun y hy => hy.1) fun hx hy sum => ?_
  rw [mem_face_tight] at sum ⊢
  exact ⟨hx, sum.2.trans (tight_subset_of_add hx hy)⟩

/-- The smallest face that contains a vector. -/
theorem face_le_of_mem (hz : z ∈ H.cone k) {F : PointedCone ℚ V} (face : F.IsFaceOf (H.pointedCone k))
    (mem : z ∈ F) :
    H.face k (H.tight k z) ≤ F := fun v hv => by
  obtain ⟨t, ht, above⟩ := exists_multiple_above hz hv.2
  have sum : v + (t • z - v) ∈ F := by
    rw [add_sub_cancel]
    exact PointedCone.smul_mem F ht mem
  exact face.mem_of_add_mem_left hv.1 above sum

/-- The vectors that meet all the constraints which two vectors both meet are the smallest face that contains
the two. -/
theorem isLeast_face (hx : x ∈ H.cone k) (hy : y ∈ H.cone k) :
    IsLeast (H.facesThrough k x y) (H.face k (H.tight k x ∩ H.tight k y)) := by
  rw [← tight_add hx hy]
  refine ⟨⟨isFaceOf_face H k _, ?_, ?_⟩,
    fun F hF => face_le_of_mem (add_mem_cone hx hy) hF.1 (F.add_mem hF.2.1 hF.2.2)⟩
  · exact mem_face_tight.2 ⟨hx, tight_subset_of_add hx hy⟩
  · rw [add_comm]
    exact mem_face_tight.2 ⟨hy, tight_subset_of_add hy hx⟩

/-! ## The dimension of a face -/

theorem span_face (hz : z ∈ H.cone k) : Submodule.span ℚ (H.face k (H.tight k z) : Set V) =
    (Submodule.span ℚ {f : Module.Dual ℚ V | ∃ i ∈ H.tight k z, f = H.form i}).dualCoannihilator := by
  have mem {v : V} :
      v ∈ (Submodule.span ℚ {f : Module.Dual ℚ V | ∃ i ∈ H.tight k z, f = H.form i}).dualCoannihilator ↔
      ∀ i ∈ H.tight k z, H.form i v = 0 := by
    rw [← SetLike.mem_coe, Submodule.coe_dualCoannihilator_span]
    exact ⟨fun zero i hi => zero _ ⟨i, hi, rfl⟩, fun zero f ⟨i, hi, same⟩ => same ▸ zero i hi⟩
  refine le_antisymm (Submodule.span_le.2 fun v hv => mem.2 hv.2) fun v hv => ?_
  have hv := mem.1 hv
  obtain ⟨t, -, above⟩ := exists_multiple_above hz hv
  have apart : t • z - v ∈ H.face k (H.tight k z) := by
    refine ⟨above, fun i hi => ?_⟩
    rw [map_sub, map_smul, (mem_tight.1 hi).2, hv i hi, smul_zero, sub_zero]
  rw [← sub_sub_cancel (t • z) v]
  exact Submodule.sub_mem _
    (Submodule.smul_mem _ t (Submodule.subset_span (mem_face_tight.2 ⟨hz, subset_rfl⟩)))
    (Submodule.subset_span apart)

/-- The rank of the constraints that a vector meets and the dimension of its face add up. -/
theorem finrank_face [FiniteDimensional ℚ V] (hz : z ∈ H.cone k) :
    Module.finrank ℚ (Submodule.span ℚ {f : Module.Dual ℚ V | ∃ i ∈ H.tight k z, f = H.form i}) +
      dimension (H.face k (H.tight k z)) = Module.finrank ℚ V := by
  rw [dimension, span_face hz]
  exact Subspace.finrank_add_finrank_dualCoannihilator_eq _

/-- The rank of some constraints is at most their number. -/
theorem finrank_span_forms_le (H : Halfspaces V) (T : Finset ℕ) :
    Module.finrank ℚ (Submodule.span ℚ {f : Module.Dual ℚ V | ∃ i ∈ T, f = H.form i}) ≤ T.card := by
  classical
  have finite :
      {f : Module.Dual ℚ V | ∃ i ∈ T, f = H.form i} = (T.image H.form : Finset (Module.Dual ℚ V)) := by
    ext f
    rw [Finset.mem_coe, Finset.mem_image]
    exact exists_congr fun i => and_congr_right fun _ => eq_comm
  rw [finite]
  exact (finrank_span_finset_le_card _).trans Finset.card_image_le

/-! ## Two extreme rays -/

/-- Two rays are independent, up to lines. -/
theorem Describes.independent (h : H.Describes k R) (hp : p ∈ R) (hn : n ∈ R) (ne : p ≠ n) {a b : ℚ}
    (line : a • p + b • n ∈ H.lineality k) : a = 0 ∧ b = 0 := by
  have zero : a = 0 := by
    by_contra nonzero
    refine ne (h.apart p hp n hn (-(a⁻¹ * b)) ?_)
    have scaled := Submodule.smul_mem _ a⁻¹ line
    rwa [smul_add, inv_smul_smul₀ nonzero, smul_smul, ← sub_neg_eq_add, ← neg_smul] at scaled
  refine ⟨zero, ?_⟩
  by_contra nonzero
  rw [zero, zero_smul, zero_add] at line
  refine (h.extreme n hn).not_line ?_
  rw [← inv_smul_smul₀ nonzero n]
  exact Submodule.smul_mem _ _ line

/-- What two rays span with the lines. -/
def between (H : Halfspaces V) (k : ℕ) (p n : V) : Submodule ℚ V := H.lineality k ⊔ Submodule.span ℚ {p, n}

theorem mem_between : v ∈ H.between k p n ↔ ∃ a b : ℚ, v - (a • p + b • n) ∈ H.lineality k := by
  rw [between, Submodule.mem_sup]
  constructor
  · rintro ⟨l, hl, w, hw, rfl⟩
    obtain ⟨a, b, rfl⟩ := Submodule.mem_span_pair.1 hw
    exact ⟨a, b, by rwa [add_sub_cancel_right]⟩
  · rintro ⟨a, b, near⟩
    exact ⟨_, near, _, Submodule.mem_span_pair.2 ⟨a, b, rfl⟩, sub_add_cancel _ _⟩

theorem Describes.finrank_between [FiniteDimensional ℚ V] (h : H.Describes k R) (hp : p ∈ R)
    (hn : n ∈ R) (ne : p ≠ n) :
    Module.finrank ℚ (H.between k p n) = Module.finrank ℚ (H.lineality k) + 2 := by
  have independent : LinearIndependent ℚ ![p, n] := LinearIndependent.pair_iff.2 fun a b zero =>
    h.independent hp hn ne (zero ▸ Submodule.zero_mem _)
  have pair : Module.finrank ℚ (Submodule.span ℚ {p, n}) = 2 := by
    have := finrank_span_eq_card independent
    rwa [Matrix.range_cons_cons_empty, Fintype.card_fin] at this
  have apart : H.lineality k ⊓ Submodule.span ℚ {p, n} = ⊥ := by
    refine (Submodule.eq_bot_iff _).2 fun v hv => ?_
    obtain ⟨line, mem⟩ := Submodule.mem_inf.1 hv
    obtain ⟨a, b, rfl⟩ := Submodule.mem_span_pair.1 mem
    obtain ⟨rfl, rfl⟩ := h.independent hp hn ne line
    rw [zero_smul, zero_smul, add_zero]
  have sum := Submodule.finrank_sup_add_finrank_inf_eq (H.lineality k) (Submodule.span ℚ {p, n})
  rwa [apart, finrank_bot, add_zero, pair] at sum

/-- A ray in the span of two others and the lines is one of the two. -/
theorem Describes.eq_of_mem_between (h : H.Describes k R) (hp : p ∈ R) (hn : n ∈ R) (hr : r ∈ R)
    (mem : r ∈ H.between k p n) : r = p ∨ r = n := by
  obtain ⟨a, b, near⟩ := mem_between.1 mem
  rcases lt_or_ge 0 a with posA | negA
  · refine .inl (h.eq_of_sub hp hr (h.subset_cone hn) one_pos posA (-b) ?_)
    convert near using 1
    module
  rcases lt_or_ge 0 b with posB | negB
  · refine .inr (h.eq_of_sub hn hr (h.subset_cone hp) one_pos posB (-a) ?_)
    convert near using 1
    module
  -- If neither has a part, the ray and its negation are in the cone.
  have opposite : -r = (-a) • p + (-b) • n + -(r - (a • p + b • n)) := by module
  refine absurd (mem_lineality_of_neg_mem (h.subset_cone hr) ?_) (h.extreme r hr).not_line
  rw [opposite]
  exact add_line_mem_cone (add_mem_cone (smul_mem_cone (h.subset_cone hp) (neg_nonneg.2 negA))
    (smul_mem_cone (h.subset_cone hn) (neg_nonneg.2 negB))) (Submodule.neg_mem _ near)

theorem Describes.between_le_span_face (h : H.Describes k R) (hp : p ∈ R) (hn : n ∈ R) :
    H.between k p n ≤ Submodule.span ℚ (H.face k (H.tight k p ∩ H.tight k n) : Set V) := by
  have least := isLeast_face (h.subset_cone hp) (h.subset_cone hn)
  refine sup_le (fun l hl => Submodule.subset_span ⟨mem_cone_of_mem_lineality hl, fun i hi => ?_⟩)
    (Submodule.span_le.2 ?_)
  · exact hl i (mem_tight.1 (Finset.mem_inter.1 hi).1).1
  · rintro _ (rfl | rfl)
    · exact Submodule.subset_span least.1.2.1
    · exact Submodule.subset_span least.1.2.2

/-- The smallest face that contains two rays is two dimensions larger than the lines exactly if there is no
third ray in it. -/
theorem Describes.third_iff [FiniteDimensional ℚ V] (h : H.Describes k R) (hp : p ∈ R) (hn : n ∈ R)
    (ne : p ≠ n) :
    (∀ r ∈ R, H.tight k p ∩ H.tight k n ⊆ H.tight k r → r = p ∨ r = n) ↔
      dimension (H.face k (H.tight k p ∩ H.tight k n)) = Module.finrank ℚ (H.lineality k) + 2 := by
  have inside := h.between_le_span_face hp hn
  have size := h.finrank_between hp hn ne
  have sum := tight_add (h.subset_cone hp) (h.subset_cone hn)
  rw [← sum] at inside ⊢
  constructor
  · intro third
    have whole : Submodule.span ℚ (H.face k (H.tight k (p + n)) : Set V) ≤ H.between k p n := by
      refine Submodule.span_le.2 fun y hy => mem_between.2 ?_
      obtain ⟨hy, sub⟩ := mem_face_tight.1 hy
      obtain ⟨a, b, -, -, near⟩ := (h.face hy).pair fun r hr => third r hr.1 (sub.trans hr.2)
      exact ⟨a, b, near⟩
    rw [dimension, ← inside.antisymm whole, size]
  · intro narrow r hr sub
    refine h.eq_of_mem_between hp hn hr ?_
    rw [Submodule.eq_of_le_of_finrank_eq inside (size.trans narrow.symm)]
    exact Submodule.subset_span (mem_face_tight.2 ⟨h.subset_cone hr, sub⟩)

end Prevision.Halfspaces
